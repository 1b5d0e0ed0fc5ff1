import Mathlib.Logic.Function.Basic
import Mathlib.Tactic

/-! Types and constants the whole program shares (`common.h`, `hash.h`, `dbsave.h`).

    A C string is the list of its bytes before the terminating NUL. `size_t` and `time_t` are 64
    bits wide: a `size_t` is a natural number, a `time_t` an integer, and the places where the
    program computes a new one wrap it (`sizeT`, `timeT`). -/

namespace SahDB

/-- The bytes of a C string, without the NUL. -/
abbrev Str := List UInt8

/-- The bytes of an ASCII literal. -/
def str (s : String) : Str := s.toList.map fun c => UInt8.ofNat c.toNat

/-- `err_t` -/
abbrev Err := Int

def dbErrGenericFail : Err := -1
def dbErrOk : Err := 0
def dbErrInvalidArgs : Err := 2
def dbErrNomem : Err := 3
def dbErrKeyNotexist : Err := 4
def dbErrKeyExists : Err := 5
def dbErrCmdNotexist : Err := 6
def dbErrKeyExpired : Err := 7
def dbErrKeyNotExpired : Err := 8
def dbErrFileInaccessible : Err := 9
def dbErrClientClosed : Err := 11
def dbErrClientFatal : Err := 12
def dbErrHelp : Err := 40
def dbErrExit : Err := 41
def dbErrShutdown : Err := 42
def errFull : Err := 100

def maxCmdLen : ℕ := 512
def maxCmdParams : ℕ := 16
def maxRespLen : ℕ := 8192

def red : Str := str "\x1b[31m"
def green : Str := str "\x1b[32m"
def bold : Str := str "\x1b[1m"
def reset : Str := str "\x1b[0m"

/-- `SIZE_MAX` -/
def sizeMax : ℕ := 2 ^ 64 - 1

/-- `LONG_MAX` -/
def longMax : ℤ := 2 ^ 63 - 1

/-- `LONG_MIN` -/
def longMin : ℤ := -2 ^ 63

/-- Reduction to `size_t`. -/
def sizeT (n : ℕ) : ℕ := n % 2 ^ 64

/-- Reduction to `time_t`. -/
def timeT (t : ℤ) : ℤ := Int.bmod t (2 ^ 64)

theorem sizeT_of_lt {n : ℕ} (h : n < 2 ^ 64) : sizeT n = n := Nat.mod_eq_of_lt h

theorem timeT_of_mem {t : ℤ} (h0 : longMin ≤ t) (h1 : t ≤ longMax) : timeT t = t := by
  simp only [longMin, longMax] at h0 h1
  exact Int.bmod_eq_of_le (by omega) (by omega)

/-- What a store function hands to `fill_cmd_ctx`: its return code and its response text. -/
structure Reply where
  code : Err
  text : Str
  deriving DecidableEq, Repr

/-- What stops the program: a NULL pointer used as a string, a write outside its buffer, a read of
    memory nothing has written. -/
inductive Fault where | nullDeref | outOfBounds | uninitRead
  deriving DecidableEq, Repr

end SahDB
