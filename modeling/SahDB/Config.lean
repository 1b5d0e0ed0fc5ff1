import SahDB.Command
import SahDB.Lib.LastWrite
import Mathlib.Data.List.DropRight

/-! The configuration file (`load_server_config` in `config.c`).

    Every line is read into one array, where it is split at its `=`, trimmed and acted on. The array
    is a list of bytes and a `char *` into it a position. A savefile line that can be opened leaves
    such a position in `host_config.savefile`; the other directives copy what they need. Messages
    for the terminal are left out. -/

namespace SahDB

/-- `DEFAULT_SAVE_FILE` -/
def defaultSaveFile : Str := str "data.safe"

/-- The byte between a field and its value. -/
def equalSign : UInt8 := 61

/-- The byte between the host and the port of a master. -/
def colon : UInt8 := 58

/-- `atoi`: the `int` that `strtol` leaves. -/
def atoi (s : Str) : ℤ := Int.bmod (CStr.atol s) (2 ^ 32)

/-- A `char *` to a string of its own, or to a position of `line`. -/
inductive SavePtr where
  | path (p : Str)
  | line (pos : ℕ)
  deriving DecidableEq, Repr

/-- `master_info` -/
structure MasterInfo where
  name : Str
  isConn : Bool
  sock : ℤ
  port : ℤ
  deriving DecidableEq, Repr

/-- The fields of `server_config` that the file sets. -/
structure ServerConfig where
  serverPort : ℤ
  savefile : SavePtr
  rebuild : Bool
  isMasterNode : Bool
  master : Option MasterInfo
  daemonize : ℤ

/-- The configuration, the array `line` and the code so far. -/
structure Loading extends ServerConfig where
  line : Str
  res : Err

/-- The outcomes of the `fopen` and the `malloc` that one line of the file may need. -/
structure LineEnv where
  fopenOk : Bool
  mallocOk : Bool

/-- `trim` of the string at `s`: the array afterwards and the position returned. -/
def trim (line : Str) (s : ℕ) : Str × ℕ :=
  let s := s + ((CStr.strAt line s).takeWhile CStr.isSpace).length
  let rest := CStr.strAt line s
  if rest = [] then (line, s)
  else (line.set (s + (rest.rdropWhile CStr.isSpace).length) 0, s)

/-- What the loop does for a field and the value at position `value`. -/
def setField (env : LineEnv) (s : Loading) (field : Str) (value : ℕ) : Loading :=
  let val := CStr.strAt s.line value
  if strcaseEq field (str "port") ∧ atoi val > 0 then { s with serverPort := atoi val }
  else if strcaseEq field (str "savefile") then
    if env.fopenOk then { s with savefile := .line value, rebuild := true }
    else { s with savefile := .path defaultSaveFile, res := dbErrGenericFail }
  else if strcaseEq field (str "master") then
    if env.mallocOk then
      match CStr.strchr s.line value colon with
      | some c =>
        let line := s.line.set c 0
        { s with
          line := line
          master := some ⟨CStr.strAt line value, false, -1, atoi (CStr.strAt line (c + 1))⟩ }
      | none => { s with res := dbErrInvalidArgs }
    else { s with res := dbErrNomem }
  else if strcaseEq field (str "daemonize") ∧ strcaseEq val (str "yes") then
    { s with daemonize := 1 }
  else s

/-- `line[strcspn(line, "\n")] = '\0'` -/
def endLine (line : Str) : Str :=
  line.set ((CStr.strAt line 0).takeWhile (· ≠ CStr.newline)).length 0

/-- The loop body of `load_server_config`, for what `fgets` has read. -/
def configLine (env : LineEnv) (s : Loading) (piece : Str) : Loading :=
  let line := endLine (LastWrite.overlay (piece ++ [0]) s.line)
  match CStr.strchr line 0 equalSign with
  | some e =>
    let (line, field) := trim (line.set e 0) 0
    let (line, value) := trim line (e + 1)
    setField env { s with line := line } (CStr.strAt line field) value
  | none =>
    if strcaseEq (CStr.strAt line 0) (str "ismaster") then
      { s with line := line, isMasterNode := true }
    else { s with line := line }

/-- `load_server_config`; `file` is `none` if the file cannot be opened, and `line` is what the
    array holds before. -/
def loadServerConfig (env : ℕ → LineEnv) (config : ServerConfig) (line : Str)
    (file : Option Str) : Loading :=
  match file with
  | none => ⟨{ config with savefile := .path defaultSaveFile }, line, dbErrGenericFail⟩
  | some file =>
    (CStr.pieces (maxCmdLen - 1) file).zipIdx.foldl (fun s x => configLine (env x.2) s x.1)
      ⟨config, line, dbErrOk⟩

/-- The path `savefile` names. -/
def Loading.savePath (s : Loading) : Str :=
  match s.savefile with
  | .path p => p
  | .line pos => CStr.strAt s.line pos

end SahDB
