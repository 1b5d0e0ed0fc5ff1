import SahDB.BucketFits
import SahDB.HeapLinks
import SahDB.Restart

/-! Runs that stay within the memory of the store.

    Two things a request can do reach behind the store's own memory. A DELETE of an entry that is in
    the heap with expiry `LONG_MAX` leaves the heap a slot that points to what it frees (`Pins`),
    and a GET can overrun its response buffer. No request that fits the command buffer stores a
    value of that size, and no line of a file holds one; so along a run without such a DELETE the
    store stays `Safe`: the heap points only to entries of the table, and every value can be read.
    -/

namespace SahDB
open Db Table

/-- The value fits the response buffer of GET. -/
def Narrow (e : Kv) : Prop := e.value.length < maxRespLen

theorem narrow_stable : Stable (fun _ v => v.length < maxRespLen) Narrow where
  new _ _ h := h
  value _ _ h _ := h
  expiry _ _ _ _ h := h

theorem length_le_of_mem_readLines {file line : Str} (h : line ∈ readLines file) :
    line.length < maxRespLen := by
  obtain ⟨piece, hpiece, rfl⟩ := List.mem_map.mp h
  have hlen := CStr.length_le_of_mem_pieces hpiece
  have hchomp := (CStr.length_chomp_le (CStr.cut piece)).trans (CStr.length_cut_le piece)
  rw [maxRespLen] at hlen ⊢
  omega

/-- A value that is loaded was part of a line. -/
theorem Started.narrow {s : Db} (h : Started s) : AllRecords Narrow s.table := by
  cases h with
  | empty => exact fun i e he => by simp [htInit, Db.table, Db.chain] at he
  | rebuilt hrun =>
    refine rebuild_records narrow_stable (fun file _ kv hkv key val rest hfields => ?_) hrun
    obtain ⟨line, hline, hbar⟩ := mem_records hkv
    have hval : val ∈ CStr.tokens (· = bang) kv := by simp [hfields]
    have h1 := (List.sublist_flatten_of_mem hval).length_le.trans
      (CStr.length_flatten_tokens_le _ kv)
    have h2 := (List.sublist_flatten_of_mem hbar).length_le.trans
      (CStr.length_flatten_tokens_le _ line)
    exact (h1.trans h2).trans_lt (length_le_of_mem_readLines hline)

/-- The heap points only to entries of the table, and every value can be read. -/
structure Db.Safe (s : Db) : Prop where
  owned : s.Owned
  narrow : AllRecords Narrow s.table

theorem Started.safe {s : Db} (h : Started s) : s.Safe := ⟨h.owned, h.narrow⟩

theorem Db.Safe.fits {s : Db} (h : s.Safe) (c : Call) : ¬ s.Overruns c := by
  cases c with
  | get k now =>
    rintro ⟨e, hfind, -, hlong⟩
    exact absurd (h.narrow.find hfind) (not_lt.mpr hlong)
  | _ => exact id

/-- The request deletes an entry that is in the heap with expiry `LONG_MAX`. -/
def Pins (n : Node) (x : ReqEnv × Str) : Prop :=
  x.1.cmdArrOk = true ∧ ∃ q, Query.parse x.2 = some q ∧ n.db.Pinned (q.call x.1)

section Serve
variable {n : Node} {x : ReqEnv × Str} {xs : List (ReqEnv × Str)}

/-- What the calls of queries keep, the requests keep. -/
theorem serve_invariant {P : Db → Prop} (h : P n.db)
    (hquery : ∀ q, x.1.cmdArrOk = true → Query.parse x.2 = some q →
      P (q.run (Db.step maxAllowed) x.1 ⟨[], dbErrOk⟩ n.db).1) : P (n.serve x).1.db := by
  cases hmem : x.1.cmdArrOk with
  | false =>
    rw [serve_nomem hmem]
    exact h
  | true =>
    cases hq : Query.parse x.2 with
    | none =>
      rw [serve_other hq]
      exact h
    | some q =>
      rw [serve_query hmem hq]
      exact hquery q hmem hq

/-- A request that pins nothing keeps the heap to entries of the table. -/
theorem Db.Owned.serve (h : n.db.Owned) (hp : ¬ Pins n x) : (n.serve x).1.db.Owned := by
  refine serve_invariant h fun q hmem hq => ?_
  refine Query.run_invariant (P := Db.Owned) (h.step _ fun hpin => hp ⟨hmem, q, hq, hpin⟩)
    fun c s hnext hs => hs.step c ?_
  -- the second call of an EXPIRE is no DELETE
  cases q <;> cases hnext
  exact id

theorem Db.Owned.exec (h : n.db.Owned) (hp : Mealy.Never Node.serve Pins n xs) :
    (Mealy.exec Node.serve n xs).db.Owned := by
  induction xs generalizing n with
  | nil => exact h
  | cons x xs ih =>
    obtain ⟨hx, hrest⟩ := Mealy.never_cons.mp hp
    exact ih (h.serve hx) hrest

/-- One that fits the command buffer, too, keeps the store safe. -/
theorem Db.Safe.serve (h : n.db.Safe) (hlen : x.2.length < maxCmdLen) (hp : ¬ Pins n x) :
    (n.serve x).1.db.Safe := by
  refine ⟨h.owned.serve hp, serve_invariant (P := fun s => AllRecords Narrow s.table) h.narrow
    fun q _ hq => (Query.run_records narrow_stable h.owned.inv h.narrow fun k v hset => ?_).2⟩
  have hshort := short_of_set (Nat.le_sub_one_of_lt hlen) (hset ▸ hq)
  rw [maxCmdLen] at hshort
  rw [maxRespLen]
  omega

theorem Db.Safe.exec (h : n.db.Safe) (hlen : ∀ x ∈ xs, x.2.length < maxCmdLen)
    (hp : Mealy.Never Node.serve Pins n xs) : (Mealy.exec Node.serve n xs).db.Safe := by
  induction xs generalizing n with
  | nil => exact h
  | cons x xs ih =>
    obtain ⟨hx, hrest⟩ := Mealy.never_cons.mp hp
    exact ih (h.serve (hlen x (by simp)) hx) (fun y hy => hlen y (by simp [hy])) hrest

/-- The query is a DELETE. -/
def Query.isDelete : Query → Bool
  | delete _ => true
  | _ => false

/-- Requests without a DELETE pin nothing. -/
theorem never_pins (h : ∀ x ∈ xs, ∀ q ∈ Query.parse x.2, ¬ q.isDelete) :
    Mealy.Never Node.serve Pins n xs := by
  rintro pre x hpre ⟨-, q, hq, hpin⟩
  have hno := h x (hpre.subset (by simp)) q hq
  cases q with
  | delete k => exact hno rfl
  | _ => exact hpin

end Serve

end SahDB
