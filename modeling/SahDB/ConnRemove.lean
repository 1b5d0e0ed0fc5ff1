import SahDB.Network
import Mathlib.Data.Multiset.Range

/-! Removing an entry of the connection table (`remove_entry_conn_table` in `config.c`).

    The last entry takes the place of the removed one. The index is checked against `cap` and not
    against `len`, so an index between the two drops the last entry instead, and on an empty table
    the index of the last entry wraps around. -/

namespace SahDB
open Multiset

/-- `remove_entry_conn_table` -/
def removeEntryConnTable (t : ConnTable) (idx : ℕ) : Except Fault (Err × ConnTable) :=
  if t.cap ≤ idx then .ok (dbErrInvalidArgs, t)
  else
    let last := sizeT (t.len + (2 ^ 64 - 1))
    if idx ≠ last then
      if t.cap ≤ last then .error .outOfBounds
      else .ok (dbErrOk, { t.set idx (t.conns last) with len := t.len - 1 })
    else .ok (dbErrOk, { t with len := t.len - 1 })

/-- `len` entries in an array of `cap`, an `int` -/
structure ConnTable.Sized (t : ConnTable) : Prop where
  len_le : t.len ≤ t.cap
  cap_lt : t.cap < 2 ^ 31

/-- The live entries, in no order. -/
def ConnTable.live (t : ConnTable) : Multiset Conn := (range t.len).map t.conns

/-- Moving the last entry to the place `i` leaves what was there but the entry at `i`. -/
theorem map_range_update_last {α : Type} [DecidableEq α] (f : ℕ → α) {i n : ℕ} (h : i ≤ n) :
    (range n).map (Function.update f i (f n)) = ((range (n + 1)).map f).erase (f i) := by
  rw [range_succ, map_cons]
  rcases h.eq_or_lt with rfl | hlt
  · rw [erase_cons_head, Function.update_eq_self]
  · have hsplit : range n = i ::ₘ (range n).erase i := (cons_erase (mem_range.mpr hlt)).symm
    have hnot : i ∉ (range n).erase i := (nodup_range n).notMem_erase
    have hrest : ((range n).erase i).map (Function.update f i (f n)) = ((range n).erase i).map f :=
      map_congr rfl fun j hj => Function.update_of_ne (ne_of_mem_of_not_mem hj hnot) _ _
    rw [hsplit, map_cons, map_cons, hrest, Function.update_self, cons_swap, erase_cons_head]

section Remove
variable {t : ConnTable} {idx : ℕ}

/-- An index beyond the array is refused. -/
theorem removeEntry_refused (h : t.cap ≤ idx) :
    removeEntryConnTable t idx = .ok (dbErrInvalidArgs, t) := by
  rw [removeEntryConnTable, if_pos h]

/-- An index in the array removes something, if there is an entry at all. -/
theorem removeEntry_ok (hs : t.Sized) (hidx : idx < t.cap) (hlen : 0 < t.len) :
    removeEntryConnTable t idx =
      .ok (dbErrOk, { t.set idx (t.conns (t.len - 1)) with len := t.len - 1 }) := by
  have hle := hs.len_le
  have hlt := hs.cap_lt
  have hlast : sizeT (t.len + (2 ^ 64 - 1)) = t.len - 1 := by
    rw [sizeT]
    omega
  rw [removeEntryConnTable, if_neg (not_le.mpr hidx)]
  dsimp only
  rw [hlast]
  split_ifs with hne hover
  · omega
  · rfl
  · have hself : t.set idx (t.conns (t.len - 1)) = t := by
      rw [not_not.mp hne, ConnTable.set, Function.update_eq_self]
    rw [hself]

/-- On an empty table the entry behind the wrapped index is read. -/
theorem removeEntry_empty (hs : t.Sized) (hidx : idx < t.cap) (hlen : t.len = 0) :
    removeEntryConnTable t idx = .error .outOfBounds := by
  have hlt := hs.cap_lt
  have hlast : sizeT (t.len + (2 ^ 64 - 1)) = 2 ^ 64 - 1 := by rw [hlen]; rfl
  rw [removeEntryConnTable, if_neg (not_le.mpr hidx)]
  dsimp only
  rw [hlast, if_pos (by omega), if_pos (by omega)]

/-- The entry at a live index goes, no other. -/
theorem live_removeEntry (h : idx < t.len) :
    ConnTable.live { t.set idx (t.conns (t.len - 1)) with len := t.len - 1 } =
      t.live.erase (t.conns idx) := by
  have hmap := map_range_update_last t.conns (Nat.le_sub_one_of_lt h)
  rw [Nat.sub_add_cancel (Nat.zero_lt_of_lt h)] at hmap
  exact hmap

/-- Removing at `idx` removes the entry at `idx` and no other, and nothing if there is none. -/
structure RemovesOnly (t : ConnTable) (idx : ℕ) : Prop where
  live : idx < t.len → ∃ t', removeEntryConnTable t idx = .ok (dbErrOk, t') ∧
    t'.len + 1 = t.len ∧ t'.live = t.live.erase (t.conns idx)
  dead : t.len ≤ idx → ∃ res t', removeEntryConnTable t idx = .ok (res, t') ∧ res ≠ dbErrOk ∧
    t'.len = t.len ∧ ∀ i < t.len, t'.conns i = t.conns i

/-- CORRECT: the entry at the index and no other is removed exactly if the index is live or beyond
    the array. -/
theorem removes_only_iff (hs : t.Sized) : RemovesOnly t idx ↔ idx < t.len ∨ t.cap ≤ idx := by
  constructor
  · intro h
    by_contra hnot
    obtain ⟨hlen, hcap⟩ := not_or.mp hnot
    rw [not_lt] at hlen
    rw [not_le] at hcap
    obtain ⟨res, t', hrun, hres, -⟩ := h.dead hlen
    rcases Nat.eq_zero_or_pos t.len with h0 | hpos
    · cases hrun.symm.trans (removeEntry_empty hs hcap h0)
    · cases hrun.symm.trans (removeEntry_ok hs hcap hpos)
      exact hres rfl
  · rintro (hlt | hcap)
    · refine ⟨fun _ => ?_, fun h => absurd hlt (not_lt.mpr h)⟩
      have hpos := Nat.zero_lt_of_lt hlt
      exact ⟨_, removeEntry_ok hs (hlt.trans_le hs.len_le) hpos, Nat.sub_add_cancel hpos,
        live_removeEntry hlt⟩
    · refine ⟨fun h => absurd (hs.len_le.trans hcap) (not_le.mpr h), fun _ => ?_⟩
      exact ⟨_, t, removeEntry_refused hcap, by decide, rfl, fun i _ => rfl⟩

end Remove

/-- A table of two clients. -/
def twoConns : ConnTable :=
  ⟨fun i => if i = 0 then ⟨4, .user, .active⟩ else ⟨5, .user, .active⟩, 2, defConnTableSize⟩

theorem twoConns_sized : twoConns.Sized := ⟨by decide, by decide⟩

/-- An index behind them is not refused: it drops the client in the last slot. -/
theorem remove_drops_other : ¬ ∀ t : ConnTable, t.Sized → ∀ idx, RemovesOnly t idx := by
  intro h
  obtain ⟨res, t', hrun, hres, -⟩ := (h twoConns twoConns_sized 2).dead le_rfl
  cases hrun.symm.trans (removeEntry_ok twoConns_sized (by decide) (by decide))
  exact hres rfl

/-- Removing the first client leaves the second. -/
theorem removes_only_iff_two : RemovesOnly twoConns 0 :=
  (removes_only_iff twoConns_sized).mpr (Or.inl (by decide))

end SahDB
