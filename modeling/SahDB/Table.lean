import SahDB.Hash
import SahDB.Lib.KeyedList
import Mathlib.Algebra.BigOperators.Fin

/-! The hash table without pointers: one list of key-value records for each bucket.

    Under the invariant the operations of `hash.c` are the operations below on `Db.table`; the heap
    and the addresses play no part in them. -/

namespace SahDB
open KeyedList

/-- The chains and the count, without addresses. -/
@[ext] structure Table where
  chains : Fin mod → List Kv
  count : ℕ

/-- The records of a chain. -/
def Db.chain (s : Db) (i : Fin mod) : List Kv := (s.buckets i).map s.kv

/-- The table a store holds. -/
def Db.table (s : Db) : Table := ⟨s.chain, s.count⟩

namespace Kv

/-- The test of `lazy_expire_and_delete`. -/
def Expired (e : Kv) (now : ℤ) : Prop := e.expiry ≠ -1 ∧ e.expiry ≤ now

instance (e : Kv) (now : ℤ) : Decidable (e.Expired now) := inferInstanceAs (Decidable (_ ∧ _))

def setValue (v : Str) (e : Kv) : Kv := { e with value := v }

def setExpiry (t : ℤ) (e : Kv) : Kv := { e with expiry := t }

end Kv

namespace Table

/-- The chain a key belongs in. -/
def bucket (t : Table) (k : Str) : List Kv := t.chains (stringFoldingHash k)

def find (t : Table) (k : Str) : Option Kv := lookup Kv.key k (t.bucket k)

/-- Change the record of `k` in place. -/
def modify (t : Table) (k : Str) (f : Kv → Kv) : Table :=
  { t with chains :=
      Function.update t.chains (stringFoldingHash k) (KeyedList.modify Kv.key k f (t.bucket k)) }

/-- Unlink the record of `k`. -/
def remove (t : Table) (k : Str) : Table where
  chains := Function.update t.chains (stringFoldingHash k) (KeyedList.remove Kv.key k (t.bucket k))
  count := t.count - 1

/-- Link a new record at the end of its chain. -/
def append (t : Table) (e : Kv) : Table where
  chains := Function.update t.chains (stringFoldingHash e.key) (t.bucket e.key ++ [e])
  count := t.count + 1

/-- SET -/
def insert (t : Table) (bound : ℕ) (k v : Str) : Err × Table :=
  if (t.find k).isSome then (0, t.modify k (Kv.setValue v))
  else if t.count + 1 ≥ bound then (errFull, t)
  else (0, t.append ⟨k, v, -1⟩)

/-- DELETE -/
def delete (t : Table) (k : Str) : Err × Table :=
  if (t.find k).isSome then (0, t.remove k) else (dbErrKeyNotexist, t)

/-- The record of `k`, if it is live; an expired one is unlinked. -/
def touch (t : Table) (k : Str) (now : ℤ) : Option Kv × Table :=
  match t.find k with
  | none => (none, t)
  | some e => if e.Expired now then (none, t.remove k) else (some e, t)

section Cases
variable {t : Table} {k : Str} {e : Kv}

theorem insert_found (v : Str) (bound : ℕ) (h : t.find k = some e) :
    t.insert bound k v = (0, t.modify k (Kv.setValue v)) := by simp [insert, h]

theorem insert_full (v : Str) {bound : ℕ} (h : t.find k = none) (hb : bound ≤ t.count + 1) :
    t.insert bound k v = (errFull, t) := by simp [insert, h, hb]

theorem insert_new (v : Str) {bound : ℕ} (h : t.find k = none) (hb : t.count + 1 < bound) :
    t.insert bound k v = (0, t.append ⟨k, v, -1⟩) := by simp [insert, h, hb]

theorem delete_none (h : t.find k = none) : t.delete k = (dbErrKeyNotexist, t) := by
  simp [delete, h]

theorem delete_found (h : t.find k = some e) : t.delete k = (0, t.remove k) := by
  simp [delete, h]

theorem touch_none (now : ℤ) (h : t.find k = none) : t.touch k now = (none, t) := by
  simp [touch, h]

theorem touch_expired {now : ℤ} (h : t.find k = some e) (he : e.Expired now) :
    t.touch k now = (none, t.remove k) := by simp [touch, h, he]

theorem touch_live {now : ℤ} (h : t.find k = some e) (he : ¬ e.Expired now) :
    t.touch k now = (some e, t) := by simp [touch, h, he]

theorem find_of_touch {now : ℤ} (h : (t.touch k now).1 = some e) : t.find k = some e := by
  cases hf : t.find k with
  | none => rw [touch_none now hf] at h; cases h
  | some e' =>
    by_cases he : e'.Expired now
    · rw [touch_expired hf he] at h; cases h
    · rw [touch_live hf he] at h
      exact h

theorem key_of_touch {now : ℤ} (h : (t.touch k now).1 = some e) : e.key = k :=
  key_of_lookup (find_of_touch h)

end Cases

/-- Every record is in the bucket of its key, no key occurs twice, and the count is exact. -/
structure Inv (t : Table) : Prop where
  placed : ∀ i, ∀ e ∈ t.chains i, stringFoldingHash e.key = i
  distinct : ∀ i, Distinct Kv.key (t.chains i)
  counted : t.count = ∑ i, (t.chains i).length
  bounded : t.count + 1 < 2 ^ 64

/-! ### What a lookup sees after each operation -/

theorem find_modify_self (t : Table) (k : Str) {f : Kv → Kv} (hf : ∀ e, (f e).key = e.key) :
    (t.modify k f).find k = (t.find k).map f := by
  simp only [find, bucket, modify, Function.update_self]
  exact lookup_modify_self k hf _

theorem find_modify_ne (t : Table) {k j : Str} {f : Kv → Kv} (hf : ∀ e, (f e).key = e.key)
    (hj : j ≠ k) : (t.modify k f).find j = t.find j := by
  simp only [find, bucket, modify]
  by_cases hb : stringFoldingHash j = stringFoldingHash k
  · rw [hb, Function.update_self]; exact lookup_modify_ne hf hj _
  · rw [Function.update_of_ne hb]

theorem find_remove_self {t : Table} (h : t.Inv) (k : Str) : (t.remove k).find k = none := by
  simp only [find, bucket, remove, Function.update_self]
  exact lookup_remove_self (h.distinct _)

theorem find_remove_ne (t : Table) {k j : Str} (hj : j ≠ k) :
    (t.remove k).find j = t.find j := by
  simp only [find, bucket, remove]
  by_cases hb : stringFoldingHash j = stringFoldingHash k
  · rw [hb, Function.update_self]; exact lookup_remove_ne hj _
  · rw [Function.update_of_ne hb]

theorem find_append_self {t : Table} {e : Kv} (h : t.find e.key = none) :
    (t.append e).find e.key = some e := by
  simp only [find, bucket, append, Function.update_self] at h ⊢
  rw [lookup_append, h]
  simp [lookup]

theorem find_append_ne (t : Table) {e : Kv} {j : Str} (hj : j ≠ e.key) :
    (t.append e).find j = t.find j := by
  simp only [find, bucket, append]
  by_cases hb : stringFoldingHash j = stringFoldingHash e.key
  · rw [hb, Function.update_self, lookup_append]
    simp [lookup, hj.symm]
  · rw [Function.update_of_ne hb]

/-- Unlinking the record just linked. -/
theorem remove_append {t : Table} {e : Kv} (h : t.find e.key = none) :
    (t.append e).remove e.key = t := by
  ext1
  · funext i
    simp only [remove, append, bucket, Function.update_self]
    rcases eq_or_ne i (stringFoldingHash e.key) with rfl | hi
    · rw [Function.update_self]
      exact (remove_split rfl (lookup_eq_none.mp h)).trans (List.append_nil _)
    · rw [Function.update_of_ne hi, Function.update_of_ne hi]
  · rfl

/-- Changing the record just linked. -/
theorem modify_append {t : Table} {e : Kv} (h : t.find e.key = none) {f : Kv → Kv}
    (hf : (f e).key = e.key) : (t.append e).modify e.key f = t.append (f e) := by
  ext1
  · funext i
    simp only [modify, append, bucket, Function.update_self, hf]
    rcases eq_or_ne i (stringFoldingHash e.key) with rfl | hi
    · rw [Function.update_self, Function.update_self]
      exact modify_split f rfl (lookup_eq_none.mp h)
    · rw [Function.update_of_ne hi, Function.update_of_ne hi, Function.update_of_ne hi]
  · rfl

theorem key_of_find {t : Table} {k : Str} {e : Kv} (h : t.find k = some e) : e.key = k :=
  key_of_lookup h

theorem mem_of_find {t : Table} {k : Str} {e : Kv} (h : t.find k = some e) : e ∈ t.bucket k :=
  mem_of_lookup h

/-- Keys are distinct over the whole table: a record is found under its key, whatever its chain. -/
theorem Inv.find_of_mem {t : Table} (h : t.Inv) {i : Fin mod} {e : Kv} (he : e ∈ t.chains i) :
    t.find e.key = some e := by
  have hi := h.placed i e he
  rw [find, bucket, hi]
  exact lookup_of_mem (h.distinct i) he

/-- Every key of the table, bucket by bucket. -/
def keys (t : Table) : List Str := (List.finRange mod).flatMap fun i => (t.chains i).map Kv.key

/-- With keys in their buckets and distinct within each, no key occurs twice in the table. -/
theorem keys_nodup {t : Table} (hp : ∀ i, ∀ e ∈ t.chains i, stringFoldingHash e.key = i)
    (hd : ∀ i, Distinct Kv.key (t.chains i)) : t.keys.Nodup := by
  rw [keys, List.nodup_flatMap]
  refine ⟨fun i _ => hd i, (List.nodup_finRange mod).imp ?_⟩
  intro i j hij k hi hj
  obtain ⟨e, he, rfl⟩ := List.mem_map.mp hi
  obtain ⟨e', he', hk⟩ := List.mem_map.mp hj
  exact hij (by rw [← hp i e he, ← hp j e' he', hk])

/-! ### The invariant is kept -/

/-- Replacing one chain changes the total length by the difference of that chain. -/
theorem sum_length_update (c : Fin mod → List Kv) (i : Fin mod) (l : List Kv) :
    (∑ j, (Function.update c i l j).length) + (c i).length = (∑ j, (c j).length) + l.length := by
  have h1 := Finset.sum_erase_add Finset.univ (fun j => (c j).length) (Finset.mem_univ i)
  have h2 := Finset.sum_erase_add Finset.univ (fun j => (Function.update c i l j).length)
    (Finset.mem_univ i)
  have hrest : ∑ j ∈ Finset.univ.erase i, (Function.update c i l j).length =
      ∑ j ∈ Finset.univ.erase i, (c j).length :=
    Finset.sum_congr rfl fun j hj => by rw [Function.update_of_ne (Finset.ne_of_mem_erase hj)]
  rw [Function.update_self, hrest] at h2
  omega

/-- One chain is replaced by one with distinct keys that all hash to it. -/
theorem Inv.update {t : Table} (h : t.Inv) {i : Fin mod} {l : List Kv} {n : ℕ}
    (hp : ∀ e ∈ l, stringFoldingHash e.key = i) (hd : Distinct Kv.key l)
    (hn : n + (t.chains i).length = t.count + l.length) (hb : n + 1 < 2 ^ 64) :
    Inv ⟨Function.update t.chains i l, n⟩ where
  placed j e he := by
    dsimp only at he
    rcases eq_or_ne j i with rfl | hj
    · rw [Function.update_self] at he; exact hp e he
    · rw [Function.update_of_ne hj] at he; exact h.placed j e he
  distinct j := by
    dsimp only
    rcases eq_or_ne j i with rfl | hj
    · rw [Function.update_self]; exact hd
    · rw [Function.update_of_ne hj]; exact h.distinct j
  counted := by
    have := sum_length_update t.chains i l
    have := h.counted
    simp only
    omega
  bounded := hb

theorem Inv.modify {t : Table} (h : t.Inv) (k : Str) {f : Kv → Kv}
    (hf : ∀ e, (f e).key = e.key) : (t.modify k f).Inv := by
  have hlen := @length_modify _ _ _ Kv.key k f (t.bucket k)
  refine h.update (fun e he => ?_) ((h.distinct _).modify k hf) (by rw [hlen]; rfl) h.bounded
  have hk : e.key ∈ (KeyedList.modify Kv.key k f (t.bucket k)).map Kv.key := List.mem_map_of_mem he
  rw [map_key_modify k hf] at hk
  obtain ⟨e', he', heq⟩ := List.mem_map.mp hk
  rw [← heq]
  exact h.placed _ e' he'

/-- No chain has more records than the table. -/
theorem Inv.length_chain_le {t : Table} (h : t.Inv) (i : Fin mod) :
    (t.chains i).length ≤ t.count := by
  rw [h.counted]
  exact Finset.single_le_sum (f := fun i => (t.chains i).length) (fun _ _ => Nat.zero_le _)
    (Finset.mem_univ i)

/-- The count of a table with a record is not zero. -/
theorem Inv.count_pos {t : Table} (h : t.Inv) {k : Str} {e : Kv} (he : t.find k = some e) :
    0 < t.count :=
  lt_of_lt_of_le (List.length_pos_of_mem (mem_of_find he)) (h.length_chain_le _)

theorem Inv.remove {t : Table} (h : t.Inv) {k : Str} {e : Kv} (he : t.find k = some e) :
    (t.remove k).Inv := by
  have hlen : (KeyedList.remove Kv.key k (t.bucket k)).length + 1 = (t.bucket k).length :=
    length_remove he
  have hpos := h.count_pos he
  have hb := h.bounded
  refine h.update (fun e' he' => h.placed _ e' ((remove_sublist k _).subset he'))
    ((h.distinct _).remove k) ?_ (by omega)
  change t.count - 1 + (t.bucket k).length = t.count + _
  omega

theorem Inv.append {t : Table} (h : t.Inv) {e : Kv} (he : t.find e.key = none)
    (hb : t.count + 2 < 2 ^ 64) : (t.append e).Inv := by
  refine h.update (fun e' he' => ?_) ((h.distinct _).concat he) ?_ hb
  · rcases List.mem_append.mp he' with he' | he'
    · exact h.placed _ e' he'
    · rw [List.mem_singleton.mp he']
  · simp [bucket]; omega

theorem Inv.insert {t : Table} (h : t.Inv) {bound : ℕ} (hb : bound < 2 ^ 64) (k v : Str) :
    (t.insert bound k v).2.Inv := by
  rw [Table.insert]
  split_ifs with hs hfull
  · exact h.modify k fun _ => rfl
  · exact h
  · exact h.append (by simpa using hs) (by omega)

theorem Inv.delete {t : Table} (h : t.Inv) (k : Str) : (t.delete k).2.Inv := by
  rw [Table.delete]
  split_ifs with hs
  · obtain ⟨e, he⟩ := Option.isSome_iff_exists.mp hs
    exact h.remove he
  · exact h

theorem Inv.touch {t : Table} (h : t.Inv) (k : Str) (now : ℤ) : (t.touch k now).2.Inv := by
  rw [Table.touch]
  split
  · exact h
  · next e he =>
    split_ifs
    · exact h.remove he
    · exact h

end Table

end SahDB
