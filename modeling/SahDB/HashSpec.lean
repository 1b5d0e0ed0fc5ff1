import SahDB.Table
import SahDB.TtlInv

/-! What the functions of `hash.c` do to the table.

    Each function is first described by cases on the chain of its key (`hashDelete_cases`,
    `hashGetKv_cases`, `hashInsert_cases`); the reads and `hash_update_expiry` all go through the
    same search with lazy deletion, so they are equations over `hashGetKv`. From the cases follows
    the operation on `Db.table` and that the invariant is kept. -/

namespace SahDB
open KeyedList

namespace Db

/-- No linked entry is in a cell still to be allocated. -/
def Fresh (s : Db) : Prop := ∀ i, ∀ a ∈ s.buckets i, a < s.brk

/-- The representation invariant of the hash table. -/
structure Inv (s : Db) : Prop where
  fresh : s.Fresh
  wf : s.table.Inv

/-- `a` is linked in the chain of `k`, the first entry there with that key. -/
structure At (s : Db) (k : Str) (a : Addr) (pre post : List Addr) : Prop where
  split : s.buckets (stringFoldingHash k) = pre ++ a :: post
  key : (s.mem a).key = k
  first : ∀ b ∈ pre, (s.mem b).key ≠ k

end Db

/-! ### The table and the chains -/

namespace Db

theorem table_congr {s s' : Db} (hk : s'.kv = s.kv) (hb : s'.buckets = s.buckets)
    (hc : s'.count = s.count) : s'.table = s.table := by
  ext1
  · funext i
    change (s'.buckets i).map s'.kv = (s.buckets i).map s.kv
    rw [hk, hb]
  · exact hc

theorem table_setTtl {s : Db} {h : TtlHeap} (hk : h.kv = s.kv) : (s.setTtl h).table = s.table :=
  table_congr hk rfl rfl

theorem At.mem {s : Db} {k : Str} {a : Addr} {pre post : List Addr} (h : s.At k a pre post) :
    a ∈ s.buckets (stringFoldingHash k) := by rw [h.split]; simp

theorem At.find {s : Db} {k : Str} {a : Addr} {pre post : List Addr} (h : s.At k a pre post) :
    s.table.find k = some (s.kv a) := by
  change lookup Kv.key k ((s.buckets (stringFoldingHash k)).map s.kv) = _
  have hpre : lookup Kv.key k (pre.map s.kv) = none := by
    rw [lookup_eq_none]
    intro e he
    obtain ⟨b, hb, rfl⟩ := List.mem_map.mp he
    exact h.first b hb
  rw [h.split, List.map_append, lookup_append, hpre, List.map_cons, lookup_cons]
  simp [TtlHeap.kv, Entry.kv, h.key]

/-- A record of the table is in some entry of the chain. -/
theorem exists_at {s : Db} {k : Str} {e : Kv} (h : s.table.find k = some e) :
    ∃ a pre post, s.At k a pre post ∧ s.kv a = e := by
  obtain ⟨l, m, hsplit, hl⟩ := lookup_split h
  have hk := Table.key_of_find h
  obtain ⟨pre, rest, hb, rfl, hrest⟩ := List.map_eq_append_iff.mp hsplit
  obtain ⟨a, post, rfl, rfl, -⟩ := List.map_eq_cons_iff.mp hrest
  refine ⟨a, pre, post, ⟨hb, hk, fun b hb => ?_⟩, rfl⟩
  exact hl _ (List.mem_map_of_mem hb)

theorem find_eq_none {s : Db} {k : Str} (h : s.table.find k = none) :
    ∀ a ∈ s.buckets (stringFoldingHash k), (s.mem a).key ≠ k := fun _ ha =>
  lookup_eq_none.mp h _ (List.mem_map_of_mem ha)

/-- Both views of the search for a key. -/
theorem find_cases (s : Db) (k : Str) :
    (s.table.find k = none ∧ ∀ a ∈ s.buckets (stringFoldingHash k), (s.mem a).key ≠ k) ∨
    ∃ a pre post, s.At k a pre post := by
  cases h : s.table.find k with
  | none => exact Or.inl ⟨rfl, find_eq_none h⟩
  | some e =>
    obtain ⟨a, pre, post, hat, -⟩ := exists_at h
    exact Or.inr ⟨a, pre, post, hat⟩

/-! ### Entries and addresses -/

theorem Inv.placed {s : Db} (h : s.Inv) {i : Fin mod} {a : Addr} (ha : a ∈ s.buckets i) :
    stringFoldingHash (s.mem a).key = i := by
  have hplaced := h.wf.placed i (s.kv a) (List.mem_map_of_mem ha)
  exact hplaced

theorem Inv.nodup {s : Db} (h : s.Inv) (i : Fin mod) : (s.buckets i).Nodup := by
  have hd := h.wf.distinct i
  exact (List.Nodup.of_map _ hd).of_map _

/-- Writing the cell of a linked entry changes one record of the table. -/
theorem Inv.table_write {s : Db} (h : s.Inv) {k : Str} {a : Addr} {pre post : List Addr}
    (hat : s.At k a pre post) (cell : Entry) {f : Kv → Kv} (hf : cell.kv = f (s.kv a)) :
    Db.table { s with mem := Function.update s.mem a cell } = s.table.modify k f := by
  have hne : ∀ b, b ≠ a → (Function.update s.mem a cell b).kv = s.kv b := by
    intro b hb
    rw [Function.update_of_ne hb]; rfl
  have hnd := h.nodup (stringFoldingHash k)
  rw [hat.split, List.nodup_middle, List.nodup_cons] at hnd
  ext1
  · funext i
    change (s.buckets i).map (fun b => (Function.update s.mem a cell b).kv) = _
    by_cases hi : i = stringFoldingHash k
    · subst hi
      have hpre : pre.map (fun b => (Function.update s.mem a cell b).kv) = pre.map s.kv :=
        List.map_congr_left fun b hb => hne b fun he => hnd.1 (by rw [← he]; simp [hb])
      have hpost : post.map (fun b => (Function.update s.mem a cell b).kv) = post.map s.kv :=
        List.map_congr_left fun b hb => hne b fun he => hnd.1 (by rw [← he]; simp [hb])
      have hmod : (s.table.modify k f).chains (stringFoldingHash k) =
          KeyedList.modify Kv.key k f ((s.buckets (stringFoldingHash k)).map s.kv) :=
        Function.update_self ..
      rw [hmod, hat.split, List.map_append, List.map_append, List.map_cons, List.map_cons, hpre,
        hpost, Function.update_self, hf, modify_split f hat.key fun e he => ?_]
      obtain ⟨b, hb, rfl⟩ := List.mem_map.mp he
      exact hat.first b hb
    · have hmod : (s.table.modify k f).chains i = (s.buckets i).map s.kv :=
        Function.update_of_ne hi ..
      rw [hmod]
      refine List.map_congr_left fun b hb => hne b fun he => hi ?_
      rw [← h.placed hb, he, hat.key]
  · rfl

/-! ### Invariant under heap operations and unlinking -/

theorem Inv.of_table {s' : Db} (hf : s'.Fresh) {t : Table} (ht : s'.table = t) (hw : t.Inv) :
    s'.Inv := ⟨hf, ht ▸ hw⟩

theorem Inv.setTtl {s : Db} (h : s.Inv) {ttl : TtlHeap} (hk : ttl.kv = s.kv) :
    (s.setTtl ttl).Inv := .of_table h.fresh (table_setTtl hk) h.wf

theorem At.setTtl {s : Db} {k : Str} {a : Addr} {pre post : List Addr} (h : s.At k a pre post)
    {ttl : TtlHeap} (hk : ttl.kv = s.kv) : (s.setTtl ttl).At k a pre post := by
  have hkey : ∀ b, (ttl.mem b).key = (s.mem b).key := fun b => congrArg Kv.key (congrFun hk b)
  exact ⟨h.split, (hkey a).trans h.key, fun b hb => (hkey b).trans_ne (h.first b hb)⟩

end Db

section Cases
open Db
variable (s : Db) (k : Str)

/-! ### The walks -/

theorem walk_none {l : List Addr} (h : ∀ a ∈ l, (s.mem a).key ≠ k) : walk s k l = none := by
  induction l with
  | nil => rfl
  | cons a l ih => rw [walk, if_pos (h a (by simp)), ih fun b hb => h b (by simp [hb])]

theorem walk_split {pre post : List Addr} {a : Addr} (ha : (s.mem a).key = k)
    (hpre : ∀ b ∈ pre, (s.mem b).key ≠ k) : walk s k (pre ++ a :: post) = some a := by
  induction pre with
  | nil => rw [List.nil_append, walk, if_neg (not_not.mpr ha)]
  | cons b pre ih =>
    rw [List.cons_append, walk, if_pos (hpre b (by simp)), ih fun c hc => hpre c (by simp [hc])]

theorem deleteWalk_none {l : List Addr} (prev : List Addr) (h : ∀ a ∈ l, (s.mem a).key ≠ k) :
    deleteWalk s k prev l = (prev ++ l, []) := by
  induction l generalizing prev with
  | nil => rw [deleteWalk, List.append_nil]
  | cons a l ih =>
    rw [deleteWalk, if_pos (h a (by simp)), ih _ fun b hb => h b (by simp [hb])]
    simp

theorem deleteWalk_split {pre post : List Addr} {a : Addr} (prev : List Addr)
    (ha : (s.mem a).key = k) (hpre : ∀ b ∈ pre, (s.mem b).key ≠ k) :
    deleteWalk s k prev (pre ++ a :: post) = (prev ++ pre, a :: post) := by
  induction pre generalizing prev with
  | nil => rw [List.nil_append, deleteWalk, if_neg (not_not.mpr ha), List.append_nil]
  | cons b pre ih =>
    rw [List.cons_append, deleteWalk, if_pos (hpre b (by simp)),
      ih _ fun c hc => hpre c (by simp [hc])]
    simp

/-- Without the key in the chain the insert walk stops at the last node. -/
theorem walkLast_none {temp : Addr} {next : List Addr} (pre : List Addr)
    (h : ∀ a ∈ temp :: next, (s.mem a).key ≠ k) :
    ∃ l last, temp :: next = l ++ [last] ∧ walkLast s k pre temp next = (pre ++ l, last, []) := by
  induction next generalizing pre temp with
  | nil => exact ⟨[], temp, rfl, by rw [walkLast, List.append_nil]⟩
  | cons n next ih =>
    obtain ⟨l, last, hl, hw⟩ := ih (pre ++ [temp]) fun a ha => h a (List.mem_cons_of_mem _ ha)
    refine ⟨temp :: l, last, by rw [hl]; rfl, ?_⟩
    rw [walkLast, if_pos (h temp (by simp)), hw]
    simp

theorem walkLast_split {temp : Addr} {next pre post : List Addr} {a : Addr} (prev : List Addr)
    (hl : temp :: next = pre ++ a :: post) (ha : (s.mem a).key = k)
    (hpre : ∀ b ∈ pre, (s.mem b).key ≠ k) :
    (walkLast s k prev temp next).2.1 = a := by
  induction next generalizing temp pre prev with
  | nil =>
    obtain ⟨rfl, h⟩ | ⟨l, rfl, h⟩ := List.cons_eq_append_iff.mp hl
    · rw [walkLast]; exact (List.cons.inj h).1.symm
    · simp at h
  | cons n next ih =>
    obtain ⟨rfl, h⟩ | ⟨l, rfl, h⟩ := List.cons_eq_append_iff.mp hl
    · obtain ⟨rfl, rfl⟩ := List.cons.inj h
      rw [walkLast, if_neg (not_not.mpr ha)]
    · rw [walkLast, if_pos (hpre temp (by simp))]
      exact ih _ h fun b hb => hpre b (by simp [hb])

/-! ### `hash_delete` and the search with lazy deletion -/

theorem hashDelete_cases :
    (s.table.find k = none ∧ hashDelete s k = (s, ⟨dbErrKeyNotexist, str "ERR"⟩)) ∨
    ∃ a pre post, s.At k a pre post ∧
      hashDelete s k = (unlink s (stringFoldingHash k) (pre ++ post) a, ⟨0, str "OK"⟩) := by
  rcases find_cases s k with ⟨hnone, hall⟩ | ⟨a, pre, post, hat⟩
  · refine Or.inl ⟨hnone, ?_⟩
    rw [hashDelete, deleteWalk_none s k [] hall]
  · refine Or.inr ⟨a, pre, post, hat, ?_⟩
    rw [hashDelete, hat.split, deleteWalk_split s k [] hat.key hat.first]
    rfl

/-- The store after the lazy deletion of `a`: out of the heap, then `hash_delete`. -/
def lazyUnlink (k : Str) (chain : List Addr) (a : Addr) : Db :=
  unlink (s.setTtl (heapRemove s.toTtlHeap a).2) (stringFoldingHash k) chain a

theorem lazyExpireAndDelete_live {a : Addr} {now : ℤ} (h : ¬ (s.kv a).Expired now) :
    lazyExpireAndDelete s a now = (dbErrKeyNotExpired, s) := by
  rw [lazyExpireAndDelete, if_pos]
  by_contra hc
  rw [not_or, gt_iff_lt, not_lt] at hc
  exact h ⟨hc.2, hc.1⟩

theorem lazyExpireAndDelete_expired {a : Addr} {pre post : List Addr} {now : ℤ}
    (hat : s.At k a pre post) (h : (s.kv a).Expired now) :
    lazyExpireAndDelete s a now = (dbErrKeyExpired, lazyUnlink s k (pre ++ post) a) := by
  rw [lazyExpireAndDelete, if_neg]
  · have hat' := hat.setTtl (heapRemove_kv s.toTtlHeap a)
    dsimp only
    rw [hat'.key, hashDelete, hat'.split, deleteWalk_split _ k [] hat'.key hat'.first]
    rfl
  · rw [not_or, gt_iff_lt, not_lt]
    exact ⟨h.2, h.1⟩

/-- `hash_get_kv`, and with it every read and EXPIRE: nothing there, expired and unlinked, or live.
    -/
theorem hashGetKv_cases (now : ℤ) :
    (s.table.find k = none ∧ hashGetKv s k now = (s, none)) ∨
    ∃ a pre post, s.At k a pre post ∧
      ((s.kv a).Expired now ∧ hashGetKv s k now = (lazyUnlink s k (pre ++ post) a, none) ∨
        ¬ (s.kv a).Expired now ∧ hashGetKv s k now = (s, some a)) := by
  rcases find_cases s k with ⟨hnone, hall⟩ | ⟨a, pre, post, hat⟩
  · refine Or.inl ⟨hnone, ?_⟩
    rw [hashGetKv, walk_none s k hall]
  · refine Or.inr ⟨a, pre, post, hat, ?_⟩
    rw [hashGetKv, hat.split, walk_split s k hat.key hat.first]
    dsimp only
    by_cases h : (s.kv a).Expired now
    · refine Or.inl ⟨h, ?_⟩
      rw [lazyExpireAndDelete_expired s k hat h]; rfl
    · refine Or.inr ⟨h, ?_⟩
      rw [lazyExpireAndDelete_live s h]; rfl

theorem hashGetKv_live {a : Addr} {pre post : List Addr} (hat : s.At k a pre post) {now : ℤ}
    (h : ¬ (s.kv a).Expired now) : hashGetKv s k now = (s, some a) := by
  rw [hashGetKv, hat.split, walk_split s k hat.key hat.first]
  dsimp only
  rw [lazyExpireAndDelete_live s h]
  rfl

theorem hashRead_eq (missing : Str) (found : Entry → Str) (now : ℤ) :
    hashRead missing found s k now =
      let r := hashGetKv s k now
      (r.1, match r.2 with
        | none => ⟨dbErrKeyNotexist, missing⟩
        | some e => ⟨0, found (r.1.mem e)⟩) := by
  unfold hashRead hashGetKv
  cases walk s k (s.buckets (stringFoldingHash k)) with
  | none => rfl
  | some e => dsimp only; split <;> rfl

theorem hashUpdateExpiry_eq (duration now now' : ℤ) (ok : Bool) :
    hashUpdateExpiry s k duration now now' ok =
      let r := hashGetKv s k now
      match r.2 with
      | none => (r.1, ⟨dbErrKeyNotexist, str "NULL"⟩)
      | some e => renewExpiry r.1 e duration now' ok := by
  unfold hashUpdateExpiry hashGetKv
  cases walk s k (s.buckets (stringFoldingHash k)) with
  | none => rfl
  | some e => dsimp only; split <;> rfl

end Cases

/-- EXPIRE of a live key goes straight to its entry. -/
theorem hashUpdateExpiry_live {s : Db} {k : Str} {a : Addr} {pre post : List Addr}
    (hat : s.At k a pre post) {now : ℤ} (hlive : ¬ (s.kv a).Expired now) (d now' : ℤ) (ok : Bool) :
    hashUpdateExpiry s k d now now' ok = renewExpiry s a d now' ok := by
  rw [hashUpdateExpiry_eq, hashGetKv_live s k hat hlive]

/-! ### Unlinking an entry -/

section Unlink
open Db
variable {s : Db} {k : Str} {a : Addr} {pre post : List Addr}

theorem unlink_buckets (s : Db) (idx : Fin mod) (l : List Addr) (a : Addr) :
    (unlink s idx l a).buckets = Function.update s.buckets idx l := by
  unfold unlink; dsimp only; split <;> rfl

theorem unlink_brk (s : Db) (idx : Fin mod) (l : List Addr) (a : Addr) :
    (unlink s idx l a).brk = s.brk := by
  unfold unlink; dsimp only; split <;> rfl

theorem unlink_count (s : Db) (idx : Fin mod) (l : List Addr) (a : Addr) :
    (unlink s idx l a).count = sizeT (s.count + 2 ^ 64 - 1) := by
  unfold unlink; dsimp only; split <;> rfl

theorem unlink_kv (s : Db) (idx : Fin mod) (l : List Addr) (a : Addr) :
    (unlink s idx l a).kv = s.kv := by
  unfold unlink; dsimp only; split
  · exact heapRemove_kv ..
  · rfl

theorem unlink_table (h : s.Inv) (hat : s.At k a pre post) :
    (unlink s (stringFoldingHash k) (pre ++ post) a).table = s.table.remove k := by
  ext1
  · funext i
    change ((unlink s _ _ a).buckets i).map (unlink s _ _ a).kv = _
    rw [unlink_buckets, unlink_kv]
    by_cases hi : i = stringFoldingHash k
    · subst hi
      have hr : (s.table.remove k).chains (stringFoldingHash k) =
          KeyedList.remove Kv.key k ((s.buckets (stringFoldingHash k)).map s.kv) :=
        Function.update_self ..
      rw [hr, Function.update_self, hat.split, List.map_append, List.map_append, List.map_cons,
        remove_split (a := s.kv a) hat.key fun e he => ?_]
      obtain ⟨b, hb, rfl⟩ := List.mem_map.mp he
      exact hat.first b hb
    · have hr : (s.table.remove k).chains i = (s.buckets i).map s.kv :=
        Function.update_of_ne hi ..
      rw [hr, Function.update_of_ne hi]
  · have hpos : 0 < s.count := h.wf.count_pos hat.find
    have hb : s.count + 1 < 2 ^ 64 := h.wf.bounded
    change (unlink s _ _ a).count = s.count - 1
    rw [unlink_count, sizeT]
    omega

theorem unlink_inv (h : s.Inv) (hat : s.At k a pre post) :
    (unlink s (stringFoldingHash k) (pre ++ post) a).Inv := by
  refine .of_table (fun i b hb => ?_) (unlink_table h hat) (h.wf.remove hat.find)
  rw [unlink_buckets] at hb
  rw [unlink_brk]
  by_cases hi : i = stringFoldingHash k
  · subst hi
    rw [Function.update_self] at hb
    refine h.fresh (stringFoldingHash k) b ?_
    rw [hat.split]
    rcases List.mem_append.mp hb with hb | hb <;> simp [hb]
  · rw [Function.update_of_ne hi] at hb
    exact h.fresh i b hb

theorem lazyUnlink_table (h : s.Inv) (hat : s.At k a pre post) :
    (lazyUnlink s k (pre ++ post) a).table = s.table.remove k := by
  have hk := heapRemove_kv s.toTtlHeap a
  rw [lazyUnlink, unlink_table (h.setTtl hk) (hat.setTtl hk), table_setTtl hk]

theorem lazyUnlink_inv (h : s.Inv) (hat : s.At k a pre post) :
    (lazyUnlink s k (pre ++ post) a).Inv := by
  have hk := heapRemove_kv s.toTtlHeap a
  exact unlink_inv (h.setTtl hk) (hat.setTtl hk)

end Unlink

/-! ### `hash_insert` -/

section Insert
open Db
variable {s : Db}

theorem alloc_kv (k v : Str) {a : Addr} (ha : a < s.brk) : (s.alloc k v).kv a = s.kv a := by
  simp only [TtlHeap.kv, alloc]
  rw [Function.update_of_ne (ne_of_lt ha)]

theorem alloc_table (h : s.Fresh) (k v : Str) : (s.alloc k v).table = s.table := by
  ext1
  · funext i
    exact List.map_congr_left fun a ha => alloc_kv k v (h i a ha)
  · rfl

theorem alloc_inv (h : s.Inv) (k v : Str) : (s.alloc k v).Inv :=
  .of_table (fun i a ha => Nat.lt_succ_of_lt (h.fresh i a ha)) (alloc_table h.fresh k v) h.wf

theorem Db.At.alloc {j : Str} {a : Addr} {pre post : List Addr} (h : s.Fresh)
    (hat : s.At j a pre post) (k v : Str) : (s.alloc k v).At j a pre post := by
  have hkey : ∀ b ∈ s.buckets (stringFoldingHash j),
      ((s.alloc k v).mem b).key = (s.mem b).key := fun b hb =>
    congrArg Kv.key (alloc_kv k v (h _ b hb))
  refine ⟨hat.split, (hkey a hat.mem).trans hat.key, fun b hb => ?_⟩
  exact (hkey b (by rw [hat.split]; simp [hb])).trans_ne (hat.first b hb)

/-- The store with the new entry at the end of its chain. -/
def Db.link (s : Db) (k v : Str) : Db :=
  let idx := stringFoldingHash k
  ((s.alloc k v).setChain idx (s.buckets idx ++ [s.brk])).setCount (s.count + 1)

/-- `add_kv_in_arr`: an update in place, a refusal by a full table, or a new last entry. -/
theorem addKvInArr_cases (s : Db) {k : Str} {e : Addr} (he : (s.mem e).key = k)
    (hc : s.count + 1 < 2 ^ 64) (bound : UInt64) :
    (∃ a pre post, s.At k a pre post ∧ addKvInArr bound s (stringFoldingHash k) e =
      (dbErrKeyExists, s.setValue a (s.mem e).value)) ∨
    (s.table.find k = none ∧ bound.toNat ≤ s.count + 1 ∧
      addKvInArr bound s (stringFoldingHash k) e = (errFull, s)) ∨
    (s.table.find k = none ∧ s.count + 1 < bound.toNat ∧
      addKvInArr bound s (stringFoldingHash k) e =
        (0, (s.setChain (stringFoldingHash k) (s.buckets (stringFoldingHash k) ++ [e])).setCount
          (s.count + 1))) := by
  unfold addKvInArr
  rw [sizeT_of_lt hc, he]
  rcases find_cases s k with ⟨hnone, hall⟩ | ⟨a, pre, post, hat⟩
  · right
    by_cases hfull : s.count + 1 ≥ bound.toNat
    · refine Or.inl ⟨hnone, hfull, ?_⟩
      rw [if_pos hfull, walk_none s k hall]
    · refine Or.inr ⟨hnone, not_le.mp hfull, ?_⟩
      rw [if_neg hfull]
      cases hchain : s.buckets (stringFoldingHash k) with
      | nil => rfl
      | cons head next =>
        rw [hchain] at hall
        obtain ⟨l, last, hl, hw⟩ := walkLast_none s k [] hall
        have hlast : (s.mem last).key ≠ k := hall last (by rw [hl]; simp)
        dsimp only
        rw [hw, hl]
        dsimp only
        rw [if_neg hlast]
        simp
  · refine Or.inl ⟨a, pre, post, hat, ?_⟩
    by_cases hfull : s.count + 1 ≥ bound.toNat
    · rw [if_pos hfull, hat.split, walk_split s k hat.key hat.first]
    · rw [if_neg hfull]
      have hsplit := hat.split
      cases hchain : s.buckets (stringFoldingHash k) with
      | nil => rw [hchain] at hsplit; simp at hsplit
      | cons head next =>
        rw [hchain] at hsplit
        have hw := walkLast_split s k [] hsplit hat.key hat.first
        dsimp only
        generalize walkLast s k [] head next = r at hw
        obtain ⟨pre', temp, post'⟩ := r
        dsimp only at hw ⊢
        rw [hw, if_pos hat.key]

/-- `hash_insert`, in the same three cases. -/
theorem hashInsert_cases (h : s.Inv) (k v : Str) (bound : UInt64) :
    (∃ a pre post, s.At k a pre post ∧
      hashInsert s k v true bound = ((s.alloc k v).setValue a v, ⟨0, str "OK"⟩)) ∨
    (s.table.find k = none ∧ bound.toNat ≤ s.count + 1 ∧
      hashInsert s k v true bound = (s.alloc k v, ⟨errFull, str "ERR"⟩)) ∨
    (s.table.find k = none ∧ s.count + 1 < bound.toNat ∧
      hashInsert s k v true bound = (s.link k v, ⟨0, str "OK"⟩)) := by
  have hcell : (s.alloc k v).mem s.brk = ⟨k, v, -1, sizeMax⟩ := Function.update_self ..
  have hadd := addKvInArr_cases (s.alloc k v) (k := k) (e := s.brk) (by rw [hcell])
    h.wf.bounded bound
  rw [alloc_table h.fresh, hcell] at hadd
  unfold hashInsert
  rw [if_pos rfl]
  dsimp only
  rcases hadd with ⟨a, pre, post, hat, heq⟩ | ⟨hn, hb, heq⟩ | ⟨hn, hb, heq⟩ <;> rw [heq]
  · refine Or.inl ⟨a, pre, post, ⟨hat.split, ?_, fun b hb => ?_⟩, rfl⟩
    · exact (congrArg Kv.key (alloc_kv k v (h.fresh _ a hat.mem))).symm.trans hat.key
    · have hmem : b ∈ s.buckets (stringFoldingHash k) := hat.split ▸ List.mem_append_left _ hb
      exact (congrArg Kv.key (alloc_kv k v (h.fresh _ b hmem))).symm.trans_ne (hat.first b hb)
  · exact Or.inr (Or.inl ⟨hn, hb, rfl⟩)
  · exact Or.inr (Or.inr ⟨hn, hb, rfl⟩)

theorem setValue_table (h : s.Inv) {k : Str} {a : Addr} {pre post : List Addr}
    (hat : s.At k a pre post) (v : Str) :
    (s.setValue a v).table = s.table.modify k (Kv.setValue v) := h.table_write hat _ rfl

/-- A SET of a key that is there: the new cell is not linked. -/
theorem setValue_alloc_table (h : s.Inv) {k : Str} {a : Addr} {pre post : List Addr}
    (hat : s.At k a pre post) (v : Str) :
    ((s.alloc k v).setValue a v).table = s.table.modify k (Kv.setValue v) := by
  rw [setValue_table (alloc_inv h k v) (hat.alloc h.fresh k v), alloc_table h.fresh]

theorem link_table (h : s.Fresh) (k v : Str) : (s.link k v).table = s.table.append ⟨k, v, -1⟩ := by
  have hnew : (s.alloc k v).kv s.brk = ⟨k, v, -1⟩ := by
    simp [TtlHeap.kv, alloc, Entry.kv]
  ext1
  · funext i
    change (Function.update s.buckets _ _ i).map (s.alloc k v).kv = _
    by_cases hi : i = stringFoldingHash k
    · subst hi
      have happ : (s.table.append ⟨k, v, -1⟩).chains (stringFoldingHash k) =
          (s.buckets (stringFoldingHash k)).map s.kv ++ [⟨k, v, -1⟩] := Function.update_self ..
      rw [happ, Function.update_self, List.map_append, List.map_singleton, hnew]
      congr 1
      exact List.map_congr_left fun a ha => alloc_kv k v (h _ a ha)
    · have happ : (s.table.append ⟨k, v, -1⟩).chains i = (s.buckets i).map s.kv :=
        Function.update_of_ne hi ..
      rw [happ, Function.update_of_ne hi]
      exact List.map_congr_left fun a ha => alloc_kv k v (h _ a ha)
  · rfl

theorem link_fresh (h : s.Fresh) (k v : Str) : (s.link k v).Fresh := by
  intro i a ha
  change a ∈ Function.update s.buckets _ _ i at ha
  change a < s.brk + 1
  by_cases hi : i = stringFoldingHash k
  · subst hi
    rw [Function.update_self] at ha
    rcases List.mem_append.mp ha with ha | ha
    · exact Nat.lt_succ_of_lt (h _ a ha)
    · rw [List.mem_singleton.mp ha]; exact Nat.lt_succ_self _
  · rw [Function.update_of_ne hi] at ha
    exact Nat.lt_succ_of_lt (h i a ha)

/-- What SET and DELETE answer. -/
def ackReply (code : Err) : Reply := ⟨code, if code = 0 then str "OK" else str "ERR"⟩

/-- `hash_insert` is SET on the table. -/
theorem hashInsert_spec (h : s.Inv) (k v : Str) (bound : UInt64) :
    (hashInsert s k v true bound).1.Fresh ∧
    (hashInsert s k v true bound).1.table = (s.table.insert bound.toNat k v).2 ∧
    (hashInsert s k v true bound).2 = ackReply (s.table.insert bound.toNat k v).1 := by
  rcases hashInsert_cases h k v bound with ⟨a, pre, post, hat, heq⟩ | ⟨hn, hb, heq⟩ | ⟨hn, hb, heq⟩
  · rw [heq, Table.insert_found v _ hat.find]
    exact ⟨(alloc_inv h k v).fresh, setValue_alloc_table h hat v, rfl⟩
  · rw [heq, Table.insert_full v hn hb]
    exact ⟨(alloc_inv h k v).fresh, alloc_table h.fresh k v, rfl⟩
  · rw [heq, Table.insert_new v hn hb]
    exact ⟨link_fresh h.fresh k v, link_table h.fresh k v, rfl⟩

theorem hashInsert_inv (h : s.Inv) (k v : Str) (ok : Bool) (bound : UInt64) :
    (hashInsert s k v ok bound).1.Inv := by
  cases ok with
  | false => exact h
  | true =>
    obtain ⟨hf, ht, -⟩ := hashInsert_spec h k v bound
    exact .of_table hf ht (h.wf.insert (UInt64.toNat_lt bound) k v)

end Insert

/-! ### The other calls -/

section Calls
open Db
variable {s : Db}

/-- `hash_delete` is DELETE on the table. -/
theorem hashDelete_spec (h : s.Inv) (k : Str) :
    (hashDelete s k).1.Inv ∧ (hashDelete s k).1.table = (s.table.delete k).2 ∧
    (hashDelete s k).2 = ackReply (s.table.delete k).1 := by
  rcases hashDelete_cases s k with ⟨hn, heq⟩ | ⟨a, pre, post, hat, heq⟩
  · rw [heq, Table.delete_none hn]
    exact ⟨h, rfl, rfl⟩
  · rw [heq, Table.delete_found hat.find]
    exact ⟨unlink_inv h hat, unlink_table h hat, rfl⟩

/-- The search with lazy deletion is `touch` on the table. -/
theorem hashGetKv_spec (h : s.Inv) (k : Str) (now : ℤ) :
    (hashGetKv s k now).1.Inv ∧ (hashGetKv s k now).1.table = (s.table.touch k now).2 ∧
    (hashGetKv s k now).2.map (hashGetKv s k now).1.kv = (s.table.touch k now).1 := by
  rcases hashGetKv_cases s k now with ⟨hn, heq⟩ | ⟨a, pre, post, hat, ⟨he, heq⟩ | ⟨he, heq⟩⟩
  · rw [heq, Table.touch_none now hn]
    exact ⟨h, rfl, rfl⟩
  · rw [heq, Table.touch_expired hat.find he]
    exact ⟨lazyUnlink_inv h hat, lazyUnlink_table h hat, rfl⟩
  · rw [heq, Table.touch_live hat.find he]
    exact ⟨h, rfl, rfl⟩

/-- A read answers with the record `touch` finds. -/
theorem hashRead_spec (h : s.Inv) (missing : Str) (found : Entry → Str) (show' : Kv → Str)
    (hf : ∀ e, found e = show' e.kv) (k : Str) (now : ℤ) :
    (hashRead missing found s k now).1.Inv ∧
    (hashRead missing found s k now).1.table = (s.table.touch k now).2 ∧
    (hashRead missing found s k now).2 = match (s.table.touch k now).1 with
      | none => ⟨dbErrKeyNotexist, missing⟩
      | some e => ⟨0, show' e⟩ := by
  obtain ⟨hi, ht, hr⟩ := hashGetKv_spec h k now
  rw [hashRead_eq]
  refine ⟨hi, ht, ?_⟩
  rw [← hr]
  dsimp only
  cases (hashGetKv s k now).2 with
  | none => rfl
  | some e => simp only [Option.map, hf]; rfl

/-- A read finds the records that have not expired. -/
theorem hashRead_code_iff (s : Db) (missing : Str) (found : Entry → Str) (k : Str) (now : ℤ) :
    (hashRead missing found s k now).2.code = 0 ↔
      ∃ e, s.table.find k = some e ∧ ¬ e.Expired now := by
  have hne : dbErrKeyNotexist ≠ 0 := by decide
  rw [hashRead_eq]
  rcases hashGetKv_cases s k now with ⟨hn, heq⟩ | ⟨a, pre, post, hat, ⟨he, heq⟩ | ⟨he, heq⟩⟩ <;>
    rw [heq]
  · refine iff_of_false hne ?_
    rintro ⟨e, hfind, -⟩
    cases hn.symm.trans hfind
  · refine iff_of_false hne ?_
    rintro ⟨e, hfind, hlive⟩
    cases hat.find.symm.trans hfind
    exact hlive he
  · exact iff_of_true rfl ⟨_, hat.find, he⟩

/-- GET of the key at this time finds a value that does not fit its buffer. -/
def Table.Overlong (t : Table) (k : Str) (now : ℤ) : Prop :=
  ∃ e, t.find k = some e ∧ ¬ e.Expired now ∧ maxRespLen ≤ e.value.length

theorem lookupValue_fst (s : Db) (k : Str) (now : ℤ) :
    (lookupValue s k now).1 = (hashGetKv s k now).1 := by
  rw [lookupValue, hashRead_eq]

/-- GET faults on an overlong value only, and has found the store as it is then. -/
theorem hashGet_cases (s : Db) (k : Str) (now : ℤ) :
    (s.table.Overlong k now ∧ hashGetKv s k now = (s, (hashGetKv s k now).2) ∧
      hashGet s k now = .error .outOfBounds) ∨
    (¬ s.table.Overlong k now ∧ hashGet s k now = .ok (lookupValue s k now)) := by
  have herr : (str "ERR").length < maxRespLen := by decide
  have hmissing : (∀ e, s.table.find k = some e → e.Expired now) → ¬ s.table.Overlong k now :=
    fun hall ⟨e, hfind, hlive, _⟩ => hlive (hall e hfind)
  rw [hashGet, lookupValue, hashRead_eq]
  rcases hashGetKv_cases s k now with ⟨hn, heq⟩ | ⟨a, pre, post, hat, ⟨he, heq⟩ | ⟨he, heq⟩⟩ <;>
    rw [heq]
  · exact Or.inr ⟨hmissing fun e hfind => (nomatch hn.symm.trans hfind), if_pos herr⟩
  · refine Or.inr ⟨hmissing fun e hfind => ?_, if_pos herr⟩
    cases hat.find.symm.trans hfind
    exact he
  · rcases lt_or_ge (s.mem a).value.length maxRespLen with hfits | hlong
    · refine Or.inr ⟨?_, if_pos hfits⟩
      rintro ⟨e, hfind, -, hlong⟩
      cases hat.find.symm.trans hfind
      exact absurd hlong (not_le.mpr hfits)
    · exact Or.inl ⟨⟨_, hat.find, he, hlong⟩, rfl, if_neg (not_lt.mpr hlong)⟩

/-- What GET answers on the table. -/
theorem hashGet_spec (h : s.Inv) (k : Str) (now : ℤ) :
    (hashGet s k now).map Prod.snd = match (s.table.touch k now).1 with
      | none => .ok ⟨dbErrKeyNotexist, str "ERR"⟩
      | some e =>
        if e.value.length < maxRespLen then .ok ⟨0, e.value⟩ else .error .outOfBounds := by
  have hr := (hashRead_spec h (str "ERR") Entry.value Kv.value (fun _ => rfl) k now).2.2
  have hget : (hashGet s k now).map Prod.snd =
      if (lookupValue s k now).2.text.length < maxRespLen then .ok (lookupValue s k now).2
      else .error .outOfBounds := apply_ite (Except.map Prod.snd) _ _ _
  rw [hget, lookupValue, hr]
  cases (s.table.touch k now).1 with
  | none => exact if_pos (show (str "ERR").length < maxRespLen by decide)
  | some e => rfl

/-- A live entry gets a new expiry, whatever happens to the heap. -/
theorem renewExpiry_table (h : s.Inv) {k : Str} {a : Addr} {pre post : List Addr}
    (hat : s.At k a pre post) (duration now : ℤ) (ok : Bool) :
    (renewExpiry s a duration now ok).1.Inv ∧
    (renewExpiry s a duration now ok).1.table =
      s.table.modify k (Kv.setExpiry (timeT (now + duration))) := by
  set s1 := if (s.mem a).heapIndex ≠ sizeMax then s.setTtl (heapRemove s.toTtlHeap a).2 else s
    with hs1
  have h1 : s1.Inv ∧ s1.table = s.table ∧ s1.At k a pre post := by
    rw [hs1]
    have hk := heapRemove_kv s.toTtlHeap a
    split
    · exact ⟨h.setTtl hk, table_setTtl hk, hat.setTtl hk⟩
    · exact ⟨h, rfl, hat⟩
  have ht2 : (s1.setExpiry a (timeT (now + duration))).table =
      s.table.modify k (Kv.setExpiry (timeT (now + duration))) := by
    rw [← h1.2.1]; exact h1.1.table_write h1.2.2 _ rfl
  have hk3 := heapInsert_kv ok (s1.setExpiry a (timeT (now + duration))).toTtlHeap a
  have heq : (renewExpiry s a duration now ok).1 = (s1.setExpiry a (timeT (now + duration))).setTtl
      (heapInsert ok (s1.setExpiry a (timeT (now + duration))).toTtlHeap a).2 := rfl
  rw [heq, table_setTtl hk3]
  refine ⟨.of_table (fun i b hb => h1.1.fresh i b hb) ((table_setTtl hk3).trans ht2)
    (h.wf.modify k fun _ => rfl), ht2⟩

/-- With memory for the heap, EXPIRE of a live entry succeeds. -/
theorem renewExpiry_ok (s : Db) (a : Addr) (duration now : ℤ) :
    (renewExpiry s a duration now true).2 = ⟨dbErrOk, str "OK"⟩ := by
  have hok : ∀ h : TtlHeap, (heapInsert true h a).1 = dbErrOk := by
    intro h
    rcases heapInsert_cases true h a with ⟨hf, -⟩ | ⟨_, -, heq⟩
    · cases hf
    · rw [heq]
  unfold renewExpiry
  dsimp only
  rw [hok]
  rfl

theorem hashUpdateExpiry_inv (h : s.Inv) (k : Str) (duration now now' : ℤ) (ok : Bool) :
    (hashUpdateExpiry s k duration now now' ok).1.Inv := by
  rw [hashUpdateExpiry_eq]
  rcases hashGetKv_cases s k now with ⟨-, heq⟩ | ⟨a, pre, post, hat, ⟨-, heq⟩ | ⟨-, heq⟩⟩ <;>
    rw [heq]
  · exact h
  · exact lazyUnlink_inv h hat
  · exact (renewExpiry_table h hat duration now' ok).1

end Calls

end SahDB
