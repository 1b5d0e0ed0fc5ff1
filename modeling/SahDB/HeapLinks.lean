import SahDB.Load

/-! The TTL heap and the table share entries: deleting an entry frees it, so it must leave the heap
    first.

    While the heap only points to linked entries (`Owned`) every call keeps it so, but one:
    `hash_delete` does not look for an entry in the heap if its expiry is `LONG_MAX`. `Pinned` says
    that a call is such a delete; along a run no slot of the heap dangles exactly when no call is
    pinned. -/

namespace SahDB
open Db

namespace Db

/-- The entry is in some chain. -/
def Linked (s : Db) (a : Addr) : Prop := ∃ i, a ∈ s.buckets i

/-- Every slot of the heap in use points to an entry that is in some chain. -/
def NoDangling (s : Db) : Prop := ∀ j, j < s.size → s.Linked (s.heap j)

/-- The heap knows its entries and points only to linked ones. -/
structure Owned (s : Db) : Prop where
  inv : s.Inv
  back : s.Back
  linked : ∀ a, s.Has a → s.Linked a

/-- The call deletes an entry that is in the heap with expiry `LONG_MAX`. -/
def Pinned (s : Db) : Call → Prop
  | .delete k => ∃ a pre post, s.At k a pre post ∧ s.Has a ∧ (s.mem a).expiry = longMax
  | _ => False

theorem Owned.noDangling {s : Db} (h : s.Owned) : s.NoDangling :=
  fun j hj => h.linked _ ⟨j, hj, rfl⟩

/-! ### The heap is no larger than the table -/

/-- Every linked entry, bucket by bucket. -/
def addrs (s : Db) : List Addr := (List.finRange mod).flatMap s.buckets

theorem Inv.length_addrs {s : Db} (h : s.Inv) : s.addrs.length = s.count := by
  have hsum : s.count = ∑ i, (s.chain i).length := h.wf.counted
  rw [addrs, List.length_flatMap, hsum, Fin.sum_univ_def]
  congr 1
  refine List.map_congr_left fun i _ => ?_
  rw [chain, List.length_map]

theorem Owned.size_le {s : Db} (h : s.Owned) : s.size ≤ s.count := by
  have hnd : ((List.range s.size).map s.heap).Nodup := by
    refine List.Nodup.map_on (fun i hi j hj he => ?_) List.nodup_range
    exact h.back.inj (List.mem_range.mp hi) (List.mem_range.mp hj) he
  have hsub : (List.range s.size).map s.heap ⊆ s.addrs := by
    intro a ha
    obtain ⟨j, hj, rfl⟩ := List.mem_map.mp ha
    obtain ⟨i, hi⟩ := h.linked _ ⟨j, List.mem_range.mp hj, rfl⟩
    exact List.mem_flatMap.mpr ⟨i, List.mem_finRange i, hi⟩
  have hle := (hnd.subperm hsub).length_le
  rwa [List.length_map, List.length_range, h.inv.length_addrs] at hle

/-- The mark for being in no heap is never the position of an entry. -/
theorem Owned.index_ne {s : Db} (h : s.Owned) {a : Addr} (ha : s.Has a) :
    (s.mem a).heapIndex ≠ sizeMax := by
  have hlt := (h.back.index ha).1
  have hle := h.size_le
  have hb : s.count + 1 < 2 ^ 64 := h.inv.wf.bounded
  simp only [sizeMax]
  omega

end Db

/-! ### Changes that leave the heap alone -/

section Frame
variable {s s' : Db}

/-- Only cells outside the heap, or other fields of cells, have changed, and links were added. -/
theorem Db.Owned.frame (h : s.Owned) (hi : s'.Inv) (hsize : s'.size = s.size)
    (hheap : s'.heap = s.heap)
    (hidx : ∀ a, s.Has a → (s'.mem a).heapIndex = (s.mem a).heapIndex)
    (hlink : ∀ a, s.Has a → s.Linked a → s'.Linked a) : s'.Owned := by
  have hhas : ∀ a, s'.Has a ↔ s.Has a := fun a => by simp only [TtlHeap.Has, hsize, hheap]
  refine ⟨hi, fun j hj => ?_, fun a ha => ?_⟩
  · rw [hsize] at hj
    rw [hheap, hidx _ ⟨j, hj, rfl⟩]
    exact h.back j hj
  · have ha' := (hhas a).mp ha
    exact hlink a ha' (h.linked a ha')

/-- The heap of `s'` is that of `s` without `a`. -/
theorem Db.Owned.removed (h : s.Owned) {a : Addr} (hi : s'.Inv)
    (hr : Removed s.toTtlHeap a s'.toTtlHeap)
    (hlink : ∀ b, b ≠ a → s.Linked b → s'.Linked b) : s'.Owned := by
  refine ⟨hi, hr.back, fun b hb => ?_⟩
  obtain ⟨hb', hne⟩ := (hr.has b).mp hb
  exact hlink b hne (h.linked b hb')

/-- `heap_remove` of an entry that may or may not be in the heap. -/
theorem Db.Owned.heapRemove (h : s.Owned) (a : Addr) :
    (s.setTtl (heapRemove s.toTtlHeap a).2).Owned ∧ ¬ (heapRemove s.toTtlHeap a).2.Has a := by
  have hi := h.inv.setTtl (heapRemove_kv s.toTtlHeap a)
  by_cases ha : s.Has a
  · obtain ⟨-, hr, -⟩ := heapRemove_removed h.back ha
    exact ⟨h.removed hi hr fun b _ hb => hb, fun hc => ((hr.has a).mp hc).2 rfl⟩
  · rw [heapRemove_of_not_has ha] at hi ⊢
    exact ⟨h, ha⟩

end Frame

/-! ### Unlinking -/

section Unlink
variable {s : Db} {k : Str} {a : Addr} {pre post : List Addr}

/-- Every other entry stays linked. -/
theorem unlink_linked (hat : s.At k a pre post) {b : Addr} (hne : b ≠ a) (hb : s.Linked b) :
    (unlink s (stringFoldingHash k) (pre ++ post) a).Linked b := by
  obtain ⟨i, hi⟩ := hb
  refine ⟨i, ?_⟩
  rw [unlink_buckets]
  rcases eq_or_ne i (stringFoldingHash k) with rfl | hik
  · rw [hat.split] at hi
    rw [Function.update_self]
    simp only [List.mem_append, List.mem_cons, hne, false_or] at hi
    exact List.mem_append.mpr hi
  · rwa [Function.update_of_ne hik]

/-- The entry itself is in no chain afterwards. -/
theorem unlink_not_linked (h : s.Inv) (hat : s.At k a pre post) :
    ¬ (unlink s (stringFoldingHash k) (pre ++ post) a).Linked a := by
  rintro ⟨i, hi⟩
  rw [unlink_buckets] at hi
  rcases eq_or_ne i (stringFoldingHash k) with rfl | hik
  · rw [Function.update_self] at hi
    have hnd := h.nodup (stringFoldingHash k)
    rw [hat.split, List.nodup_middle] at hnd
    exact (List.nodup_cons.mp hnd).1 hi
  · rw [Function.update_of_ne hik] at hi
    exact hik (by rw [← h.placed hi, hat.key])

theorem unlink_ttl (s : Db) (idx : Fin mod) (l : List Addr) (a : Addr) :
    (unlink s idx l a).toTtlHeap =
      if (s.mem a).heapIndex ≠ sizeMax ∧ (s.mem a).expiry ≠ longMax then
        (heapRemove s.toTtlHeap a).2
      else s.toTtlHeap := by
  unfold unlink
  dsimp only
  split_ifs with h1 h2 h2
  · rfl
  · exact absurd h1 h2
  · exact absurd h2 h1
  · rfl

/-- An entry that is not in the heap can go. -/
theorem unlink_owned_of_not_has (h : s.Owned) (hat : s.At k a pre post) (ha : ¬ s.Has a) :
    (unlink s (stringFoldingHash k) (pre ++ post) a).Owned := by
  have httl : (unlink s (stringFoldingHash k) (pre ++ post) a).toTtlHeap = s.toTtlHeap := by
    rw [unlink_ttl, heapRemove_of_not_has ha, ite_self]
  refine h.frame (unlink_inv h.inv hat) (congrArg TtlHeap.size httl) (congrArg TtlHeap.heap httl)
    (fun b _ => by rw [httl]) fun b hb hl => ?_
  exact unlink_linked hat (fun hc => ha (hc ▸ hb)) hl

/-- An entry in the heap leaves it, unless it is pinned. -/
theorem unlink_owned (h : s.Owned) (hat : s.At k a pre post)
    (hp : ¬ (s.Has a ∧ (s.mem a).expiry = longMax)) :
    (unlink s (stringFoldingHash k) (pre ++ post) a).Owned := by
  by_cases ha : s.Has a
  · have httl := unlink_ttl s (stringFoldingHash k) (pre ++ post) a
    rw [if_pos ⟨h.index_ne ha, fun hc => hp ⟨ha, hc⟩⟩] at httl
    obtain ⟨-, hr, -⟩ := heapRemove_removed h.back ha
    rw [← httl] at hr
    exact h.removed (unlink_inv h.inv hat) hr fun b hne hl => unlink_linked hat hne hl
  · exact unlink_owned_of_not_has h hat ha

/-- A pinned entry stays in the heap. -/
theorem unlink_dangling (h : s.Inv) (hat : s.At k a pre post) (ha : s.Has a)
    (hexp : (s.mem a).expiry = longMax) :
    ¬ (unlink s (stringFoldingHash k) (pre ++ post) a).NoDangling := by
  have httl := unlink_ttl s (stringFoldingHash k) (pre ++ post) a
  rw [if_neg fun hc => hc.2 hexp] at httl
  obtain ⟨j, hj, rfl⟩ := ha
  intro hd
  refine unlink_not_linked h hat ?_
  have hl := hd j (by rw [httl]; exact hj)
  rwa [httl] at hl

theorem lazyUnlink_owned (h : s.Owned) (hat : s.At k a pre post) :
    (lazyUnlink s k (pre ++ post) a).Owned := by
  obtain ⟨ho, hno⟩ := h.heapRemove a
  exact unlink_owned_of_not_has ho (hat.setTtl (heapRemove_kv s.toTtlHeap a)) hno

end Unlink

/-! ### The calls -/

section Calls
variable {s : Db}

/-- A new cell is none of the heap's. -/
theorem alloc_owned (h : s.Owned) (k v : Str) : (s.alloc k v).Owned := by
  refine h.frame (alloc_inv h.inv k v) rfl rfl (fun a ha => ?_) fun a _ hl => hl
  obtain ⟨i, hi⟩ := h.linked a ha
  change (Function.update s.mem s.brk _ a).heapIndex = _
  rw [Function.update_of_ne (ne_of_lt (h.inv.fresh i a hi))]

theorem setValue_owned (h : s.Owned) {a : Addr} {v : Str} (hi : (s.setValue a v).Inv) :
    (s.setValue a v).Owned := by
  refine h.frame hi rfl rfl (fun b _ => ?_) fun b _ hl => hl
  change (Function.update s.mem a _ b).heapIndex = _
  rcases eq_or_ne b a with rfl | hb
  · rw [Function.update_self]
  · rw [Function.update_of_ne hb]

theorem link_owned (h : s.Owned) {k v : Str} (hi : (s.link k v).Inv) : (s.link k v).Owned := by
  refine (alloc_owned h k v).frame hi rfl rfl (fun _ _ => rfl) fun a _ hl => ?_
  obtain ⟨i, ha⟩ := hl
  refine ⟨i, ?_⟩
  change a ∈ Function.update s.buckets _ _ i
  rcases eq_or_ne i (stringFoldingHash k) with rfl | hik
  · rw [Function.update_self]
    exact List.mem_append_left _ ha
  · rwa [Function.update_of_ne hik]

/-- `heap_insert` of a linked entry that is not in the heap. -/
theorem heapInsert_owned (h : s.Owned) {a : Addr} (ha : ¬ s.Has a) (hl : s.Linked a) (ok : Bool) :
    (s.setTtl (heapInsert ok s.toTtlHeap a).2).Owned := by
  have hi := h.inv.setTtl (heapInsert_kv ok s.toTtlHeap a)
  rcases heapInsert_cases ok s.toTtlHeap a with ⟨-, heq⟩ | ⟨cap, -, heq⟩ <;> rw [heq] at hi ⊢
  · exact h
  · have hins := heapPush_inserted (h := { s.toTtlHeap with capacity := cap }) h.back ha
    refine ⟨hi, hins.back, fun b hb => ?_⟩
    rcases (hins.has b).mp hb with hb | rfl
    · exact h.linked b hb
    · exact hl

theorem renewExpiry_owned (h : s.Owned) {k : Str} {a : Addr} {pre post : List Addr}
    (hat : s.At k a pre post) (duration now : ℤ) (ok : Bool) :
    (renewExpiry s a duration now ok).1.Owned := by
  -- out of the heap
  set s1 := if (s.mem a).heapIndex ≠ sizeMax then s.setTtl (heapRemove s.toTtlHeap a).2 else s
    with hs1
  have h1 : s1.Owned ∧ ¬ s1.Has a ∧ s1.At k a pre post := by
    rw [hs1]
    split_ifs with hidx
    · obtain ⟨ho, hno⟩ := h.heapRemove a
      exact ⟨ho, hno, hat.setTtl (heapRemove_kv s.toTtlHeap a)⟩
    · exact ⟨h, fun hc => hidx (h.index_ne hc), hat⟩
  obtain ⟨ho, hno, hat1⟩ := h1
  -- a new expiry
  have hi2 : (s1.setExpiry a (timeT (now + duration))).Inv :=
    .of_table ho.inv.fresh (ho.inv.table_write hat1 _ rfl)
      (ho.inv.wf.modify k (f := Kv.setExpiry (timeT (now + duration))) fun _ => rfl)
  have ho2 : (s1.setExpiry a (timeT (now + duration))).Owned := by
    refine ho.frame hi2 rfl rfl (fun b hb => ?_) fun b _ hl => hl
    have hne : b ≠ a := fun hc => hno (hc ▸ hb)
    exact congrArg Entry.heapIndex (Function.update_of_ne hne _ _)
  -- and back in
  exact heapInsert_owned ho2 hno ⟨_, hat1.mem⟩ ok

/-- Every call but a pinned delete keeps the heap to linked entries. -/
theorem Db.Owned.step (h : s.Owned) (c : Call) (hp : ¬ s.Pinned c) :
    (s.step maxAllowed c).1.Owned := by
  have hi := h.inv.step_inv maxAllowed c
  have hyields := h.inv.yields maxAllowed c
  generalize (s.step maxAllowed c).1 = s' at hi hyields ⊢
  cases hyields with
  | same => exact h
  | setValue => exact setValue_owned (alloc_owned h _ _) hi
  | full => exact alloc_owned h _ _
  | link => exact link_owned h hi
  | lazily _ hat => exact lazyUnlink_owned h hat
  | delete hat => exact unlink_owned h hat fun hc => hp ⟨_, _, _, hat, hc⟩
  | renew hat => exact renewExpiry_owned h hat _ _ _

/-- A pinned delete leaves a slot that points to the entry it frees. -/
theorem Db.Owned.dangling (h : s.Owned) (c : Call) (hp : s.Pinned c) :
    ¬ (s.step maxAllowed c).1.NoDangling := by
  cases c with
  | delete k =>
    obtain ⟨a, pre, post, hat, ha, hexp⟩ := hp
    change ¬ (hashDelete s k).1.NoDangling
    rw [hashDelete, hat.split, deleteWalk_split s k [] hat.key hat.first]
    exact unlink_dangling h.inv hat ha hexp
  | _ => exact hp.elim

end Calls

/-! ### Whole runs -/

theorem Started.owned {s : Db} (h : Started s) : s.Owned := by
  obtain ⟨hi, h0⟩ := h.inv_empty
  have hno : ∀ j, ¬ j < s.size := fun j hj => by rw [show s.size = 0 from h0] at hj; omega
  exact ⟨hi, fun j hj => absurd hj (hno j), fun a ⟨j, hj, _⟩ => absurd hj (hno j)⟩

/-- CORRECT: along every run from a start, each slot of the heap in use points to a linked entry in
    every state, exactly when no DELETE of the run meets an entry in the heap with expiry
    `LONG_MAX`. -/
theorem no_dangling_iff {s₀ : Db} (h : Started s₀) (calls : List Call) :
    Mealy.Always (Db.step maxAllowed) NoDangling s₀ calls ↔
      Mealy.Never (Db.step maxAllowed) Pinned s₀ calls :=
  Mealy.always_iff_never (I := Owned) (fun _ hs => hs.noDangling) (fun _ c hs hp => hs.step c hp)
    (fun _ c hs hp => hs.dangling c hp) h.owned calls

/-- SET k, then EXPIRE k so that the sum is `LONG_MAX`, then DELETE k. -/
def pinnedCalls : List Call :=
  [.insert (str "k") (str "v") true,
    .updateExpiry (str "k") 9223372036854775707 100 100 true, .delete (str "k")]

/-- After the delete the first slot of the heap points to an entry in no chain. -/
theorem delete_leaves_dangling :
    ¬ ∀ s₀, Started s₀ → ∀ calls : List Call, (s₀.after calls).NoDangling := by
  intro h
  obtain ⟨i, hi⟩ := h htInit .empty pinnedCalls 0 (by decide +kernel)
  have hempty : ∀ i, (htInit.after pinnedCalls).buckets i = [] := by decide +kernel
  rw [hempty i] at hi
  exact absurd hi List.not_mem_nil

/-- With an ordinary expiry the same run leaves nothing behind. -/
theorem no_dangling_iff_short :
    Mealy.Always (Db.step maxAllowed) NoDangling htInit
      [.insert (str "k") (str "v") true, .updateExpiry (str "k") 5 100 100 true,
        .delete (str "k")] := by
  refine (no_dangling_iff .empty _).mpr ?_
  rw [Mealy.never_cons, Mealy.never_cons, Mealy.never_cons]
  refine ⟨id, id, ?_, fun pre c hp => by simp at hp⟩
  rintro ⟨a, pre, post, hat, -, hexp⟩
  have hfind := hat.find
  rw [show Table.find _ (str "k") = some ⟨str "k", str "v", 105⟩ by decide +kernel] at hfind
  have h105 : (105 : ℤ) = longMax := (congrArg Kv.expiry (Option.some.inj hfind)).trans hexp
  exact absurd h105 (by decide)

end SahDB
