import SahDB.Ttl

/-! The representation invariant of the TTL heap.

    The sifts of `ttl.c` repair the two kinds of hole of `BinHeap`. Each operation is described
    once, by what it does to the set of entries in the heap (`Inserted`, `Removed`); the invariant
    `Valid` (room, back-pointers, heap order) of every heap built from an empty one follows by
    induction on the run. -/

namespace SahDB
open BinHeap

/-! ### The sifts repair their hole -/

theorem compareTtl_iff (h : TtlHeap) (a b : ℕ) :
    compareTtl h a b ↔ h.expiry (h.heap a) ≤ h.expiry (h.heap b) := by
  rw [compareTtl, decide_eq_true_iff]; rfl

/-- Heap order of the nodes in use. -/
def TtlHeap.Ordered (h : TtlHeap) : Prop := BinHeap.Ordered h.expiry h.heap h.size

theorem shiftUp_ordered (h : TtlHeap) (i : ℕ) (hi : i < h.size)
    (hole : UpHole h.expiry h.heap h.size i) : (shiftUp h i).Ordered := by
  induction h, i using shiftUp.induct with
  | case1 h i hc ih =>
    have hp := parent_lt hc.1
    have hle := (compareTtl_iff ..).mp hc.2
    rw [shiftUp, dif_pos hc]
    refine ih (by rw [swapNodes_size]; omega) ?_
    rw [swapNodes_expiry]
    exact hole.step hi hc.1 hle
  | case2 h i hc =>
    rw [shiftUp, dif_neg hc]
    rw [compareTtl_iff] at hc
    exact hole.stop hc

theorem le_of_compareTtl_false {h : TtlHeap} {a b : ℕ} (hc : ¬ compareTtl h a b) :
    h.expiry (h.heap b) ≤ h.expiry (h.heap a) := by
  rw [compareTtl_iff] at hc
  exact le_of_not_ge hc

/-- The node `heapify` chooses expires no later than position `i` and its children. -/
theorem smallest_le (h : TtlHeap) (i : ℕ) :
    h.expiry (h.heap (smallest h i)) ≤ h.expiry (h.heap i) ∧
    (left i < h.size → h.expiry (h.heap (smallest h i)) ≤ h.expiry (h.heap (left i))) ∧
    (right i < h.size → h.expiry (h.heap (smallest h i)) ≤ h.expiry (h.heap (right i))) := by
  unfold smallest
  dsimp only
  by_cases hl : left i < h.size ∧ compareTtl h (left i) i
  · have hli := (compareTtl_iff ..).mp hl.2
    rw [if_pos hl]
    by_cases hr : right i < h.size ∧ compareTtl h (right i) (left i)
    · have hrl := (compareTtl_iff ..).mp hr.2
      rw [if_pos hr]
      exact ⟨le_trans hrl hli, fun _ => hrl, fun _ => le_refl _⟩
    · rw [if_neg hr]
      exact ⟨hli, fun _ => le_refl _, fun hlt => le_of_compareTtl_false fun hc => hr ⟨hlt, hc⟩⟩
  · rw [if_neg hl]
    have hil : left i < h.size → h.expiry (h.heap i) ≤ h.expiry (h.heap (left i)) :=
      fun hlt => le_of_compareTtl_false fun hc => hl ⟨hlt, hc⟩
    by_cases hr : right i < h.size ∧ compareTtl h (right i) i
    · have hri := (compareTtl_iff ..).mp hr.2
      rw [if_pos hr]
      exact ⟨hri, fun hlt => le_trans hri (hil hlt), fun _ => le_refl _⟩
    · rw [if_neg hr]
      exact ⟨le_refl _, hil, fun hlt => le_of_compareTtl_false fun hc => hr ⟨hlt, hc⟩⟩

theorem smallest_cases (h : TtlHeap) (i : ℕ) :
    smallest h i = i ∨ smallest h i = left i ∨ smallest h i = right i := by
  unfold smallest
  dsimp only
  split_ifs <;> simp

theorem heapify_ordered (h : TtlHeap) (i : ℕ) (hole : DownHole h.expiry h.heap h.size i) :
    (heapify h i).Ordered := by
  induction h, i using heapify.induct with
  | case1 h i hne ih =>
    obtain ⟨hlt, hsz⟩ := smallest_bounds h hne
    obtain ⟨hi, hl, hr⟩ := smallest_le h i
    have hpar : parent (smallest h i) = i := by
      rcases smallest_cases h i with he | he | he
      · exact absurd he hne
      · rw [he, parent_left]
      · rw [he, parent_right]
    rw [heapify, dif_pos hne]
    refine ih ?_
    rw [swapNodes_expiry]
    refine hole.step hsz (by omega) hpar hi fun j h0 hj hpj => ?_
    rcases eq_left_or_right h0 hpj with rfl | rfl
    · exact hl hj
    · exact hr hj
  | case2 h i he =>
    rw [heapify, dif_neg he]
    obtain ⟨-, hl, hr⟩ := smallest_le h i
    rw [not_not.mp he] at hl hr
    exact hole.stop hl hr

/-! ### What each operation does to the set of entries -/

/-- `h'` is `h` with `e` taken out. -/
structure Removed (h : TtlHeap) (e : Addr) (h' : TtlHeap) : Prop where
  size : h'.size + 1 = h.size
  capacity : h'.capacity = h.capacity
  kv : h'.kv = h.kv
  has : ∀ x, h'.Has x ↔ h.Has x ∧ x ≠ e
  back : h'.Back
  outside : ∀ x, ¬ h.Has x → h'.mem x = h.mem x

/-- `h'` is `h` with `e` put in. -/
structure Inserted (h : TtlHeap) (e : Addr) (h' : TtlHeap) : Prop where
  size : h'.size = h.size + 1
  kv : h'.kv = h.kv
  has : ∀ x, h'.Has x ↔ h.Has x ∨ x = e
  back : h'.Back
  outside : ∀ x, ¬ h.Has x → x ≠ e → h'.mem x = h.mem x

/-- Forgetting the last node in use takes its entry out. -/
theorem removed_last {h : TtlHeap} (hb : h.Back) (h0 : 0 < h.size) :
    Removed h (h.heap (h.size - 1)) { h with size := h.size - 1 } where
  size := by simp only; omega
  capacity := rfl
  kv := rfl
  has x := by
    constructor
    · rintro ⟨j, hj, rfl⟩
      change j < h.size - 1 at hj
      refine ⟨⟨j, by omega, rfl⟩, fun he => ?_⟩
      have := hb.inj (by omega) (by omega) he
      omega
    · rintro ⟨⟨j, hj, rfl⟩, hne⟩
      refine ⟨j, ?_, rfl⟩
      change j < h.size - 1
      rcases Nat.lt_or_ge j (h.size - 1) with hlt | hge
      · exact hlt
      · exact absurd (by rw [show j = h.size - 1 by omega]) hne
  back j hj := hb j (by simp only at hj; omega)
  outside _ _ := rfl

theorem Removed.sift {h h' h'' : TtlHeap} {e : Addr} (r : Removed h e h') (s : Sifted h' h'') :
    Removed h e h'' where
  size := by rw [s.size]; exact r.size
  capacity := s.capacity.trans r.capacity
  kv := s.kv.trans r.kv
  has x := (s.has x).trans (r.has x)
  back := s.back r.back
  outside x hx := (s.outside x fun hc => hx ((r.has x).mp hc).1).trans (r.outside x hx)

theorem Sifted.removed {h h' h'' : TtlHeap} {e : Addr} (s : Sifted h h') (r : Removed h' e h'') :
    Removed h e h'' where
  size := r.size.trans s.size
  capacity := r.capacity.trans s.capacity
  kv := r.kv.trans s.kv
  has x := by rw [r.has, s.has]
  back := r.back
  outside x hx := (r.outside x fun hc => hx ((s.has x).mp hc)).trans (s.outside x hx)

/-- Writing the index of an entry that is out of the heap. -/
theorem Removed.setHeapIndex {h h' : TtlHeap} {e : Addr} (r : Removed h e h') (he : h.Has e)
    (i : ℕ) : Removed h e (h'.setHeapIndex e i) where
  size := r.size
  capacity := r.capacity
  kv := (TtlHeap.setHeapIndex_kv ..).trans r.kv
  has := r.has
  back j hj := by
    have hne : h'.heap j ≠ e := ((r.has _).mp ⟨j, hj, rfl⟩).2
    rw [TtlHeap.setHeapIndex_heap, TtlHeap.setHeapIndex_mem_of_ne _ _ hne]
    exact r.back j hj
  outside x hx := by
    have hne : x ≠ e := fun hc => hx (hc ▸ he)
    rw [TtlHeap.setHeapIndex_mem_of_ne _ _ hne, r.outside x hx]

/-! ### `heap_remove` -/

/-- `heap_remove` of an entry that is not at its position does nothing. -/
theorem heapRemove_not_occupies {h : TtlHeap} {e : Addr}
    (he : ¬ ((h.mem e).heapIndex < h.size ∧ h.heap (h.mem e).heapIndex = e)) :
    heapRemove h e = (dbErrKeyNotexist, h) := by
  rw [heapRemove]
  dsimp only
  rw [if_pos]
  by_contra hc
  rw [not_or, not_le, not_not] at hc
  exact he hc

/-- An entry in no node is refused and nothing changes. -/
theorem heapRemove_of_not_has {h : TtlHeap} {e : Addr} (he : ¬ h.Has e) :
    heapRemove h e = (dbErrKeyNotexist, h) :=
  heapRemove_not_occupies fun hc => he ⟨_, hc⟩

theorem swapOut_removed {h : TtlHeap} (hb : h.Back) {i : ℕ} {e : Addr} (hi : i < h.size)
    (he : h.heap i = e) : Removed h e (swapOut h i e) := by
  have hs := swapNodes_sifted hi (show h.size - 1 < h.size by omega)
  have hr := removed_last (hs.back hb) (by rw [hs.size]; omega)
  simp only [swapNodes_size, swapNodes_heap, swap_right, he] at hr
  exact (hs.removed hr).setHeapIndex ⟨i, hi, he⟩ sizeMax

@[simp] theorem swapOut_expiry (h : TtlHeap) (i : ℕ) (e : Addr) :
    (swapOut h i e).expiry = h.expiry :=
  TtlHeap.expiry_congr ((TtlHeap.setHeapIndex_kv ..).trans (swapNodes_kv ..))

/-- Only position `i` changed, for the nodes that remain. -/
theorem swapOut_patched {h : TtlHeap} (ho : h.Ordered) (i : ℕ) (e : Addr) :
    Patched (swapOut h i e).expiry (swapOut h i e).heap (swapOut h i e).size i := by
  rw [swapOut_expiry]
  refine (ho.mono (Nat.sub_le h.size 1)).patched fun j hji hj => ?_
  exact swap_of_ne _ hji (by change j < h.size - 1 at hj; omega)

/-- `heap_remove` of an entry that is at its position forgets the last node, or puts this node in
    the place of the entry, where it goes up or down and heap order is back. -/
theorem heapRemove_cases {h : TtlHeap} {e : Addr} (hlt : (h.mem e).heapIndex < h.size)
    (hat : h.heap (h.mem e).heapIndex = e) :
    ((h.mem e).heapIndex = h.size - 1 ∧
      heapRemove h e = (dbErrOk, { h with size := h.size - 1 }.setHeapIndex e sizeMax)) ∨
    ∃ h', (h.mem e).heapIndex < h.size - 1 ∧ heapRemove h e = (dbErrOk, h') ∧
      Sifted (swapOut h (h.mem e).heapIndex e) h' ∧ (h.Ordered → h'.Ordered) := by
  rw [heapRemove]
  dsimp only
  rw [if_neg (by rw [not_or, not_le, not_not]; exact ⟨hlt, hat⟩)]
  generalize (h.mem e).heapIndex = i at hlt
  by_cases hlast : i = h.size - 1
  · rw [if_pos hlast]
    exact .inl ⟨hlast, rfl⟩
  · have hi : i < h.size - 1 := by omega
    rw [if_neg hlast]
    split_ifs with hc
    · refine .inr ⟨_, hi, rfl, shiftUp_sifted _ _ hi, fun ho => shiftUp_ordered _ _ hi ?_⟩
      exact (swapOut_patched ho i e).upHole hc.1 ((compareTtl_iff ..).mp hc.2)
    · rw [compareTtl_iff] at hc
      refine .inr ⟨_, hi, rfl, heapify_sifted _ _, fun ho => heapify_ordered _ _ ?_⟩
      exact (swapOut_patched ho i e).downHole hc

/-- `heap_remove` of an entry in the heap takes it out and clears its index. -/
theorem heapRemove_removed {h : TtlHeap} (hb : h.Back) {e : Addr} (he : h.Has e) :
    (heapRemove h e).1 = dbErrOk ∧ Removed h e (heapRemove h e).2 ∧
      ((heapRemove h e).2.mem e).heapIndex = sizeMax := by
  obtain ⟨hlt, hat⟩ := hb.index he
  rcases heapRemove_cases hlt hat with ⟨hlast, heq⟩ | ⟨h', hi, heq, hs, -⟩
  · have hend : h.heap (h.size - 1) = e := hlast ▸ hat
    have hr := removed_last hb (by omega)
    rw [hend] at hr
    rw [heq]
    exact ⟨rfl, hr.setHeapIndex he sizeMax, TtlHeap.setHeapIndex_index ..⟩
  · have hR := swapOut_removed hb hlt hat
    have hidx : ((swapOut h (h.mem e).heapIndex e).mem e).heapIndex = sizeMax :=
      TtlHeap.setHeapIndex_index ..
    have hout : ¬ (swapOut h (h.mem e).heapIndex e).Has e := fun hc => ((hR.has e).mp hc).2 rfl
    rw [heq]
    exact ⟨rfl, hR.sift hs, by rw [hs.outside e hout, hidx]⟩

theorem heapRemove_ordered {h : TtlHeap} (ho : h.Ordered) (e : Addr) :
    (heapRemove h e).2.Ordered := by
  by_cases he : (h.mem e).heapIndex < h.size ∧ h.heap (h.mem e).heapIndex = e
  · rcases heapRemove_cases he.1 he.2 with ⟨-, heq⟩ | ⟨h', -, heq, -, hord⟩
    · rw [heq]
      simp only [TtlHeap.Ordered, TtlHeap.expiry_congr (TtlHeap.setHeapIndex_kv ..)]
      exact ho.mono (Nat.sub_le _ _)
    · rw [heq]
      exact hord ho
  · rw [heapRemove_not_occupies he]
    exact ho

theorem heapRemove_kv (h : TtlHeap) (e : Addr) : (heapRemove h e).2.kv = h.kv := by
  by_cases he : (h.mem e).heapIndex < h.size ∧ h.heap (h.mem e).heapIndex = e
  · rcases heapRemove_cases he.1 he.2 with ⟨-, heq⟩ | ⟨h', -, heq, hs, -⟩
    · rw [heq]
      exact TtlHeap.setHeapIndex_kv ..
    · rw [heq]
      exact hs.kv.trans ((TtlHeap.setHeapIndex_kv ..).trans (swapNodes_kv ..))
  · rw [heapRemove_not_occupies he]

/-! ### `heap_pop` -/

theorem heapPop_removed {h : TtlHeap} (hb : h.Back) (h0 : 0 < h.size) :
    (heapPop h).1 = some (h.heap 0) ∧ Removed h (h.heap 0) (heapPop h).2 ∧
      ((heapPop h).2.mem (h.heap 0)).heapIndex = sizeMax := by
  have he : h.Has (h.heap 0) := ⟨0, h0, rfl⟩
  have hs := swapNodes_sifted h0 (show h.size - 1 < h.size by omega)
  have hr := removed_last (hs.back hb) (by rw [hs.size]; omega)
  simp only [swapNodes_size, swapNodes_heap, swap_right] at hr
  have hR := hs.removed hr
  rw [heapPop, if_neg (by omega)]
  dsimp only
  refine ⟨rfl, ?_, by simp⟩
  refine Removed.setHeapIndex ?_ he sizeMax
  split_ifs
  · exact hR.sift (heapify_sifted _ 0)
  · exact hR

theorem heapPop_ordered {h : TtlHeap} (ho : h.Ordered) : (heapPop h).2.Ordered := by
  rw [heapPop]
  split_ifs with h0
  · exact ho
  · simp only [TtlHeap.Ordered, TtlHeap.expiry_congr (TtlHeap.setHeapIndex_kv ..)]
    split_ifs with hpos
    · refine heapify_ordered _ 0 (Patched.downHole ?_ (by simp))
      change Patched (swapNodes h 0 (h.size - 1)).expiry (swap h.heap 0 (h.size - 1))
        (h.size - 1) 0
      rw [swapNodes_expiry]
      refine (ho.mono (Nat.sub_le _ _)).patched fun j hj0 hj => ?_
      exact swap_of_ne _ hj0 (by omega)
    · intro j _ hj
      exact absurd hj (by change ¬ j < h.size - 1; simp only [swapNodes_size] at hpos; omega)

/-! ### `heap_insert` -/

theorem heapPush_inserted {h : TtlHeap} (hb : h.Back) {e : Addr} (he : ¬ h.Has e) :
    Inserted h e (heapPush h e) := by
  rw [heapPush]
  generalize hh : TtlHeap.setHeapIndex _ e h.size = h'
  have hsize : h'.size = h.size + 1 := by rw [← hh]; rfl
  have hheap : h'.heap = Function.update h.heap h.size e := by rw [← hh]; rfl
  have hslot : ∀ j, j < h.size → h'.heap j = h.heap j := by
    intro j hj
    rw [hheap, Function.update_of_ne (by omega)]
  have hlast : h'.heap h.size = e := by rw [hheap, Function.update_self]
  have hmem : ∀ x, x ≠ e → h'.mem x = h.mem x := by
    intro x hx
    rw [← hh, TtlHeap.setHeapIndex_mem_of_ne _ _ hx]
  have hback : h'.Back := by
    intro j hj
    rcases Nat.lt_or_ge j h.size with hlt | hge
    · have hne : h.heap j ≠ e := fun hc => he ⟨j, hlt, hc⟩
      rw [hslot j hlt, hmem _ hne]
      exact hb j hlt
    · rw [show j = h.size by omega, hlast, ← hh, TtlHeap.setHeapIndex_index]
  have hhas : ∀ x, h'.Has x ↔ h.Has x ∨ x = e := by
    intro x
    constructor
    · rintro ⟨j, hj, rfl⟩
      rcases Nat.lt_or_ge j h.size with hlt | hge
      · exact Or.inl ⟨j, hlt, (hslot j hlt).symm⟩
      · exact Or.inr (by rw [show j = h.size by omega, hlast])
    · rintro (⟨j, hj, rfl⟩ | rfl)
      · exact ⟨j, by omega, hslot j hj⟩
      · exact ⟨h.size, by omega, hlast⟩
  have hs := shiftUp_sifted h' h.size (by omega)
  exact
    { size := hs.size.trans hsize
      kv := hs.kv.trans (by rw [← hh, TtlHeap.setHeapIndex_kv]; rfl)
      has := fun x => (hs.has x).trans (hhas x)
      back := hs.back hback
      outside := fun x hx hne =>
        (hs.outside x fun hc => ((hhas x).mp hc).elim hx hne).trans (hmem x hne) }

theorem heapPush_ordered {h : TtlHeap} (ho : h.Ordered) (e : Addr) : (heapPush h e).Ordered := by
  rw [heapPush]
  refine shiftUp_ordered _ _ (by simp) ?_
  rw [TtlHeap.expiry_congr (TtlHeap.setHeapIndex_kv ..)]
  refine Ordered.upHole_last fun j h0 hj => ?_
  have hp := parent_lt h0
  simp only [TtlHeap.setHeapIndex_heap]
  rw [Function.update_of_ne (by omega), Function.update_of_ne (by omega)]
  exact ho j h0 hj

theorem heapPush_capacity (h : TtlHeap) (e : Addr) : (heapPush h e).capacity = h.capacity := by
  rw [heapPush]; exact (shiftUp_sifted _ _ (by simp)).capacity

/-- What `heap_insert` can do: refuse for want of memory, or push after making room. -/
theorem heapInsert_cases (ok : Bool) (h : TtlHeap) (e : Addr) :
    (ok = false ∧ heapInsert ok h e = (dbErrNomem, h)) ∨
    ∃ cap, (h.size ≤ h.capacity → h.size < cap) ∧
      heapInsert ok h e = (dbErrOk, heapPush { h with capacity := cap } e) := by
  unfold heapInsert
  by_cases hfull : h.size = h.capacity
  · rw [if_pos hfull]
    cases ok with
    | false => exact Or.inl ⟨rfl, rfl⟩
    | true =>
      refine Or.inr ⟨_, fun _ => ?_, rfl⟩
      split <;> omega
  · rw [if_neg hfull]
    exact Or.inr ⟨h.capacity, fun hle => by omega, rfl⟩

theorem heapInsert_kv (ok : Bool) (h : TtlHeap) (e : Addr) : (heapInsert ok h e).2.kv = h.kv := by
  rcases heapInsert_cases ok h e with ⟨-, heq⟩ | ⟨cap, -, heq⟩ <;> rw [heq]
  exact (shiftUp_sifted _ _ (by simp)).kv.trans (TtlHeap.setHeapIndex_kv ..)

/-! ### Every heap built from an empty one -/

/-- The representation invariant of `ttl_heap`. -/
structure TtlHeap.Valid (h : TtlHeap) : Prop where
  fits : h.size ≤ h.capacity
  back : h.Back
  order : h.Ordered

/-- A call on the heap, or any change to an entry (`touch`) while it is outside the heap. -/
inductive HeapOp where
  | insert (e : Addr) (reallocOk : Bool)
  | remove (e : Addr)
  | pop
  | touch (e : Addr) (cell : Entry)

/-- Entries are inserted and changed only while they are outside the heap. -/
def HeapOp.Allowed (h : TtlHeap) : HeapOp → Prop
  | .insert e _ => ¬ h.Has e
  | .touch e _ => ¬ h.Has e
  | .remove _ => True
  | .pop => True

def HeapOp.apply (h : TtlHeap) : HeapOp → TtlHeap
  | .insert e ok => (heapInsert ok h e).2
  | .remove e => (heapRemove h e).2
  | .pop => (heapPop h).2
  | .touch e cell => { h with mem := Function.update h.mem e cell }

/-- The heaps that a sequence of allowed operations builds from an empty heap. -/
inductive HeapRun : TtlHeap → Prop where
  | empty {h : TtlHeap} (h0 : h.size = 0) : HeapRun h
  | op {h : TtlHeap} (run : HeapRun h) (o : HeapOp) (ok : o.Allowed h) : HeapRun (o.apply h)

theorem TtlHeap.Valid.insert {h : TtlHeap} (hv : h.Valid) {e : Addr} (he : ¬ h.Has e)
    (ok : Bool) : (heapInsert ok h e).2.Valid := by
  rcases heapInsert_cases ok h e with ⟨-, heq⟩ | ⟨cap, hcap, heq⟩ <;> rw [heq]
  · exact hv
  · have hb : TtlHeap.Back { h with capacity := cap } := hv.back
    have hi := heapPush_inserted hb (e := e) he
    refine ⟨?_, hi.back, heapPush_ordered (h := { h with capacity := cap }) hv.order e⟩
    rw [hi.size, heapPush_capacity]
    exact hcap hv.fits

theorem TtlHeap.Valid.remove {h : TtlHeap} (hv : h.Valid) (e : Addr) :
    (heapRemove h e).2.Valid := by
  by_cases he : h.Has e
  · obtain ⟨-, hr, -⟩ := heapRemove_removed hv.back he
    refine ⟨?_, hr.back, heapRemove_ordered hv.order e⟩
    have := hr.size
    rw [hr.capacity]
    exact le_trans (by omega) hv.fits
  · rw [heapRemove_of_not_has he]; exact hv

theorem TtlHeap.Valid.pop {h : TtlHeap} (hv : h.Valid) : (heapPop h).2.Valid := by
  rcases Nat.eq_zero_or_pos h.size with h0 | h0
  · rw [heapPop, if_pos h0]; exact hv
  · obtain ⟨-, hr, -⟩ := heapPop_removed hv.back h0
    refine ⟨?_, hr.back, heapPop_ordered hv.order⟩
    have := hr.size
    rw [hr.capacity]
    exact le_trans (by omega) hv.fits

theorem TtlHeap.Valid.touch {h : TtlHeap} (hv : h.Valid) {e : Addr} (he : ¬ h.Has e)
    (cell : Entry) : TtlHeap.Valid { h with mem := Function.update h.mem e cell } := by
  have hmem : ∀ j, j < h.size → Function.update h.mem e cell (h.heap j) = h.mem (h.heap j) :=
    fun j hj => Function.update_of_ne (fun hc => he ⟨j, hj, hc⟩) _ _
  refine ⟨hv.fits, fun j hj => ?_, fun j h0 hj => ?_⟩
  · change (Function.update h.mem e cell (h.heap j)).heapIndex = j
    rw [hmem j hj]
    exact hv.back j hj
  · have hp := parent_lt h0
    change (Function.update h.mem e cell (h.heap (parent j))).expiry ≤
      (Function.update h.mem e cell (h.heap j)).expiry
    rw [hmem j hj, hmem (parent j) (by have : j < h.size := hj; omega)]
    exact hv.order j h0 hj

theorem HeapRun.valid {h : TtlHeap} (run : HeapRun h) : h.Valid := by
  induction run with
  | empty h0 =>
    refine ⟨by omega, fun j hj => ?_, fun j _ hj => ?_⟩ <;> omega
  | op _ o ok ih =>
    cases o with
    | insert e r => exact ih.insert ok r
    | remove e => exact ih.remove e
    | pop => exact ih.pop
    | touch e cell => exact ih.touch ok cell

/-- CORRECT: in every heap built from an empty one, the nodes in use fit the array, each entry knows
    its position (so none occurs twice) and no entry expires before its parent; `heap_remove`
    succeeds exactly on the entries in the heap and otherwise changes nothing; and an entry that
    was removed or popped is marked as outside. -/
theorem heap_run_invariant {h : TtlHeap} (run : HeapRun h) :
    h.size ≤ h.capacity ∧
    (∀ j, j < h.size → (h.mem (h.heap j)).heapIndex = j) ∧
    (∀ i j, i < h.size → j < h.size → h.heap i = h.heap j → i = j) ∧
    (∀ j, 0 < j → j < h.size →
      (h.mem (h.heap ((j - 1) / 2))).expiry ≤ (h.mem (h.heap j)).expiry) ∧
    (∀ e, (heapRemove h e).1 = dbErrOk ↔ h.Has e) ∧
    (∀ e, ¬ h.Has e → (heapRemove h e).2 = h) ∧
    (∀ e, h.Has e → ((heapRemove h e).2.mem e).heapIndex = sizeMax) ∧
    (∀ e, (heapPop h).1 = some e → ((heapPop h).2.mem e).heapIndex = sizeMax) := by
  have hv := run.valid
  refine ⟨hv.fits, hv.back, fun i j => hv.back.inj, hv.order,
    fun e => ⟨fun hok => ?_, fun he => ?_⟩,
    fun e he => ?_, fun e he => ?_, fun e he => ?_⟩
  · by_contra he
    rw [heapRemove_of_not_has he] at hok
    exact absurd (show dbErrKeyNotexist = dbErrOk from hok) (by decide)
  · exact (heapRemove_removed hv.back he).1
  · rw [heapRemove_of_not_has he]
  · exact (heapRemove_removed hv.back he).2.2
  · rcases Nat.eq_zero_or_pos h.size with h0 | h0
    · rw [heapPop, if_pos h0] at he; exact absurd he (by simp)
    · obtain ⟨hfst, -, hidx⟩ := heapPop_removed hv.back h0
      rw [hfst, Option.some.injEq] at he
      rw [← he]; exact hidx

/-- A heap of two entries, the second inserted expiring first. -/
theorem heap_run_invariant_two :
    let h := (heapInsert true (heapInsert true
      (ttlInit fun e => ⟨[], [], if e = 1 then 20 else 10, sizeMax⟩) 1).2 2).2
    (heapRemove h 1).1 = dbErrOk ∧ ((heapRemove h 1).2.mem 1).heapIndex = sizeMax := by
  intro h
  have run : HeapRun h := ((HeapRun.empty rfl).op (.insert 1 true) (by
    simp [HeapOp.Allowed, TtlHeap.Has, ttlInit])).op (.insert 2 true) (by
    simp only [HeapOp.Allowed, TtlHeap.Has]; decide +kernel)
  have has : h.Has 1 := by simp only [TtlHeap.Has]; decide +kernel
  obtain ⟨-, -, -, -, hok, -, hidx, -⟩ := heap_run_invariant run
  exact ⟨(hok 1).mpr has, hidx 1 has⟩

end SahDB
