import SahDB.TtlInv

/-! The sifts of the TTL heap with every access to the array checked.

    `Ttl` models the array as a function, so it reads any position it is asked for. Here each
    `h->heap[k]` of `swap_nodes`, `compare_ttl`, `shift_up` and `heapify` fails unless `k` is below
    `size`. From a position in use the checked sifts are the unchecked ones (`shiftUpAt_eq`,
    `heapifyAt_eq`): they end, and no position from `size` on is read. What they return then is
    what `Sifted` and the holes of `BinHeap` say of the unchecked ones. -/

namespace SahDB
open BinHeap

/-! ### `ttl.c`, checked -/

/-- `h->heap[k]` -/
def nodeAt (h : TtlHeap) (k : ℕ) : Except Fault Addr :=
  if k < h.size then .ok (h.heap k) else .error .outOfBounds

/-- `swap_nodes` -/
def swapNodesAt (h : TtlHeap) (a b : ℕ) : Except Fault TtlHeap := do
  let tmp ← nodeAt h a
  let e ← nodeAt h b
  let h := { h with heap := Function.update (Function.update h.heap a e) b tmp }
  let h := h.setHeapIndex (← nodeAt h a) a
  return h.setHeapIndex (← nodeAt h b) b

/-- `compare_ttl` on the nodes at `a` and `b`. -/
def compareTtlAt (h : TtlHeap) (a b : ℕ) : Except Fault Bool := do
  let x ← nodeAt h a
  let y ← nodeAt h b
  return decide ((h.mem x).expiry ≤ (h.mem y).expiry)

/-- `shift_up` -/
def shiftUpAt (h : TtlHeap) (i : ℕ) : Except Fault TtlHeap :=
  if _h0 : 0 < i then do
    if ← compareTtlAt h i (parent i) then
      shiftUpAt (← swapNodesAt h i (parent i)) (parent i)
    else return h
  else .ok h
termination_by i
decreasing_by exact parent_lt _h0

/-- The child `c` where it is in use and not to expire after `s`, otherwise `s`. -/
def smallerAt (h : TtlHeap) (s c : ℕ) : Except Fault ℕ :=
  if c < h.size then do
    if ← compareTtlAt h c s then return c else return s
  else .ok s

/-- The node `heapify` moves up into position `i`. -/
def smallestAt (h : TtlHeap) (i : ℕ) : Except Fault ℕ := do
  let s ← smallerAt h i (left i)
  smallerAt h s (right i)

/-! ### Accesses below the size succeed -/

theorem nodeAt_of_lt {h : TtlHeap} {k : ℕ} (hk : k < h.size) : nodeAt h k = .ok (h.heap k) :=
  if_pos hk

theorem compareTtlAt_of_lt {h : TtlHeap} {a b : ℕ} (ha : a < h.size) (hb : b < h.size) :
    compareTtlAt h a b = .ok (compareTtl h a b) := by
  rw [compareTtlAt, nodeAt_of_lt ha, nodeAt_of_lt hb]; rfl

theorem swapNodesAt_of_lt {h : TtlHeap} {a b : ℕ} (ha : a < h.size) (hb : b < h.size) :
    swapNodesAt h a b = .ok (swapNodes h a b) := by
  rw [swapNodesAt, nodeAt_of_lt ha, nodeAt_of_lt hb]
  simp only [bind, Except.bind, nodeAt, TtlHeap.setHeapIndex_size, ha, hb, if_true]
  rfl

theorem swapNodesAt_size {h h' : TtlHeap} {a b : ℕ} (hs : swapNodesAt h a b = .ok h') :
    h'.size = h.size := by
  by_cases ha : a < h.size
  · by_cases hb : b < h.size
    · rw [swapNodesAt_of_lt ha hb] at hs
      cases hs; rfl
    · simp [swapNodesAt, nodeAt, ha, hb, bind, Except.bind] at hs
  · simp [swapNodesAt, nodeAt, ha, bind, Except.bind] at hs

theorem smallerAt_of_lt {h : TtlHeap} {s : ℕ} (hs : s < h.size) (c : ℕ) :
    smallerAt h s c = .ok (if c < h.size ∧ compareTtl h c s then c else s) := by
  rw [smallerAt]
  by_cases hc : c < h.size
  · rw [if_pos hc, compareTtlAt_of_lt hc hs]
    cases hcmp : compareTtl h c s <;> simp [bind, Except.bind, pure, Except.pure, hc]
  · rw [if_neg hc, if_neg fun hcc => hc hcc.1]

theorem smallestAt_of_lt {h : TtlHeap} {i : ℕ} (hi : i < h.size) :
    smallestAt h i = .ok (smallest h i) := by
  rw [smallestAt, smallerAt_of_lt hi]
  refine smallerAt_of_lt ?_ _
  split
  · next hl => exact hl.1
  · exact hi

/-- A choice that succeeds is in use. -/
theorem smallestAt_bounds {h : TtlHeap} {i s : ℕ} (hs : smallestAt h i = .ok s) (hne : s ≠ i) :
    i < s ∧ s < h.size := by
  have hl := lt_left i
  have hr := lt_right i
  by_cases hi : i < h.size
  · rw [smallestAt_of_lt hi] at hs
    cases hs
    exact smallest_bounds h hne
  · rw [smallestAt, smallerAt, if_neg (by omega)] at hs
    simp only [bind, Except.bind, smallerAt] at hs
    rw [if_neg (by omega)] at hs
    cases hs
    exact absurd rfl hne

/-- `heapify` -/
def heapifyAt (h : TtlHeap) (i : ℕ) : Except Fault TtlHeap :=
  match _hs : smallestAt h i with
  | .error f => .error f
  | .ok s =>
    if _hne : s ≠ i then
      match _hw : swapNodesAt h i s with
      | .error f => .error f
      | .ok h' => heapifyAt h' s
    else .ok h
termination_by h.size - i
decreasing_by
  have hb := smallestAt_bounds _hs _hne
  have hz := swapNodesAt_size _hw
  omega

/-! ### From a position in use the check never fails -/

/-- The checked `shift_up` ends with what `shift_up` returns. -/
theorem shiftUpAt_eq (h : TtlHeap) (i : ℕ) (hi : i < h.size) :
    shiftUpAt h i = .ok (shiftUp h i) := by
  induction h, i using shiftUp.induct with
  | case1 h i hc ih =>
    have hp : parent i < h.size := lt_trans (parent_lt hc.1) hi
    rw [shiftUpAt, dif_pos hc.1, compareTtlAt_of_lt hi hp, swapNodesAt_of_lt hi hp, shiftUp,
      dif_pos hc]
    simp only [bind, Except.bind, hc.2, if_true]
    exact ih hp
  | case2 h i hc =>
    rw [shiftUpAt, shiftUp, dif_neg hc]
    by_cases h0 : 0 < i
    · have hp : parent i < h.size := lt_trans (parent_lt h0) hi
      have hcmp : compareTtl h i (parent i) = false := by
        rw [Bool.eq_false_iff]
        exact fun hcc => hc ⟨h0, hcc⟩
      rw [dif_pos h0, compareTtlAt_of_lt hi hp, hcmp]
      rfl
    · rw [dif_neg h0]

/-- One round of the checked `heapify`. -/
theorem heapifyAt_of_lt {h : TtlHeap} {i : ℕ} (hi : i < h.size) :
    heapifyAt h i = if smallest h i ≠ i then
      heapifyAt (swapNodes h i (smallest h i)) (smallest h i) else .ok h := by
  rw [heapifyAt]
  split
  · next f hf => rw [smallestAt_of_lt hi] at hf; cases hf
  · next s hok =>
    rw [smallestAt_of_lt hi] at hok
    cases hok
    split_ifs with hne
    · have hs := (smallest_bounds h hne).2
      split
      · next f hf => rw [swapNodesAt_of_lt hi hs] at hf; cases hf
      · next h' hw =>
        rw [swapNodesAt_of_lt hi hs] at hw
        cases hw
        rfl
    · rfl

/-- The checked `heapify` ends with what `heapify` returns. -/
theorem heapifyAt_eq (h : TtlHeap) (i : ℕ) (hi : i < h.size) :
    heapifyAt h i = .ok (heapify h i) := by
  induction h, i using heapify.induct with
  | case1 h i hne ih =>
    rw [heapifyAt_of_lt hi, heapify, if_pos hne, dif_pos hne]
    exact ih (smallest_bounds h hne).2
  | case2 h i he => rw [heapifyAt_of_lt hi, heapify, if_neg he, dif_neg he]

/-! ### One bad position -/

/-- `h'` is `h` put in order: the same entries, each with its new position. -/
structure Repaired (h h' : TtlHeap) : Prop where
  sifted : Sifted h h'
  back : h'.Back
  ordered : h'.Ordered

/-- CORRECT: a sift started at a position in use ends without reading past the nodes in use, and
    where the heap was in order but for the pairs below that position (`heapify`) or the pair above
    it (`shift_up`) the result is in order. -/
theorem sift_repairs (h : TtlHeap) (hb : h.Back) (i : ℕ) (hi : i < h.size) :
    (DownHole h.expiry h.heap h.size i →
      heapifyAt h i = .ok (heapify h i) ∧ Repaired h (heapify h i)) ∧
    (UpHole h.expiry h.heap h.size i →
      shiftUpAt h i = .ok (shiftUp h i) ∧ Repaired h (shiftUp h i)) := by
  have hdown := heapify_sifted h i
  have hup := shiftUp_sifted h i hi
  refine ⟨fun hole => ⟨heapifyAt_eq h i hi, ?_⟩, fun hole => ⟨shiftUpAt_eq h i hi, ?_⟩⟩
  · exact ⟨hdown, hdown.back hb, heapify_ordered h i hole⟩
  · exact ⟨hup, hup.back hb, shiftUp_ordered h i hi hole⟩

/-- A heap of entries that expire at the given times, each at its own position. -/
def heapOf (ts : List ℤ) : TtlHeap := ⟨fun e => ⟨[], [], ts.getD e 0, e⟩, id, ts.length, 16⟩

/-- Both sifts at work: the root expires after its children, then the last node before its
    parent. -/
theorem sift_repairs_small :
    (heapifyAt (heapOf [5, 3, 4]) 0 = .ok (heapify (heapOf [5, 3, 4]) 0) ∧
      Repaired (heapOf [5, 3, 4]) (heapify (heapOf [5, 3, 4]) 0)) ∧
    shiftUpAt (heapOf [2, 3, 1]) 2 = .ok (shiftUp (heapOf [2, 3, 1]) 2) ∧
      Repaired (heapOf [2, 3, 1]) (shiftUp (heapOf [2, 3, 1]) 2) := by
  have hback : ∀ ts, (heapOf ts).Back := fun _ _ _ => rfl
  refine ⟨(sift_repairs _ (hback _) 0 (by decide)).1 ⟨?_, ?_⟩,
    (sift_repairs _ (hback _) 2 (by decide)).2 ⟨?_, ?_⟩⟩
  · intro j h0 hj hp
    change j < 3 at hj
    unfold parent at hp
    omega
  · intro j h0
    omega
  · intro j h0 hj hne
    change j < 3 at hj
    obtain rfl : j = 1 := by omega
    decide
  · intro j _ _ hj hp
    change j < 3 at hj
    unfold parent at hp
    omega

end SahDB
