import SahDB.Common
import SahDB.Lib.BinHeap

/-! The TTL heap (`ttl.c`): a min-heap of pointers to entries, ordered by expiry, in which every
    entry also stores its own position (`heap_index`).

    Entries live in cells named by addresses, and the heap array holds addresses. A `TtlHeap` is
    `ttl_heap` together with the cells its nodes point to, since every exchange of two nodes also
    writes the two entries. None of the operations touches a key, a value or an expiry (`kv` is
    unchanged); the sifts only rearrange (`Sifted`). -/

namespace SahDB
open BinHeap

/-- Where an entry is allocated. -/
abbrev Addr := ℕ

/-- `struct Entry`, without the links of the chain it is in. -/
structure Entry where
  key : Str
  value : Str
  expiry : ℤ
  heapIndex : ℕ
  deriving DecidableEq, Repr

/-- What a client can see of an entry. -/
structure Kv where
  key : Str
  value : Str
  expiry : ℤ
  deriving DecidableEq, Repr

def Entry.kv (e : Entry) : Kv := ⟨e.key, e.value, e.expiry⟩

/-- `struct ttl_heap` and the entry cells. -/
structure TtlHeap where
  mem : Addr → Entry
  heap : ℕ → Addr
  size : ℕ
  capacity : ℕ

namespace TtlHeap

/-- The visible part of every cell. -/
def kv (h : TtlHeap) (e : Addr) : Kv := (h.mem e).kv

/-- The key the heap is ordered by. -/
def expiry (h : TtlHeap) (e : Addr) : ℤ := (h.kv e).expiry

/-- Some node in use points to `e`. -/
def Has (h : TtlHeap) (e : Addr) : Prop := ∃ j, j < h.size ∧ h.heap j = e

/-- Every node in use points to an entry that knows its position. -/
def Back (h : TtlHeap) : Prop := ∀ j, j < h.size → (h.mem (h.heap j)).heapIndex = j

def setHeapIndex (h : TtlHeap) (e : Addr) (i : ℕ) : TtlHeap :=
  { h with mem := Function.update h.mem e { h.mem e with heapIndex := i } }

end TtlHeap

/-! ### `ttl.c` -/

/-- `swap_nodes` -/
def swapNodes (h : TtlHeap) (a b : ℕ) : TtlHeap :=
  let h := { h with heap := swap h.heap a b }
  let h := h.setHeapIndex (h.heap a) a
  h.setHeapIndex (h.heap b) b

/-- `compare_ttl` on the nodes at `a` and `b`: not to expire after. -/
def compareTtl (h : TtlHeap) (a b : ℕ) : Bool :=
  decide ((h.mem (h.heap a)).expiry ≤ (h.mem (h.heap b)).expiry)

/-- `shift_up` -/
def shiftUp (h : TtlHeap) (i : ℕ) : TtlHeap :=
  if _h : 0 < i ∧ compareTtl h i (parent i) then
    shiftUp (swapNodes h i (parent i)) (parent i)
  else h
termination_by i
decreasing_by exact parent_lt _h.1

/-- The node `heapify` moves up into position `i`: `i` itself or one of its children. -/
def smallest (h : TtlHeap) (i : ℕ) : ℕ :=
  let s := if left i < h.size ∧ compareTtl h (left i) i then left i else i
  if right i < h.size ∧ compareTtl h (right i) s then right i else s

theorem smallest_bounds (h : TtlHeap) {i : ℕ} (hne : smallest h i ≠ i) :
    i < smallest h i ∧ smallest h i < h.size := by
  have hl := lt_left i
  have hr := lt_right i
  revert hne
  unfold smallest
  dsimp only
  split_ifs <;> omega

/-- `heapify` -/
def heapify (h : TtlHeap) (i : ℕ) : TtlHeap :=
  if _h : smallest h i ≠ i then heapify (swapNodes h i (smallest h i)) (smallest h i) else h
termination_by h.size - i
decreasing_by
  have := smallest_bounds h _h
  simp only [swapNodes, TtlHeap.setHeapIndex]
  omega

/-- The part of `heap_insert` after the array has room. -/
def heapPush (h : TtlHeap) (e : Addr) : TtlHeap :=
  let i := h.size
  let h := { h with size := h.size + 1, heap := Function.update h.heap i e }
  shiftUp (h.setHeapIndex e i) i

/-- `heap_insert`; `reallocOk` is the outcome of the reallocation a full array needs. -/
def heapInsert (reallocOk : Bool) (h : TtlHeap) (e : Addr) : Err × TtlHeap :=
  if h.size = h.capacity then
    if reallocOk then
      let newCap := if h.capacity ≠ 0 then h.capacity * 2 else 16
      (dbErrOk, heapPush { h with capacity := newCap } e)
    else (dbErrNomem, h)
  else (dbErrOk, heapPush h e)

/-- `heap_pop` -/
def heapPop (h : TtlHeap) : Option Addr × TtlHeap :=
  if h.size = 0 then (none, h)
  else
    let min := h.heap 0
    let h := swapNodes h 0 (h.size - 1)
    let h := { h with size := h.size - 1 }
    let h := if h.size > 0 then heapify h 0 else h
    (some min, h.setHeapIndex min sizeMax)

/-- The part of `heap_remove` that puts the last node where `e` was, at `i`, and shrinks. -/
def swapOut (h : TtlHeap) (i : ℕ) (e : Addr) : TtlHeap :=
  { swapNodes h i (h.size - 1) with size := h.size - 1 }.setHeapIndex e sizeMax

/-- `heap_remove` -/
def heapRemove (h : TtlHeap) (e : Addr) : Err × TtlHeap :=
  let i := (h.mem e).heapIndex
  if i ≥ h.size ∨ h.heap i ≠ e then (dbErrKeyNotexist, h)
  else if i = h.size - 1 then
    (dbErrOk, { h with size := h.size - 1 }.setHeapIndex e sizeMax)
  else
    let h := swapOut h i e
    -- the node that came to `i` may belong above or below
    if 0 < i ∧ compareTtl h i (parent i) then (dbErrOk, shiftUp h i)
    else (dbErrOk, heapify h i)

/-- The heap `ttl_init` sets up, over the cells `mem`. -/
def ttlInit (mem : Addr → Entry) : TtlHeap := ⟨mem, fun _ => 0, 0, 16⟩

/-! ### Frame of the elementary writes -/

namespace TtlHeap

@[simp] theorem setHeapIndex_heap (h : TtlHeap) (e : Addr) (i : ℕ) :
    (h.setHeapIndex e i).heap = h.heap := rfl

@[simp] theorem setHeapIndex_size (h : TtlHeap) (e : Addr) (i : ℕ) :
    (h.setHeapIndex e i).size = h.size := rfl

@[simp] theorem setHeapIndex_kv (h : TtlHeap) (e : Addr) (i : ℕ) :
    (h.setHeapIndex e i).kv = h.kv := by
  funext x
  rcases eq_or_ne x e with rfl | hx
  · simp [kv, setHeapIndex, Entry.kv]
  · simp [kv, setHeapIndex, Function.update_of_ne hx]

@[simp] theorem setHeapIndex_index (h : TtlHeap) (e : Addr) (i : ℕ) :
    ((h.setHeapIndex e i).mem e).heapIndex = i := by simp [setHeapIndex]

theorem setHeapIndex_mem_of_ne (h : TtlHeap) {e x : Addr} (i : ℕ) (hx : x ≠ e) :
    (h.setHeapIndex e i).mem x = h.mem x := Function.update_of_ne hx _ _

theorem expiry_congr {h h' : TtlHeap} (hkv : h'.kv = h.kv) : h'.expiry = h.expiry := by
  funext e; simp only [expiry, hkv]

/-- Back-pointers make the nodes in use pairwise distinct. -/
theorem Back.inj {h : TtlHeap} (hb : h.Back) {i j : ℕ} (hi : i < h.size) (hj : j < h.size)
    (he : h.heap i = h.heap j) : i = j := by rw [← hb i hi, he, hb j hj]

/-- The position an entry stores is where it is. -/
theorem Back.index {h : TtlHeap} (hb : h.Back) {e : Addr} (he : h.Has e) :
    (h.mem e).heapIndex < h.size ∧ h.heap (h.mem e).heapIndex = e := by
  obtain ⟨j, hj, rfl⟩ := he
  rw [hb j hj]; exact ⟨hj, rfl⟩

end TtlHeap

/-! ### Sifting only rearranges -/

/-- `h'` holds the same entries as `h` in rearranged positions, and wrote no cell outside. -/
structure Sifted (h h' : TtlHeap) : Prop where
  size : h'.size = h.size
  capacity : h'.capacity = h.capacity
  kv : h'.kv = h.kv
  rearr : Rearr h.size h.heap h'.heap
  back : h.Back → h'.Back
  outside : ∀ e, ¬ h.Has e → h'.mem e = h.mem e

theorem Sifted.refl (h : TtlHeap) : Sifted h h :=
  ⟨rfl, rfl, rfl, Rearr.refl _ _, id, fun _ _ => rfl⟩

theorem Sifted.has {h h' : TtlHeap} (s : Sifted h h') (e : Addr) : h'.Has e ↔ h.Has e := by
  simp only [TtlHeap.Has, s.size]; exact s.rearr.mem_iff e

theorem Sifted.trans {h h' h'' : TtlHeap} (s : Sifted h h') (t : Sifted h' h'') :
    Sifted h h'' where
  size := t.size.trans s.size
  capacity := t.capacity.trans s.capacity
  kv := t.kv.trans s.kv
  rearr := s.rearr.trans (s.size ▸ t.rearr)
  back hb := t.back (s.back hb)
  outside e he := (t.outside e fun hc => he ((s.has e).mp hc)).trans (s.outside e he)

@[simp] theorem swapNodes_heap (h : TtlHeap) (a b : ℕ) :
    (swapNodes h a b).heap = swap h.heap a b := rfl

@[simp] theorem swapNodes_size (h : TtlHeap) (a b : ℕ) : (swapNodes h a b).size = h.size := rfl

@[simp] theorem swapNodes_kv (h : TtlHeap) (a b : ℕ) : (swapNodes h a b).kv = h.kv := by
  simp only [swapNodes, TtlHeap.setHeapIndex_kv]; rfl

@[simp] theorem swapNodes_expiry (h : TtlHeap) (a b : ℕ) :
    (swapNodes h a b).expiry = h.expiry := TtlHeap.expiry_congr (swapNodes_kv h a b)

theorem swapNodes_back {h : TtlHeap} {a b : ℕ} (ha : a < h.size) (hb : b < h.size)
    (hback : h.Back) : (swapNodes h a b).Back := by
  intro j hj
  change j < h.size at hj
  simp only [swapNodes, TtlHeap.setHeapIndex_heap, swap_left, swap_right]
  by_cases hjb : j = b
  · subst hjb; rw [swap_right, TtlHeap.setHeapIndex_index]
  by_cases hja : j = a
  · subst hja
    have hne : h.heap b ≠ h.heap j := fun he => hjb (hback.inj hb hj he).symm
    rw [swap_left, TtlHeap.setHeapIndex_mem_of_ne _ _ hne, TtlHeap.setHeapIndex_index]
  · have hna : h.heap j ≠ h.heap a := fun he => hja (hback.inj hj ha he)
    have hnb : h.heap j ≠ h.heap b := fun he => hjb (hback.inj hj hb he)
    rw [swap_of_ne _ hja hjb, TtlHeap.setHeapIndex_mem_of_ne _ _ hna,
      TtlHeap.setHeapIndex_mem_of_ne _ _ hnb]
    exact hback j hj

theorem swapNodes_sifted {h : TtlHeap} {a b : ℕ} (ha : a < h.size) (hb : b < h.size) :
    Sifted h (swapNodes h a b) where
  size := rfl
  capacity := rfl
  kv := swapNodes_kv h a b
  rearr := Rearr.swap h.heap ha hb
  back := swapNodes_back ha hb
  outside e he := by
    have hna : e ≠ h.heap a := fun hc => he ⟨a, ha, hc.symm⟩
    have hnb : e ≠ h.heap b := fun hc => he ⟨b, hb, hc.symm⟩
    simp only [swapNodes, TtlHeap.setHeapIndex_heap, swap_left, swap_right]
    rw [TtlHeap.setHeapIndex_mem_of_ne _ _ hna, TtlHeap.setHeapIndex_mem_of_ne _ _ hnb]

theorem shiftUp_sifted (h : TtlHeap) (i : ℕ) (hi : i < h.size) : Sifted h (shiftUp h i) := by
  induction h, i using shiftUp.induct with
  | case1 h i hc ih =>
    have hp := parent_lt hc.1
    rw [shiftUp, dif_pos hc]
    exact (swapNodes_sifted hi (by omega)).trans (ih (by rw [swapNodes_size]; omega))
  | case2 h i hc => rw [shiftUp, dif_neg hc]; exact Sifted.refl h

theorem heapify_sifted (h : TtlHeap) (i : ℕ) : Sifted h (heapify h i) := by
  induction h, i using heapify.induct with
  | case1 h i hne ih =>
    have hb := smallest_bounds h hne
    rw [heapify, dif_pos hne]
    exact (swapNodes_sifted (by omega) hb.2).trans ih
  | case2 h i he => rw [heapify, dif_neg he]; exact Sifted.refl h

end SahDB
