import SahDB.TtlInv
import SahDB.Lib.MinQueue

/-! The TTL heap is a priority queue.

    `inside` is what a caller of `heap_insert`, `heap_remove` and `heap_pop` knows to be in the
    heap: the entries that went in and have not come out. The heap of every run holds exactly
    these (`Holds`), so its root is a least one of them and popping until `NULL` lists them all. -/

namespace SahDB
open BinHeap MinQueue

theorem heapPop_none {h : TtlHeap} (h0 : h.size = 0) : heapPop h = (none, h) := if_pos h0

theorem size_of_heapPop {h : TtlHeap} {e : Addr} (he : (heapPop h).1 = some e) :
    (heapPop h).2.size < h.size := by
  rcases Nat.eq_zero_or_pos h.size with h0 | h0
  · rw [heapPop_none h0] at he
    cases he
  · have hlast : h.size - 1 < h.size := by omega
    rw [heapPop, if_neg (by omega)]
    simp only [TtlHeap.setHeapIndex_size]
    split_ifs
    · rw [(heapify_sifted _ 0).size]
      exact hlast
    · exact hlast

/-- Popping until `heap_pop` returns `NULL`. -/
def popAll (h : TtlHeap) : List Addr :=
  match _he : (heapPop h).1 with
  | none => []
  | some e => e :: popAll (heapPop h).2
termination_by h.size
decreasing_by exact size_of_heapPop _he

/-! ### The entries that went in and have not come out -/

/-- The entries inside after an operation, told from its arguments and its answer. -/
def HeapOp.inside (h : TtlHeap) (inside : Finset Addr) : HeapOp → Finset Addr
  | .insert e ok => if (heapInsert ok h e).1 = dbErrOk then inside ∪ {e} else inside
  | .remove e => inside.erase e
  | .pop => leave inside (heapPop h).1
  | .touch _ _ => inside

/-- Entries are inserted and changed only while they are outside. -/
def HeapOp.Outside (inside : Finset Addr) : HeapOp → Prop
  | .insert e _ => e ∉ inside
  | .touch e _ => e ∉ inside
  | .remove _ => True
  | .pop => True

/-- A heap that a sequence of operations builds from an empty one, with the entries inside. -/
inductive QueueRun : TtlHeap → Finset Addr → Prop where
  | empty {h : TtlHeap} (h0 : h.size = 0) : QueueRun h ∅
  | op {h : TtlHeap} {inside : Finset Addr} (run : QueueRun h inside) (o : HeapOp)
    (out : o.Outside inside) : QueueRun (o.apply h) (o.inside h inside)

/-- A valid heap whose nodes in use are the entries of `s`. -/
structure TtlHeap.Holds (h : TtlHeap) (s : Finset Addr) : Prop where
  valid : h.Valid
  has : ∀ e, h.Has e ↔ e ∈ s

theorem heapInsert_ok (h : TtlHeap) (e : Addr) : (heapInsert true h e).1 = dbErrOk := by
  rcases heapInsert_cases true h e with ⟨hok, -⟩ | ⟨cap, -, heq⟩
  · cases hok
  · rw [heq]

namespace TtlHeap.Holds
variable {h : TtlHeap} {s : Finset Addr}

theorem size_eq_zero (hs : h.Holds s) : h.size = 0 ↔ s = ∅ := by
  rw [Finset.eq_empty_iff_forall_notMem]
  constructor
  · intro h0 e he
    obtain ⟨j, hj, -⟩ := (hs.has e).mpr he
    omega
  · intro hnone
    by_contra h0
    exact hnone _ ((hs.has _).mp ⟨0, Nat.pos_of_ne_zero h0, rfl⟩)

theorem insert (hs : h.Holds s) {e : Addr} (he : e ∉ s) (ok : Bool) :
    (heapInsert ok h e).2.Holds
      (if (heapInsert ok h e).1 = dbErrOk then s ∪ {e} else s) := by
  have hout : ¬ h.Has e := fun hc => he ((hs.has e).mp hc)
  have hv := hs.valid.insert hout ok
  rcases heapInsert_cases ok h e with ⟨-, heq⟩ | ⟨cap, -, heq⟩ <;> rw [heq] at hv ⊢
  · rw [if_neg (show dbErrNomem ≠ dbErrOk by decide)]
    exact hs
  · have hi := heapPush_inserted (h := { h with capacity := cap }) hs.valid.back hout
    refine ⟨hv, fun x => ?_⟩
    rw [if_pos rfl, hi.has, Finset.mem_union, Finset.mem_singleton]
    exact or_congr (hs.has x) Iff.rfl

theorem of_removed {h' : TtlHeap} {e : Addr} (hs : h.Holds s) (hv : h'.Valid)
    (hr : Removed h e h') : h'.Holds (s.erase e) := by
  refine ⟨hv, fun x => ?_⟩
  rw [hr.has, hs.has, Finset.mem_erase, and_comm]

theorem remove (hs : h.Holds s) (e : Addr) : (heapRemove h e).2.Holds (s.erase e) := by
  by_cases he : h.Has e
  · exact hs.of_removed (hs.valid.remove e) (heapRemove_removed hs.valid.back he).2.1
  · rw [heapRemove_of_not_has he, Finset.erase_eq_of_notMem fun hc => he ((hs.has e).mpr hc)]
    exact hs

/-- `heap_pop` answers as the set of the entries inside asks, and takes its answer out. -/
theorem pop (hs : h.Holds s) : IsPop h.expiry s (heapPop h).1 ∧
    (heapPop h).2.Holds (leave s (heapPop h).1) := by
  rcases Nat.eq_zero_or_pos h.size with h0 | h0
  · rw [heapPop_none h0]
    exact ⟨hs.size_eq_zero.mp h0, hs⟩
  · obtain ⟨hfst, hr, -⟩ := heapPop_removed hs.valid.back h0
    rw [hfst]
    refine ⟨⟨(hs.has _).mp ⟨0, h0, rfl⟩, fun x hx => ?_⟩, hs.of_removed hs.valid.pop hr⟩
    obtain ⟨j, hj, rfl⟩ := (hs.has x).mpr hx
    exact hs.valid.order.root_le hj

theorem touch (hs : h.Holds s) {e : Addr} (he : e ∉ s) (cell : Entry) :
    TtlHeap.Holds { h with mem := Function.update h.mem e cell } s :=
  ⟨hs.valid.touch (fun hc => he ((hs.has e).mp hc)) cell, hs.has⟩

end TtlHeap.Holds

/-- One operation keeps the heap and the set of the entries inside together. -/
theorem HeapOp.holds {h : TtlHeap} {s : Finset Addr} (hs : h.Holds s) (o : HeapOp)
    (out : o.Outside s) : (o.apply h).Holds (o.inside h s) := by
  cases o with
  | insert e ok => exact hs.insert out ok
  | remove e => exact hs.remove e
  | pop => exact hs.pop.2
  | touch e cell => exact hs.touch out cell

theorem QueueRun.holds {h : TtlHeap} {inside : Finset Addr} (run : QueueRun h inside) :
    h.Holds inside := by
  induction run with
  | empty h0 => exact ⟨(HeapRun.empty h0).valid, fun e => by simp [TtlHeap.Has, h0]⟩
  | op _ o out ih => exact o.holds ih out

/-! ### Popping until empty -/

/-- Popping changes no expiry. -/
theorem heapPop_expiry {h : TtlHeap} (hb : h.Back) : (heapPop h).2.expiry = h.expiry := by
  rcases Nat.eq_zero_or_pos h.size with h0 | h0
  · rw [heapPop_none h0]
  · exact TtlHeap.expiry_congr (heapPop_removed hb h0).2.1.kv

theorem popAll_drains {h : TtlHeap} {s : Finset Addr} (hs : h.Holds s) :
    Drains h.expiry s (popAll h) := by
  induction h using popAll.induct generalizing s with
  | case1 h he =>
    obtain ⟨hpop, -⟩ := hs.pop
    rw [he] at hpop
    have hnil : popAll h = [] := by rw [popAll]; split <;> simp_all
    obtain rfl : s = ∅ := hpop
    rw [hnil]
    exact Drains.nil rfl
  | case2 h e he ih =>
    obtain ⟨hpop, hrest⟩ := hs.pop
    rw [he] at hpop hrest
    have hcons : popAll h = e :: popAll (heapPop h).2 := by rw [popAll]; split <;> simp_all
    have htail := ih hrest
    rw [heapPop_expiry hs.valid.back] at htail
    rw [hcons]
    exact Drains.cons hpop htail

/-- CORRECT: after any sequence of insertions (of entries outside), removals and pops from an empty
    heap, with expiries changed only outside, an insertion that needs no memory or gets it succeeds;
    `heap_pop` returns `NULL` exactly when every entry that went in has come out, and otherwise one
    of those inside that expires first; and popping until `NULL` returns exactly the entries inside,
    each once, in the order of their expiries. -/
theorem heap_is_priority_queue {h : TtlHeap} {inside : Finset Addr} (run : QueueRun h inside) :
    (∀ e, (heapInsert true h e).1 = dbErrOk) ∧
    ((heapPop h).1 = none ↔ inside = ∅) ∧
    (∀ e, (heapPop h).1 = some e → e ∈ inside ∧ ∀ x ∈ inside, h.expiry e ≤ h.expiry x) ∧
    (∀ x, x ∈ popAll h ↔ x ∈ inside) ∧ (popAll h).Nodup ∧
    (popAll h).Pairwise fun a b => h.expiry a ≤ h.expiry b := by
  have hs := run.holds
  have hd := popAll_drains hs
  obtain ⟨hpop, -⟩ := hs.pop
  refine ⟨heapInsert_ok h, ⟨fun hn => ?_, fun hempty => ?_⟩, fun e he => ?_, hd.mem_iff, hd.nodup,
    hd.sorted⟩
  · rw [hn] at hpop
    exact hpop
  · rw [heapPop_none (hs.size_eq_zero.mpr hempty)]
  · rw [he] at hpop
    exact hpop

/-- With memory, an entry that goes in is inside. -/
theorem QueueRun.insert {h : TtlHeap} {inside : Finset Addr} (run : QueueRun h inside) {e : Addr}
    (he : e ∉ inside) : QueueRun (heapInsert true h e).2 (inside ∪ {e}) := by
  have hrun := run.op (.insert e true) he
  simp only [HeapOp.inside, heapInsert_ok, if_true] at hrun
  exact hrun

/-- Of two entries the one that expires first is popped first, though it went in last. -/
theorem heap_is_priority_queue_two :
    let h := (heapInsert true (heapInsert true
      (ttlInit fun e => ⟨[], [], if e = 1 then 20 else 10, sizeMax⟩) 1).2 2).2
    (heapPop h).1 = some 2 ∧ ∀ x ∈ (∅ ∪ {1} ∪ {2} : Finset Addr), h.expiry 2 ≤ h.expiry x := by
  intro h
  have run : QueueRun h (∅ ∪ {1} ∪ {2}) :=
    ((QueueRun.empty rfl).insert (by decide)).insert (by decide)
  have hpop : (heapPop h).1 = some 2 := by decide +kernel
  obtain ⟨-, -, hmin, -⟩ := heap_is_priority_queue run
  exact ⟨hpop, (hmin 2 hpop).2⟩

end SahDB
