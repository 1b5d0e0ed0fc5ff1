import SahDB.TtlTrack

/-! An EXPIRE that runs out of memory.

    `hash_update_expiry` takes the entry out of the heap, writes the new expiry and only then calls
    `heap_insert`, which can fail. The array is never over-full (`Db.Fits`), so an entry that was in
    the heap has left a slot free and comes back; an EXPIRE fails only for an entry outside a full
    heap, and then the new expiry stays. -/

namespace SahDB
open Db

namespace Db

/-- The heap array is large enough for its nodes. -/
def Fits (s : Db) : Prop := s.size ≤ s.capacity

/-- `hash_update_expiry` finds the entry in the heap and takes it out. -/
def Leaves (s : Db) (a : Addr) : Prop := (s.mem a).heapIndex ≠ sizeMax ∧ s.Occupies a

/-- Values, expiries and heap positions of all entries, and who is in the heap, are the same. -/
def Unchanged (s s' : Db) : Prop := s'.mem = s.mem ∧ ∀ a, s'.Has a ↔ s.Has a

end Db

/-! ### The size of the heap -/

theorem heapRemove_size {h : TtlHeap} {e : Addr} (hlt : (h.mem e).heapIndex < h.size)
    (hat : h.heap (h.mem e).heapIndex = e) :
    (heapRemove h e).2.size = h.size - 1 ∧ (heapRemove h e).2.capacity = h.capacity := by
  rcases heapRemove_cases hlt hat with ⟨-, heq⟩ | ⟨h', -, heq, hs, -⟩
  · rw [heq]
    exact ⟨rfl, rfl⟩
  · rw [heq]
    exact ⟨hs.size, hs.capacity⟩

theorem heapRemove_fits {h : TtlHeap} (hf : h.size ≤ h.capacity) (e : Addr) :
    (heapRemove h e).2.size ≤ (heapRemove h e).2.capacity := by
  by_cases he : (h.mem e).heapIndex < h.size ∧ h.heap (h.mem e).heapIndex = e
  · obtain ⟨hsize, hcap⟩ := heapRemove_size he.1 he.2
    rw [hsize, hcap]
    omega
  · rw [heapRemove_not_occupies he]
    exact hf

theorem heapInsert_fits {h : TtlHeap} (hf : h.size ≤ h.capacity) (ok : Bool) (e : Addr) :
    (heapInsert ok h e).2.size ≤ (heapInsert ok h e).2.capacity := by
  rcases heapInsert_cases ok h e with ⟨-, heq⟩ | ⟨cap, hcap, heq⟩ <;> rw [heq]
  · exact hf
  · have hs := (shiftUp_sifted (TtlHeap.setHeapIndex
      { h with capacity := cap, size := h.size + 1, heap := Function.update h.heap h.size e }
      e h.size) h.size (by simp)).size
    rw [heapPush_capacity]
    exact hs.le.trans (hcap hf)

/-! ### Every call keeps it -/

section Calls
variable {s : Db}

theorem unlink_fits (h : s.Fits) (idx : Fin mod) (l : List Addr) (a : Addr) :
    (unlink s idx l a).Fits := by
  rw [Fits, unlink_ttl]
  split_ifs
  · exact heapRemove_fits h a
  · exact h

theorem lazyUnlink_fits (h : s.Fits) (k : Str) (l : List Addr) (a : Addr) :
    (lazyUnlink s k l a).Fits :=
  unlink_fits (s := s.setTtl (heapRemove s.toTtlHeap a).2) (heapRemove_fits h a) _ l a

theorem renewExpiry_fits (h : s.Fits) (a : Addr) (d now : ℤ) (ok : Bool) :
    (renewExpiry s a d now ok).1.Fits := by
  refine heapInsert_fits ?_ ok a
  split_ifs
  · exact heapRemove_fits h a
  · exact h

theorem Db.Fits.step (hi : s.Inv) (h : s.Fits) (c : Call) : (s.step maxAllowed c).1.Fits := by
  have hyields := hi.yields maxAllowed c
  generalize (s.step maxAllowed c).1 = s' at hyields ⊢
  cases hyields with
  | same | setValue | full | link => exact h
  | lazily => exact lazyUnlink_fits h _ _ _
  | delete => exact unlink_fits h _ _ _
  | renew => exact renewExpiry_fits h _ _ _ _

theorem Started.fits {s₀ : Db} (h : Started s₀) (calls : List Call) : (s₀.after calls).Fits := by
  have h0 : s₀.Fits := by
    rw [Fits, show s₀.size = 0 from h.inv_empty.2]
    exact Nat.zero_le _
  exact (Mealy.exec_invariant (I := fun s : Db => s.Inv ∧ s.Fits)
    (fun _ c hs => ⟨hs.1.step_inv maxAllowed c, hs.2.step hs.1 c⟩) ⟨h.inv_empty.1, h0⟩ calls).2

end Calls

/-! ### A renewed expiry -/

section Renew
variable {s : Db} {a : Addr}

/-- An entry that leaves the heap finds its slot again. -/
theorem renewExpiry_of_leaves (h : s.Fits) (ha : s.Leaves a) (d now : ℤ) (ok : Bool) :
    (renewExpiry s a d now ok).2.code = dbErrOk := by
  obtain ⟨hidx, hlt, hat⟩ := ha
  obtain ⟨hsize, hcap⟩ := heapRemove_size hlt hat
  have hroom : (heapRemove s.toTtlHeap a).2.size ≠ (heapRemove s.toTtlHeap a).2.capacity := by
    rw [Fits] at h
    omega
  unfold renewExpiry
  dsimp only
  rw [if_pos hidx]
  exact congrArg Prod.fst (if_neg hroom)

/-- Any other entry stays where it is before the insertion. -/
theorem renewExpiry_of_stays (ha : ¬ s.Leaves a) (d now : ℤ) (ok : Bool) :
    renewExpiry s a d now ok =
      let s' := s.setExpiry a (timeT (now + d))
      let r := heapInsert ok s'.toTtlHeap a
      (s'.setTtl r.2, ⟨r.1, if r.1 ≠ dbErrOk then str "ERR" else str "OK"⟩) := by
  have hsame : (if (s.mem a).heapIndex ≠ sizeMax then s.setTtl (heapRemove s.toTtlHeap a).2
      else s) = s := by
    split_ifs with hidx
    · rw [heapRemove_not_occupies fun hocc => ha ⟨hidx, hocc⟩]
      rfl
    · rfl
  unfold renewExpiry
  dsimp only
  rw [hsame]

/-- The insertion fails only into a full heap. -/
theorem renewExpiry_nomem_iff (h : s.Fits) (d now : ℤ) (ok : Bool) :
    (renewExpiry s a d now ok).2.code = dbErrNomem ↔
      ok = false ∧ s.size = s.capacity ∧ ¬ s.Leaves a := by
  have hne : dbErrOk ≠ dbErrNomem := by decide
  by_cases ha : s.Leaves a
  · rw [renewExpiry_of_leaves h ha]
    exact iff_of_false hne fun hc => hc.2.2 ha
  · rw [renewExpiry_of_stays ha]
    change (heapInsert ok (s.setExpiry a (timeT (now + d))).toTtlHeap a).1 = _ ↔ _
    by_cases hfull : s.size = s.capacity
    · rw [heapInsert, if_pos (by exact hfull)]
      cases ok with
      | false => exact iff_of_true rfl ⟨rfl, hfull, ha⟩
      | true => exact iff_of_false hne fun hc => Bool.noConfusion hc.1
    · rw [heapInsert, if_neg (by exact hfull)]
      exact iff_of_false hne fun hc => hfull hc.2.1

/-- What is left behind then: the new expiry. -/
theorem renewExpiry_of_nomem (hfull : s.size = s.capacity) (ha : ¬ s.Leaves a) (d now : ℤ) :
    (renewExpiry s a d now false).1 = s.setExpiry a (timeT (now + d)) := by
  rw [renewExpiry_of_stays ha]
  dsimp only
  have hins : heapInsert false (s.setExpiry a (timeT (now + d))).toTtlHeap a =
      (dbErrNomem, (s.setExpiry a (timeT (now + d))).toTtlHeap) := by
    rw [heapInsert, if_pos (by exact hfull)]
    rfl
  rw [hins]
  rfl

theorem setExpiry_unchanged_iff (t : ℤ) :
    s.Unchanged (s.setExpiry a t) ↔ t = (s.mem a).expiry := by
  constructor
  · rintro ⟨hmem, -⟩
    have hcell := congrArg Entry.expiry (congrFun hmem a)
    rwa [show (s.setExpiry a t).mem a = { s.mem a with expiry := t } from
      Function.update_self ..] at hcell
  · rintro rfl
    exact ⟨Function.update_eq_self a s.mem, fun _ => Iff.rfl⟩

end Renew

/-! ### EXPIRE -/

theorem not_expired_of_minus {s : Db} {a : Addr} (h : (s.mem a).expiry = -1) (now : ℤ) :
    ¬ (s.kv a).Expired now := fun hexp => hexp.1 h

/-- CORRECT: in every reachable state, an EXPIRE of a live key that answers DB_ERR_NOMEM leaves all
    entries and the heap as they were exactly when it cannot answer so, since the array grows, is
    not full, or the entry leaves a slot of it, or when the new expiry is the old one. -/
theorem failed_expire_iff {s₀ : Db} (h : Started s₀) (calls : List Call) {k : Str} {a : Addr}
    {pre post : List Addr} (hat : (s₀.after calls).At k a pre post) {now : ℤ}
    (hlive : ¬ ((s₀.after calls).kv a).Expired now) (d now' : ℤ) (ok : Bool) :
    let s := s₀.after calls
    ((hashUpdateExpiry s k d now now' ok).2.code = dbErrNomem →
      s.Unchanged (hashUpdateExpiry s k d now now' ok).1) ↔
    ok = true ∨ s.size ≠ s.capacity ∨ s.Leaves a ∨ timeT (now' + d) = (s.mem a).expiry := by
  intro s
  rw [hashUpdateExpiry_live hat hlive, renewExpiry_nomem_iff (h.fits calls)]
  constructor
  · intro himp
    by_cases hfail : ok = false ∧ s.size = s.capacity ∧ ¬ s.Leaves a
    · have hsame := himp hfail
      obtain ⟨rfl, hfull, hstays⟩ := hfail
      rw [renewExpiry_of_nomem hfull hstays, setExpiry_unchanged_iff] at hsame
      exact .inr (.inr (.inr hsame))
    · rcases Bool.eq_false_or_eq_true ok with hok | hok
      · exact .inl hok
      by_cases hfull : s.size = s.capacity
      · exact .inr (.inr (.inl (not_not.mp fun hstays => hfail ⟨hok, hfull, hstays⟩)))
      · exact .inr (.inl hfull)
  · rintro hor ⟨rfl, hfull, hstays⟩
    rcases hor with hok | hroom | hyields | hsame
    · cases hok
    · exact absurd hfull hroom
    · exact absurd hyields hstays
    · rw [renewExpiry_of_nomem hfull hstays, setExpiry_unchanged_iff]
      exact hsame

/-- The one-byte key number `i`. -/
def letter (i : ℕ) : Str := [UInt8.ofNat (97 + i)]

/-- SET of 17 keys, and EXPIRE of the first 16 of them, which fills the array. -/
def fullHeapCalls : List Call :=
  (List.range 17).map (fun i => .insert (letter i) (str "v") true) ++
    (List.range 16).map fun i => .updateExpiry (letter i) 50 100 100 true

/-- The array is full, and the last key is outside. -/
theorem fullHeapCalls_full :
    let s := htInit.after fullHeapCalls
    s.buckets (stringFoldingHash (letter 16)) = [16] ∧
      s.mem 16 = ⟨letter 16, str "v", -1, sizeMax⟩ ∧ s.size = 16 ∧ s.capacity = 16 := by
  decide +kernel

theorem fullHeapCalls_at : (htInit.after fullHeapCalls).At (letter 16) 16 [] [] := by
  obtain ⟨hbucket, hcell, -, -⟩ := fullHeapCalls_full
  exact ⟨hbucket, congrArg Entry.key hcell, by simp⟩

theorem fullHeapCalls_live : ¬ ((htInit.after fullHeapCalls).kv 16).Expired 100 :=
  not_expired_of_minus (congrArg Entry.expiry fullHeapCalls_full.2.1) 100

/-- So an EXPIRE of that key needs memory. -/
theorem fullHeapCalls_nomem (d : ℤ) :
    (hashUpdateExpiry (htInit.after fullHeapCalls) (letter 16) d 100 100 false).2.code =
      dbErrNomem := by
  obtain ⟨-, hcell, hsize, hcap⟩ := fullHeapCalls_full
  rw [hashUpdateExpiry_live fullHeapCalls_at fullHeapCalls_live,
    renewExpiry_nomem_iff (Started.empty.fits fullHeapCalls)]
  exact ⟨rfl, hsize.trans hcap.symm, fun hyields => hyields.1 (congrArg Entry.heapIndex hcell)⟩

/-- The first EXPIRE of the seventeenth key finds no memory and leaves expiry 105. -/
theorem failed_expire_overwrites :
    ¬ ∀ s₀, Started s₀ → ∀ (calls : List Call) (k : Str) (a : Addr) (pre post : List Addr),
      (s₀.after calls).At k a pre post → ∀ now, ¬ ((s₀.after calls).kv a).Expired now →
        ∀ (d now' : ℤ) (ok : Bool),
          (hashUpdateExpiry (s₀.after calls) k d now now' ok).2.code = dbErrNomem →
            (s₀.after calls).Unchanged (hashUpdateExpiry (s₀.after calls) k d now now' ok).1 := by
  intro h
  obtain ⟨-, hcell, hsize, hcap⟩ := fullHeapCalls_full
  have hsame := h htInit .empty fullHeapCalls (letter 16) 16 [] [] fullHeapCalls_at 100
    fullHeapCalls_live 5 100 false (fullHeapCalls_nomem 5)
  rw [hashUpdateExpiry_live fullHeapCalls_at fullHeapCalls_live,
    renewExpiry_of_nomem (hsize.trans hcap.symm)
      fun hyields => hyields.1 (congrArg Entry.heapIndex hcell), setExpiry_unchanged_iff,
    congrArg Entry.expiry hcell] at hsame
  exact absurd hsame (by decide)

/-- A duration that gives the old expiry, here -1, does no harm. -/
theorem failed_expire_iff_same :
    let s := htInit.after fullHeapCalls
    s.Unchanged (hashUpdateExpiry s (letter 16) (-101) 100 100 false).1 := by
  obtain ⟨-, hcell, -, -⟩ := fullHeapCalls_full
  have hsame : timeT (100 + -101) = ((htInit.after fullHeapCalls).mem 16).expiry := by
    rw [hcell]
    rfl
  exact (failed_expire_iff .empty fullHeapCalls fullHeapCalls_at fullHeapCalls_live (-101) 100
    false).mpr (.inr (.inr (.inr hsame))) (fullHeapCalls_nomem (-101))

end SahDB
