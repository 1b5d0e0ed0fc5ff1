import Mathlib.Tactic

/-! Runs of writes: what a place holds at the end is what the last write to it left.

    A place is whatever `get` reads of the state, and `put a` is what the step on `a` writes there,
    if it does (`foldl_get`). An array that is written again and again from its start on, each time
    as far as the new content reaches, has such a place at every position (`overlay_getD`). -/

namespace LastWrite
variable {α β σ : Type*}

/-- The last of the writes a run makes to one place. -/
def last (put : α → Option β) (as : List α) : Option β := (as.filterMap put).getLast?

section Last
variable {put : α → Option β} {a : α} {as : List α} {b : β}

theorem last_cons (put : α → Option β) (a : α) (as : List α) :
    last put (a :: as) = (last put as).or (put a) := by
  unfold last
  cases h : put a with
  | none => rw [List.filterMap_cons_none h, Option.or_none]
  | some b =>
    rw [List.filterMap_cons_some h, List.getLast?_cons]
    cases (as.filterMap put).getLast? <;> rfl

theorem last_eq_none_iff : last put as = none ↔ ∀ a ∈ as, put a = none := by
  rw [last, List.getLast?_eq_none_iff, List.filterMap_eq_nil_iff]

theorem last_map {γ : Type*} (put : α → Option β) (g : β → γ) (as : List α) :
    last (fun a => (put a).map g) as = (last put as).map g := by
  rw [last, last, ← List.map_filterMap, List.getLast?_map]

theorem last_of_split {pre post : List α} (h : put a = some b) (hpost : ∀ x ∈ post, put x = none) :
    last put (pre ++ a :: post) = some b := by
  have hnil : post.filterMap put = [] := List.filterMap_eq_nil_iff.mpr hpost
  rw [last, List.filterMap_append, List.filterMap_cons_some h, hnil, List.getLast?_concat]

/-- A run that writes to the place can be cut at its last write there. -/
theorem exists_split_of_last (h : last put as = some b) :
    ∃ pre a post, as = pre ++ a :: post ∧ put a = some b ∧ ∀ x ∈ post, put x = none := by
  induction as with
  | nil => cases h
  | cons a as ih =>
    rw [last_cons] at h
    cases hl : last put as with
    | some b' =>
      rw [hl, Option.some_or] at h
      obtain ⟨pre, x, post, rfl, hx, hpost⟩ := ih (hl.trans h)
      exact ⟨a :: pre, x, post, rfl, hx, hpost⟩
    | none =>
      rw [hl, Option.none_or] at h
      exact ⟨[], a, as, rfl, h, last_eq_none_iff.mp hl⟩

theorem exists_of_last (h : last put as = some b) : ∃ a ∈ as, put a = some b := by
  obtain ⟨pre, a, post, rfl, ha, -⟩ := exists_split_of_last h
  exact ⟨a, by simp, ha⟩

variable (put) in
/-- And in no other way. -/
theorem split_unique {pre post pre' post' : List α} {a' : α}
    (h : pre ++ a :: post = pre' ++ a' :: post') (ha : put a ≠ none) (ha' : put a' ≠ none)
    (hpost : ∀ x ∈ post, put x = none) (hpost' : ∀ x ∈ post', put x = none) :
    a = a' ∧ post = post' := by
  rcases List.append_eq_append_iff.mp h with ⟨c, -, hc⟩ | ⟨c, -, hc⟩
  · cases c with
    | nil => exact List.cons.inj hc
    | cons x c =>
      obtain ⟨-, rfl⟩ := List.cons.inj hc
      exact absurd (hpost a' (by simp)) ha'
  · cases c with
    | nil => exact (List.cons.inj hc).imp Eq.symm Eq.symm
    | cons x c =>
      obtain ⟨-, rfl⟩ := List.cons.inj hc
      exact absurd (hpost' a (by simp)) ha

end Last

/-- The value at a place after a run. -/
theorem foldl_get {step : σ → α → σ} {put : α → Option β} (get : σ → β)
    (h : ∀ s a, get (step s a) = (put a).getD (get s)) (s : σ) (as : List α) :
    get (as.foldl step s) = (last put as).getD (get s) := by
  induction as generalizing s with
  | nil => rfl
  | cons a as ih =>
    rw [List.foldl_cons, ih, h, last_cons]
    cases last put as <;> rfl

/-- The same where the steps can fail. -/
theorem foldlM_get {ε : Type*} {step : σ → α → Except ε σ} {put : α → Option β} (get : σ → β)
    (h : ∀ s a s', step s a = .ok s' → get s' = (put a).getD (get s)) {s s' : σ} {as : List α}
    (hrun : as.foldlM step s = .ok s') : get s' = (last put as).getD (get s) := by
  induction as generalizing s with
  | nil =>
    cases hrun
    rfl
  | cons a as ih =>
    rw [List.foldlM_cons] at hrun
    cases hstep : step s a with
    | error e =>
      rw [hstep] at hrun
      cases hrun
    | ok t =>
      rw [hstep] at hrun
      rw [ih hrun, h s a t hstep, last_cons]
      cases last put as <;> rfl

/-! ### Arrays written from their start -/

/-- The array after the positions from 0 on have been written with `img`. -/
def overlay (img arr : List α) : List α := img ++ arr.drop img.length

theorem overlay_getD (img arr : List α) (p : ℕ) (d : α) :
    (overlay img arr).getD p d = (img[p]?).getD (arr.getD p d) := by
  rw [overlay, List.getD_eq_getElem?_getD, List.getElem?_append, List.getD_eq_getElem?_getD]
  split_ifs with hp
  · rw [List.getElem?_eq_getElem hp]
    rfl
  · have hle := not_lt.mp hp
    rw [List.getElem?_eq_none hle, List.getElem?_drop, Nat.add_sub_cancel' hle]
    rfl

end LastWrite
