import Mathlib.Logic.Equiv.Basic
import Mathlib.Tactic

/-! Binary min-heaps in a flat array, ordered by a key.

    An array is a function on positions; only positions below a size `n` count. Heap order is one
    inequality per parent/child pair. Both sifts work on an array that is ordered except around one
    position: `UpHole` leaves the pair above it open, `DownHole` the pairs below it, and both ask
    that the position's parent is not above its children. A step of a sift moves the hole along
    (`UpHole.step`, `DownHole.step`); where the sift stops there is no hole left. What a sift does
    to the array as a whole is a rearrangement of the positions below `n` (`Rearr`). -/

namespace BinHeap

/-- Position of the parent; `parent 0 = 0`. -/
def parent (i : ℕ) : ℕ := (i - 1) / 2

/-- Position of the left child. -/
def left (i : ℕ) : ℕ := i * 2 + 1

/-- Position of the right child. -/
def right (i : ℕ) : ℕ := i * 2 + 2

theorem parent_lt {i : ℕ} (h : 0 < i) : parent i < i := by unfold parent; omega

theorem parent_left (i : ℕ) : parent (left i) = i := by unfold parent left; omega

theorem parent_right (i : ℕ) : parent (right i) = i := by unfold parent right; omega

theorem lt_left (i : ℕ) : i < left i := by unfold left; omega

theorem lt_right (i : ℕ) : i < right i := by unfold right; omega

/-- A position below the root is one of the two children of its parent. -/
theorem eq_left_or_right {i j : ℕ} (hj : 0 < j) (h : parent j = i) : j = left i ∨ j = right i := by
  unfold parent at h; unfold left right; omega

/-! ### Exchanging two positions -/

section Swap
variable {α : Type*}

/-- Exchange the contents of positions `i` and `j`. -/
def swap (a : ℕ → α) (i j : ℕ) : ℕ → α :=
  Function.update (Function.update a i (a j)) j (a i)

theorem swap_apply (a : ℕ → α) (i j k : ℕ) :
    swap a i j k = if k = j then a i else if k = i then a j else a k := by
  simp only [swap, Function.update_apply]

@[simp] theorem swap_right (a : ℕ → α) (i j : ℕ) : swap a i j j = a i := by
  simp [swap_apply]

@[simp] theorem swap_left (a : ℕ → α) (i j : ℕ) : swap a i j i = a j := by
  rw [swap_apply]; split
  · next h => rw [h]
  · simp

theorem swap_of_ne (a : ℕ → α) {i j k : ℕ} (hi : k ≠ i) (hj : k ≠ j) : swap a i j k = a k := by
  simp [swap_apply, hi, hj]

theorem swap_eq_comp (a : ℕ → α) (i j : ℕ) : swap a i j = a ∘ Equiv.swap i j := by
  funext k
  rw [swap_apply, Function.comp_apply, Equiv.swap_apply_def]
  rcases eq_or_ne k i with rfl | hi
  · rcases eq_or_ne k j with rfl | hj <;> simp [*]
  · simp [hi]; split <;> rfl

/-- `b` holds the contents of `a`, with the positions below `n` rearranged. -/
def Rearr (n : ℕ) (a b : ℕ → α) : Prop :=
  ∃ σ : Equiv.Perm ℕ, (∀ j, n ≤ j → σ j = j) ∧ b = a ∘ σ

theorem Rearr.refl (n : ℕ) (a : ℕ → α) : Rearr n a a := ⟨1, fun _ _ => rfl, rfl⟩

theorem Rearr.trans {n : ℕ} {a b c : ℕ → α} (hab : Rearr n a b) (hbc : Rearr n b c) :
    Rearr n a c := by
  obtain ⟨σ, hσ, rfl⟩ := hab
  obtain ⟨τ, hτ, rfl⟩ := hbc
  refine ⟨σ * τ, fun j hj => ?_, rfl⟩
  rw [Equiv.Perm.mul_apply, hτ j hj, hσ j hj]

theorem Rearr.swap {n i j : ℕ} (a : ℕ → α) (hi : i < n) (hj : j < n) :
    Rearr n a (swap a i j) := by
  refine ⟨Equiv.swap i j, fun k hk => ?_, swap_eq_comp a i j⟩
  exact Equiv.swap_apply_of_ne_of_ne (by omega) (by omega)

theorem Rearr.symm {n : ℕ} {a b : ℕ → α} (h : Rearr n a b) : Rearr n b a := by
  obtain ⟨σ, hσ, rfl⟩ := h
  refine ⟨σ⁻¹, fun j hj => ?_, ?_⟩
  · rw [Equiv.Perm.inv_eq_iff_eq, hσ j hj]
  · funext j; simp

/-- A rearrangement moves positions below `n` among themselves. -/
theorem perm_lt {n : ℕ} {σ : Equiv.Perm ℕ} (hσ : ∀ j, n ≤ j → σ j = j) {j : ℕ} (hj : j < n) :
    σ j < n := by
  by_contra hc
  have hfix : σ (σ j) = σ j := hσ _ (not_lt.mp hc)
  have : σ j = j := σ.injective hfix
  omega

/-- Every content below `n` after a rearrangement was below `n` before it. -/
theorem Rearr.exists_lt {n : ℕ} {a b : ℕ → α} (h : Rearr n a b) {j : ℕ} (hj : j < n) :
    ∃ k, k < n ∧ b j = a k := by
  obtain ⟨σ, hσ, rfl⟩ := h
  exact ⟨σ j, perm_lt hσ hj, rfl⟩

/-- A rearrangement neither loses nor adds a content below `n`. -/
theorem Rearr.mem_iff {n : ℕ} {a b : ℕ → α} (h : Rearr n a b) (x : α) :
    (∃ j, j < n ∧ b j = x) ↔ ∃ j, j < n ∧ a j = x := by
  constructor
  · rintro ⟨j, hj, rfl⟩
    obtain ⟨k, hk, he⟩ := h.exists_lt hj
    exact ⟨k, hk, he.symm⟩
  · rintro ⟨j, hj, rfl⟩
    obtain ⟨k, hk, he⟩ := h.symm.exists_lt hj
    exact ⟨k, hk, he.symm⟩

end Swap

/-! ### Heap order and its holes -/

section Order
variable {α κ : Type*} [LinearOrder κ] (key : α → κ)

/-- Heap order: no position below `n` has a smaller key than its parent. -/
def Ordered (a : ℕ → α) (n : ℕ) : Prop :=
  ∀ j, 0 < j → j < n → key (a (parent j)) ≤ key (a j)

/-- Heap order except between `i` and its parent. -/
structure UpHole (a : ℕ → α) (n i : ℕ) : Prop where
  order : ∀ j, 0 < j → j < n → j ≠ i → key (a (parent j)) ≤ key (a j)
  bridge : ∀ j, 0 < i → 0 < j → j < n → parent j = i → key (a (parent i)) ≤ key (a j)

/-- Heap order except between `i` and its children. -/
structure DownHole (a : ℕ → α) (n i : ℕ) : Prop where
  order : ∀ j, 0 < j → j < n → parent j ≠ i → key (a (parent j)) ≤ key (a j)
  bridge : ∀ j, 0 < i → 0 < j → j < n → parent j = i → key (a (parent i)) ≤ key (a j)

/-- What replacing the content of position `i` leaves of the order. -/
structure Patched (a : ℕ → α) (n i : ℕ) : Prop where
  order : ∀ j, 0 < j → j < n → j ≠ i → parent j ≠ i → key (a (parent j)) ≤ key (a j)
  bridge : ∀ j, 0 < i → 0 < j → j < n → parent j = i → key (a (parent i)) ≤ key (a j)

variable {key}

theorem Ordered.mono {a : ℕ → α} {m n : ℕ} (h : Ordered key a n) (hm : m ≤ n) :
    Ordered key a m := fun j h0 hj => h j h0 (lt_of_lt_of_le hj hm)

/-- The root has a least key. -/
theorem Ordered.root_le {a : ℕ → α} {n : ℕ} (h : Ordered key a n) {j : ℕ} (hj : j < n) :
    key (a 0) ≤ key (a j) := by
  induction j using Nat.strong_induction_on with
  | h j ih =>
    rcases Nat.eq_zero_or_pos j with rfl | h0
    · exact le_refl _
    · have hp := parent_lt h0
      exact le_trans (ih (parent j) hp (by omega)) (h j h0 hj)

/-- A sift up may stop at the root or below a parent with a smaller key. -/
theorem UpHole.stop {a : ℕ → α} {n i : ℕ} (h : UpHole key a n i)
    (hs : ¬ (0 < i ∧ key (a i) ≤ key (a (parent i)))) : Ordered key a n := by
  intro j h0 hj
  by_cases hji : j = i
  · subst hji
    exact le_of_lt (not_le.mp fun hc => hs ⟨h0, hc⟩)
  · exact h.order j h0 hj hji

/-- Exchanging the hole with its parent moves the hole up. -/
theorem UpHole.step {a : ℕ → α} {n i : ℕ} (h : UpHole key a n i) (hi : i < n) (h0 : 0 < i)
    (hle : key (a i) ≤ key (a (parent i))) : UpHole key (swap a i (parent i)) n (parent i) := by
  have hp : parent i < i := parent_lt h0
  constructor
  · intro j hj0 hj hjp
    by_cases hji : j = i
    · subst hji; simpa using hle
    · rw [swap_of_ne a hji hjp]
      by_cases hpj : parent j = i
      · rw [hpj, swap_left]; exact h.bridge j h0 hj0 hj hpj
      · by_cases hpp : parent j = parent i
        · rw [hpp, swap_right]
          exact le_trans hle (hpp ▸ h.order j hj0 hj hji)
        · rw [swap_of_ne a hpj hpp]; exact h.order j hj0 hj hji
  · intro j hp0 hj0 hj hpj
    have hpp : parent (parent i) < parent i := parent_lt hp0
    have hup : key (a (parent (parent i))) ≤ key (a (parent i)) :=
      h.order _ hp0 (by omega) (by omega)
    rw [swap_of_ne a (by omega) (by omega)]
    by_cases hji : j = i
    · subst hji; rw [swap_left]; exact hup
    · have hjp : j ≠ parent i := by have := parent_lt hj0; omega
      rw [swap_of_ne a hji hjp]
      exact le_trans hup (hpj ▸ h.order j hj0 hj hji)

/-- A sift down may stop where neither child has a smaller key. -/
theorem DownHole.stop {a : ℕ → α} {n i : ℕ} (h : DownHole key a n i)
    (hl : left i < n → key (a i) ≤ key (a (left i)))
    (hr : right i < n → key (a i) ≤ key (a (right i))) : Ordered key a n := by
  intro j h0 hj
  by_cases hpj : parent j = i
  · rcases eq_left_or_right h0 hpj with rfl | rfl
    · rw [hpj]; exact hl hj
    · rw [hpj]; exact hr hj
  · exact h.order j h0 hj hpj

/-- Exchanging the hole with a least child moves the hole down. -/
theorem DownHole.step {a : ℕ → α} {n i c : ℕ} (h : DownHole key a n i) (hc : c < n)
    (h0 : 0 < c) (hpc : parent c = i) (hle : key (a c) ≤ key (a i))
    (hmin : ∀ j, 0 < j → j < n → parent j = i → key (a c) ≤ key (a j)) :
    DownHole key (swap a i c) n c := by
  have hic : i < c := hpc ▸ parent_lt h0
  constructor
  · intro j hj0 hj hpj
    by_cases hji : j = i
    · subst hji
      have hp := parent_lt hj0
      rw [swap_left, swap_of_ne a (by omega) hpj]
      exact h.bridge c hj0 h0 hc hpc
    · by_cases hpi : parent j = i
      · rw [hpi, swap_left]
        by_cases hjc : j = c
        · subst hjc; rw [swap_right]; exact hle
        · rw [swap_of_ne a hji hjc]; exact hmin j hj0 hj hpi
      · have hjc : j ≠ c := fun he => hpi (he ▸ hpc)
        rw [swap_of_ne a hji hjc, swap_of_ne a hpi hpj]
        exact h.order j hj0 hj hpi
  · intro j _ hj0 hj hpj
    have hcj : c < j := hpj ▸ parent_lt hj0
    rw [hpc, swap_left, swap_of_ne a (by omega) (by omega)]
    exact hpj ▸ h.order j hj0 hj (by omega)

/-! ### Growing, shrinking and replacing a position -/

/-- A new last position is the only one that can be out of order with its parent. -/
theorem Ordered.upHole_last {a : ℕ → α} {n : ℕ} (h : Ordered key a n) : UpHole key a (n + 1) n := by
  constructor
  · intro j h0 hj hne
    exact h j h0 (by omega)
  · intro j _ h0 hj hpj
    have := parent_lt h0
    omega

theorem Ordered.patched {a b : ℕ → α} {n i : ℕ} (h : Ordered key a n)
    (hb : ∀ j, j ≠ i → j < n → b j = a j) : Patched key b n i := by
  constructor
  · intro j h0 hj hji hpi
    have hp := parent_lt h0
    rw [hb j hji hj, hb _ hpi (by omega)]
    exact h j h0 hj
  · intro j hi0 h0 hj hpj
    have hji : i < j := hpj ▸ parent_lt h0
    have hpi := parent_lt hi0
    rw [hb j (by omega) hj, hb _ (by omega) (by omega)]
    exact le_trans (h i hi0 (by omega)) (hpj ▸ h j h0 hj)

/-- A replacement not above its parent is not above its children either: the hole is above. -/
theorem Patched.upHole {a : ℕ → α} {n i : ℕ} (h : Patched key a n i) (h0 : 0 < i)
    (hle : key (a i) ≤ key (a (parent i))) : UpHole key a n i := by
  refine ⟨fun j hj0 hj hji => ?_, h.bridge⟩
  by_cases hpj : parent j = i
  · rw [hpj]; exact le_trans hle (h.bridge j h0 hj0 hj hpj)
  · exact h.order j hj0 hj hji hpj

/-- A replacement above its parent, or at the root, leaves the hole below. -/
theorem Patched.downHole {a : ℕ → α} {n i : ℕ} (h : Patched key a n i)
    (hs : ¬ (0 < i ∧ key (a i) ≤ key (a (parent i)))) : DownHole key a n i := by
  refine ⟨fun j hj0 hj hpj => ?_, h.bridge⟩
  by_cases hji : j = i
  · subst hji; exact le_of_lt (not_le.mp fun hc => hs ⟨hj0, hc⟩)
  · exact h.order j hj0 hj hji hpj

end Order

end BinHeap
