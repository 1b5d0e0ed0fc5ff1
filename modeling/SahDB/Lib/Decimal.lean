import Mathlib.Tactic

/-! Decimal numerals as ASCII bytes: printing a natural number and reading one back. -/

namespace Decimal

/-- An ASCII digit. -/
def IsDigit (c : UInt8) : Prop := 48 ≤ c.toNat ∧ c.toNat ≤ 57

instance (c : UInt8) : Decidable (IsDigit c) := inferInstanceAs (Decidable (_ ∧ _))

/-- The decimal numeral of `n`, most significant digit first. -/
def print (n : ℕ) : List UInt8 := (Nat.toDigits 10 n).map fun c => UInt8.ofNat c.toNat

/-- The number a string of digits denotes. -/
def value (s : List UInt8) : ℕ := s.foldl (fun v c => 10 * v + (c.toNat - 48)) 0

theorem toNat_of_isDigit {c : Char} (hc : c.isDigit) :
    (UInt8.ofNat c.toNat).toNat = c.toNat := by
  have : 48 ≤ c.toNat ∧ c.toNat ≤ 57 := Char.isDigit_iff_toNat.mp hc
  rw [UInt8.toNat_ofNat']
  omega

theorem isDigit_of_mem_print {n : ℕ} {c : UInt8} (hc : c ∈ print n) : IsDigit c := by
  obtain ⟨d, hd, rfl⟩ := List.mem_map.mp hc
  have hdig := Nat.isDigit_of_mem_toDigits (by decide) (by decide) hd
  have := Char.isDigit_iff_toNat.mp hdig
  rw [IsDigit, toNat_of_isDigit hdig]
  exact this

theorem print_ne_nil (n : ℕ) : print n ≠ [] := by
  simp [print, Nat.toDigits_ne_nil]

theorem length_print_le_iff {n k : ℕ} (hk : 0 < k) : (print n).length ≤ k ↔ n < 10 ^ k := by
  rw [print, List.length_map]
  exact Nat.length_toDigits_le_iff (by decide) hk

/-- Reading a printed number gives it back. -/
theorem value_print (n : ℕ) : value (print n) = n := by
  conv_rhs => rw [← Nat.ofDigitChars_ten_toDigits (n := n)]
  rw [value, print, List.foldl_map, Nat.ofDigitChars_eq_foldl]
  have hdig : ∀ c ∈ Nat.toDigits 10 n, c.isDigit := fun c =>
    Nat.isDigit_of_mem_toDigits (by decide) (by decide)
  generalize Nat.toDigits 10 n = l at hdig
  generalize (0 : ℕ) = v
  induction l generalizing v with
  | nil => rfl
  | cons c l ih =>
    rw [List.foldl_cons, List.foldl_cons, toNat_of_isDigit (hdig c (by simp))]
    exact ih (fun d hd => hdig d (by simp [hd])) _

end Decimal
