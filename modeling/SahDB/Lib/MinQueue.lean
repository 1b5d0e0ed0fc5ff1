import Mathlib.Data.Finset.Basic
import Mathlib.Order.Defs.LinearOrder
import Mathlib.Tactic

/-! What a priority queue is for: a finite set whose least elements leave first.

    `IsPop` is the specification of one answer of pop. Answers that keep to it until the set is
    empty (`Drains`) list the elements of the set, each once, in the order of their keys. -/

namespace MinQueue
variable {α κ : Type*} [DecidableEq α] [LinearOrder κ] (key : α → κ)

/-- What pop may answer: nothing if the set is empty, otherwise an element of least key. -/
def IsPop (s : Finset α) : Option α → Prop
  | none => s = ∅
  | some e => e ∈ s ∧ ∀ x ∈ s, key e ≤ key x

/-- The set after that answer. -/
def leave (s : Finset α) : Option α → Finset α
  | none => s
  | some e => s.erase e

/-- The answers of pop until it has nothing to answer. -/
inductive Drains : Finset α → List α → Prop
  | nil : IsPop key ∅ none → Drains ∅ []
  | cons {s : Finset α} {e : α} {l : List α} :
    IsPop key s (some e) → Drains (s.erase e) l → Drains s (e :: l)

variable {key}

theorem Drains.mem_iff {s : Finset α} {l : List α} (h : Drains key s l) (x : α) :
    x ∈ l ↔ x ∈ s := by
  induction h with
  | nil => simp
  | @cons s e l hpop _ ih =>
    rw [List.mem_cons, ih, Finset.mem_erase]
    constructor
    · rintro (rfl | hx)
      · exact hpop.1
      · exact hx.2
    · intro hx
      rcases eq_or_ne x e with hxe | hxe
      · exact Or.inl hxe
      · exact Or.inr ⟨hxe, hx⟩

theorem Drains.nodup {s : Finset α} {l : List α} (h : Drains key s l) : l.Nodup := by
  induction h with
  | nil => exact List.nodup_nil
  | @cons s e l _ hrest ih =>
    rw [List.nodup_cons, hrest.mem_iff]
    exact ⟨Finset.notMem_erase e s, ih⟩

theorem Drains.sorted {s : Finset α} {l : List α} (h : Drains key s l) :
    l.Pairwise fun a b => key a ≤ key b := by
  induction h with
  | nil => exact List.Pairwise.nil
  | @cons s e l hpop hrest ih =>
    rw [List.pairwise_cons]
    refine ⟨fun x hx => ?_, ih⟩
    exact hpop.2 x (Finset.mem_of_mem_erase ((hrest.mem_iff x).mp hx))

end MinQueue
