import Mathlib.Tactic

/-! Lists searched by a key: the first element with the key is the one that counts.

    `modify` and `remove` act on that element. Where the keys are pairwise distinct a list is a
    finite map from keys, and the lemmas here are the laws of that map. -/

namespace KeyedList
variable {α κ : Type*} [DecidableEq κ] (key : α → κ)

/-- The first element with key `k`. -/
def lookup (k : κ) (l : List α) : Option α := l.find? fun a => key a = k

/-- Apply `f` to the first element with key `k`. -/
def modify (k : κ) (f : α → α) : List α → List α
  | [] => []
  | a :: l => if key a = k then f a :: l else a :: modify k f l

/-- Take out the first element with key `k`. -/
def remove (k : κ) : List α → List α
  | [] => []
  | a :: l => if key a = k then l else a :: remove k l

/-- No two elements share a key. -/
def Distinct (l : List α) : Prop := (l.map key).Nodup

instance (l : List α) : Decidable (Distinct key l) := inferInstanceAs (Decidable (l.map key).Nodup)

variable {key}

theorem lookup_cons (k : κ) (a : α) (l : List α) :
    lookup key k (a :: l) = if key a = k then some a else lookup key k l := by
  simp only [lookup, List.find?_cons]
  split <;> simp_all

theorem lookup_append (k : κ) (l m : List α) :
    lookup key k (l ++ m) = (lookup key k l).or (lookup key k m) := List.find?_append

theorem key_of_lookup {k : κ} {l : List α} {a : α} (h : lookup key k l = some a) : key a = k := by
  simpa using List.find?_some h

theorem mem_of_lookup {k : κ} {l : List α} {a : α} (h : lookup key k l = some a) : a ∈ l :=
  List.mem_of_find?_eq_some h

theorem lookup_eq_none {k : κ} {l : List α} : lookup key k l = none ↔ ∀ a ∈ l, key a ≠ k := by
  simp [lookup]

theorem lookup_of_mem {l : List α} (hd : Distinct key l) {a : α} (ha : a ∈ l) :
    lookup key (key a) l = some a := by
  induction l with
  | nil => simp at ha
  | cons b l ih =>
    simp only [Distinct, List.map_cons, List.nodup_cons] at hd
    rw [lookup_cons]
    rcases List.mem_cons.mp ha with rfl | hl
    · simp
    · have hne : key b ≠ key a := fun he => hd.1 (he ▸ List.mem_map_of_mem hl)
      rw [if_neg hne]; exact ih hd.2 hl

/-- The shape of a list around the first element with key `k`. -/
theorem lookup_split {k : κ} {l : List α} {a : α} (h : lookup key k l = some a) :
    ∃ pre post, l = pre ++ a :: post ∧ ∀ b ∈ pre, key b ≠ k := by
  obtain ⟨-, pre, post, rfl, hpre⟩ := List.find?_eq_some_iff_append.mp h
  exact ⟨pre, post, rfl, fun b hb => by simpa using hpre b hb⟩

/-! ### `modify` -/

theorem modify_split {k : κ} {pre post : List α} {a : α} (f : α → α) (ha : key a = k)
    (hpre : ∀ b ∈ pre, key b ≠ k) : modify key k f (pre ++ a :: post) = pre ++ f a :: post := by
  induction pre with
  | nil => simp [modify, ha]
  | cons b pre ih =>
    rw [List.cons_append, modify, if_neg (hpre b (by simp)), ih fun c hc => hpre c (by simp [hc])]
    rfl

theorem length_modify (k : κ) (f : α → α) (l : List α) :
    (modify key k f l).length = l.length := by
  induction l with
  | nil => rfl
  | cons a l ih => rw [modify]; split <;> simp [ih]

theorem map_key_modify (k : κ) {f : α → α} (hf : ∀ a, key (f a) = key a) (l : List α) :
    (modify key k f l).map key = l.map key := by
  induction l with
  | nil => rfl
  | cons a l ih => rw [modify]; split <;> simp [ih, hf]

theorem lookup_modify_self (k : κ) {f : α → α} (hf : ∀ a, key (f a) = key a) (l : List α) :
    lookup key k (modify key k f l) = (lookup key k l).map f := by
  induction l with
  | nil => rfl
  | cons a l ih =>
    rw [modify, lookup_cons]
    by_cases h : key a = k
    · rw [if_pos h, if_pos h, lookup_cons, hf, if_pos h]; rfl
    · rw [if_neg h, if_neg h, lookup_cons, if_neg h, ih]

theorem lookup_modify_ne {k j : κ} {f : α → α} (hf : ∀ a, key (f a) = key a) (hj : j ≠ k)
    (l : List α) : lookup key j (modify key k f l) = lookup key j l := by
  induction l with
  | nil => rfl
  | cons a l ih =>
    rw [modify]
    by_cases h : key a = k
    · have hne : key a ≠ j := fun he => hj (he.symm.trans h)
      rw [if_pos h, lookup_cons, lookup_cons, hf, if_neg hne, if_neg hne]
    · rw [if_neg h, lookup_cons, lookup_cons, ih]

/-! ### `remove` -/

theorem remove_split {k : κ} {pre post : List α} {a : α} (ha : key a = k)
    (hpre : ∀ b ∈ pre, key b ≠ k) : remove key k (pre ++ a :: post) = pre ++ post := by
  induction pre with
  | nil => simp [remove, ha]
  | cons b pre ih =>
    rw [List.cons_append, remove, if_neg (hpre b (by simp)), ih fun c hc => hpre c (by simp [hc])]
    rfl

theorem remove_sublist (k : κ) (l : List α) : (remove key k l).Sublist l := by
  induction l with
  | nil => exact List.Sublist.refl _
  | cons a l ih =>
    rw [remove]; split
    · exact List.sublist_cons_self a l
    · exact ih.cons_cons a

theorem remove_of_lookup_none {k : κ} {l : List α} (h : lookup key k l = none) :
    remove key k l = l := by
  induction l with
  | nil => rfl
  | cons b l ih =>
    rw [lookup_eq_none] at h
    rw [remove, if_neg (h b (by simp)), ih (lookup_eq_none.mpr fun c hc => h c (by simp [hc]))]

theorem length_remove {k : κ} {l : List α} {a : α} (h : lookup key k l = some a) :
    (remove key k l).length + 1 = l.length := by
  obtain ⟨pre, post, rfl, hpre⟩ := lookup_split h
  rw [remove_split (key_of_lookup h) hpre]
  simp; omega

theorem lookup_remove_ne {k j : κ} (hj : j ≠ k) (l : List α) :
    lookup key j (remove key k l) = lookup key j l := by
  induction l with
  | nil => rfl
  | cons a l ih =>
    rw [remove]
    by_cases h : key a = k
    · have hne : key a ≠ j := fun he => hj (he.symm.trans h)
      rw [if_pos h, lookup_cons, if_neg hne]
    · rw [if_neg h, lookup_cons, lookup_cons, ih]

theorem lookup_remove_self {k : κ} {l : List α} (hd : Distinct key l) :
    lookup key k (remove key k l) = none := by
  cases h : lookup key k l with
  | none => rw [remove_of_lookup_none h, h]
  | some a =>
    obtain ⟨pre, post, rfl, hpre⟩ := lookup_split h
    have ha := key_of_lookup h
    rw [remove_split ha hpre, lookup_eq_none]
    simp only [Distinct, List.map_append, List.map_cons] at hd
    have hcons := (List.nodup_append.mp hd).2.1
    intro b hb
    rcases List.mem_append.mp hb with hb | hb
    · exact hpre b hb
    · exact fun he => (List.nodup_cons.mp hcons).1 (ha.trans he.symm ▸ List.mem_map_of_mem hb)

/-! ### Distinct keys are kept -/

theorem Distinct.modify {l : List α} (hd : Distinct key l) (k : κ) {f : α → α}
    (hf : ∀ a, key (f a) = key a) : Distinct key (modify key k f l) := by
  rw [Distinct, map_key_modify k hf]; exact hd

theorem Distinct.remove {l : List α} (hd : Distinct key l) (k : κ) :
    Distinct key (remove key k l) := List.Nodup.sublist ((remove_sublist k l).map key) hd

theorem Distinct.concat {l : List α} (hd : Distinct key l) {a : α}
    (ha : lookup key (key a) l = none) : Distinct key (l ++ [a]) := by
  rw [lookup_eq_none] at ha
  rw [Distinct, List.map_append, List.nodup_append]
  refine ⟨hd, by simp, ?_⟩
  rintro x hx y hy rfl
  obtain ⟨b, hb, rfl⟩ := List.mem_map.mp hx
  exact ha b hb (by simpa using hy)

end KeyedList
