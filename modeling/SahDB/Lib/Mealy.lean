import Mathlib.Tactic

/-! Deterministic machines that answer every input: runs, invariants, simulations.

    `exec` is the state after a run and `outputs` the answers in order. An invariant of one step is
    an invariant of every run; a relation that one step keeps, with equal answers, gives equal
    outputs over whole runs. `always_iff_never` settles properties that hold until a bad input
    comes: where a bad input breaks the property at once and no other input can, the property holds
    along a run exactly when no bad input occurs in it. -/

namespace Mealy
variable {σ τ ι ω : Type*}

/-- The state after a run. -/
def exec (step : σ → ι → σ × ω) (s : σ) (is : List ι) : σ :=
  is.foldl (fun s i => (step s i).1) s

/-- The answers of a run. -/
def outputs (step : σ → ι → σ × ω) : σ → List ι → List ω
  | _, [] => []
  | s, i :: is => (step s i).2 :: outputs step (step s i).1 is

/-- `P` holds in every state of a run, the first and the last included. -/
def Always (step : σ → ι → σ × ω) (P : σ → Prop) (s : σ) (is : List ι) : Prop :=
  ∀ pre, pre <+: is → P (exec step s pre)

/-- No input of a run is bad in the state it meets. -/
def Never (step : σ → ι → σ × ω) (bad : σ → ι → Prop) (s : σ) (is : List ι) : Prop :=
  ∀ pre i, pre ++ [i] <+: is → ¬ bad (exec step s pre) i

variable {step : σ → ι → σ × ω}

@[simp] theorem exec_cons (s : σ) (i : ι) (is : List ι) :
    exec step s (i :: is) = exec step (step s i).1 is := rfl

theorem exec_append (s : σ) (is js : List ι) :
    exec step s (is ++ js) = exec step (exec step s is) js := List.foldl_append ..

/-- A run on renamed inputs. -/
theorem exec_map {κ : Type*} (f : κ → ι) (s : σ) (is : List κ) :
    exec (fun s k => step s (f k)) s is = exec step s (is.map f) := by
  rw [exec, exec, List.foldl_map]

/-- What one step keeps, every run keeps. -/
theorem exec_invariant {I : σ → Prop} (hstep : ∀ s i, I s → I (step s i).1) {s : σ} (h0 : I s)
    (is : List ι) : I (exec step s is) := by
  induction is generalizing s with
  | nil => exact h0
  | cons i is ih => exact ih (hstep s i h0)

theorem always_nil {P : σ → Prop} {s : σ} : Always step P s [] ↔ P s :=
  ⟨fun h => h [] List.nil_prefix, fun h pre hp => by rw [List.prefix_nil.mp hp]; exact h⟩

theorem always_cons {P : σ → Prop} {s : σ} {i : ι} {is : List ι} :
    Always step P s (i :: is) ↔ P s ∧ Always step P (step s i).1 is := by
  constructor
  · intro h
    exact ⟨h [] (List.nil_prefix), fun pre hp => h (i :: pre) (List.cons_prefix_cons.mpr ⟨rfl, hp⟩)⟩
  · rintro ⟨h0, h⟩ pre hp
    cases pre with
    | nil => exact h0
    | cons j pre =>
      obtain ⟨rfl, hq⟩ := List.cons_prefix_cons.mp hp
      exact h pre hq

theorem never_cons {bad : σ → ι → Prop} {s : σ} {i : ι} {is : List ι} :
    Never step bad s (i :: is) ↔ ¬ bad s i ∧ Never step bad (step s i).1 is := by
  constructor
  · intro h
    exact ⟨h [] i (by simp), fun pre j hp => h (i :: pre) j (List.cons_prefix_cons.mpr ⟨rfl, hp⟩)⟩
  · rintro ⟨h0, h⟩ pre j hp
    cases pre with
    | nil =>
      obtain ⟨rfl, -⟩ := List.cons_prefix_cons.mp hp
      exact h0
    | cons k pre =>
      obtain ⟨rfl, hq⟩ := List.cons_prefix_cons.mp hp
      exact h pre j hq

theorem never_nil {bad : σ → ι → Prop} {s : σ} : Never step bad s [] :=
  fun pre i hp => absurd (List.prefix_nil.mp hp) (by simp)

/-- Runs of related machines on acceptable inputs give the same answers exactly if no step is one on
    which they differ. -/
theorem outputs_eq_iff_never {step' : τ → ι → τ × ω} {R : σ → τ → Prop} {A : ι → Prop}
    {bad : σ → ι → Prop}
    (hstep : ∀ s t i, R s t → A i → ¬ bad s i →
      R (step s i).1 (step' t i).1 ∧ (step s i).2 = (step' t i).2)
    (hbad : ∀ s t i, R s t → bad s i → (step s i).2 ≠ (step' t i).2)
    {s : σ} {t : τ} (h0 : R s t) {is : List ι} (hA : ∀ i ∈ is, A i) :
    outputs step s is = outputs step' t is ↔ Never step bad s is := by
  induction is generalizing s t with
  | nil => exact iff_of_true rfl never_nil
  | cons i is ih =>
    rw [outputs, outputs, List.cons.injEq, never_cons]
    by_cases hi : bad s i
    · exact iff_of_false (fun h => hbad s t i h0 hi h.1) fun h => h.1 hi
    · obtain ⟨hR, hout⟩ := hstep s t i h0 (hA i (by simp)) hi
      rw [ih hR fun j hj => hA j (by simp [hj]), and_iff_right hout, and_iff_right hi]

theorem never_concat {bad : σ → ι → Prop} {s : σ} {is : List ι} {i : ι} :
    Never step bad s (is ++ [i]) ↔ Never step bad s is ∧ ¬ bad (exec step s is) i := by
  induction is generalizing s with
  | nil =>
    rw [List.nil_append, never_cons]
    exact ⟨fun h => ⟨never_nil, h.1⟩, fun h => ⟨h.2, never_nil⟩⟩
  | cons j is ih => rw [List.cons_append, never_cons, never_cons, ih, and_assoc, exec_cons]

/-- A property that only bad inputs break holds along a run of acceptable inputs exactly when no bad
    input occurs. -/
theorem always_iff_never_within {I P : σ → Prop} {A bad : σ → ι → Prop} (hP : ∀ s, I s → P s)
    (hgood : ∀ s i, I s → A s i → ¬ bad s i → I (step s i).1)
    (hbad : ∀ s i, I s → A s i → bad s i → ¬ P (step s i).1) {s : σ} (h0 : I s) {is : List ι}
    (hA : Never step (fun s i => ¬ A s i) s is) :
    Always step P s is ↔ Never step bad s is := by
  induction is generalizing s with
  | nil =>
    constructor
    · intro _ pre i hp
      simp at hp
    · intro _ pre hp
      rw [List.prefix_nil.mp hp]
      exact hP s h0
  | cons i is ih =>
    rw [never_cons, not_not] at hA
    rw [always_cons, never_cons]
    by_cases hb : bad s i
    · have hbreak := hbad s i h0 hA.1 hb
      exact ⟨fun h => absurd (h.2 [] List.nil_prefix) hbreak, fun h => absurd hb h.1⟩
    · rw [ih (hgood s i h0 hA.1 hb) hA.2]
      exact ⟨fun h => ⟨hb, h.2⟩, fun h => ⟨hP s h0, h.2⟩⟩

/-- Of all runs: a property that only bad inputs break holds exactly when no bad input occurs. -/
theorem always_iff_never {I P : σ → Prop} {bad : σ → ι → Prop} (hP : ∀ s, I s → P s)
    (hgood : ∀ s i, I s → ¬ bad s i → I (step s i).1)
    (hbad : ∀ s i, I s → bad s i → ¬ P (step s i).1) {s : σ} (h0 : I s) (is : List ι) :
    Always step P s is ↔ Never step bad s is :=
  always_iff_never_within (A := fun _ _ => True) hP (fun s i h _ => hgood s i h)
    (fun s i h _ => hbad s i h) h0 fun _ _ _ hno => hno trivial

/-- A machine that stops at bad inputs, and only there, has met no bad one, or has stayed where the
    first bad one has put it. -/
theorem exec_first_bad {I stopped : σ → Prop} {bad : σ → ι → Prop}
    (hI : ∀ s i, I s → I (step s i).1) (hstay : ∀ s i, stopped s → (step s i).1 = s)
    (hbad : ∀ s i, I s → ¬ stopped s → (stopped (step s i).1 ↔ bad s i)) {s : σ} (h0 : I s)
    (hrun : ¬ stopped s) (is : List ι) :
    (¬ stopped (exec step s is) ∧ Never step bad s is) ∨
    ∃ pre i post, is = pre ++ i :: post ∧ ¬ stopped (exec step s pre) ∧ Never step bad s pre ∧
      bad (exec step s pre) i ∧ exec step s is = (step (exec step s pre) i).1 := by
  induction is using List.reverseRecOn with
  | nil => exact Or.inl ⟨hrun, never_nil⟩
  | append_singleton is i ih =>
    have hlast : exec step s (is ++ [i]) = (step (exec step s is) i).1 := exec_append s is [i]
    have hkeep : ∀ js, I (exec step s js) := exec_invariant hI h0
    rcases ih with ⟨hgo, hnever⟩ | ⟨pre, j, post, rfl, hgo, hnever, hj, hend⟩
    · by_cases hi : bad (exec step s is) i
      · exact Or.inr ⟨is, i, [], rfl, hgo, hnever, hi, hlast⟩
      · refine Or.inl ⟨?_, never_concat.mpr ⟨hnever, hi⟩⟩
        rw [hlast]
        exact fun hc => hi ((hbad _ i (hkeep is) hgo).mp hc)
    · refine Or.inr ⟨pre, j, post ++ [i], by simp, hgo, hnever, hj, ?_⟩
      rw [hlast, hend]
      exact hstay _ i ((hbad _ j (hkeep pre) hgo).mpr hj)

/-! ### Inputs with their answers -/

/-- The inputs of a run with their answers. -/
def trace (step : σ → ι → σ × ω) : σ → List ι → List (ι × ω)
  | _, [] => []
  | s, i :: is => (i, (step s i).2) :: trace step (step s i).1 is

/-- The first step of a trace. -/
theorem trace_cons {s : σ} {is : List ι} {x : ι × ω} {b : List (ι × ω)}
    (h : trace step s is = x :: b) :
    ∃ i is', is = i :: is' ∧ x = (i, (step s i).2) ∧ trace step (step s i).1 is' = b := by
  cases is with
  | nil => cases h
  | cons i is =>
    obtain ⟨hx, hrest⟩ := List.cons.inj h
    exact ⟨i, is, rfl, hx.symm, hrest⟩

/-- A part of a trace is the trace of a part of the run. -/
theorem trace_split {s : σ} {is : List ι} {a b : List (ι × ω)} (h : trace step s is = a ++ b) :
    ∃ is₁ is₂, is = is₁ ++ is₂ ∧ trace step s is₁ = a ∧ trace step (exec step s is₁) is₂ = b := by
  induction a generalizing s is with
  | nil => exact ⟨[], is, rfl, rfl, h⟩
  | cons x a ih =>
    obtain ⟨i, is, rfl, rfl, hrest⟩ := trace_cons h
    obtain ⟨is₁, is₂, rfl, rfl, rfl⟩ := ih hrest
    exact ⟨i :: is₁, is₂, rfl, rfl, rfl⟩

theorem fst_mem_of_trace {s : σ} {is : List ι} {x : ι × ω} (h : x ∈ trace step s is) :
    x.1 ∈ is := by
  induction is generalizing s with
  | nil => cases h
  | cons i is ih =>
    rcases List.mem_cons.mp h with rfl | h
    · exact List.mem_cons_self
    · exact List.mem_cons_of_mem _ (ih h)

/-- What every step with a good input and answer keeps. -/
theorem exec_of_trace {I : σ → Prop} {G : ι × ω → Prop}
    (hstep : ∀ s i, I s → G (i, (step s i).2) → I (step s i).1) {s : σ} (h0 : I s)
    {is : List ι} (h : ∀ x ∈ trace step s is, G x) : I (exec step s is) := by
  induction is generalizing s with
  | nil => exact h0
  | cons i is ih =>
    exact ih (hstep s i h0 (h _ List.mem_cons_self)) fun x hx => h x (List.mem_cons_of_mem _ hx)

/-! ### A run with a log -/

/-- What the steps of a run write into a log. -/
def logged {κ : Type*} (step : σ → ι → σ × ω) (log : σ → ι → List κ) : σ → List ι → List κ
  | _, [] => []
  | s, i :: is => log s i ++ logged step log (step s i).1 is

theorem logged_append {κ : Type*} (log : σ → ι → List κ) (s : σ) (is js : List ι) :
    logged step log s (is ++ js) = logged step log s is ++ logged step log (exec step s is) js := by
  induction is generalizing s with
  | nil => rfl
  | cons i is ih => rw [List.cons_append, logged, logged, ih, List.append_assoc, exec_cons]

/-- What one step keeps of the state and the log, every run keeps. -/
theorem exec_logged {κ : Type*} {log : σ → ι → List κ} {I : σ → List κ → Prop}
    (hstep : ∀ s i l, I s l → I (step s i).1 (l ++ log s i)) {s : σ} {l : List κ} (h0 : I s l)
    (is : List ι) : I (exec step s is) (l ++ logged step log s is) := by
  induction is generalizing s l with
  | nil =>
    rw [logged, List.append_nil]
    exact h0
  | cons i is ih =>
    rw [logged, ← List.append_assoc]
    exact ih (hstep s i l h0)

/-! ### A machine shared by clients -/

/-- The answers client `c` gets in a run on tagged inputs. -/
def answersTo {κ : Type*} [DecidableEq κ] (step : σ → ι → σ × ω) (c : κ) : σ → List (κ × ι) → List ω
  | _, [] => []
  | s, (d, i) :: is =>
    if d = c then (step s i).2 :: answersTo step c (step s i).1 is
    else answersTo step c (step s i).1 is

/-- The inputs of client `c`, in order. -/
def inputsOf {κ : Type*} [DecidableEq κ] (c : κ) (is : List (κ × ι)) : List ι :=
  (is.filter fun x => x.1 = c).map Prod.snd

/-- A client without inputs gets no answers. -/
theorem answersTo_of_ne {κ : Type*} [DecidableEq κ] {c : κ} {is : List (κ × ι)}
    (h : ∀ x ∈ is, x.1 ≠ c) (s : σ) : answersTo step c s is = [] := by
  induction is generalizing s with
  | nil => rfl
  | cons x is ih =>
    obtain ⟨d, i⟩ := x
    rw [answersTo, if_neg (h (d, i) List.mem_cons_self)]
    exact ih (fun y hy => h y (List.mem_cons_of_mem _ hy)) _

/-- The last input of a run is answered from the state before it. -/
theorem answersTo_concat {κ : Type*} [DecidableEq κ] (c : κ) (s : σ) (is : List (κ × ι))
    (x : κ × ι) : answersTo step c s (is ++ [x]) = answersTo step c s is ++
      if x.1 = c then [(step (exec step s (is.map Prod.snd)) x.2).2] else [] := by
  induction is generalizing s with
  | nil =>
    obtain ⟨d, i⟩ := x
    rfl
  | cons y is ih =>
    obtain ⟨d, i⟩ := y
    rw [List.cons_append, answersTo, answersTo, List.map_cons, exec_cons, ih]
    split_ifs <;> rfl

/-- Clients of a machine that another one follows, up to `g` on its answers. -/
theorem answersTo_of_simulation {κ ω' : Type*} [DecidableEq κ] {step' : τ → ι → τ × ω'}
    {R : σ → τ → Prop} {bad : σ → ι → Prop} {g : ω' → ω}
    (hstep : ∀ s t i, R s t → ¬ bad s i →
      R (step s i).1 (step' t i).1 ∧ (step s i).2 = g (step' t i).2)
    {s : σ} {t : τ} (h0 : R s t) {is : List (κ × ι)}
    (hnever : Never step bad s (is.map Prod.snd)) :
    R (exec step s (is.map Prod.snd)) (exec step' t (is.map Prod.snd)) ∧
      ∀ c, answersTo step c s is = (answersTo step' c t is).map g := by
  induction is generalizing s t with
  | nil => exact ⟨h0, fun c => rfl⟩
  | cons x is ih =>
    obtain ⟨d, i⟩ := x
    rw [List.map_cons, never_cons] at hnever
    obtain ⟨hR, hans⟩ := hstep s t i h0 hnever.1
    obtain ⟨hR', hans'⟩ := ih hR hnever.2
    refine ⟨hR', fun c => ?_⟩
    rw [answersTo, answersTo, hans, hans']
    split_ifs <;> rfl

/-- What holds of every answer to an acceptable input, holds of the answers of a client. -/
theorem answersTo_forall {κ : Type*} [DecidableEq κ] {I : σ → Prop} {A : ι → Prop} {Q : ω → Prop}
    (hstep : ∀ s i, I s → A i → I (step s i).1 ∧ Q (step s i).2) {s : σ} (h0 : I s) {c : κ}
    {is : List (κ × ι)} (hA : ∀ x ∈ is, A x.2) : ∀ o ∈ answersTo step c s is, Q o := by
  induction is generalizing s with
  | nil => exact fun o ho => absurd ho List.not_mem_nil
  | cons x is ih =>
    obtain ⟨d, i⟩ := x
    obtain ⟨hI, hQ⟩ := hstep s i h0 (hA _ List.mem_cons_self)
    have hrest := ih hI fun y hy => hA y (List.mem_cons_of_mem _ hy)
    rw [answersTo]
    split_ifs
    · intro o ho
      rcases List.mem_cons.mp ho with rfl | ho
      · exact hQ
      · exact hrest o ho
    · exact hrest

/-- A client that sees the shared machine as its own one (`R`), which its inputs keep with equal
    answers and the other clients' inputs without moving it, gets the answers of its own run. -/
theorem answersTo_eq_outputs {κ : Type*} [DecidableEq κ] {c : κ} {R : σ → τ → Prop}
    {step' : τ → ι → τ × ω} {A : σ → κ × ι → Prop}
    (hown : ∀ s t i, R s t → A s (c, i) →
      R (step s i).1 (step' t i).1 ∧ (step s i).2 = (step' t i).2)
    (hother : ∀ s t d i, R s t → A s (d, i) → d ≠ c → R (step s i).1 t) {s : σ} {t : τ}
    (h0 : R s t) {is : List (κ × ι)}
    (hA : Never (fun s x => step s x.2) (fun s x => ¬ A s x) s is) :
    answersTo step c s is = outputs step' t (inputsOf c is) := by
  induction is generalizing s t with
  | nil => rfl
  | cons x is ih =>
    obtain ⟨d, i⟩ := x
    rw [never_cons, not_not] at hA
    rw [answersTo]
    by_cases hd : d = c
    · subst hd
      obtain ⟨hR, hans⟩ := hown s t i h0 hA.1
      rw [if_pos rfl, inputsOf, List.filter_cons_of_pos (by simp), List.map_cons, outputs, hans,
        ih hR hA.2]
      rfl
    · rw [if_neg hd, inputsOf, List.filter_cons_of_neg (by simpa using hd),
        ih (hother s t d i h0 hA.1 hd) hA.2]
      rfl

end Mealy
