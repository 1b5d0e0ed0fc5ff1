import SahDB.Network

/-! How far the connection table fills.

    `len` only grows, by one for each `accept`; a slot that is closed stays where it is, and the
    call that would make the table larger is commented out. So the slots stored in a run are 0, 1,
    2, ... (`stored_run`), and they stay within the table exactly as long as there are no more
    accepts than slots. -/

namespace SahDB

/-- The slot an event stores. -/
def Event.storedSlot : Event → Option ℕ
  | .stored idx => some idx
  | .request _ _ => none

/-- The slots stored by some events, in order. -/
def storedSlots (evs : List Event) : List ℕ := evs.filterMap Event.storedSlot

/-- The slots a run of the loop stores connections at. -/
def stored (s : Server) (ticks : List Tick) : List ℕ :=
  storedSlots (Mealy.outputs Server.step s ticks).flatten

/-- The server calls `accept` in this turn: it still runs, `select` has returned, and has reported
    the server's own descriptor. -/
def Server.Accepts (s : Server) (t : Tick) : Prop :=
  s.flow = .next ∧ t.selectOk = true ∧ t.serverReady = true

instance (s : Server) (t : Tick) : Decidable (s.Accepts t) := inferInstanceAs (Decidable (_ ∧ _))

/-- The number of calls of `accept` in a run, failed ones included. -/
def accepts : Server → List Tick → ℕ
  | _, [] => 0
  | s, t :: ticks => (if s.Accepts t then 1 else 0) + accepts (s.step t).1 ticks

/-! ### One turn -/

/-- Serving a slot stores no connection and leaves the size of the table. -/
theorem visit_size (t : Tick) (isSet : ℤ → Bool) (st : Server × List Event) (i : ℕ) :
    (Server.visit t isSet st i).1.table.len = st.1.table.len ∧
      (Server.visit t isSet st i).1.table.cap = st.1.table.cap ∧
      storedSlots (Server.visit t isSet st i).2 = storedSlots st.2 := by
  obtain ⟨s, evs⟩ := st
  rw [Server.visit]
  dsimp only
  split
  · exact ⟨rfl, rfl, rfl⟩
  · refine ⟨rfl, rfl, ?_⟩
    rw [storedSlots, List.filterMap_append]
    cases (serveSlot s.master ⟨t.read i, t.env i, t.repl i, s.node⟩ (s.table.conns i)).request <;>
      simp [storedSlots, Event.storedSlot]

theorem visits_size (t : Tick) (isSet : ℤ → Bool) (st : Server × List Event) (is : List ℕ) :
    (is.foldl (Server.visit t isSet) st).1.table.len = st.1.table.len ∧
      (is.foldl (Server.visit t isSet) st).1.table.cap = st.1.table.cap ∧
      storedSlots (is.foldl (Server.visit t isSet) st).2 = storedSlots st.2 := by
  induction is generalizing st with
  | nil => exact ⟨rfl, rfl, rfl⟩
  | cons i is ih =>
    obtain ⟨h1, h2, h3⟩ := visit_size t isSet st i
    obtain ⟨h1', h2', h3'⟩ := ih (Server.visit t isSet st i)
    exact ⟨h1'.trans h1, h2'.trans h2, h3'.trans h3⟩

/-- A turn that accepts stores the slot behind the last one, any other stores none. -/
theorem step_size (s : Server) (t : Tick) :
    (s.step t).1.table.cap = s.table.cap ∧
      (s.step t).1.table.len = s.table.len + (if s.Accepts t then 1 else 0) ∧
      storedSlots (s.step t).2 = if s.Accepts t then [s.table.len] else [] := by
  rcases eq_or_ne s.flow .next with hflow | hflow
  · cases hselect : t.selectOk with
    | false =>
      have hno : ¬ s.Accepts t := fun h => by rw [h.2.1] at hselect; cases hselect
      rw [if_neg hno, if_neg hno, step_selectFail hflow hselect]
      exact ⟨rfl, rfl, rfl⟩
    | true =>
      rw [step_serve hflow hselect]
      cases hready : t.serverReady with
      | false =>
        have hno : ¬ s.Accepts t := fun h => by rw [h.2.2] at hready; cases hready
        obtain ⟨h1, h2, h3⟩ := visits_size t (s.isSet t) (s, []) (List.range s.table.len)
        rw [if_neg hno, if_neg hno]
        exact ⟨h2, h1, h3⟩
      | true =>
        have hyes : s.Accepts t := ⟨hflow, hselect, hready⟩
        obtain ⟨h1, h2, h3⟩ := visits_size t (s.isSet t) (s.accept t.accepted)
          (List.range (s.accept t.accepted).1.table.len)
        rw [if_pos hyes, if_pos hyes]
        exact ⟨h2, h1, h3⟩
  · have hno : ¬ s.Accepts t := fun h => hflow h.1
    rw [if_neg hno, if_neg hno, step_stopped hflow]
    exact ⟨rfl, rfl, rfl⟩

/-! ### A run -/

theorem stored_cons (s : Server) (t : Tick) (ticks : List Tick) :
    stored s (t :: ticks) = storedSlots (s.step t).2 ++ stored (s.step t).1 ticks := by
  rw [stored, Mealy.outputs, List.flatten_cons, storedSlots, List.filterMap_append]
  rfl

/-- The slots stored in a run are the next ones, one for each accept. -/
theorem stored_run (s : Server) (ticks : List Tick) :
    (Mealy.exec Server.step s ticks).table.cap = s.table.cap ∧
      (Mealy.exec Server.step s ticks).table.len = s.table.len + accepts s ticks ∧
      stored s ticks = List.range' s.table.len (accepts s ticks) := by
  induction ticks generalizing s with
  | nil => exact ⟨rfl, rfl, rfl⟩
  | cons t ticks ih =>
    obtain ⟨hcap, hlen, hslots⟩ := ih (s.step t).1
    obtain ⟨hcap', hlen', hslots'⟩ := step_size s t
    rw [stored_cons, Mealy.exec_cons, accepts, hslots, hslots', hlen', hlen, hlen']
    refine ⟨hcap.trans hcap', Nat.add_assoc _ _ _, ?_⟩
    split_ifs
    · rw [List.singleton_append, Nat.add_comm 1, List.range'_succ]
    · rw [List.nil_append, Nat.zero_add, Nat.add_zero]

/-- The accepts of a part of a run are no more than those of the run. -/
theorem accepts_prefix_le (s : Server) {pre ticks : List Tick} (h : pre <+: ticks) :
    accepts s pre ≤ accepts s ticks := by
  induction pre generalizing s ticks with
  | nil => exact Nat.zero_le _
  | cons t pre ih =>
    cases ticks with
    | nil => simp at h
    | cons t' ticks =>
      obtain ⟨rfl, hrest⟩ := List.cons_prefix_cons.mp h
      exact Nat.add_le_add_left (ih _ hrest) _

/-- CORRECT: over a run of the server every connection is stored at an index below `cap`, and `len`
    never exceeds `cap`, exactly when the run calls `accept` at most 32 times, failures included. -/
theorem conn_table_bound_iff (node : Node) (master : Bool) (ticks : List Tick) :
    let s := Server.start node master
    ((∀ idx ∈ stored s ticks, idx < s.table.cap) ↔ accepts s ticks ≤ 32) ∧
      (Mealy.Always Server.step (fun s => s.table.len ≤ s.table.cap) s ticks ↔
        accepts s ticks ≤ 32) := by
  intro s
  have hcap : s.table.cap = 32 := rfl
  have hzero : s.table.len = 0 := rfl
  constructor
  · obtain ⟨-, -, hslots⟩ := stored_run s ticks
    rw [hslots, hzero, hcap]
    constructor
    · intro h
      by_contra hmore
      have hmem : 32 ∈ List.range' 0 (accepts s ticks) := by
        rw [List.mem_range'_1]; omega
      exact absurd (h 32 hmem) (lt_irrefl 32)
    · intro h idx hidx
      rw [List.mem_range'_1] at hidx
      omega
  · constructor
    · intro h
      obtain ⟨hcap', hlen, -⟩ := stored_run s ticks
      have hend := h ticks (List.prefix_refl _)
      simp only [hcap', hlen, hcap, hzero] at hend
      omega
    · intro h pre hpre
      obtain ⟨hcap', hlen, -⟩ := stored_run s pre
      have hle := accepts_prefix_le s hpre
      simp only [hcap', hlen, hcap, hzero]
      omega

/-- A turn in which a client connects and nothing else happens. -/
def connectTick : Tick where
  selectOk := true
  serverReady := true
  ready := fun _ => false
  accepted := 4
  read := fun _ => .error
  repl := fun _ => .ok
  env := fun _ => ⟨0, 0, 0, true, true, true, true, fun _ => true⟩

/-- The connection that the 33rd accept returns is stored behind the end of the table. -/
theorem accept_past_cap :
    ¬ ∀ (node : Node) (master : Bool) (ticks : List Tick),
      Mealy.Always Server.step (fun s => s.table.len ≤ s.table.cap) (Server.start node master)
        ticks := by
  intro h
  have hend := h ⟨htInit, none⟩ true (List.replicate 33 connectTick) _ (List.prefix_refl _)
  revert hend
  decide +kernel

end SahDB
