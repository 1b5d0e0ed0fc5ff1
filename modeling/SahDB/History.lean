import SahDB.SlotRun

/-! The history of the connections: what happens to the slots, one moment after another.

    A moment is a connection stored in a slot, or the loop body serving a slot. The history of a run
    is read off the states the run goes through (`Server.moments`); it has every event the run
    shows (`outputs_history`) and rebuilds the connection table moment by moment (`Follows`), so
    that what holds over all histories is proved by induction on `Follows`. -/

namespace SahDB

/-- What happens to one slot: without a read a new connection is stored in it, with a read it is
    served. -/
structure Moment where
  slot : ℕ
  before : Conn
  read : Option ReadOutcome
  after : Conn
  closed : Bool
  request : Option Str

namespace Moment

/-- A connection from `accept` is stored behind the last slot. -/
def accepted (t : ConnTable) (fd : ℤ) : Moment :=
  ⟨t.len, t.conns t.len, none, ⟨fd, .unkn, .handshake⟩, false, none⟩

/-- The loop body serves slot `i`. -/
def served (master : Bool) (i : ℕ) (v : Visit) (c : Conn) : Moment :=
  let d := serveSlot master v c
  ⟨i, c, some v.outcome, d.conn, d.closed, d.request⟩

/-- The events a moment shows. -/
def events (m : Moment) : List Event :=
  match m.read with
  | none => [.stored m.slot]
  | some _ => (m.request.map (Event.request m.slot)).toList

end Moment

namespace Server

/-- The moment of slot `i` in a turn that comes to it in state `s`. -/
def serves (t : Tick) (isSet : ℤ → Bool) (s : Server) (i : ℕ) : List Moment :=
  let c := s.table.conns i
  if s.flow ≠ .next ∨ c.fd = -1 ∨ isSet c.fd = false then []
  else [.served s.master i ⟨t.read i, t.env i, t.repl i, s.node⟩ c]

/-- The moments of a turn before it comes to slot `i`. -/
def momentsBefore (s : Server) (t : Tick) : ℕ → List Moment
  | 0 => if t.serverReady then [.accepted s.table t.accepted] else []
  | i + 1 => s.momentsBefore t i ++ (s.before t i).1.serves t (s.isSet t) i

/-- The moments of one turn. -/
def moments (s : Server) (t : Tick) : List Moment :=
  if s.flow ≠ .next ∨ t.selectOk = false then []
  else s.momentsBefore t (s.before t 0).1.table.len

end Server

/-- The moments of a run. -/
def history (s : Server) : List Tick → List Moment
  | [] => []
  | t :: ticks => s.moments t ++ history (s.step t).1 ticks

/-- The histories that lead from the empty table to `t`. -/
inductive Follows (master : Bool) : List Moment → ConnTable → Prop
  | start : Follows master [] initConnTable
  | accept {h : List Moment} {t : ConnTable} (fd : ℤ) : Follows master h t →
    Follows master (h ++ [.accepted t fd])
      { t.set t.len ⟨fd, .unkn, .handshake⟩ with len := t.len + 1 }
  | serve {h : List Moment} {t : ConnTable} {i : ℕ} (v : Visit) : Follows master h t →
    i < t.len → (t.conns i).fd ≠ -1 →
    Follows master (h ++ [.served master i v (t.conns i)])
      (t.set i (serveSlot master v (t.conns i)).conn)

/-! ### One turn -/

section Turn
variable {s : Server} {t : Tick} {h : List Moment}

theorem before_succ (s : Server) (t : Tick) (i : ℕ) :
    s.before t (i + 1) = Server.visit t (s.isSet t) (s.before t i) i := by
  rw [Server.before, List.range_succ, List.foldl_append]
  rfl

theorem before_const (s : Server) (t : Tick) (i : ℕ) :
    (s.before t i).1.table.len = (s.before t 0).1.table.len ∧
      (s.before t i).1.master = (s.before t 0).1.master := by
  induction i with
  | zero => exact ⟨rfl, rfl⟩
  | succ i ih =>
    rw [before_succ]
    by_cases hskip : (s.before t i).1.flow ≠ .next ∨ ((s.before t i).1.table.conns i).fd = -1 ∨
        s.isSet t ((s.before t i).1.table.conns i).fd = false
    · rw [visit_skip hskip]
      exact ih
    · rw [visit_serve hskip]
      exact ih

theorem before_master (s : Server) (t : Tick) (i : ℕ) : (s.before t i).1.master = s.master := by
  rw [(before_const s t i).2]
  change (if t.serverReady then s.accept t.accepted else (s, [])).1.master = s.master
  split_ifs <;> rfl

theorem step_master (s : Server) (t : Tick) : (s.step t).1.master = s.master := by
  by_cases hflow : s.flow = .next
  · cases hselect : t.selectOk with
    | false => rw [step_selectFail hflow hselect]
    | true =>
      have hstep : s.step t = s.before t (s.before t 0).1.table.len := step_serve hflow hselect
      rw [hstep, before_master]
  · rw [step_stopped hflow]

/-- A slot of the turn: its moment carries the history and the events on. -/
theorem visit_moment (isSet : ℤ → Bool) {st : Server × List Event} {i : ℕ}
    (hh : Follows st.1.master h st.1.table) (hi : i < st.1.table.len) :
    Follows st.1.master (h ++ st.1.serves t isSet i) (Server.visit t isSet st i).1.table ∧
      (Server.visit t isSet st i).2 = st.2 ++ (st.1.serves t isSet i).flatMap Moment.events := by
  simp only [Server.serves]
  split_ifs with hskip
  · rw [visit_skip hskip, List.append_nil, List.flatMap_nil, List.append_nil]
    exact ⟨hh, rfl⟩
  · rw [visit_serve hskip]
    rw [not_or, not_or] at hskip
    refine ⟨hh.serve _ hi hskip.2.1, ?_⟩
    rw [List.flatMap_singleton]
    rfl

theorem before_moments (hh : Follows s.master h s.table) {n : ℕ}
    (hn : n ≤ (s.before t 0).1.table.len) :
    Follows (s.before t n).1.master (h ++ s.momentsBefore t n) (s.before t n).1.table ∧
      (s.before t n).2 = (s.momentsBefore t n).flatMap Moment.events := by
  induction n with
  | zero =>
    have hzero : s.before t 0 = if t.serverReady then s.accept t.accepted else (s, []) := rfl
    rw [hzero, Server.momentsBefore]
    split_ifs
    · exact ⟨hh.accept t.accepted, rfl⟩
    · rw [List.append_nil]
      exact ⟨hh, rfl⟩
  | succ n ih =>
    obtain ⟨hfollows, hevents⟩ := ih (Nat.le_of_succ_le hn)
    obtain ⟨hlen, -⟩ := before_const s t n
    obtain ⟨hfollows', hevents'⟩ :=
      visit_moment (t := t) (s.isSet t) hfollows (i := n) (by omega)
    have hmaster : (s.before t (n + 1)).1.master = (s.before t n).1.master :=
      (before_master s t _).trans (before_master s t _).symm
    rw [hmaster, before_succ, Server.momentsBefore, ← List.append_assoc,
      List.flatMap_append, hevents', hevents]
    exact ⟨hfollows', rfl⟩

/-- One turn carries the history on, and its moments show its events. -/
theorem step_moments (hh : Follows s.master h s.table) (t : Tick) :
    Follows (s.step t).1.master (h ++ s.moments t) (s.step t).1.table ∧
      (s.step t).2 = (s.moments t).flatMap Moment.events := by
  rw [Server.moments]
  split_ifs with hstop
  · rw [List.append_nil, List.flatMap_nil]
    by_cases hflow : s.flow = .next
    · rw [step_selectFail hflow (hstop.resolve_left (not_not.mpr hflow))]
      exact ⟨hh, rfl⟩
    · rw [step_stopped hflow]
      exact ⟨hh, rfl⟩
  · rw [not_or, not_not, Bool.not_eq_false] at hstop
    have hstep : s.step t = s.before t (s.before t 0).1.table.len := step_serve hstop.1 hstop.2
    rw [hstep]
    exact before_moments hh le_rfl

end Turn

/-! ### A run -/

/-- The history of a run leads to its table. -/
theorem run_history {s : Server} {h : List Moment} (hh : Follows s.master h s.table)
    (ticks : List Tick) :
    Follows s.master (h ++ history s ticks) (Mealy.exec Server.step s ticks).table := by
  induction ticks generalizing s h with
  | nil =>
    rw [history, List.append_nil]
    exact hh
  | cons t ticks ih =>
    have hrest := ih (step_moments hh t).1
    rw [step_master, List.append_assoc] at hrest
    exact hrest

/-- The history of a run shows the events of the run. -/
theorem outputs_history {s : Server} {h : List Moment} (hh : Follows s.master h s.table)
    (ticks : List Tick) :
    (Mealy.outputs Server.step s ticks).flatten = (history s ticks).flatMap Moment.events := by
  induction ticks generalizing s h with
  | nil => rfl
  | cons t ticks ih =>
    obtain ⟨hfollows, hevents⟩ := step_moments hh t
    rw [Mealy.outputs, List.flatten_cons, history, List.flatMap_append, hevents, ih hfollows]

end SahDB
