import SahDB.Network

/-! One connection in a run of the server.

    The loop body for a slot works on that slot only, so what a run does to slot `i` is the loop
    body on one visit of the slot after another (`passed`), whatever the other slots do between
    them: the requests passed on for the slot are those of its visits (`requestsOf_run`). -/

namespace SahDB

/-! ### One connection -/

/-- The requests passed on for a connection that meets some visits. -/
def passed (master : Bool) : Conn → List Visit → List Str
  | _, [] => []
  | c, v :: visits =>
    if c.fd = -1 then []
    else
      let d := serveSlot master v c
      d.request.toList ++ if d.flow = .next then passed master d.conn visits else []

/-- After the visits the connection is closed, or has stopped the server. -/
def Ended (master : Bool) : Conn → List Visit → Prop
  | c, [] => c.fd = -1
  | c, v :: visits =>
    let d := serveSlot master v c
    c.fd = -1 ∨ d.flow ≠ .next ∨ Ended master d.conn visits

/-- What comes after the end makes no difference. -/
theorem passed_append_of_ended {master : Bool} {c : Conn} {visits : List Visit}
    (h : Ended master c visits) (more : List Visit) :
    passed master c (visits ++ more) = passed master c visits := by
  induction visits generalizing c with
  | nil =>
    cases more with
    | nil => rfl
    | cons v more =>
      have hfd : c.fd = -1 := h
      simp only [List.nil_append, passed, if_pos hfd]
  | cons v visits ih =>
    rw [List.cons_append, passed, passed]
    rcases h with hfd | hflow | hrest
    · rw [if_pos hfd, if_pos hfd]
    · dsimp only
      rw [if_neg hflow, if_neg hflow]
    · dsimp only
      rw [ih hrest]

/-! ### A slot of the server -/

/-- The request an event passes on for slot `i`. -/
def Event.requestOf (i : ℕ) : Event → Option Str
  | .stored _ => none
  | .request slot req => if slot = i then some req else none

/-- The requests passed on for slot `i`, in order. -/
def requestsOf (i : ℕ) (evs : List Event) : List Str := evs.filterMap (Event.requestOf i)

/-- The server when a turn comes to slot `i`. -/
def Server.before (s : Server) (t : Tick) (i : ℕ) : Server × List Event :=
  (List.range i).foldl (Server.visit t (s.isSet t))
    (if t.serverReady then s.accept t.accepted else (s, []))

/-- What slot `i` meets in a turn, if the turn comes to it and `select` has reported it. -/
def Server.visitOf (s : Server) (t : Tick) (i : ℕ) : Option Visit :=
  let s' := (s.before t i).1
  if s.flow ≠ .next ∨ t.selectOk = false then none
  else if s'.flow ≠ .next ∨ (s'.table.conns i).fd = -1 ∨
      s.isSet t (s'.table.conns i).fd = false then none
  else some ⟨t.read i, t.env i, t.repl i, s'.node⟩

/-- What slot `i` meets in a run. -/
def visitsOf (i : ℕ) : Server → List Tick → List Visit
  | _, [] => []
  | s, t :: ticks => (s.visitOf t i).toList ++ visitsOf i (s.step t).1 ticks

theorem requestsOf_append (i : ℕ) (a b : List Event) :
    requestsOf i (a ++ b) = requestsOf i a ++ requestsOf i b := List.filterMap_append

/-! ### One turn -/

/-- Nothing has happened to slot `i` between two states of the server. -/
structure Untouched (i : ℕ) (st st' : Server × List Event) : Prop where
  conn : st'.1.table.conns i = st.1.table.conns i
  requests : requestsOf i st'.2 = requestsOf i st.2
  master : st'.1.master = st.1.master
  len : st.1.table.len ≤ st'.1.table.len

theorem Untouched.refl (i : ℕ) (st : Server × List Event) : Untouched i st st :=
  ⟨rfl, rfl, rfl, le_rfl⟩

theorem Untouched.trans {i : ℕ} {st st' st'' : Server × List Event} (h : Untouched i st st')
    (h' : Untouched i st' st'') : Untouched i st st'' :=
  ⟨h'.conn.trans h.conn, h'.requests.trans h.requests, h'.master.trans h.master, h.len.trans h'.len⟩

section Turn
variable {t : Tick} {isSet : ℤ → Bool} {st : Server × List Event} {i j : ℕ}

theorem visit_skip (h : st.1.flow ≠ .next ∨ (st.1.table.conns i).fd = -1 ∨
    isSet (st.1.table.conns i).fd = false) : Server.visit t isSet st i = st := by
  obtain ⟨s, evs⟩ := st
  exact if_pos h

theorem visit_serve (h : ¬ (st.1.flow ≠ .next ∨ (st.1.table.conns i).fd = -1 ∨
    isSet (st.1.table.conns i).fd = false)) :
    let c := st.1.table.conns i
    let d := serveSlot st.1.master ⟨t.read i, t.env i, t.repl i, st.1.node⟩ c
    Server.visit t isSet st i = ({ st.1 with
      table := st.1.table.set i d.conn
      node := d.node
      openFds := if d.closed then st.1.openFds.erase c.fd else st.1.openFds
      flow := d.flow },
    st.2 ++ (d.request.map (Event.request i)).toList) := by
  obtain ⟨s, evs⟩ := st
  exact if_neg h

theorem requestsOf_request (i j : ℕ) (req : Option Str) :
    requestsOf i (req.map (Event.request j)).toList = if j = i then req.toList else [] := by
  cases req with
  | none => simp [requestsOf]
  | some req =>
    by_cases h : j = i
    · simp [requestsOf, Event.requestOf, h]
    · simp [requestsOf, Event.requestOf, h]

/-- Serving a slot leaves the other slots. -/
theorem visit_untouched (h : j ≠ i) : Untouched i st (Server.visit t isSet st j) := by
  by_cases hskip : st.1.flow ≠ .next ∨ (st.1.table.conns j).fd = -1 ∨
      isSet (st.1.table.conns j).fd = false
  · rw [visit_skip hskip]
    exact .refl i st
  · rw [visit_serve hskip]
    refine ⟨?_, ?_, rfl, le_rfl⟩
    · exact Function.update_of_ne (Ne.symm h) _ _
    · rw [requestsOf_append, requestsOf_request, if_neg h, List.append_nil]

theorem visits_untouched {is : List ℕ} (h : i ∉ is) :
    Untouched i st (is.foldl (Server.visit t isSet) st) := by
  induction is generalizing st with
  | nil => exact .refl i st
  | cons j is ih =>
    rw [List.mem_cons, not_or] at h
    exact (visit_untouched (Ne.symm h.1)).trans (ih h.2)

/-- A server that has been stopped serves no slot. -/
theorem visits_stopped (h : st.1.flow ≠ .next) (is : List ℕ) :
    is.foldl (Server.visit t isSet) st = st := by
  induction is with
  | nil => rfl
  | cons j is ih => rw [List.foldl_cons, visit_skip (Or.inl h), ih]

end Turn

section Slot
variable {s : Server} {t : Tick} {i : ℕ}

/-- A turn serves the slots before slot `i`, slot `i`, and the slots behind it. -/
theorem step_split (hi : i < s.table.len) (h : s.flow = .next) (h' : t.selectOk = true) :
    ∃ rest : List ℕ, i ∉ rest ∧ s.step t = rest.foldl (Server.visit t (s.isSet t))
      (Server.visit t (s.isSet t) (s.before t i) i) := by
  have hlen : i < (if t.serverReady then s.accept t.accepted else (s, [])).1.table.len := by
    split_ifs
    · exact Nat.lt_succ_of_lt hi
    · exact hi
  obtain ⟨k, hk⟩ := Nat.exists_eq_add_of_lt hlen
  refine ⟨(List.range k).map fun m => i + (m + 1), ?_, ?_⟩
  · simp
  · rw [step_serve h h']
    dsimp only
    rw [hk, Nat.add_assoc, List.range_add, List.range_succ_eq_map, List.map_cons, List.map_map,
      List.foldl_append, List.foldl_cons]
    rfl

/-- Before a turn comes to slot `i` nothing has happened to it. -/
theorem before_untouched (hi : i < s.table.len) : Untouched i (s, []) (s.before t i) := by
  refine Untouched.trans ?_ (visits_untouched (by simp))
  split_ifs
  · refine ⟨?_, rfl, rfl, Nat.le_succ _⟩
    exact Function.update_of_ne (Nat.ne_of_lt hi) _ _
  · exact .refl i _

/-- A turn in which slot `i` is not served. -/
theorem step_of_visitOf_none (hi : i < s.table.len) (h : s.visitOf t i = none) :
    Untouched i (s, []) (s.step t) := by
  by_cases hflow : s.flow = .next
  · cases hselect : t.selectOk with
    | false =>
      rw [step_selectFail hflow hselect]
      exact ⟨rfl, rfl, rfl, le_rfl⟩
    | true =>
      obtain ⟨rest, hrest, hstep⟩ := step_split (t := t) hi hflow hselect
      rw [Server.visitOf] at h
      rw [if_neg (by simp [hflow, hselect])] at h
      have hskip := of_not_not fun hserve => by rw [if_neg hserve] at h; cases h
      rw [hstep, visit_skip hskip]
      exact (before_untouched hi).trans (visits_untouched hrest)
  · rw [step_stopped hflow]
    exact .refl i _

/-- A turn in which slot `i` is served: the loop body for the slot, and a server that the slot has
    stopped stays stopped. -/
theorem step_of_visitOf_some {v : Visit} (hi : i < s.table.len) (h : s.visitOf t i = some v) :
    let d := serveSlot s.master v (s.table.conns i)
    (s.table.conns i).fd ≠ -1 ∧ (s.step t).1.table.conns i = d.conn ∧
      requestsOf i (s.step t).2 = d.request.toList ∧ (s.step t).1.master = s.master ∧
      s.table.len ≤ (s.step t).1.table.len ∧ (d.flow ≠ .next → (s.step t).1.flow ≠ .next) := by
  intro d
  rw [Server.visitOf] at h
  split_ifs at h with hstop hskip
  cases h
  rw [not_or, not_not, Bool.not_eq_false] at hstop
  obtain ⟨rest, hrest, hstep⟩ := step_split (t := t) hi hstop.1 hstop.2
  obtain ⟨hconn, hreq, hmaster, hlen⟩ := before_untouched (t := t) hi
  rw [visit_serve hskip, hconn, hmaster] at hstep
  have hafter : Untouched i _ (s.step t) := hstep ▸ visits_untouched hrest
  obtain ⟨hconn', hreq', hmaster', hlen'⟩ := hafter
  refine ⟨?_, ?_, ?_, ?_, ?_, ?_⟩
  · rw [hconn] at hskip
    exact fun hfd => hskip (Or.inr (Or.inl hfd))
  · rw [hconn']
    exact Function.update_self _ _ _
  · rw [hreq', requestsOf_append, hreq, requestsOf_request, if_pos rfl]
    rfl
  · exact hmaster'.trans hmaster
  · exact hlen.trans hlen'
  · intro hflow
    rw [hstep, visits_stopped hflow]
    exact hflow

end Slot

/-! ### A run -/

theorem run_stopped {s : Server} (h : s.flow ≠ .next) (i : ℕ) (ticks : List Tick) :
    visitsOf i s ticks = [] ∧ (Mealy.outputs Server.step s ticks).flatten = [] := by
  induction ticks with
  | nil => exact ⟨rfl, rfl⟩
  | cons t ticks ih =>
    have hvisit : s.visitOf t i = none := if_pos (Or.inl h)
    rw [visitsOf, hvisit, Mealy.outputs, step_stopped h, List.flatten_cons, ih.1, ih.2]
    exact ⟨rfl, rfl⟩

/-- The requests a run passes on for a slot are those of the slot's visits, served one after
    another. -/
theorem requestsOf_run {s : Server} {i : ℕ} (hi : i < s.table.len) (ticks : List Tick) :
    requestsOf i (Mealy.outputs Server.step s ticks).flatten =
      passed s.master (s.table.conns i) (visitsOf i s ticks) := by
  induction ticks generalizing s with
  | nil => rfl
  | cons t ticks ih =>
    rw [Mealy.outputs, List.flatten_cons, requestsOf_append, visitsOf]
    cases hvisit : s.visitOf t i with
    | none =>
      obtain ⟨hconn, hreq, hmaster, hlen⟩ := step_of_visitOf_none hi hvisit
      rw [ih (hi.trans_le hlen), hconn, hreq, hmaster]
      rfl
    | some v =>
      obtain ⟨hfd, hconn, hreq, hmaster, hlen, hflow⟩ := step_of_visitOf_some hi hvisit
      rw [hreq, Option.toList_some, List.singleton_append, passed, if_neg hfd]
      dsimp only
      congr 1
      split_ifs with hnext
      · rw [ih (hi.trans_le hlen), hconn, hmaster]
      · rw [(run_stopped (hflow hnext) i ticks).2]
        rfl

end SahDB
