import SahDB.Faults

/-! One turn of the server.

    The loop body reads each slot that `select` reports once, in the order of the table, with the
    connection it had when the turn began. So a line of a joined user is answered in the turn that
    reads it, on its own connection and from the store that the lines of the slots before it have
    left, and these lines are all that the turn does to the store (`turn_serves_lines`). -/

namespace SahDB

/-! ### The line of a slot -/

/-- The request in what a read of the connection returns: a joined user has sent a text. -/
def Conn.line (c : Conn) : ReadOutcome → Option Str
  | .data bytes =>
    if c.connState ≠ .handshake ∧ c.connType = .user ∧ 0 < c.fd ∧ upToNewline bytes ≠ [] then
      some (upToNewline bytes)
    else none
  | .eof | .error => none

section Line
variable {master : Bool} {v : Visit} {c : Conn}

theorem serveSlot_request (master : Bool) (v : Visit) (c : Conn) :
    (serveSlot master v c).request = c.line v.outcome := by
  rw [serveSlot]
  cases hread : v.outcome with
  | eof => rfl
  | error => rfl
  | data bytes =>
    have htext : v.text = upToNewline bytes := by rw [Visit.text, hread]; rfl
    dsimp only [socketReadData, Conn.line]
    rw [if_neg (by decide), ← htext]
    by_cases hstate : c.connState = .handshake
    · rw [if_pos hstate, if_neg fun h => h.1 hstate]
      exact serveHandshake_request v c _
    · rw [if_neg hstate]
      by_cases huser : c.connType = .user ∧ c.fd > 0
      · rw [if_pos huser]
        by_cases hbuf : v.text = []
        · rw [if_neg fun h => h.2.2.2 hbuf, serveUser, if_pos hbuf]
        · rw [if_pos ⟨hstate, huser.1, huser.2, hbuf⟩]
          exact (serveUser_request hbuf).1
      · rw [if_neg huser, if_neg fun h => huser ⟨h.2.1, h.2.2.1⟩]

/-- Without a line the store stays as it is. -/
theorem serveSlot_quiet (h : c.line v.outcome = none) : (serveSlot master v c).node = v.node := by
  have hreq := (serveSlot_request master v c).trans h
  have heffect := serveSlot_effect master v c
  generalize serveSlot master v c = d at hreq heffect
  generalize sentSlot v c = sent at heffect
  cases heffect with
  | quiet _ hnode => exact hnode
  | user _ _ hnode => exact hnode
  | replica _ _ hnode => exact hnode
  | request _ _ hline => cases hreq.symm.trans hline

/-- A line that does not stop the server is served, and its answer is sent. -/
theorem serveSlot_line {req : Str} (h : c.line v.outcome = some req)
    (hnext : (serveSlot master v c).flow = .next) :
    (serveSlot master v c).node = (v.node.serve (v.env, req)).1 ∧
      ∃ ctx, (v.node.serve (v.env, req)).2 = .ok ctx ∧ sentSlot v c = some ctx.sent := by
  have hreq := (serveSlot_request master v c).trans h
  have hfault := fun f => @serveSlot_fault master v c req f hreq
  have heffect := serveSlot_effect master v c
  generalize serveSlot master v c = d at hreq hnext hfault heffect
  generalize sentSlot v c = sent at heffect
  cases heffect with
  | quiet hnone => cases hreq.symm.trans hnone
  | user _ hnone => cases hreq.symm.trans hnone
  | replica _ hnone => cases hreq.symm.trans hnone
  | @request line _ _ hline hnode =>
    obtain rfl : line = req := Option.some.inj (hline.symm.trans hreq)
    refine ⟨hnode, ?_⟩
    cases hserve : (v.node.serve (v.env, line)).2 with
    | ok ctx => exact ⟨ctx, rfl, rfl⟩
    | error f => cases (hfault f hserve).symm.trans hnext

end Line

/-! ### The slots of a turn -/

namespace Server

/-- Slot `i` is open when the turn begins to serve, and `select` has reported it. -/
def Due (s : Server) (t : Tick) (i : ℕ) : Prop :=
  ((s.before t 0).1.table.conns i).fd ≠ -1 ∧ s.isSet t ((s.before t 0).1.table.conns i).fd = true

instance (s : Server) (t : Tick) (i : ℕ) : Decidable (s.Due t i) :=
  inferInstanceAs (Decidable (_ ∧ _))

/-- The request of slot `i` in a turn. -/
def lineOf (s : Server) (t : Tick) (i : ℕ) : Option (ReqEnv × Str) :=
  if s.Due t i then (((s.before t 0).1.table.conns i).line (t.read i)).map (Prod.mk (t.env i))
  else none

/-- The requests of the slots before `n`. -/
def linesBefore (s : Server) (t : Tick) (n : ℕ) : List (ReqEnv × Str) :=
  (List.range n).filterMap (s.lineOf t)

end Server

section Turn
variable {s : Server} {t : Tick} {n i : ℕ}

theorem linesBefore_succ (s : Server) (t : Tick) (n : ℕ) :
    s.linesBefore t (n + 1) = s.linesBefore t n ++ (s.lineOf t n).toList := by
  rw [Server.linesBefore, List.range_succ, List.filterMap_append]
  cases hline : s.lineOf t n <;> simp [Server.linesBefore, hline]

/-- When a turn comes to slot `i` its connection is as it was. -/
theorem before_conns (s : Server) (t : Tick) (i : ℕ) :
    (s.before t i).1.table.conns i = (s.before t 0).1.table.conns i := by
  have huntouched : Untouched i (s.before t 0) (s.before t i) := visits_untouched (by simp)
  exact huntouched.conn

/-- A turn that has come to slot `n` and goes on: it has served the lines of the slots before, and
    each has been answered on its slot. -/
structure ServedTo (s : Server) (t : Tick) (n : ℕ) : Prop where
  node : (s.before t n).1.node = Mealy.exec Node.serve s.node (s.linesBefore t n)
  slots : ∀ r ∈ s.readsBefore t n, r.slot < n
  answered : ∀ i < n, ∀ x, s.lineOf t i = some x → ∃ ctx,
    ((Mealy.exec Node.serve s.node (s.linesBefore t i)).serve x).2 = .ok ctx ∧
      sentTo i (s.readsBefore t n) = [ctx.sent]

theorem ServedTo.sent_self (h : ServedTo s t n) : sentTo n (s.readsBefore t n) = [] := by
  have hnone : ∀ r ∈ s.readsBefore t n, ¬ (decide (r.slot = n) = true) := fun r hr => by
    simpa using (h.slots r hr).ne
  rw [sentTo, List.filter_eq_nil_iff.mpr hnone]
  rfl

theorem ServedTo.zero (s : Server) (t : Tick) : ServedTo s t 0 where
  node := by
    change (if t.serverReady then s.accept t.accepted else (s, [])).1.node = s.node
    split_ifs <;> rfl
  slots r hr := nomatch hr
  answered i hi := absurd hi (Nat.not_lt_zero i)

/-- A slot that is not due. -/
theorem ServedTo.skip (h : ServedTo s t n) (hdue : ¬ s.Due t n)
    (hnext : (s.before t n).1.flow = .next) : ServedTo s t (n + 1) := by
  have hskip : (s.before t n).1.flow ≠ .next ∨ ((s.before t n).1.table.conns n).fd = -1 ∨
      s.isSet t ((s.before t n).1.table.conns n).fd = false := by
    rw [Server.Due, not_and_or, not_not, Bool.not_eq_true] at hdue
    rw [before_conns]
    exact Or.inr hdue
  have hline : s.lineOf t n = none := if_neg hdue
  have hreads : s.readsBefore t (n + 1) = s.readsBefore t n := by
    rw [Server.readsBefore, Server.reads, if_pos hskip, List.append_nil]
  refine ⟨?_, fun r hr => ?_, fun i hi x hx => ?_⟩
  · rw [before_succ, visit_skip hskip, linesBefore_succ, hline, Option.toList_none,
      List.append_nil]
    exact h.node
  · exact (h.slots r (hreads ▸ hr)).trans n.lt_succ_self
  · rw [hreads]
    refine h.answered i ((Nat.lt_succ_iff_lt_or_eq.mp hi).resolve_right ?_) x hx
    rintro rfl
    cases hline.symm.trans hx

/-- A slot that is read. -/
theorem ServedTo.read (h : ServedTo s t n) (hdue : s.Due t n)
    (hflow : (s.before t n).1.flow = .next) (hnext : (s.before t (n + 1)).1.flow = .next) :
    ServedTo s t (n + 1) := by
  generalize hc : (s.before t 0).1.table.conns n = c
  generalize hv : (⟨t.read n, t.env n, t.repl n, (s.before t n).1.node⟩ : Visit) = v
  have hconn : (s.before t n).1.table.conns n = c := (before_conns s t n).trans hc
  have hserve : ¬ ((s.before t n).1.flow ≠ .next ∨ ((s.before t n).1.table.conns n).fd = -1 ∨
      s.isSet t ((s.before t n).1.table.conns n).fd = false) := by
    rw [before_conns]
    simp [hflow, hdue.1, hdue.2]
  have hnode : (s.before t (n + 1)).1.node = (serveSlot (s.before t n).1.master v c).node := by
    rw [before_succ, visit_serve hserve, hconn, hv]
  have hlive : (serveSlot (s.before t n).1.master v c).flow = .next := by
    rw [← hnext, before_succ, visit_serve hserve, hconn, hv]
  have hreads : s.readsBefore t (n + 1) = s.readsBefore t n ++ [⟨n, c, v⟩] := by
    rw [Server.readsBefore, Server.reads, if_neg hserve, hconn, hv]
  have hline : s.lineOf t n = (c.line v.outcome).map (Prod.mk v.env) := by
    rw [Server.lineOf, if_pos hdue, hc, ← hv]
  have hbefore : v.node = Mealy.exec Node.serve s.node (s.linesBefore t n) := by
    rw [← hv]
    exact h.node
  refine ⟨?_, fun r hr => ?_, fun i hi x hx => ?_⟩
  · rw [hnode, linesBefore_succ, hline, Mealy.exec_append, ← hbefore]
    cases hreq : c.line v.outcome with
    | none => exact serveSlot_quiet hreq
    | some req => exact (serveSlot_line hreq hlive).1
  · rw [hreads, List.mem_append, List.mem_singleton] at hr
    rcases hr with hr | rfl
    · exact (h.slots r hr).trans n.lt_succ_self
    · exact n.lt_succ_self
  · rw [hreads, sentTo_concat]
    rcases Nat.lt_succ_iff_lt_or_eq.mp hi with hlt | rfl
    · rw [if_neg hlt.ne', List.append_nil]
      exact h.answered i hlt x hx
    · obtain ⟨req, hreq, rfl⟩ := Option.map_eq_some_iff.mp (hline.symm.trans hx)
      obtain ⟨-, ctx, hctx, hsent⟩ := serveSlot_line hreq hlive
      rw [← hbefore, if_pos rfl, h.sent_self, hsent]
      exact ⟨ctx, hctx, rfl⟩

theorem served_before (hnext : (s.before t n).1.flow = .next) : ServedTo s t n := by
  induction n with
  | zero => exact .zero s t
  | succ n ih =>
    have hflow : (s.before t n).1.flow = .next := by
      by_contra hc
      rw [before_succ, visit_skip (Or.inl hc)] at hnext
      exact hc hnext
    by_cases hdue : s.Due t n
    · exact (ih hflow).read hdue hflow hnext
    · exact (ih hflow).skip hdue hflow

end Turn

/-- CORRECT: in every turn of a sound run after which the server still runs, what becomes of the
    store is what the lines of that turn make of it, one after another in the order of the slots:
    those that `select` reports of the joined users. And each of them is answered in this turn, by
    exactly one send on its own connection: the answer it has in the store that the lines of the
    slots before it have left. -/
theorem turn_serves_lines {n : Node} {master : Bool} {ticks : List Tick} {t : Tick}
    (h : SoundRun n master (ticks ++ [t]))
    (hnext : (Mealy.exec Server.step (.start n master) (ticks ++ [t])).flow = .next) :
    let s := Mealy.exec Server.step (.start n master) ticks
    let s' := Mealy.exec Server.step (.start n master) (ticks ++ [t])
    s'.node.db.Safe ∧ s'.node = Mealy.exec Node.serve s.node (s.linesBefore t s'.table.len) ∧
      ∀ i < s'.table.len, ∀ x, s.lineOf t i = some x → ∃ ctx,
        ((Mealy.exec Node.serve s.node (s.linesBefore t i)).serve x).2 = .ok ctx ∧
          sentTo i (s.readsOf t) = [ctx.sent] := by
  intro s s'
  have hstep : s' = (s.step t).1 := Mealy.exec_append _ ticks [t]
  refine ⟨h.safe, ?_⟩
  rw [show Mealy.exec Server.step (.start n master) (ticks ++ [t]) = (s.step t).1 from hstep]
    at hnext
  rw [hstep]
  have hflow : s.flow = .next := by
    by_contra hc
    rw [step_stopped hc] at hnext
    exact hc hnext
  have hselect : t.selectOk = true := by
    by_contra hc
    rw [step_selectFail hflow (by simpa using hc)] at hnext
    cases hnext
  have hturn : s.step t = s.before t (s.before t 0).1.table.len := step_serve hflow hselect
  rw [hturn] at hnext ⊢
  rw [(before_const s t (s.before t 0).1.table.len).1, Server.readsOf,
    if_neg (by simp [hflow, hselect])]
  exact ⟨(served_before hnext).node, (served_before hnext).answered⟩

/-- The turn that reads `GET a` after `SET a 1`. -/
theorem turn_serves_lines_get :
    let s := Mealy.exec Server.step (.start ⟨htInit, none⟩ true) (getTicks.take 3)
    sentTo 0 (s.readsOf (readTick (str "GET a\n"))) = [str "1\nsahDB> "] := by
  intro s
  have hgets : (s.lineOf (readTick (str "GET a\n")) 0).map (fun x =>
      ((Mealy.exec Node.serve s.node (s.linesBefore (readTick (str "GET a\n")) 0)).serve x).2.map
        CmdCtx.sent) = some (.ok (str "1\nsahDB> ")) := by decide +kernel
  obtain ⟨x, hline, hget⟩ := Option.map_eq_some_iff.mp hgets
  obtain ⟨ctx, hctx, hsent⟩ := (@turn_serves_lines ⟨htInit, none⟩ true (getTicks.take 3)
    (readTick (str "GET a\n")) getTicks_sound getTicks_flow).2.2 0 (by decide +kernel) x hline
  rw [hctx] at hget
  rw [hsent, show ctx.sent = str "1\nsahDB> " from Except.ok.inj hget]

end SahDB
