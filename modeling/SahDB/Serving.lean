import SahDB.Queries
import SahDB.History
import SahDB.Segments

/-! What the server sends to its clients.

    The loop reads one slot after another, so a run is a list of readings (`readings`) and the
    requests in it have one order, whatever connection they came on (`calls`). What holds of the
    server and its readings is proved by one rule (`run_readings`): a stored connection, a slot that
    is served and a loop that ends keep it. The store after a run is that of the requests served one
    after another, and the bytes on a connection are its prompt and the answers to its own requests
    in this order (`run_is_sequential`). -/

namespace SahDB

/-- `REPL_INIT_JOIN` -/
def replInitJoin : Str := str "REPL_INIT_JOIN"

/-- The bytes a read has taken. -/
def ReadOutcome.bytes : ReadOutcome → Str
  | .data bytes => bytes
  | .eof | .error => []

@[simp] theorem ReadOutcome.bytes_data (w : Str) : (ReadOutcome.data w).bytes = w := rfl

/-! ### What the loop body sends -/

/-- What `handle_request` sends for the context a request leaves. -/
def CmdCtx.sent (ctx : CmdCtx) : Str := (ctx.resp ++ str "\n" ++ userPrompt).take (maxRespLen - 1)

/-- The answer to a new connection; `REPL_INIT_JOIN` goes out unless there is no buffer or the send
    fails. -/
def sentHandshake (v : Visit) (buf : Str) : Option Str :=
  if buf = userJoin then some userPrompt
  else if buf = replJoin then
    match v.repl with
    | .nomem | .sendFail => none
    | .recvFail | .ok => some replInitJoin
  else none

/-- The answer to a request. -/
def sentUser (v : Visit) (buf : Str) : Option Str :=
  if buf = [] then none
  else
    match handleRequest v.env v.node buf with
    | .error _ => none
    | .ok (_, out, _) => some out

/-- What the loop body sends on the connection of a slot. -/
def sentSlot (v : Visit) (c : Conn) : Option Str :=
  let (ret, buf) := socketReadData v.outcome
  if ret = dbErrClientClosed ∨ ret = dbErrClientFatal then none
  else if c.connState = .handshake then sentHandshake v buf
  else if c.connType = .user ∧ c.fd > 0 then sentUser v buf
  else none

/-- A read of a slot. -/
structure Reading where
  slot : ℕ
  conn : Conn
  visit : Visit

/-- The request a reading passes on, with the slot it came on. -/
def Reading.call (master : Bool) (r : Reading) : Option (ℕ × ReqEnv × Str) :=
  (serveSlot master r.visit r.conn).request.map fun req => (r.slot, r.visit.env, req)

/-- The requests of some readings, in the order they are served. -/
def callsOf (master : Bool) (rs : List Reading) : List (ℕ × ReqEnv × Str) :=
  rs.filterMap (Reading.call master)

/-- What is sent on slot `i`. -/
def sentTo (i : ℕ) (rs : List Reading) : List Str :=
  (rs.filter fun r => r.slot = i).filterMap fun r => sentSlot r.visit r.conn

namespace Server

/-- The reading of slot `i` in a turn that comes to it in state `s`. -/
def reads (t : Tick) (isSet : ℤ → Bool) (s : Server) (i : ℕ) : List Reading :=
  let c := s.table.conns i
  if s.flow ≠ .next ∨ c.fd = -1 ∨ isSet c.fd = false then []
  else [⟨i, c, ⟨t.read i, t.env i, t.repl i, s.node⟩⟩]

/-- The readings of a turn before it comes to slot `i`. -/
def readsBefore (s : Server) (t : Tick) : ℕ → List Reading
  | 0 => []
  | i + 1 => s.readsBefore t i ++ (s.before t i).1.reads t (s.isSet t) i

/-- The readings of one turn. -/
def readsOf (s : Server) (t : Tick) : List Reading :=
  if s.flow ≠ .next ∨ t.selectOk = false then []
  else s.readsBefore t (s.before t 0).1.table.len

end Server

/-- The readings of a run. -/
def readings (s : Server) (ticks : List Tick) : List Reading :=
  Mealy.logged Server.step Server.readsOf s ticks

/-- The requests a run serves, in order. -/
def calls (s : Server) (ticks : List Tick) : List (ℕ × ReqEnv × Str) :=
  callsOf s.master (readings s ticks)

/-! ### What every run keeps -/

/-- The server after it has served a slot. -/
def Server.served (s : Server) (r : Reading) : Server :=
  let d := serveSlot s.master r.visit r.conn
  { s with
    table := s.table.set r.slot d.conn
    node := d.node
    openFds := if d.closed then s.openFds.erase r.conn.fd else s.openFds
    flow := d.flow }

/-- What a stored connection, a served slot and the end of the loop keep of the server and the
    readings so far. -/
structure Keeps (P : Server → List Reading → Prop) : Prop where
  accept : ∀ {s rs} (fd : ℤ), P s rs → P (s.accept fd).1 rs
  serve : ∀ {s rs i} (t : Tick), P s rs → s.flow = .next → i < s.table.len →
    (s.table.conns i).fd ≠ -1 →
      let r : Reading := ⟨i, s.table.conns i, ⟨t.read i, t.env i, t.repl i, s.node⟩⟩
      P (s.served r) (rs ++ [r])
  stop : ∀ {s rs}, P s rs → s.flow = .next → P { s with flow := .shutdown } rs

section Rule
variable {P : Server → List Reading → Prop} {s : Server} {rs : List Reading} {t : Tick}

theorem visit_reads (h : Keeps P) (isSet : ℤ → Bool) {st : Server × List Event} {i : ℕ}
    (hP : P st.1 rs) (hi : i < st.1.table.len) :
    P (Server.visit t isSet st i).1 (rs ++ st.1.reads t isSet i) := by
  rw [Server.reads]
  split_ifs with hskip
  · rw [visit_skip hskip, List.append_nil]
    exact hP
  · rw [visit_serve hskip]
    rw [not_or, not_or, not_not] at hskip
    exact h.serve t hP hskip.1 hi hskip.2.1

theorem before_reads (h : Keeps P) (hP : P s rs) {n : ℕ} (hn : n ≤ (s.before t 0).1.table.len) :
    P (s.before t n).1 (rs ++ s.readsBefore t n) := by
  induction n with
  | zero =>
    have hzero : s.before t 0 = if t.serverReady then s.accept t.accepted else (s, []) := rfl
    rw [hzero, Server.readsBefore, List.append_nil]
    split_ifs
    · exact h.accept t.accepted hP
    · exact hP
  | succ n ih =>
    obtain ⟨hlen, -⟩ := before_const s t n
    rw [before_succ, Server.readsBefore, ← List.append_assoc]
    exact visit_reads h _ (ih (Nat.le_of_succ_le hn)) (by omega)

theorem step_reads (h : Keeps P) (hP : P s rs) (t : Tick) :
    P (s.step t).1 (rs ++ s.readsOf t) := by
  rw [Server.readsOf]
  split_ifs with hstop
  · rw [List.append_nil]
    by_cases hflow : s.flow = .next
    · rw [step_selectFail hflow (hstop.resolve_left (not_not.mpr hflow))]
      exact h.stop hP hflow
    · rw [step_stopped hflow]
      exact hP
  · rw [not_or, not_not, Bool.not_eq_false] at hstop
    have hstep : s.step t = s.before t (s.before t 0).1.table.len := step_serve hstop.1 hstop.2
    rw [hstep]
    exact before_reads h hP le_rfl

/-- The rule of the server: what its small steps keep, every run keeps. -/
theorem run_readings (h : Keeps P) (hP : P s []) (ticks : List Tick) :
    P (Mealy.exec Server.step s ticks) (readings s ticks) := by
  have hrun := Mealy.exec_logged (I := P) (fun _ t _ hP => step_reads h hP t) hP ticks
  rwa [List.nil_append] at hrun

end Rule

/-! ### What one reading does -/

theorem upToNewline_clean {w : Str} (hnl : CStr.newline ∉ w) (h0 : (0 : UInt8) ∉ w) :
    upToNewline w = w := by
  have hcut : CStr.cut w = w := List.takeWhile_eq_self_iff.mpr fun c hc => by
    simpa using fun h : c = 0 => h0 (h ▸ hc)
  rw [upToNewline, hcut, List.takeWhile_eq_self_iff]
  intro c hc
  simpa using fun h : c = CStr.newline => hnl (h ▸ hc)

/-- The bytes that go out for the answer to a request. -/
def answerSent : Except Fault CmdCtx → Option Str
  | .ok ctx => some ctx.sent
  | .error _ => none

/-- What serving a slot does: nothing to the store, a connection that joins as a user or as a
    replica, or a request of a user. -/
inductive Effect (v : Visit) (c : Conn) (d : SlotDone) : Option Str → Prop
  | quiet : d.request = none → d.node = v.node → d.conn.connState = c.connState →
    d.conn.connType = c.connType → Effect v c d none
  | user : c.connState = .handshake → d.request = none → d.node = v.node →
    d.conn = ⟨c.fd, .user, .active⟩ → Effect v c d (some userPrompt)
  | replica {sent : Option Str} : c.connState = .handshake → d.request = none →
    d.node = v.node → d.conn = ⟨c.fd, .repl, .active⟩ → sent.toList <+: [replInitJoin] →
    Effect v c d sent
  | request {req : Str} : c.connState ≠ .handshake → c.connType = .user →
    d.request = some req → d.node = (v.node.serve (v.env, req)).1 →
    d.conn.connState = c.connState → d.conn.connType = c.connType →
    Effect v c d (answerSent (v.node.serve (v.env, req)).2)

section Effect
variable {v : Visit} {c : Conn}

theorem serveHandshake_effect (master : Bool) (h : c.connState = .handshake) (buf : Str) :
    Effect v c (serveHandshake master v buf c) (sentHandshake v buf) := by
  rw [serveHandshake, sentHandshake]
  split_ifs
  · exact .user h rfl rfl rfl
  · have hsent : ∀ sent : Option Str, sent = none ∨ sent = some replInitJoin →
        sent.toList <+: [replInitJoin] := by
      rintro sent (rfl | rfl)
      · exact List.nil_prefix
      · exact List.prefix_rfl
    cases masterInitHandshakeWithRepl master v.repl <;>
      exact .replica h rfl rfl rfl (hsent _ (by cases v.repl <;> simp))
  · exact .quiet rfl rfl rfl rfl

/-- `handle_request` runs the request on the node and sends what it leaves in its context. -/
theorem handleRequest_serve (env : ReqEnv) (n : Node) (req : Str) :
    (∃ f, handleRequest env n req = .error f ∧ n.serve (env, req) = (n, .error f)) ∨
    ∃ node ctx, handleRequest env n req = .ok (node, ctx.sent, ctx.status) ∧
      n.serve (env, req) = (node, .ok ctx) := by
  rw [handleRequest, Node.serve]
  cases processCommand env n req ⟨[], dbErrOk⟩ with
  | error f => exact Or.inl ⟨f, rfl, rfl⟩
  | ok d => exact Or.inr ⟨d.node, d.ctx, rfl, rfl⟩

theorem serveUser_effect (hstate : c.connState ≠ .handshake) (htype : c.connType = .user)
    (buf : Str) : Effect v c (serveUser v buf c) (sentUser v buf) := by
  rw [serveUser, sentUser]
  split_ifs
  · exact .quiet rfl rfl rfl rfl
  · rcases handleRequest_serve v.env v.node buf with ⟨f, hreq, hserve⟩ | ⟨n, ctx, hreq, hserve⟩
    · have he := Effect.request (v := v) (d := ⟨c, v.node, some buf, false, .crash f⟩) hstate htype
        rfl (by rw [hserve]) rfl rfl
      rw [hserve] at he
      rw [hreq]
      exact he
    · rw [hreq]
      have hout : some ctx.sent = answerSent (v.node.serve (v.env, buf)).2 := by rw [hserve]; rfl
      dsimp only
      rw [hout]
      split_ifs <;> exact .request hstate htype rfl (by rw [hserve]) rfl rfl

theorem serveSlot_effect (master : Bool) (v : Visit) (c : Conn) :
    Effect v c (serveSlot master v c) (sentSlot v c) := by
  rw [serveSlot, sentSlot]
  dsimp only
  split_ifs with hclosed hstate huser
  · exact .quiet rfl rfl rfl rfl
  · exact serveHandshake_effect master hstate _
  · exact serveUser_effect hstate huser.1 _
  · exact .quiet rfl rfl rfl rfl

end Effect

/-! ### The run as one sequence of requests -/

/-- What slot `i` has been sent when its connection is `c`: nothing before it has joined, the prompt
    and the answers to its own requests once it is a user, at most `REPL_INIT_JOIN` as a replica. -/
structure SlotSees (master : Bool) (n : Node) (rs : List Reading) (i : ℕ) (c : Conn) : Prop where
  waiting : c.connState = .handshake → sentTo i rs = [] ∧ ∀ x ∈ callsOf master rs, x.1 ≠ i
  user : c.connState ≠ .handshake → c.connType = .user → sentTo i rs = userPrompt ::
    (Mealy.answersTo Node.serve i n (callsOf master rs)).filterMap answerSent
  replica : c.connState ≠ .handshake → c.connType ≠ .user →
    sentTo i rs <+: [replInitJoin] ∧ ∀ x ∈ callsOf master rs, x.1 ≠ i

section Sequence
variable {master : Bool} {n : Node} {rs : List Reading} {i : ℕ} {c : Conn} {r : Reading}

theorem callsOf_concat (master : Bool) (rs : List Reading) (r : Reading) :
    callsOf master (rs ++ [r]) = callsOf master rs ++ (r.call master).toList := by
  rw [callsOf, List.filterMap_append]
  cases h : r.call master <;> simp [callsOf, h]

theorem sentTo_concat (i : ℕ) (rs : List Reading) (r : Reading) :
    sentTo i (rs ++ [r]) =
      sentTo i rs ++ if r.slot = i then (sentSlot r.visit r.conn).toList else [] := by
  rw [sentTo, List.filter_append, List.filterMap_append]
  by_cases h : r.slot = i
  · rw [if_pos h, List.filter_cons_of_pos (by simpa using h)]
    cases hs : sentSlot r.visit r.conn <;> simp [sentTo, hs]
  · rw [if_neg h, List.filter_cons_of_neg (by simpa using h)]
    rfl

theorem SlotSees.other (h : SlotSees master n rs i c) (hne : r.slot ≠ i) :
    SlotSees master n (rs ++ [r]) i c := by
  have hsent : sentTo i (rs ++ [r]) = sentTo i rs := by
    rw [sentTo_concat, if_neg hne, List.append_nil]
  have hcall : ∀ x ∈ (r.call master).toList, x.1 ≠ i := by
    intro x hx
    rw [Option.mem_toList, Reading.call, Option.map_eq_some_iff] at hx
    obtain ⟨req, -, rfl⟩ := hx
    exact hne
  have hnone : (∀ x ∈ callsOf master rs, x.1 ≠ i) → ∀ x ∈ callsOf master (rs ++ [r]), x.1 ≠ i := by
    intro hrs x hx
    rw [callsOf_concat] at hx
    exact (List.mem_append.mp hx).elim (hrs x) (hcall x)
  have hans : Mealy.answersTo Node.serve i n (callsOf master (rs ++ [r])) =
      Mealy.answersTo Node.serve i n (callsOf master rs) := by
    rw [callsOf_concat]
    cases hr : r.call master with
    | none => rw [Option.toList_none, List.append_nil]
    | some x =>
      rw [Option.toList_some, Mealy.answersTo_concat, if_neg (hcall x (by simp [hr])),
        List.append_nil]
  refine ⟨fun hc => ?_, fun hc ht => ?_, fun hc ht => ?_⟩
  · rw [hsent]
    exact ⟨(h.waiting hc).1, hnone (h.waiting hc).2⟩
  · rw [hsent, hans]
    exact h.user hc ht
  · rw [hsent]
    exact ⟨(h.replica hc ht).1, hnone (h.replica hc ht).2⟩

/-- A reading of the slot itself. -/
theorem SlotSees.read (h : SlotSees master n rs r.slot r.conn)
    (hnode : r.visit.node = Mealy.exec Node.serve n ((callsOf master rs).map Prod.snd)) :
    SlotSees master n (rs ++ [r]) r.slot (serveSlot master r.visit r.conn).conn := by
  have hsent : sentTo r.slot (rs ++ [r]) =
      sentTo r.slot rs ++ (sentSlot r.visit r.conn).toList := by
    rw [sentTo_concat, if_pos rfl]
  have hcalls := callsOf_concat master rs r
  rw [Reading.call] at hcalls
  generalize hd : serveSlot master r.visit r.conn = d at hcalls ⊢
  have heffect : Effect r.visit r.conn d (sentSlot r.visit r.conn) :=
    hd ▸ serveSlot_effect master r.visit r.conn
  generalize sentSlot r.visit r.conn = sent at hsent heffect
  cases heffect with
  | quiet hreq _ hstate htype =>
    rw [hreq, Option.map_none, Option.toList_none, List.append_nil] at hcalls
    rw [Option.toList_none, List.append_nil] at hsent
    refine ⟨?_, ?_, ?_⟩ <;> rw [hstate]
    · rw [hsent, hcalls]; exact h.waiting
    · rw [htype, hsent, hcalls]; exact h.user
    · rw [htype, hsent, hcalls]; exact h.replica
  | user hstate hreq _ hconn =>
    rw [hreq, Option.map_none, Option.toList_none, List.append_nil] at hcalls
    obtain ⟨hnone, hother⟩ := h.waiting hstate
    rw [hconn]
    refine ⟨fun hc => (nomatch hc), fun _ _ => ?_, fun _ ht => absurd rfl ht⟩
    rw [hsent, hnone, hcalls, Mealy.answersTo_of_ne hother]
    rfl
  | replica hstate hreq _ hconn hout =>
    rw [hreq, Option.map_none, Option.toList_none, List.append_nil] at hcalls
    obtain ⟨hnone, hother⟩ := h.waiting hstate
    rw [hconn]
    refine ⟨fun hc => (nomatch hc), fun _ ht => (nomatch ht), fun _ _ => ?_⟩
    rw [hsent, hnone, hcalls]
    exact ⟨hout, hother⟩
  | request hstate htype hreq _ hstate' htype' =>
    rw [hreq, Option.map_some, Option.toList_some] at hcalls
    refine ⟨fun hc => absurd (hstate'.symm.trans hc) hstate, fun _ _ => ?_,
      fun _ ht => absurd (htype'.trans htype) ht⟩
    rw [hsent, h.user hstate htype, hcalls, Mealy.answersTo_concat, if_pos rfl, ← hnode,
      List.filterMap_append, List.cons_append]
    congr 2

end Sequence

/-- The server after some readings: its store is that of the requests in order, and each slot has
    been sent what belongs to it. -/
structure Sequenced (master : Bool) (n : Node) (s : Server) (rs : List Reading) : Prop where
  host : s.master = master
  node : s.node = Mealy.exec Node.serve n ((callsOf master rs).map Prod.snd)
  slots : ∀ r ∈ rs, r.slot < s.table.len
  sees : ∀ i < s.table.len, SlotSees master n rs i (s.table.conns i)

section Run
variable {master : Bool} {n : Node} {s : Server} {rs : List Reading}

theorem Sequenced.accept (h : Sequenced master n s rs) (fd : ℤ) :
    Sequenced master n (s.accept fd).1 rs := by
  refine ⟨h.host, h.node, fun r hr => Nat.lt_succ_of_lt (h.slots r hr), fun i hi => ?_⟩
  rcases Nat.lt_succ_iff_lt_or_eq.mp hi with hlt | rfl
  · have hold : (s.accept fd).1.table.conns i = s.table.conns i :=
      ConnTable.set_of_ne s.table _ (Nat.ne_of_lt hlt)
    rw [hold]
    exact h.sees i hlt
  · have hnew : (s.accept fd).1.table.conns s.table.len = ⟨fd, .unkn, .handshake⟩ :=
      ConnTable.set_self s.table _ _
    rw [hnew]
    refine ⟨fun _ => ⟨?_, fun x hx => ?_⟩, fun hc => absurd rfl hc, fun hc => absurd rfl hc⟩
    · rw [sentTo, List.filter_eq_nil_iff.mpr, List.filterMap_nil]
      exact fun r hr => by simpa using Nat.ne_of_lt (h.slots r hr)
    · rw [callsOf, List.mem_filterMap] at hx
      obtain ⟨r, hr, hcall⟩ := hx
      rw [Reading.call, Option.map_eq_some_iff] at hcall
      obtain ⟨req, -, rfl⟩ := hcall
      exact Nat.ne_of_lt (h.slots r hr)

theorem Sequenced.serve (h : Sequenced master n s rs) {r : Reading} (hi : r.slot < s.table.len)
    (hconn : r.conn = s.table.conns r.slot) (hnode : r.visit.node = s.node) :
    Sequenced master n (s.served r) (rs ++ [r]) := by
  obtain rfl := h.host
  refine ⟨rfl, ?_, fun r' hr' => ?_, fun i hlt => ?_⟩
  · change (serveSlot s.master r.visit r.conn).node = _
    rw [callsOf_concat, List.map_append, Mealy.exec_append, ← h.node, ← hnode, Reading.call]
    have heffect := serveSlot_effect s.master r.visit r.conn
    generalize sentSlot r.visit r.conn = sent at heffect
    cases heffect with
    | quiet hreq hn => rw [hreq, hn]; rfl
    | user _ hreq hn => rw [hreq, hn]; rfl
    | replica _ hreq hn => rw [hreq, hn]; rfl
    | request _ _ hreq hn => rw [hreq, hn]; rfl
  · rcases List.mem_append.mp hr' with hr' | hr'
    · exact h.slots r' hr'
    · rw [List.mem_singleton.mp hr']
      exact hi
  · rcases eq_or_ne r.slot i with rfl | hne
    · have hself : (s.served r).table.conns r.slot = (serveSlot s.master r.visit r.conn).conn :=
        ConnTable.set_self s.table _ _
      rw [hself]
      exact SlotSees.read (hconn ▸ h.sees r.slot hi) (hnode.trans h.node)
    · have hother : (s.served r).table.conns i = s.table.conns i :=
        ConnTable.set_of_ne s.table _ (Ne.symm hne)
      rw [hother]
      exact (h.sees i hlt).other hne

theorem sequenced_keeps (master : Bool) (n : Node) : Keeps (Sequenced master n) where
  accept fd h := h.accept fd
  serve _ h _ hi _ := h.serve hi rfl rfl
  stop h _ := ⟨h.host, h.node, h.slots, h.sees⟩

theorem sequenced_start (master : Bool) (n : Node) : Sequenced master n (.start n master) [] :=
  ⟨rfl, rfl, fun _ hr => absurd hr List.not_mem_nil, fun i hi => absurd hi (Nat.not_lt_zero i)⟩

theorem sequenced_run (master : Bool) (n : Node) (ticks : List Tick) :
    Sequenced master n (Mealy.exec Server.step (.start n master) ticks)
      (readings (.start n master) ticks) :=
  run_readings (sequenced_keeps master n) (sequenced_start master n) ticks

end Run

end SahDB
