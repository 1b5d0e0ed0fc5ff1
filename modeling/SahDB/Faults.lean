import SahDB.Answers
import SahDB.SafeRuns
import SahDB.Serving

/-! What stops the server.

    A request faults in four places only: the dispatch of a request without tokens, the 50 bytes of
    `printSubCommands`, the response buffer of GET, and a bucket that SAVE cannot hold
    (`processCommand_error_iff`). With a connection behind the table and a replica whose handshake
    fails on a host without a master these are all the ways a run of the server crashes
    (`run_crashes_iff`); it is then over, and every answer before was given (`calls_answered`). -/

namespace SahDB

/-! ### One request -/

/-- The fault of a request with these words. -/
def FaultsWith (env : ReqEnv) (t : Table) (f : Fault) : List Str → Prop
  | [] => f = .uninitRead
  | name :: args =>
    match findCommand name with
    | some .help => f = .outOfBounds ∧ ∃ w, args = [w] ∧ 8 ≤ w.length
    | some .get => f = .outOfBounds ∧ ∃ k, args = [k] ∧ t.Overlong k env.time₁
    | some .save => f = .outOfBounds ∧ args = [] ∧ ¬ SaveFits env t
    | _ => False

section Request
variable {env : ReqEnv} {n : Node} {ctx : CmdCtx} {f : Fault}

theorem printSubCommands_error_iff (w : Str) :
    printSubCommands w = .error f ↔ f = .outOfBounds ∧ 8 ≤ w.length := by
  have hlen : (red ++ str "Not support subcmd print for " ++ w ++ str " yet" ++ reset).length =
      42 + w.length := by
    simp only [List.length_append, show red.length = 5 from rfl, show reset.length = 4 from rfl,
      show (str "Not support subcmd print for ").length = 29 from rfl,
      show (str " yet").length = 4 from rfl]
    omega
  rw [printSubCommands, hlen]
  split_ifs with hfits
  · exact iff_of_false id fun h => by omega
  · rw [Except.error.injEq, eq_comm]
    exact ⟨fun h => ⟨h, by omega⟩, fun h => h.1⟩

theorem helpHelper_error_iff (name : Str) (args : List Str) :
    helpHelper (name :: args) n ctx = .error f ↔
      f = .outOfBounds ∧ ∃ w, args = [w] ∧ 8 ≤ w.length := by
  rcases args with _ | ⟨w, _ | ⟨x, args⟩⟩
  · exact iff_of_false (ok_ne_error _ _) (by simp)
  · have hrun : helpHelper [name, w] n ctx =
        if w ≠ [] then do printSubCommands w; return ⟨n, ctx, dbErrInvalidArgs⟩
        else return ⟨n, ctx, 0⟩ := rfl
    have hprint := printSubCommands_error_iff (f := f) w
    rw [hrun]
    split_ifs with hw
    · have hbind : (do printSubCommands w; return ⟨n, ctx, dbErrInvalidArgs⟩ : Except Fault Done) =
          .error f ↔ printSubCommands w = .error f := by
        cases printSubCommands w with
        | ok _ => exact iff_of_false (ok_ne_error _ _) (ok_ne_error _ _)
        | error e => exact ⟨fun h => congrArg Except.error (Except.error.inj h),
            fun h => congrArg Except.error (Except.error.inj h)⟩
      rw [hbind, hprint]
      simp
    · rw [not_not] at hw
      exact iff_of_false (ok_ne_error _ _) (by simp [hw])
  · exact iff_of_false (ok_ne_error _ _) (by simp)

theorem saveHelper_error_iff (name : Str) (args : List Str) :
    saveHelper env (name :: args) n ctx = .error f ↔
      f = .outOfBounds ∧ args = [] ∧ ¬ SaveFits env n.db.table := by
  cases args with
  | nil =>
    have hok := @fetchDatasetFromMemory_ok_iff env n.db.table n.disk
    have hrun : saveHelper env [name] n ctx =
        (fetchDatasetFromMemory env.fopenOk env.callocOk n.db.table n.disk >>= fun r =>
          .ok ⟨{ n with disk := r.2 }, fillCmdCtx ctx r.1 (str "OK"), r.1⟩) := rfl
    rw [hrun, ← hok]
    cases hfetch : fetchDatasetFromMemory env.fopenOk env.callocOk n.db.table n.disk with
    | ok r => exact iff_of_false (ok_ne_error _ _) fun h => h.2.2 ⟨r, rfl⟩
    | error e =>
      have he : e = .outOfBounds :=
        not_not.mp fun hne => fetchDatasetFromMemory_error hne _ _ _ _ hfetch
      subst he
      constructor
      · intro h
        exact ⟨(Except.error.inj h).symm, rfl, fun ⟨r, hr⟩ => nomatch hr⟩
      · rintro ⟨rfl, -⟩
        rfl
  | cons x args => exact iff_of_false (ok_ne_error _ _) (by simp)

theorem getValFromKeyHelper_error_iff (name : Str) (args : List Str) :
    getValFromKeyHelper env (name :: args) n ctx = .error f ↔
      f = .outOfBounds ∧ ∃ k, args = [k] ∧ n.db.table.Overlong k env.time₁ := by
  rcases args with _ | ⟨key, _ | ⟨w, _ | ⟨x, args⟩⟩⟩
  · exact iff_of_false (ok_ne_error _ _) (by simp)
  · have hrun : getValFromKeyHelper env [name, key] n ctx =
        hashGet n.db key env.time₁ >>= fun r => .ok (reply n ctx r) := rfl
    rw [hrun]
    rcases hashGet_cases n.db key env.time₁ with ⟨hlong, -, heq⟩ | ⟨hfits, heq⟩ <;> rw [heq]
    · constructor
      · intro h
        exact ⟨(Except.error.inj h).symm, key, rfl, hlong⟩
      · rintro ⟨rfl, -⟩
        rfl
    · exact iff_of_false (ok_ne_error _ _) (by simpa using fun _ => hfits)
  · have hrun : getValFromKeyHelper env [name, key, w] n ctx =
        if strcaseEq w (str "ex") then .ok (reply n ctx (hashGetExpiry n.db key env.time₁))
        else .ok ⟨n, ctx, 0⟩ := rfl
    rw [hrun]
    refine iff_of_false ?_ (by simp)
    by_cases hex : strcaseEq w (str "ex")
    · rw [if_pos hex]
      exact ok_ne_error _ f
    · rw [if_neg hex]
      exact ok_ne_error _ f
  · exact iff_of_false (ok_ne_error _ _) (by simp)

/-- The other handlers always return. -/
theorem handler_returns (name : Str) (args : List Str) {cmd : Command} (hhelp : cmd ≠ .help)
    (hget : cmd ≠ .get) (hsave : cmd ≠ .save) :
    ∃ d, handler env (name :: args) n ctx cmd = .ok d := by
  have hif : ∀ {p : Prop} [Decidable p] (a b : Done),
      ∃ d, (if p then .ok a else .ok b : Except Fault Done) = .ok d := by
    intro p _ a b
    split_ifs
    · exact ⟨a, rfl⟩
    · exact ⟨b, rfl⟩
  rcases args with _ | ⟨key, _ | ⟨w, _ | ⟨x, args⟩⟩⟩ <;> cases cmd with
  | help => exact absurd rfl hhelp
  | save => exact absurd rfl hsave
  | get => exact absurd rfl hget
  | expire => first | exact ⟨_, rfl⟩ | exact hif _ _
  | _ => exact ⟨_, rfl⟩

/-- A request with memory for its words faults exactly when it has no token, is HELP with a word of
    eight bytes or more, GET of a value that does not fit its buffer, or SAVE of such a bucket. -/
theorem processCommand_error_iff (env : ReqEnv) (n : Node) (req : Str) (ctx : CmdCtx) (f : Fault) :
    processCommand env n req ctx = .error f ↔
      env.cmdArrOk = true ∧ FaultsWith env n.db.table f (tokenize req) := by
  by_cases henv : env.cmdArrOk = true
  · rw [and_iff_right henv]
    cases htok : tokenize req with
    | nil =>
      rw [processCommand_nil henv htok, Except.error.injEq, eq_comm]
      rfl
    | cons name args =>
      rw [FaultsWith]
      cases hcmd : findCommand name with
      | none =>
        rw [processCommand_unknown henv htok hcmd]
        exact iff_of_false (ok_ne_error _ _) id
      | some cmd =>
        rw [processCommand_of_tokens henv htok hcmd]
        by_cases hhelp : cmd = .help
        · subst hhelp
          exact helpHelper_error_iff name args
        by_cases hget : cmd = .get
        · subst hget
          exact getValFromKeyHelper_error_iff name args
        by_cases hsave : cmd = .save
        · subst hsave
          exact saveHelper_error_iff name args
        obtain ⟨d, hd⟩ := @handler_returns env n ctx name args cmd hhelp hget hsave
        rw [hd]
        refine iff_of_false (ok_ne_error _ _) ?_
        cases cmd <;>
          first | exact id | exact absurd rfl hhelp | exact absurd rfl hget | exact absurd rfl hsave
  · rw [processCommand, if_pos (by simpa using henv)]
    exact iff_of_false (ok_ne_error _ _) fun h => henv h.1

end Request

theorem serve_error_iff {n : Node} {x : ReqEnv × Str} {f : Fault} :
    (n.serve x).2 = .error f ↔
      x.1.cmdArrOk = true ∧ FaultsWith x.1 n.db.table f (tokenize x.2) := by
  rw [← processCommand_error_iff x.1 n x.2 ⟨[], dbErrOk⟩, Node.serve]
  cases processCommand x.1 n x.2 ⟨[], dbErrOk⟩ with
  | ok d => exact iff_of_false (by simp) (ok_ne_error d f)
  | error e => simp

/-! ### One reading -/

/-- The reading stops the program: a replica joins and its handshake fails on a host without a
    master, or a user sends a request that faults. -/
def Reading.Crashes (master : Bool) (r : Reading) : Prop :=
  ∃ bytes, r.visit.outcome = .data bytes ∧
    let buf := upToNewline bytes
    (r.conn.connState = .handshake ∧ buf = replJoin ∧ master = false ∧
        (r.visit.repl = .sendFail ∨ r.visit.repl = .recvFail)) ∨
      (r.conn.connState ≠ .handshake ∧ r.conn.connType = .user ∧ r.conn.fd > 0 ∧ buf ≠ [] ∧
        r.visit.env.cmdArrOk = true ∧
        ∃ f, FaultsWith r.visit.env r.visit.node.db.table f (tokenize buf))

/-- The server has been stopped by a fault. -/
def Flow.Crashed (flow : Flow) : Prop := ∃ f, flow = .crash f

theorem not_crashed_next : ¬ Flow.Crashed .next := by
  rintro ⟨f, hf⟩
  cases hf

theorem not_crashed_shutdown : ¬ Flow.Crashed .shutdown := by
  rintro ⟨f, hf⟩
  cases hf

section Reading
variable {master : Bool} {v : Visit} {c : Conn}

theorem serveHandshake_crashed_iff (buf : Str) :
    (serveHandshake master v buf c).flow.Crashed ↔
      buf = replJoin ∧ master = false ∧ (v.repl = .sendFail ∨ v.repl = .recvFail) := by
  rw [serveHandshake]
  split_ifs with huser hrepl
  · exact iff_of_false not_crashed_next fun h => absurd (huser.symm.trans h.1) (by decide)
  · rw [and_iff_right hrepl]
    cases v.repl <;> cases master
    case sendFail.false => exact iff_of_true ⟨_, rfl⟩ ⟨rfl, Or.inl rfl⟩
    case recvFail.false => exact iff_of_true ⟨_, rfl⟩ ⟨rfl, Or.inr rfl⟩
    all_goals exact iff_of_false not_crashed_next (by simp)
  · exact iff_of_false not_crashed_next fun h => hrepl h.1

theorem serveUser_crashed_iff (buf : Str) :
    (serveUser v buf c).flow.Crashed ↔ buf ≠ [] ∧ v.env.cmdArrOk = true ∧
      ∃ f, FaultsWith v.env v.node.db.table f (tokenize buf) := by
  have hfaults : (∃ f, FaultsWith v.env v.node.db.table f (tokenize buf)) ∧
      v.env.cmdArrOk = true ↔ ∃ f, processCommand v.env v.node buf .fresh = .error f := by
    rw [← exists_and_right]
    exact exists_congr fun f => (and_comm.trans (processCommand_error_iff _ _ _ _ f).symm)
  rw [and_comm (a := v.env.cmdArrOk = true), hfaults, serveUser]
  split_ifs with hbuf
  · exact iff_of_false not_crashed_next fun h => h.1 hbuf
  · rw [and_iff_right hbuf, handleRequest, CmdCtx.fresh]
    cases processCommand v.env v.node buf ⟨[], dbErrOk⟩ with
    | error f => exact iff_of_true ⟨f, rfl⟩ ⟨f, rfl⟩
    | ok d =>
      refine iff_of_false ?_ (not_exists.mpr fun f => ok_ne_error d f)
      dsimp only [bind, Except.bind, pure, Except.pure]
      split_ifs
      · exact not_crashed_next
      · exact not_crashed_shutdown
      · exact not_crashed_next

theorem serveSlot_crashed_iff (master : Bool) (r : Reading) :
    (serveSlot master r.visit r.conn).flow.Crashed ↔ r.Crashes master := by
  rw [serveSlot, Reading.Crashes]
  cases hread : r.visit.outcome with
  | eof => exact iff_of_false not_crashed_next (by simp)
  | error => exact iff_of_false not_crashed_next (by simp)
  | data bytes =>
    have hbytes : ∀ p : Str → Prop, (∃ b, ReadOutcome.data bytes = .data b ∧ p b) ↔ p bytes := by
      intro p
      simp
    rw [hbytes]
    dsimp only [socketReadData]
    rw [if_neg (by decide)]
    split_ifs with hstate huser
    · rw [serveHandshake_crashed_iff]
      simp [hstate]
    · rw [serveUser_crashed_iff]
      simp [hstate, huser.1, huser.2]
    · refine iff_of_false not_crashed_next ?_
      rintro (⟨h, -⟩ | ⟨-, htype, hfd, -⟩)
      · exact hstate h
      · exact huser ⟨htype, hfd⟩

end Reading

/-! ### A run -/

section Run
variable {master : Bool} {s : Server} {rs : List Reading}

/-- The server has crashed if the last reading, and no other one, has stopped it, or a connection
    has been stored behind the table. -/
structure CrashedBy (master : Bool) (s : Server) (rs : List Reading) : Prop where
  host : s.master = master
  crashed : s.flow.Crashed ↔ s.table.cap < s.table.len ∨ ∃ r ∈ rs, r.Crashes master

theorem accept_crashed_iff (s : Server) (fd : ℤ) :
    (s.accept fd).1.flow.Crashed ↔ s.table.cap ≤ s.table.len ∨ s.flow.Crashed := by
  change Flow.Crashed (if s.table.len < s.table.cap then s.flow else .crash .outOfBounds) ↔ _
  split_ifs with hroom
  · exact (or_iff_right (not_le.mpr hroom)).symm
  · exact iff_of_true ⟨_, rfl⟩ (Or.inl (not_lt.mp hroom))

theorem crashedBy_keeps (master : Bool) : Keeps (CrashedBy master) where
  accept {s rs} fd h := by
    refine ⟨h.host, ?_⟩
    have hlen : (s.accept fd).1.table.cap < (s.accept fd).1.table.len ↔
        s.table.cap ≤ s.table.len := Nat.lt_succ_iff
    rw [accept_crashed_iff, h.crashed, hlen, ← or_assoc]
    exact or_congr_left (or_iff_left_of_imp Nat.le_of_lt)
  serve {s rs i} t h hflow _ _ := by
    refine ⟨h.host, ?_⟩
    have hno : ¬ (s.table.cap < s.table.len ∨ ∃ r ∈ rs, r.Crashes master) := fun hr => by
      obtain ⟨f, hf⟩ := h.crashed.mpr hr
      rw [hflow] at hf
      cases hf
    rw [not_or] at hno
    generalize hr : (⟨i, s.table.conns i, ⟨t.read i, t.env i, t.repl i, s.node⟩⟩ : Reading) = r
    have hone : (s.served r).flow.Crashed ↔ r.Crashes master := by
      rw [← h.host]
      exact serveSlot_crashed_iff s.master r
    have hroom : ¬ (s.served r).table.cap < (s.served r).table.len := hno.1
    rw [hone, or_iff_right hroom]
    constructor
    · exact fun hc => ⟨r, by simp, hc⟩
    · rintro ⟨r', hr', hc⟩
      rcases List.mem_append.mp hr' with hr' | hr'
      · exact absurd ⟨r', hr', hc⟩ hno.2
      · rwa [List.mem_singleton.mp hr'] at hc
  stop {s rs} h hflow := by
    refine ⟨h.host, iff_of_false not_crashed_shutdown fun hr => ?_⟩
    exact not_crashed_next (hflow ▸ h.crashed.mpr hr)

theorem run_crashes_iff (n : Node) (master : Bool) (ticks : List Tick) :
    (Mealy.exec Server.step (.start n master) ticks).flow.Crashed ↔
      defConnTableSize < accepts (.start n master) ticks ∨
        ∃ r ∈ readings (.start n master) ticks, r.Crashes master := by
  have hstart : CrashedBy master (.start n master) [] :=
    ⟨rfl, iff_of_false not_crashed_next (by simp [Server.start, initConnTable])⟩
  have hrun := (run_readings (crashedBy_keeps master) hstart ticks).crashed
  obtain ⟨hcap, hlen, -⟩ := stored_run (.start n master) ticks
  have hzero : (Server.start n master).table.len + accepts (.start n master) ticks =
      accepts (.start n master) ticks := Nat.zero_add _
  rwa [hcap, hlen, hzero] at hrun

/-- A connection that waits to join passes no request on. -/
theorem serveHandshake_request (v : Visit) (c : Conn) (buf : Str) :
    (serveHandshake master v buf c).request = none := by
  rw [serveHandshake]
  split_ifs
  · rfl
  · cases masterInitHandshakeWithRepl master v.repl <;> rfl
  · rfl

/-- A request that faults has stopped the server. -/
theorem serveSlot_fault {v : Visit} {c : Conn} {req : Str} {f : Fault}
    (hreq : (serveSlot master v c).request = some req)
    (hf : (v.node.serve (v.env, req)).2 = .error f) : (serveSlot master v c).flow = .crash f := by
  have huser : ∀ buf : Str, (serveUser v buf c).request = some req →
      (serveUser v buf c).flow = .crash f := by
    intro buf hbuf
    rw [serveUser] at hbuf ⊢
    split_ifs at hbuf ⊢ with hnil
    rcases handleRequest_serve v.env v.node buf with ⟨f', hrun, hserve⟩ | ⟨m, ctx, hrun, hserve⟩
    · rw [hrun] at hbuf ⊢
      obtain rfl : buf = req := Option.some.inj hbuf
      rw [hserve] at hf
      cases hf
      rfl
    · rw [hrun] at hbuf ⊢
      have heq : buf = req := by
        dsimp only at hbuf
        split_ifs at hbuf <;> exact Option.some.inj hbuf
      rw [heq] at hserve
      rw [hserve] at hf
      cases hf
  rw [serveSlot] at hreq ⊢
  dsimp only at hreq ⊢
  split_ifs at hreq ⊢
  · rw [serveHandshake_request] at hreq
    cases hreq
  · exact huser _ hreq

/-- The request faults on the node. -/
def Stuck (n : Node) (x : ReqEnv × Str) : Prop := ∃ f, (n.serve x).2 = .error f

/-- A server that has not crashed has answered every request. -/
structure Answered (master : Bool) (n : Node) (s : Server) (rs : List Reading) : Prop extends
    Sequenced master n s rs where
  answered : ¬ s.flow.Crashed →
    Mealy.Never Node.serve Stuck n ((callsOf master rs).map Prod.snd)

theorem answered_keeps (master : Bool) (n : Node) : Keeps (Answered master n) where
  accept {s rs} fd h := ⟨h.toSequenced.accept fd, fun hlive => h.answered fun hc =>
    hlive ((accept_crashed_iff s fd).mpr (Or.inr hc))⟩
  serve {s rs i} t h hflow hi _ := by
    have hbefore := h.answered (hflow ▸ not_crashed_next)
    generalize hr : (⟨i, s.table.conns i, ⟨t.read i, t.env i, t.repl i, s.node⟩⟩ : Reading) = r
    have hslot : r.slot = i := by rw [← hr]
    have hconn : r.conn = s.table.conns i := by rw [← hr]
    have hnode : r.visit.node = s.node := by rw [← hr]
    refine ⟨h.toSequenced.serve (hslot ▸ hi) (hslot ▸ hconn) hnode, fun hlive => ?_⟩
    rw [callsOf_concat, Reading.call]
    cases hreq : (serveSlot master r.visit r.conn).request with
    | none =>
      rw [Option.map_none, Option.toList_none, List.append_nil]
      exact hbefore
    | some req =>
      rw [Option.map_some, Option.toList_some, List.map_append, List.map_singleton,
        Mealy.never_concat, ← h.node, ← hnode]
      refine ⟨hbefore, ?_⟩
      rintro ⟨f, hf⟩
      refine hlive ⟨f, ?_⟩
      change (serveSlot s.master r.visit r.conn).flow = _
      rw [h.host]
      exact serveSlot_fault hreq hf
  stop h hflow := ⟨(sequenced_keeps master n).stop h.toSequenced hflow, fun _ =>
    h.answered (hflow ▸ not_crashed_next)⟩

/-- The requests of a run that does not crash are all answered. -/
theorem calls_answered {n : Node} {ticks : List Tick}
    (h : ¬ (Mealy.exec Server.step (.start n master) ticks).flow.Crashed) :
    Answered master n (Mealy.exec Server.step (.start n master) ticks)
        (readings (.start n master) ticks) ∧
      Mealy.Never Node.serve Stuck n ((calls (.start n master) ticks).map Prod.snd) := by
  have hstart : Answered master n (.start n master) [] :=
    ⟨⟨rfl, rfl, fun r hr => (nomatch hr), fun i hi => absurd hi (Nat.not_lt_zero i)⟩,
      fun _ => Mealy.never_nil⟩
  have hrun := run_readings (answered_keeps master n) hstart ticks
  exact ⟨hrun, hrun.answered h⟩

/-! ### Sound runs -/

/-- A run from a start in which the requests fit the command buffer, as those that are read do, and
    no DELETE leaves the heap a slot that points to an entry it frees. -/
structure SoundRun (n : Node) (master : Bool) (ticks : List Tick) : Prop where
  started : Started n.db
  short : ∀ x ∈ calls (.start n master) ticks, x.2.2.length < maxCmdLen
  clear : Mealy.Never Node.serve Pins n ((calls (.start n master) ticks).map Prod.snd)

/-- The store of a sound run stays safe. -/
theorem SoundRun.safe {n : Node} {ticks : List Tick} (h : SoundRun n master ticks) :
    (Mealy.exec Server.step (.start n master) ticks).node.db.Safe := by
  rw [(sequenced_run master n ticks).node]
  refine h.started.safe.exec (fun x hx => ?_) h.clear
  obtain ⟨y, hy, rfl⟩ := List.mem_map.mp hx
  exact h.short y hy

/-- A turn in which the server accepts a connection, and one in which a read of it returns some
    bytes. -/
def joinTicks : List Tick := [connectTick, readTick (str "USER_JOIN\n")]

/-- A user sets a key and reads it. -/
def getTicks : List Tick := joinTicks ++ [readTick (str "SET a 1\n"), readTick (str "GET a\n")]

theorem getTicks_flow :
    (Mealy.exec Server.step (.start ⟨htInit, none⟩ true) getTicks).flow = .next := by
  decide +kernel

theorem getTicks_sound : SoundRun ⟨htInit, none⟩ true getTicks where
  started := .empty
  short := by decide +kernel
  clear := never_pins (by decide +kernel)

/-- CORRECT: in every sound run of the server the heap points only to entries of the table and every
    value fits the response buffer; and the run comes to one of these accesses exactly when it
    calls `accept` a 33rd time, or one of its readings is a replica whose handshake fails on a host
    without a master, or a request of a user, with memory for its words, that has no token, is HELP
    with a word of eight bytes or more, or SAVE of a bucket that does not fit its buffer. -/
theorem run_faults_iff {n : Node} {ticks : List Tick} (h : SoundRun n master ticks) :
    (Mealy.exec Server.step (.start n master) ticks).node.db.Safe ∧
      ((Mealy.exec Server.step (.start n master) ticks).flow.Crashed ↔
        defConnTableSize < accepts (.start n master) ticks ∨
          ∃ r ∈ readings (.start n master) ticks, r.Crashes master) :=
  ⟨h.safe, run_crashes_iff n master ticks⟩

/-- A connection, a join and two short requests come to none of them. -/
theorem run_faults_iff_get :
    ¬ ∃ r ∈ readings (.start ⟨htInit, none⟩ true) getTicks, r.Crashes true := fun h =>
  not_crashed_next (getTicks_flow ▸ (run_faults_iff getTicks_sound).2.mpr (Or.inr h))

/-- CORRECT: whatever the connections do and however `select` orders them, a sound run of the server
    that comes to no access out of bounds is one sequence of requests. The store it ends with is
    that of serving these requests one after another, and every slot has been sent nothing while it
    waits to join, the prompt and the answers to its own requests in that sequence if it has joined
    as a user, and at most `REPL_INIT_JOIN` if it has joined as a replica. -/
theorem run_is_sequential {n : Node} {ticks : List Tick} (h : SoundRun n master ticks)
    (hlive : ¬ (Mealy.exec Server.step (.start n master) ticks).flow.Crashed) :
    let s := Mealy.exec Server.step (.start n master) ticks
    let log := calls (.start n master) ticks
    s.node.db.Safe ∧ s.node = Mealy.exec Node.serve n (log.map Prod.snd) ∧
      Mealy.Never Node.serve Stuck n (log.map Prod.snd) ∧
      ∀ i < s.table.len, SlotSees master n (readings (.start n master) ticks) i
        (s.table.conns i) := by
  obtain ⟨hrun, hanswered⟩ := calls_answered hlive
  exact ⟨h.safe, hrun.node, hanswered, hrun.sees⟩

theorem run_is_sequential_get :
    SlotSees true ⟨htInit, none⟩ (readings (.start ⟨htInit, none⟩ true) getTicks) 0
      ⟨4, .user, .active⟩ := by
  have h := (run_is_sequential getTicks_sound (getTicks_flow ▸ not_crashed_next)).2.2.2 0
    (by decide +kernel)
  have hconn : (Mealy.exec Server.step (.start ⟨htInit, none⟩ true) getTicks).table.conns 0 =
      ⟨4, .user, .active⟩ := by decide +kernel
  rwa [hconn] at h

end Run

end SahDB
