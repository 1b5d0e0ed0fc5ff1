import SahDB.Serving

/-! A replica joins its master (`replication.c`).

    The replica sends `REPL_JOIN_REQ`, waits for any bytes and sends its details if they are
    `REPL_INIT_JOIN`; the master, in its loop, takes a first read that is `REPL_JOIN_REQ` for a
    replica, marks the slot as one, answers, and waits for any bytes before it goes on. Both look at
    what one `read` has returned, so how the streams are cut decides what becomes of the two
    (`join_outcome`). -/

namespace SahDB

/-! ### Replica and master -/

/-- The two hosts: whether the one that is joined has a master itself, what its loop meets besides
    the bytes, and what the replica prints for `host_config.ip` and `host_config.server_port`. -/
structure JoinHosts where
  master : Bool
  env : ReqEnv
  node : Node
  ip : Str
  port : Str

/-- `DETAILS=%s:%d` -/
def JoinHosts.details (g : JoinHosts) : Str := str "DETAILS=" ++ g.ip ++ str ":" ++ g.port

/-- Where the replica is in `sig_send_req_to_mas`. -/
inductive ReplicaAt where
  | send
  | recv
  | back (res : Err)
  deriving DecidableEq, Repr

/-- The replica and its socket, the slot of the master, its descriptor, whether its loop waits in
    `master_init_handshake_with_repl`, and the bytes on the way. -/
structure JoinSystem where
  replica : ReplicaAt
  sockOpen : Bool
  conn : Conn
  fdOpen : Bool
  asking : Bool
  flow : Flow
  up : Str
  down : Str

/-- The replica has connected and the master has stored the connection. -/
def JoinSystem.start (fd : ℤ) : JoinSystem :=
  ⟨.send, true, ⟨fd, .unkn, .handshake⟩, true, false, .next, [], []⟩

/-- A call of the replica or of the master returns. What a `send` returns is `none` where there is
    no buffer. -/
inductive JoinAct where
  | ask (sent : Option ℤ)
  | hear (got : ReadOutcome) (sent : ℤ)
  | poll (got : ReadOutcome) (sent : Option ℤ)
  | told (got : ReadOutcome)

/-- The loop body of the master for the slot. -/
def JoinHosts.serve (g : JoinHosts) (got : ReadOutcome) (repl : ReplOutcome) (c : Conn) :
    SlotDone :=
  serveSlot g.master ⟨got, g.env, repl, g.node⟩ c

/-- How `master_init_handshake_with_repl` goes up to its `recv`. -/
def untilRecv : Option ℤ → ReplOutcome
  | none => .nomem
  | some sent => if sent < 0 then .sendFail else .ok

/-- The loop of the master comes to that `recv`. -/
def asks (c : Conn) (got : ReadOutcome) (sent : Option ℤ) : Bool :=
  c.connState = .handshake ∧ (socketReadData got).2 = replJoin ∧ 0 ≤ sent.getD (-1)

/-- How it goes on from there: whether it closes the descriptor, and whether the loop goes on. -/
def JoinHosts.answered (g : JoinHosts) (got : ReadOutcome) : Bool × Flow :=
  match masterInitHandshakeWithRepl g.master (if got = .error then .recvFail else .ok) with
  | .ok closed => (closed, .next)
  | .error f => (true, .crash f)

/-- What an act does. -/
def JoinSystem.step (g : JoinHosts) (s : JoinSystem) : JoinAct → JoinSystem × Unit
  | .ask none => ({ s with replica := .back dbErrNomem }, ())
  | .ask (some sent) =>
    if sent < 0 then ({ s with replica := .back dbErrGenericFail, sockOpen := false }, ())
    else ({ s with replica := .recv, up := s.up ++ replJoin.take sent.toNat }, ())
  | .hear got sent =>
    let down := s.down.drop got.bytes.length
    if got = .error then
      ({ s with replica := .back dbErrGenericFail, sockOpen := false, down := down }, ())
    else if strcaseEq (CStr.cut got.bytes) replInitJoin then
      ({ s with replica := .back dbErrOk, up := s.up ++ g.details.take sent.toNat,
                down := down }, ())
    else ({ s with replica := .back dbErrOk, down := down }, ())
  | .poll got sent =>
    let asking := asks s.conn got sent
    let d := g.serve got (untilRecv sent) s.conn
    -- the slot is a replica's before the handshake with it begins
    ({ s with conn := d.conn, fdOpen := s.fdOpen && !d.closed, asking := asking,
              flow := d.flow, up := s.up.drop got.bytes.length,
              down := if asking then s.down ++ replInitJoin.take (sent.getD (-1)).toNat
                else s.down }, ())
  | .told got =>
    let (closed, flow) := g.answered got
    ({ s with fdOpen := s.fdOpen && !closed, asking := false, flow := flow,
              up := s.up.drop got.bytes.length }, ())

/-- A read can return this from a stream whose other end may be closed. -/
def Reads (stream : Str) (closed : Prop) : ReadOutcome → Prop
  | .data bytes => bytes ≠ [] ∧ bytes <+: stream
  | .eof => stream = [] ∧ closed
  | .error => True

/-- The act can happen. -/
def JoinSystem.Can (g : JoinHosts) (s : JoinSystem) : JoinAct → Prop
  | .ask sent => s.replica = .send ∧ ∀ n ∈ sent, -1 ≤ n ∧ n ≤ replJoin.length
  | .hear got sent => s.replica = .recv ∧ Reads s.down (s.fdOpen = false) got ∧
    -1 ≤ sent ∧ sent ≤ g.details.length
  | .poll got sent => s.asking = false ∧ s.flow = .next ∧ s.conn.fd ≠ -1 ∧
    Reads s.up (s.sockOpen = false) got ∧ ∀ n ∈ sent, -1 ≤ n ∧ n ≤ replInitJoin.length
  | .told got => s.asking = true ∧ Reads s.up (s.sockOpen = false) got

/-- No call of the act fails. -/
def JoinAct.Works : JoinAct → Prop
  | .ask sent => 0 < sent.getD (-1)
  | .hear got sent => got ≠ .error ∧ 0 < sent
  | .poll got sent => got ≠ .error ∧ 0 < sent.getD (-1)
  | .told got => got ≠ .error

/-- Nothing can happen any more unless a call fails. -/
def JoinSystem.AtRest (g : JoinHosts) (s : JoinSystem) : Prop := ∀ a, s.Can g a → ¬ a.Works

/-! ### What the streams carry -/

section Stages
variable {g : JoinHosts} {fd : ℤ} {s : JoinSystem} {chunk : Str} {n : ℕ}

theorem take_ne_nil {w : Str} (hw : w ≠ []) (hn : 0 < n) : w.take n ≠ [] := by
  rw [ne_eq, List.take_eq_nil_iff, not_or]
  exact ⟨hn.ne', hw⟩

/-- A part of a stream that has carried a part of a text: the whole text, and then nothing is left,
    or a shorter one. -/
theorem part_of_take {w : Str} (h : chunk <+: w.take n) :
    chunk <+: w ∧ (chunk = w → (w.take n).drop chunk.length = []) := by
  refine ⟨h.trans (List.take_prefix n w), ?_⟩
  rintro rfl
  rw [List.drop_eq_nil_iff]
  exact List.length_take_le' n chunk

theorem clean_of_prefix {w : Str} (hw : CStr.newline ∉ w ∧ (0 : UInt8) ∉ w) (h : chunk <+: w) :
    upToNewline chunk = chunk :=
  upToNewline_clean (fun hc => hw.1 (h.subset hc)) fun hc => hw.2 (h.subset hc)

/-- Of the parts of `REPL_INIT_JOIN` the replica answers the whole one only. -/
theorem strcaseEq_init_iff (h : chunk <+: replInitJoin) :
    strcaseEq (CStr.cut chunk) replInitJoin = true ↔ chunk = replInitJoin := by
  have hcut : CStr.cut chunk = chunk := List.takeWhile_eq_self_iff.mpr fun c hc => by
    have hzero : (0 : UInt8) ∉ replInitJoin := by decide
    simpa using fun h0 : c = 0 => hzero (h0 ▸ h.subset hc)
  rw [hcut, strcaseEq, decide_eq_true_eq]
  constructor
  · intro heq
    have hlen := congrArg List.length heq
    rw [List.length_map, List.length_map] at hlen
    exact h.eq_of_length hlen
  · rintro rfl
    rfl

/-! ### Serving the slot -/

/-- A new connection that has sent a part of `REPL_JOIN_REQ` is closed. -/
theorem serve_part (h : chunk <+: replJoin) (hne : chunk ≠ replJoin) (repl : ReplOutcome) :
    g.serve (.data chunk) repl ⟨fd, .unkn, .handshake⟩ =
      ⟨⟨-1, .unkn, .handshake⟩, g.node, none, true, .next⟩ := by
  have hbuf : upToNewline chunk = chunk := clean_of_prefix (by decide) h
  have huser : chunk ≠ userJoin := by
    rintro rfl
    exact absurd h (by decide)
  rw [JoinHosts.serve, serveSlot]
  dsimp only [socketReadData]
  rw [if_neg (by decide), if_pos rfl, serveHandshake, hbuf, if_neg huser, if_neg hne]

/-- One that has sent the whole of it becomes that of a replica. -/
theorem serve_join {sent : Option ℤ} (hsent : 0 < sent.getD (-1)) :
    g.serve (.data replJoin) (untilRecv sent) ⟨fd, .unkn, .handshake⟩ =
      ⟨⟨fd, .repl, .active⟩, g.node, none, false, .next⟩ := by
  cases sent with
  | none => exact absurd hsent (by decide)
  | some n =>
    have hn : 0 < n := hsent
    have hbuf : upToNewline replJoin = replJoin := by decide
    rw [untilRecv, if_neg hn.not_gt, JoinHosts.serve, serveSlot]
    dsimp only [socketReadData]
    rw [if_neg (by decide), if_pos rfl, serveHandshake, hbuf, if_neg (by decide), if_pos rfl]
    rfl

/-- What a replica sends after its handshake is read and ignored. -/
theorem serve_replica (repl : ReplOutcome) : g.serve (.data chunk) repl ⟨fd, .repl, .active⟩ =
    ⟨⟨fd, .repl, .active⟩, g.node, none, false, .next⟩ := by
  rw [JoinHosts.serve, serveSlot]
  dsimp only [socketReadData]
  rw [if_neg (by decide), if_neg (by simp), if_neg (by simp)]

/-! ### The stages of a run -/

/-- What the read of an act of the master has returned. -/
def JoinAct.polled : JoinAct → Option ReadOutcome
  | .poll got _ => some got
  | .ask _ | .hear _ _ | .told _ => none

/-- What the `recv` of the replica has returned. -/
def JoinAct.heard : JoinAct → Option ReadOutcome
  | .hear got _ => some got
  | .ask _ | .poll _ _ | .told _ => none

/-- The first read of the master. -/
def firstPolled (acts : List JoinAct) : Option ReadOutcome := (acts.filterMap JoinAct.polled).head?

/-- What the replica has heard. -/
def firstHeard (acts : List JoinAct) : Option ReadOutcome := (acts.filterMap JoinAct.heard).head?

/-- The states of a run in which no call fails, with the number of acts, the first read of the
    master and what the replica has heard. -/
inductive Stage (g : JoinHosts) (fd : ℤ) :
    ℕ → Option ReadOutcome → Option ReadOutcome → JoinSystem → Prop
  | fresh : Stage g fd 0 none none (.start fd)
  | asked (n : ℕ) : 0 < n → Stage g fd 1 none none
      ⟨.recv, true, ⟨fd, .unkn, .handshake⟩, true, false, .next, replJoin.take n, []⟩
  | refused (p : ReadOutcome) (up : Str) : p ≠ .data replJoin → Stage g fd 2 (some p) none
      ⟨.recv, true, ⟨-1, .unkn, .handshake⟩, false, false, .next, up, []⟩
  | left (p h : ReadOutcome) (up : Str) : p ≠ .data replJoin → Stage g fd 3 (some p) (some h)
      ⟨.back dbErrOk, true, ⟨-1, .unkn, .handshake⟩, false, false, .next, up, []⟩
  | answered (n : ℕ) : 0 < n → Stage g fd 2 (some (.data replJoin)) none
      ⟨.recv, true, ⟨fd, .repl, .active⟩, true, true, .next, [], replInitJoin.take n⟩
  | detailed (n : ℕ) : 0 < n → Stage g fd 3 (some (.data replJoin)) (some (.data replInitJoin))
      ⟨.back dbErrOk, true, ⟨fd, .repl, .active⟩, true, true, .next, g.details.take n, []⟩
  | hung (h : ReadOutcome) (down : Str) : h ≠ .data replInitJoin →
      Stage g fd 3 (some (.data replJoin)) (some h)
        ⟨.back dbErrOk, true, ⟨fd, .repl, .active⟩, true, true, .next, [], down⟩
  | joined (k : ℕ) (up : Str) : k + up.length ≤ g.details.length + 3 →
      Stage g fd k (some (.data replJoin)) (some (.data replInitJoin))
        ⟨.back dbErrOk, true, ⟨fd, .repl, .active⟩, true, false, .next, up, []⟩

theorem details_ne_nil : g.details ≠ [] := by
  simp [JoinHosts.details, str]

/-- What a read can return from an open stream if it does not fail. -/
theorem Reads.data {stream : Str} {got : ReadOutcome} {closed : Prop} (h : Reads stream closed got)
    (hopen : ¬ closed) (hgot : got ≠ .error) :
    ∃ bytes, got = .data bytes ∧ bytes ≠ [] ∧ bytes <+: stream := by
  cases got with
  | data bytes => exact ⟨bytes, rfl, h⟩
  | eof => exact absurd h.2 hopen
  | error => exact absurd rfl hgot

/-- From an open stream without bytes no read returns. -/
theorem not_reads_nil {got : ReadOutcome} {closed : Prop} (hopen : ¬ closed) (hgot : got ≠ .error) :
    ¬ Reads [] closed got := by
  intro h
  obtain ⟨bytes, -, hne, hpart⟩ := h.data hopen hgot
  exact hne (List.prefix_nil.mp hpart)

/-- The master reads the request of a replica. -/
theorem Stage.poll {got : ReadOutcome} {sent : Option ℤ}
    (hread : Reads (replJoin.take n) (true = false) got) (hgot : got ≠ .error)
    (hsent : 0 < sent.getD (-1)) : Stage g fd 2 (some got) none (JoinSystem.step g
      ⟨.recv, true, ⟨fd, .unkn, .handshake⟩, true, false, .next, replJoin.take n, []⟩
        (.poll got sent)).1 := by
  obtain ⟨bytes, rfl, -, hpart⟩ := hread.data (by decide) hgot
  obtain ⟨hpre, hwhole⟩ := part_of_take hpart
  have hbuf : upToNewline bytes = bytes := clean_of_prefix (by decide) hpre
  have hasks : asks ⟨fd, .unkn, .handshake⟩ (.data bytes) sent = true ↔ bytes = replJoin := by
    simp [asks, socketReadData, hbuf, hsent.le]
  rw [JoinSystem.step]
  dsimp only
  rw [ReadOutcome.bytes_data]
  by_cases h : bytes = replJoin
  · rw [hasks.mpr h, if_pos rfl, hwhole h, h, serve_join hsent]
    exact .answered _ (by omega)
  · rw [Bool.eq_false_iff.mpr (mt hasks.mp h), if_neg (by decide), serve_part hpre h]
    exact .refused _ _ fun hc => h (ReadOutcome.data.inj hc)

/-- The replica hears from the master. -/
theorem Stage.hear {got : ReadOutcome} {sent : ℤ}
    (hread : Reads (replInitJoin.take n) (true = false) got) (hgot : got ≠ .error)
    (hsent : 0 < sent) : Stage g fd 3 (some (.data replJoin)) (some got) (JoinSystem.step g
      ⟨.recv, true, ⟨fd, .repl, .active⟩, true, true, .next, [], replInitJoin.take n⟩
        (.hear got sent)).1 := by
  obtain ⟨bytes, rfl, -, hpart⟩ := hread.data (by decide) hgot
  obtain ⟨hpre, hwhole⟩ := part_of_take hpart
  rw [JoinSystem.step, if_neg (by simp), ReadOutcome.bytes_data]
  by_cases h : bytes = replInitJoin
  · rw [if_pos ((strcaseEq_init_iff hpre).mpr h), hwhole h, h]
    exact .detailed _ (by omega)
  · rw [if_neg fun hc => h ((strcaseEq_init_iff hpre).mp hc)]
    exact .hung _ _ fun hc => h (ReadOutcome.data.inj hc)

/-- What can happen at a stage leads to a stage. -/
theorem Stage.step {k : ℕ} {p h : Option ReadOutcome} (hs : Stage g fd k p h s) {a : JoinAct}
    (hcan : s.Can g a) (hworks : a.Works) :
    Stage g fd (k + 1) (p.or a.polled) (h.or a.heard) (s.step g a).1 := by
  cases hs with
  | fresh =>
    cases a with
    | ask sent =>
      cases sent with
      | none => exact absurd hworks (by simp [JoinAct.Works])
      | some k =>
        have hk : 0 < k := hworks
        rw [JoinSystem.step, if_neg hk.not_gt]
        exact .asked _ (by omega)
    | hear got sent => exact absurd hcan.1 (by simp [JoinSystem.start])
    | poll got sent =>
      exact absurd hcan.2.2.2.1 (not_reads_nil (by simp [JoinSystem.start]) hworks.1)
    | told got => exact absurd hcan.1 (by simp [JoinSystem.start])
  | asked n hn =>
    cases a with
    | ask sent => exact absurd hcan.1 (by simp)
    | hear got sent => exact absurd hcan.2.1 (not_reads_nil (by simp) hworks.1)
    | poll got sent => exact Stage.poll hcan.2.2.2.1 hworks.1 hworks.2
    | told got => exact absurd hcan.1 (by simp)
  | refused p up hp =>
    cases a with
    | ask sent => exact absurd hcan.1 (by simp)
    | hear got sent =>
      obtain ⟨-, hread, -⟩ := hcan
      cases got with
      | data bytes => exact absurd (List.prefix_nil.mp hread.2) hread.1
      | eof => exact .left p _ up hp
      | error => exact absurd rfl hworks.1
    | poll got sent => exact absurd rfl hcan.2.2.1
    | told got => exact absurd hcan.1 (by simp)
  | left p h up hp =>
    cases a with
    | ask sent => exact absurd hcan.1 (by simp)
    | hear got sent => exact absurd hcan.1 (by simp)
    | poll got sent => exact absurd rfl hcan.2.2.1
    | told got => exact absurd hcan.1 (by simp)
  | answered n hn =>
    cases a with
    | ask sent => exact absurd hcan.1 (by simp)
    | hear got sent => exact Stage.hear hcan.2.1 hworks.1 hworks.2
    | poll got sent => exact absurd hcan.1 (by simp)
    | told got => exact absurd hcan.2 (not_reads_nil (by simp) hworks)
  | detailed n hn =>
    cases a with
    | ask sent => exact absurd hcan.1 (by simp)
    | hear got sent => exact absurd hcan.1 (by simp)
    | poll got sent => exact absurd hcan.1 (by simp)
    | told got =>
      obtain ⟨bytes, rfl, hne, hpart⟩ := hcan.2.data (by simp) hworks
      refine .joined 4 _ ?_
      have hpos := List.length_pos_iff.mpr hne
      have hlen : bytes.length ≤ (g.details.take n).length := hpart.length_le
      have htake := List.length_take_le' n g.details
      change 4 + ((g.details.take n).drop bytes.length).length ≤ _
      rw [List.length_drop]
      omega
  | hung h down hh =>
    cases a with
    | ask sent => exact absurd hcan.1 (by simp)
    | hear got sent => exact absurd hcan.1 (by simp)
    | poll got sent => exact absurd hcan.1 (by simp)
    | told got => exact absurd hcan.2 (not_reads_nil (by simp) hworks)
  | joined k up hk =>
    cases a with
    | ask sent => exact absurd hcan.1 (by simp)
    | hear got sent => exact absurd hcan.1 (by simp)
    | poll got sent =>
      obtain ⟨bytes, rfl, hne, hpart⟩ := hcan.2.2.2.1.data (by simp) hworks.1
      have hno : asks ⟨fd, .repl, .active⟩ (.data bytes) sent = false := by simp [asks]
      rw [JoinSystem.step]
      dsimp only
      rw [hno, if_neg (by decide), serve_replica]
      refine .joined _ _ ?_
      have hpos := List.length_pos_iff.mpr hne
      have hlen : bytes.length ≤ up.length := hpart.length_le
      change k + 1 + (up.drop bytes.length).length ≤ _
      rw [List.length_drop]
      omega
    | told got => exact absurd hcan.1 (by simp)

theorem Stage.run {acts : List JoinAct}
    (hcan : Mealy.Never (JoinSystem.step g) (fun s a => ¬ s.Can g a) (.start fd) acts)
    (hworks : ∀ a ∈ acts, a.Works) :
    Stage g fd acts.length (firstPolled acts) (firstHeard acts)
      (Mealy.exec (JoinSystem.step g) (.start fd) acts) := by
  induction acts using List.reverseRecOn with
  | nil => exact .fresh
  | append_singleton acts a ih =>
    rw [Mealy.never_concat, not_not] at hcan
    have hs := ih hcan.1 fun b hb => hworks b (List.mem_append_left _ hb)
    have hstep := hs.step hcan.2 (hworks a (by simp))
    have hfirst : ∀ f : JoinAct → Option ReadOutcome, ((acts ++ [a]).filterMap f).head? =
        (acts.filterMap f).head?.or (f a) := by
      intro f
      rw [List.filterMap_append, List.head?_append]
      cases hfa : f a <;> simp [hfa]
    rw [firstPolled, firstHeard, hfirst, hfirst, List.length_append, Mealy.exec_append]
    exact hstep

theorem Stage.length_le {k : ℕ} {p h : Option ReadOutcome} (hs : Stage g fd k p h s) :
    k ≤ g.details.length + 3 := by
  cases hs <;> omega

/-- A stage at which nothing can happen is one of three. -/
theorem Stage.of_rest {k : ℕ} {p h : Option ReadOutcome} (hs : Stage g fd k p h s) (hfd : fd ≠ -1)
    (hrest : s.AtRest g) : s.replica = .back dbErrOk ∧
      (p ≠ some (.data replJoin) ∧ s.conn.fd = -1 ∧ s.asking = false ∨
      p = some (.data replJoin) ∧ s.conn = ⟨fd, .repl, .active⟩ ∧
        (s.asking = true ↔ h ≠ some (.data replInitJoin))) := by
  have hdetails : 1 ≤ g.details.length := List.length_pos_iff.mpr details_ne_nil
  cases hs with
  | fresh =>
    have hcan : (JoinSystem.start fd).Can g (.ask (some 1)) := ⟨rfl, by simp [replJoin, str]⟩
    exact absurd (show 0 < (1 : ℤ) by decide) (hrest _ hcan)
  | asked n hn =>
    refine absurd ⟨by simp, by simp⟩ (hrest (.poll (.data (replJoin.take n)) (some 1)) ?_)
    exact ⟨rfl, rfl, hfd, ⟨take_ne_nil (by decide) hn, List.prefix_rfl⟩,
      by simp [replInitJoin, str]⟩
  | refused p up hp =>
    refine absurd ⟨by simp, by simp⟩ (hrest (.hear .eof 1) ?_)
    exact ⟨rfl, ⟨rfl, rfl⟩, by decide, by exact_mod_cast hdetails⟩
  | left p h up hp =>
    exact ⟨rfl, Or.inl ⟨fun hc => hp (Option.some.inj hc), rfl, rfl⟩⟩
  | answered n hn =>
    refine absurd ⟨by simp, by simp⟩ (hrest (.hear (.data (replInitJoin.take n)) 1) ?_)
    exact ⟨rfl, ⟨take_ne_nil (by decide) hn, List.prefix_rfl⟩, by decide,
      by exact_mod_cast hdetails⟩
  | detailed n hn =>
    refine absurd (by simp [JoinAct.Works]) (hrest (.told (.data (g.details.take n))) ?_)
    exact ⟨rfl, take_ne_nil details_ne_nil hn, List.prefix_rfl⟩
  | hung h down hh =>
    exact ⟨rfl, Or.inr ⟨rfl, rfl, iff_of_true rfl fun hc => hh (Option.some.inj hc)⟩⟩
  | joined k up hk => exact ⟨rfl, Or.inr ⟨rfl, rfl, iff_of_false (by simp) (not_not.mpr rfl)⟩⟩

/-- A master that waits for a replica which has gone on waits until the call fails. -/
theorem atRest_of_asking {res : Err} (hback : s.replica = .back res) (hasking : s.asking = true)
    (hup : s.up = []) (hopen : s.sockOpen = true) : s.AtRest g := by
  intro a hcan hworks
  cases a with
  | ask sent => exact absurd (hback.symm.trans hcan.1) (by simp)
  | hear got sent => exact absurd (hback.symm.trans hcan.1) (by simp)
  | poll got sent => exact absurd (hasking.symm.trans hcan.1) (by simp)
  | told got => exact not_reads_nil (by simp [hopen]) hworks (hup ▸ hcan.2)

end Stages

/-! ### The outcome -/

/-- CORRECT: if no call fails, the two come to rest, and the replica believes that it has joined.
    Whether it has depends on two reads. The slot of the master is that of a replica if the first
    read of the master was exactly `REPL_JOIN_REQ`, and otherwise closed. And if it was, but the
    replica has heard something else than exactly `REPL_INIT_JOIN`, the loop of the master waits for
    good. -/
theorem join_outcome (g : JoinHosts) {fd : ℤ} (hfd : fd ≠ -1) {acts : List JoinAct}
    (hcan : Mealy.Never (JoinSystem.step g) (fun s a => ¬ s.Can g a) (.start fd) acts)
    (hworks : ∀ a ∈ acts, a.Works) :
    let s := Mealy.exec (JoinSystem.step g) (.start fd) acts
    let asked := firstPolled acts = some (.data replJoin)
    let heard := firstHeard acts = some (.data replInitJoin)
    acts.length ≤ g.details.length + 3 ∧ (s.AtRest g → s.replica = .back dbErrOk ∧
      (s.conn.fd = -1 ↔ ¬ asked) ∧
      (s.conn = ⟨fd, .repl, .active⟩ ↔ asked) ∧
      (s.asking = true ↔ asked ∧ ¬ heard)) := by
  intro s asked heard
  have hs : Stage g fd acts.length (firstPolled acts) (firstHeard acts) s := Stage.run hcan hworks
  refine ⟨hs.length_le, fun hrest => ?_⟩
  obtain ⟨hback, hout⟩ := hs.of_rest hfd hrest
  refine ⟨hback, ?_⟩
  rcases hout with ⟨hp, hclosed, hasking⟩ | ⟨hp, hconn, hwaits⟩
  · refine ⟨iff_of_true hclosed hp, iff_of_false (fun hc => ?_) hp,
      iff_of_false (by simp [hasking]) fun hc => hp hc.1⟩
    rw [hc] at hclosed
    exact hfd hclosed
  · exact ⟨iff_of_false (by rw [hconn]; exact hfd) (not_not.mpr hp), iff_of_true hconn hp,
      hwaits.trans (and_iff_right hp).symm⟩

/-- Two hosts, of which the one that is joined has a master itself. -/
def twoHosts : JoinHosts := ⟨true, envAt 100, ⟨htInit, none⟩, str "(null)", str "7000"⟩

/-- The answer of the master comes in two parts. -/
def cutAnswer : List JoinAct :=
  [.ask (some 13), .poll (.data replJoin) (some 14), .hear (.data (str "REPL_INIT")) 1]

/-- The replica goes on, and the master waits. -/
theorem join_outcome_cut : (Mealy.exec (JoinSystem.step twoHosts) (.start 4) cutAnswer).replica =
      .back dbErrOk ∧
    (Mealy.exec (JoinSystem.step twoHosts) (.start 4) cutAnswer).asking = true := by
  have hcan : Mealy.Never (JoinSystem.step twoHosts) (fun s a => ¬ s.Can twoHosts a) (.start 4)
      cutAnswer := by
    rw [cutAnswer, Mealy.never_cons, Mealy.never_cons, Mealy.never_cons]
    simp only [not_not]
    refine ⟨⟨rfl, by decide⟩, ⟨rfl, rfl, by decide, ⟨by decide, by decide +kernel⟩, by decide⟩, ?_,
      Mealy.never_nil⟩
    exact ⟨rfl, ⟨by decide, by decide +kernel⟩, by decide, by decide +kernel⟩
  have hworks : ∀ a ∈ cutAnswer, a.Works := by
    simp [cutAnswer, JoinAct.Works]
  have hback : (Mealy.exec (JoinSystem.step twoHosts) (.start 4) cutAnswer).replica =
      .back dbErrOk := by decide +kernel
  have h := (join_outcome twoHosts (by decide) hcan hworks).2
    (atRest_of_asking hback (by decide +kernel) (by decide +kernel) (by decide +kernel))
  exact ⟨h.1, h.2.2.2.mpr ⟨rfl, by decide +kernel⟩⟩

end SahDB
