import SahDB.FlatServer
import SahDB.Cli

/-! A user at the command line client (`cli.c`) of a server that other clients use as well.

    Client and server share two streams of bytes. The client sends `USER_JOIN`, and then for each
    line one command, after which it waits for any bytes at all; the server reads what has come.
    Nothing marks where a command or an answer ends, the client does not wait for the prompt that
    answers `USER_JOIN`, and it shows its array of bytes up to the first NUL, which no `recv` puts
    there. Still, what it hears is the prompt and the answers to its commands, as the server has
    read them, in order and without a gap (`cli_session`), and it never waits while nothing is on
    the way to it or to the server (`cli_wait_moves`). -/

namespace SahDB

/-! ### Client and server -/

/-- The client, the server and the bytes on the way between them; `resp` is what the array of
    `process_user_req` holds, `heard` what each `recv` has brought, and `shown` the text the client
    has then shown, if it ended in the array. -/
structure CliSystem where
  server : Server
  up : Str
  down : Str
  waiting : Bool
  resp : Str
  heard : List Str
  shown : List (Option Str)

/-- The client has connected and sent `USER_JOIN`; nothing has set `resp`. -/
def CliSystem.start (s : Server) (resp : Str) : CliSystem :=
  ⟨s, userJoin, [], false, resp, [], []⟩

/-- A turn of the server, a line typed with what the attempts to send it return, a `recv` of at most
    `n` bytes, or one that fails. -/
inductive CliAct
  | turn (t : Tick)
  | types (input : Option Str) (send : ℕ → ℤ)
  | recv (n : ℕ)
  | recvFails

/-- The string in an array, if it ends in it. -/
def strIn (buf : Str) : Option Str := if (0 : UInt8) ∈ buf then some (CStr.cut buf) else none

/-- The bytes that readings of slot `i` have taken. -/
def taken (i : ℕ) (rs : List Reading) : Str :=
  (rs.filter fun r => r.slot = i).flatMap fun r => r.visit.outcome.bytes

/-- The server has ended, or has closed slot `i`. -/
def Server.Left (s : Server) (i : ℕ) : Prop := s.flow ≠ .next ∨ (s.table.conns i).fd = -1

instance (s : Server) (i : ℕ) : Decidable (s.Left i) := inferInstanceAs (Decidable (_ ∨ _))

/-- What an act does, where the client has slot `i`. -/
def CliSystem.step (i : ℕ) (s : CliSystem) : CliAct → CliSystem × Unit
  | .turn t =>
    let rs := s.server.readsOf t
    ({ s with
      server := (s.server.step t).1
      up := s.up.drop (taken i rs).length
      down := s.down ++ (sentTo i rs).flatten }, ())
  | .types input send =>
    let cmd := getUserInput input
    if cmd = [] ∨ cmd.head? = some CStr.newline then (s, ())
    else
      let (failure, sents) := sendLoop send cmd.length cliRetries 0
      ({ s with up := s.up ++ received cmd sents, waiting := !failure }, ())
  | .recv n =>
    let bytes := s.down.take n
    let resp := bytes ++ s.resp.drop bytes.length
    ({ s with
      down := s.down.drop n
      waiting := false
      resp := resp
      heard := s.heard ++ [bytes]
      shown := s.shown ++ [strIn resp] }, ())
  | .recvFails => ({ s with waiting := false }, ())

/-- The act can happen: the server reads bytes that are there, the client takes one line at a time,
    without a newline inside, and `recv` fails or returns nothing only if the server has left. -/
def CliSystem.Can (i : ℕ) (s : CliSystem) : CliAct → Prop
  | .turn t =>
    let rs := s.server.readsOf t
    taken i rs <+: s.up ∧ ∀ r ∈ rs, r.slot = i → r.visit.outcome ≠ .data []
  | .types input send => s.waiting = false ∧ CStr.newline ∉ getUserInput input ∧
    SendsOf (getUserInput input).length send
  | .recv n => s.waiting = true ∧ 0 < n ∧ n ≤ maxRespLen ∧ (s.down = [] → s.server.Left i)
  | .recvFails => s.waiting = true ∧ s.server.Left i

/-- The turns of the server among the acts. -/
def turnsOf (acts : List CliAct) : List Tick :=
  acts.filterMap fun a =>
    match a with
    | .turn t => some t
    | .types _ _ | .recv _ | .recvFails => none

/-! ### One turn of the server -/

/-- The text of the requests that readings of slot `i` have passed on. -/
def asked (master : Bool) (i : ℕ) (rs : List Reading) : Str :=
  (Mealy.inputsOf i (callsOf master rs)).flatMap Prod.snd

/-- The slot belongs to a client whose first bytes are `USER_JOIN` and whose other bytes become
    requests; if the client waits, something is on the way. -/
structure Linked (i : ℕ) (waiting : Bool) (s : Server) (rs : List Reading) (up down : Str) :
    Prop where
  slot : i < s.table.len
  descriptor : (s.table.conns i).fd ≠ -1 → 0 < (s.table.conns i).fd
  joins : (s.table.conns i).connState = .handshake → (s.table.conns i).fd ≠ -1 → userJoin <+: up
  fresh : (s.table.conns i).connState = .handshake → (s.table.conns i).fd ≠ -1 →
    taken i rs = [] ∧ asked s.master i rs = []
  user : (s.table.conns i).connState ≠ .handshake → (s.table.conns i).connType = .user ∧
    taken i rs = userJoin ++ asked s.master i rs
  clean : CStr.newline ∉ up ∧ (0 : UInt8) ∉ up
  moving : waiting = true → up ≠ [] ∨ down ≠ [] ∨ s.Left i

section Turn
variable {i : ℕ} {waiting : Bool} {s : Server} {rs : List Reading} {up up' down : Str}

/-- A client that sends `USER_JOIN` first is not taken for a replica. -/
theorem ne_replJoin {chunk : Str} (hjoin : userJoin <+: chunk ++ up') : chunk ≠ replJoin := by
  rintro rfl
  obtain ⟨rest, hrest⟩ := hjoin
  have hfirst := congrArg List.head? hrest
  simp [userJoin, replJoin, str] at hfirst

theorem sent_ne_nil (ctx : CmdCtx) : ctx.sent ≠ [] := by
  rw [CmdCtx.sent, ne_eq, List.take_eq_nil_iff]
  simp [maxRespLen, str]

theorem taken_append (i : ℕ) (rs rs' : List Reading) :
    taken i (rs ++ rs') = taken i rs ++ taken i rs' := by
  rw [taken, List.filter_append, List.flatMap_append]
  rfl

theorem asked_append (master : Bool) (i : ℕ) (rs rs' : List Reading) :
    asked master i (rs ++ rs') = asked master i rs ++ asked master i rs' := by
  rw [asked, callsOf, List.filterMap_append, Mealy.inputsOf, List.filter_append, List.map_append,
    List.flatMap_append]
  rfl

theorem asked_singleton (master : Bool) (i : ℕ) (r : Reading) : asked master i [r] =
    if r.slot = i then (serveSlot master r.visit r.conn).request.getD [] else [] := by
  rw [asked, callsOf, Mealy.inputsOf]
  cases hreq : (serveSlot master r.visit r.conn).request with
  | none => simp [Reading.call, hreq]
  | some req => by_cases h : r.slot = i <;> simp [Reading.call, hreq, h]

theorem asked_of_quiet {master : Bool} (h : ∀ x ∈ callsOf master rs, x.1 ≠ i) :
    asked master i rs = [] := by
  have hfilter : (callsOf master rs).filter (fun x => x.1 = i) = [] :=
    List.filter_eq_nil_iff.mpr fun x hx => by simpa using h x hx
  rw [asked, Mealy.inputsOf, hfilter]
  rfl

/-- What serving the slot of the client does to its connection. -/
theorem Linked.serve {v : Visit} (h : Linked i waiting s rs up down)
    (hopen : (s.table.conns i).fd ≠ -1) {chunk : Str} (hread : v.outcome = .data chunk)
    (hne : chunk ≠ []) (hup : up = chunk ++ up') :
    let d := serveSlot s.master v (s.table.conns i)
    (d.conn.fd ≠ -1 → 0 < d.conn.fd ∧ d.conn.connState ≠ .handshake) ∧
      (d.conn.connState ≠ .handshake → d.conn.connType = .user ∧
        taken i rs ++ chunk = userJoin ++ (asked s.master i rs ++ d.request.getD [])) ∧
      (sentSlot v (s.table.conns i) ≠ none ∧ sentSlot v (s.table.conns i) ≠ some [] ∨
        d.flow ≠ .next ∨ d.conn.fd = -1) := by
  have hclean := h.clean
  rw [hup] at hclean
  simp only [List.mem_append, not_or] at hclean
  have hbuf : upToNewline chunk = chunk := upToNewline_clean hclean.1.1 hclean.2.1
  intro d
  have hd : d = serveSlot s.master v (s.table.conns i) := rfl
  rw [serveSlot, hread] at hd
  rw [sentSlot, hread]
  dsimp only [socketReadData] at hd ⊢
  rw [if_neg (by decide), hbuf] at hd ⊢
  by_cases hstate : (s.table.conns i).connState = .handshake
  · rw [if_pos hstate] at hd ⊢
    have hjoin := h.joins hstate hopen
    rw [hup] at hjoin
    rw [serveHandshake, if_neg (ne_replJoin hjoin)] at hd
    rw [sentHandshake, if_neg (ne_replJoin hjoin)]
    split_ifs at hd ⊢ with hchunk <;> rw [hd]
    · refine ⟨fun hfd => ⟨h.descriptor hfd, by simp⟩, fun _ => ⟨rfl, ?_⟩,
        Or.inl ⟨by simp, by decide⟩⟩
      obtain ⟨htaken, hasked⟩ := h.fresh hstate hopen
      rw [htaken, hasked, hchunk]
      rfl
    · exact ⟨fun hfd => absurd rfl hfd, fun hs => absurd hstate hs, Or.inr (Or.inr rfl)⟩
  · obtain ⟨huser, hasked⟩ := h.user hstate
    rw [if_neg hstate, if_pos ⟨huser, h.descriptor hopen⟩, serveUser, if_neg hne] at hd
    rw [if_neg hstate, if_pos ⟨huser, h.descriptor hopen⟩, sentUser, if_neg hne]
    have htext : taken i rs ++ chunk = userJoin ++ (asked s.master i rs ++ chunk) := by
      rw [hasked, List.append_assoc]
    rcases handleRequest_serve v.env v.node chunk with ⟨f, hreq, -⟩ | ⟨n, ctx, hreq, -⟩
    · rw [hreq] at hd ⊢
      rw [hd]
      exact ⟨fun hfd => ⟨h.descriptor hfd, hstate⟩, fun _ => ⟨huser, htext⟩,
        Or.inr (Or.inl (by simp))⟩
    · rw [hreq] at hd ⊢
      dsimp only at hd ⊢
      refine ⟨?_, ?_, Or.inl ⟨by simp, fun hc => sent_ne_nil ctx (Option.some.inj hc)⟩⟩
      · split_ifs at hd <;> rw [hd]
        · exact fun hfd => absurd rfl hfd
        · exact fun hfd => ⟨h.descriptor hfd, hstate⟩
        · exact fun hfd => ⟨h.descriptor hfd, hstate⟩
      · split_ifs at hd <;> rw [hd] <;> exact fun _ => ⟨huser, htext⟩

theorem taken_singleton {r : Reading} (hslot : r.slot = i) :
    taken i [r] = r.visit.outcome.bytes := by
  simp [taken, hslot]

theorem served_conn {r : Reading} (hslot : r.slot = i) :
    (s.served r).table.conns i = (serveSlot s.master r.visit r.conn).conn := by
  rw [← hslot]
  exact ConnTable.set_self s.table _ _

theorem Linked.clean_rest {chunk : Str} (h : Linked i waiting s rs up down)
    (hup : up = chunk ++ up') : CStr.newline ∉ up' ∧ (0 : UInt8) ∉ up' := by
  have hall := h.clean
  rw [hup] at hall
  simp only [List.mem_append, not_or] at hall
  exact ⟨hall.1.2, hall.2.2⟩

/-- A read of the slot that returns bytes: they are answered, or the slot is closed. -/
theorem Linked.read_data (h : Linked i waiting s rs up down) {r : Reading} (hslot : r.slot = i)
    (hconn : r.conn = s.table.conns i) (hopen : r.conn.fd ≠ -1) {chunk : Str}
    (hread : r.visit.outcome = .data chunk) (hne : chunk ≠ []) (hup : up = chunk ++ up') :
    Linked i waiting (s.served r) (rs ++ [r]) up'
        (down ++ (sentSlot r.visit r.conn).toList.flatten) ∧
      (down ++ (sentSlot r.visit r.conn).toList.flatten ≠ [] ∨ (s.served r).Left i) := by
  have hself := served_conn (s := s) hslot
  have hflow : (s.served r).flow = (serveSlot s.master r.visit r.conn).flow := rfl
  have hmaster : (s.served r).master = s.master := rfl
  have hserve := h.serve (v := r.visit) (hconn ▸ hopen) hread hne hup
  rw [← hconn] at hserve
  obtain ⟨hfd, huser, hsent⟩ := hserve
  have hmove : down ++ (sentSlot r.visit r.conn).toList.flatten ≠ [] ∨ (s.served r).Left i := by
    rw [Server.Left, hself, hflow]
    refine hsent.imp_left ?_
    rintro ⟨hsome, hne'⟩
    cases hout : sentSlot r.visit r.conn with
    | none => exact absurd hout hsome
    | some out =>
      have hout' : out ≠ [] := fun hc => hne' (hc ▸ hout)
      simp [hout']
  refine ⟨⟨h.slot, fun hc => ?_, fun hs hc => ?_, fun hs hc => ?_, fun hs => ?_, h.clean_rest hup,
    fun _ => Or.inr hmove⟩, hmove⟩
  · rw [hself] at hc ⊢
    exact (hfd hc).1
  · rw [hself] at hs hc
    exact absurd hs (hfd hc).2
  · rw [hself] at hs hc
    exact absurd hs (hfd hc).2
  · rw [hself] at hs ⊢
    obtain ⟨htype, htext⟩ := huser hs
    refine ⟨htype, ?_⟩
    rw [hmaster, taken_append, asked_append, asked_singleton, if_pos hslot, taken_singleton hslot,
      hread]
    exact htext

/-- A read of the slot that returns none closes it. -/
theorem Linked.read_end (h : Linked i waiting s rs up down) {r : Reading} (hslot : r.slot = i)
    (hconn : r.conn = s.table.conns i) (hread : ∀ bytes, r.visit.outcome ≠ .data bytes) :
    Linked i waiting (s.served r) (rs ++ [r]) up
        (down ++ (sentSlot r.visit r.conn).toList.flatten) ∧ (s.served r).Left i := by
  have hself := served_conn (s := s) hslot
  have hmaster : (s.served r).master = s.master := rfl
  obtain ⟨hbytes, hclosed⟩ : r.visit.outcome.bytes = [] ∧ serveSlot s.master r.visit r.conn =
      ⟨{ r.conn with fd := -1 }, r.visit.node, none, true, .next⟩ := by
    rw [serveSlot]
    cases hout : r.visit.outcome with
    | data bytes => exact absurd hout (hread bytes)
    | eof | error => exact ⟨rfl, rfl⟩
  rw [hclosed] at hself
  have hleft : (s.served r).Left i := Or.inr (by rw [hself])
  have hfd : ¬ ((s.served r).table.conns i).fd ≠ -1 := by rw [hself]; exact not_not.mpr rfl
  refine ⟨⟨h.slot, fun hc => absurd hc hfd, fun _ hc => absurd hc hfd, fun _ hc => absurd hc hfd,
    fun hs => ?_, h.clean, fun _ => Or.inr (Or.inr hleft)⟩, hleft⟩
  rw [hself, hconn] at hs
  rw [hmaster, taken_append, asked_append, asked_singleton, if_pos hslot, taken_singleton hslot,
    hbytes, hclosed, Option.getD_none, List.append_nil, List.append_nil, hself, hconn]
  exact h.user hs

/-- The slot of the client is read: bytes are taken and answered, or the slot is closed. -/
theorem Linked.read (h : Linked i waiting s rs up down) {r : Reading} (hslot : r.slot = i)
    (hconn : r.conn = s.table.conns i) (hopen : r.conn.fd ≠ -1)
    (hup : up = taken i [r] ++ up') (hdata : r.visit.outcome ≠ .data []) :
    Linked i waiting (s.served r) (rs ++ [r]) up'
        (down ++ (sentSlot r.visit r.conn).toList.flatten) ∧
      (down ++ (sentSlot r.visit r.conn).toList.flatten ≠ [] ∨ (s.served r).Left i) := by
  rw [taken_singleton hslot] at hup
  cases hread : r.visit.outcome with
  | data chunk =>
    rw [hread] at hup
    exact h.read_data hslot hconn hopen hread (fun hc => hdata (hc ▸ hread)) hup
  | eof | error =>
    rw [hread] at hup
    obtain rfl : up = up' := hup
    have hend := h.read_end hslot hconn (by simp [hread])
    exact ⟨hend.1, Or.inr hend.2⟩

theorem served_left (hleft : s.Left i) {r : Reading} (hslot : r.slot ≠ i) (hflow : s.flow = .next) :
    (s.served r).Left i := by
  have hsame : (s.served r).table.conns i = s.table.conns i :=
    ConnTable.set_of_ne s.table _ (Ne.symm hslot)
  rcases hleft with hstop | hfd
  · exact absurd hflow hstop
  · exact Or.inr (hsame ▸ hfd)

/-- Another slot is read. -/
theorem Linked.other (h : Linked i waiting s rs up down) {r : Reading} (hslot : r.slot ≠ i)
    (hflow : s.flow = .next) : Linked i waiting (s.served r) (rs ++ [r]) up down := by
  have hsame : (s.served r).table.conns i = s.table.conns i :=
    ConnTable.set_of_ne s.table _ (Ne.symm hslot)
  have hmaster : (s.served r).master = s.master := rfl
  have htaken : taken i (rs ++ [r]) = taken i rs := by
    rw [taken_append]
    simp [taken, hslot]
  have hasked : asked s.master i (rs ++ [r]) = asked s.master i rs := by
    rw [asked_append, asked_singleton, if_neg hslot, List.append_nil]
  refine ⟨h.slot, ?_, ?_, ?_, ?_, h.clean, fun hw => ?_⟩
  · rw [hsame]; exact h.descriptor
  · rw [hsame]; exact h.joins
  · rw [hsame, hmaster, htaken, hasked]; exact h.fresh
  · rw [hsame, hmaster, htaken, hasked]; exact h.user
  · exact (h.moving hw).imp_right (Or.imp_right fun hleft => served_left hleft hslot hflow)

/-- A turn keeps the client linked to the server, if what it takes is there; and if it reads the
    slot, it answers or leaves the client. -/
theorem linked_keeps (i : ℕ) (waiting : Bool) (rs₀ : List Reading) (up down : Str) :
    Keeps fun s rs =>
      (taken i rs <+: up ∧ ∀ r ∈ rs, r.slot = i → r.visit.outcome ≠ .data []) →
        Linked i waiting s (rs₀ ++ rs) (up.drop (taken i rs).length)
            (down ++ (sentTo i rs).flatten) ∧
          ((∃ r ∈ rs, r.slot = i) → down ++ (sentTo i rs).flatten ≠ [] ∨ s.Left i) where
  accept {s rs} fd h hcan := by
    obtain ⟨hlink, hans⟩ := h hcan
    have hsame : (s.accept fd).1.table.conns i = s.table.conns i :=
      ConnTable.set_of_ne s.table _ (Nat.ne_of_lt hlink.slot)
    have hmaster : (s.accept fd).1.master = s.master := rfl
    have hleft : s.Left i → (s.accept fd).1.Left i := by
      rintro (hstop | hfd)
      · refine Or.inl ?_
        change (if s.table.len < s.table.cap then s.flow else .crash .outOfBounds) ≠ .next
        split_ifs
        · exact hstop
        · simp
      · exact Or.inr (hsame ▸ hfd)
    refine ⟨⟨Nat.lt_succ_of_lt hlink.slot, ?_, ?_, ?_, ?_, hlink.clean, fun hw =>
      (hlink.moving hw).imp_right (Or.imp_right hleft)⟩, fun hr => (hans hr).imp_right hleft⟩
    · rw [hsame]; exact hlink.descriptor
    · rw [hsame]; exact hlink.joins
    · rw [hsame, hmaster]; exact hlink.fresh
    · rw [hsame, hmaster]; exact hlink.user
  serve {s rs j} t h hflow _ hopen := by
    rintro r ⟨htaken, hdata⟩
    rw [taken_append] at htaken ⊢
    obtain ⟨hlink, hans⟩ := h ⟨(List.prefix_append _ _).trans htaken,
      fun r' hr' => hdata r' (List.mem_append_left _ hr')⟩
    rw [sentTo_concat, ← List.append_assoc]
    by_cases hj : j = i
    · subst hj
      rw [if_pos rfl, List.flatten_append, ← List.append_assoc]
      obtain ⟨rest, hrest⟩ := htaken
      have hup : up.drop (taken j rs).length = taken j [r] ++ rest := by
        rw [← hrest, List.append_assoc, List.drop_left]
      have hlast : up.drop (taken j rs ++ taken j [r]).length = rest := by
        rw [← hrest, List.drop_left]
      rw [hlast]
      obtain ⟨hlink', hmove⟩ := hlink.read rfl rfl hopen hup (hdata r (by simp) rfl)
      exact ⟨hlink', fun _ => hmove⟩
    · have hr : r.slot ≠ i := hj
      have hnone : taken i [r] = [] := by simp [taken, hr]
      rw [if_neg hr, hnone, List.append_nil, List.append_nil]
      refine ⟨hlink.other hr hflow, ?_⟩
      rintro ⟨r', hr', hslot⟩
      rcases List.mem_append.mp hr' with hold | hnew
      · exact (hans ⟨r', hold, hslot⟩).imp_right fun hleft => served_left hleft hr hflow
      · exact absurd (List.mem_singleton.mp hnew ▸ hslot) hr
  stop {s rs} h _ hcan := by
    obtain ⟨hlink, -⟩ := h hcan
    have hleft : ({ s with flow := .shutdown } : Server).Left i := Or.inl (by simp)
    exact ⟨⟨hlink.slot, hlink.descriptor, hlink.joins, hlink.fresh, hlink.user, hlink.clean,
      fun _ => Or.inr (Or.inr hleft)⟩, fun _ => Or.inr hleft⟩

end Turn

/-! ### A session -/

section Session
variable {i : ℕ} {s : CliSystem} {rs : List Reading} {acts : List CliAct}

theorem received_subset {cmd : Str} {sents : List ℤ} {c : UInt8} (h : c ∈ received cmd sents) :
    c ∈ cmd := by
  obtain ⟨res, -, hc⟩ := List.mem_flatMap.mp h
  exact List.mem_of_mem_take hc

/-- A command that has been sent is on its way. -/
theorem received_ne_nil {cmd : Str} {send : ℕ → ℤ} (hne : cmd ≠ [])
    (h : (sendLoop send cmd.length cliRetries 0).1 = false) :
    received cmd (sendLoop send cmd.length cliRetries 0).2 ≠ [] := by
  have hpos : 0 < (cmd.length : ℤ) := by
    have := List.length_pos_iff.mpr hne
    omega
  obtain ⟨m, hm⟩ := firstWhole_of_sendLoop h
  rw [sendLoop_of_firstWhole hpos.ne' hm, ne_eq, received_eq_nil_iff hne]
  intro hall
  exact absurd (hall cmd.length (by simp)) (not_le.mpr hpos)

theorem types_server (i : ℕ) (s : CliSystem) (input : Option Str) (send : ℕ → ℤ) :
    (s.step i (.types input send)).1.server = s.server := by
  rw [CliSystem.step]
  split_ifs <;> rfl

/-- The readings of an act. -/
def CliSystem.readsOf (s : CliSystem) : CliAct → List Reading
  | .turn t => s.server.readsOf t
  | .types _ _ | .recv _ | .recvFails => []

/-- What a turn that can happen does. -/
theorem Linked.turn (h : Linked i s.waiting s.server rs s.up s.down) {t : Tick}
    (hcan : s.Can i (.turn t)) :
    let s' := (s.step i (.turn t)).1
    Linked i s'.waiting s'.server (rs ++ s.server.readsOf t) s'.up s'.down ∧
      ((∃ r ∈ s.server.readsOf t, r.slot = i) → s'.down ≠ [] ∨ s'.server.Left i) := by
  have hzero : Linked i s.waiting s.server (rs ++ []) (s.up.drop (taken i []).length)
      (s.down ++ (sentTo i []).flatten) := by
    have hdown : s.down ++ (sentTo i []).flatten = s.down := List.append_nil _
    rw [hdown, List.append_nil]
    exact h
  have hnone : (∃ r ∈ ([] : List Reading), r.slot = i) →
      s.down ++ (sentTo i []).flatten ≠ [] ∨ s.server.Left i := by simp
  have hkeep := step_reads (linked_keeps i s.waiting rs s.up s.down) (fun _ => ⟨hzero, hnone⟩) t
  rw [List.nil_append] at hkeep
  exact hkeep hcan

theorem Linked.act (h : Linked i s.waiting s.server rs s.up s.down) {a : CliAct}
    (hcan : s.Can i a) :
    let s' := (s.step i a).1
    Linked i s'.waiting s'.server (rs ++ s.readsOf a) s'.up s'.down := by
  cases a with
  | turn t => exact (h.turn hcan).1
  | types input send =>
    obtain ⟨-, hnl, -⟩ := hcan
    have hrs : rs ++ s.readsOf (.types input send) = rs := List.append_nil rs
    rw [hrs, CliSystem.step]
    split_ifs with hempty
    · exact h
    · rw [not_or] at hempty
      refine ⟨h.slot, h.descriptor, fun hs hfd => ?_, h.fresh, h.user, ?_, fun hw => ?_⟩
      · exact (h.joins hs hfd).trans (List.prefix_append _ _)
      · have h0 : (0 : UInt8) ∉ getUserInput input := by
          cases input with
          | none => exact List.not_mem_nil
          | some bytes =>
            intro hc
            simpa using List.mem_takeWhile_imp hc
        simp only [List.mem_append, not_or]
        exact ⟨⟨h.clean.1, fun hc => hnl (received_subset hc)⟩,
          h.clean.2, fun hc => h0 (received_subset hc)⟩
      · have hsent : (sendLoop send (getUserInput input).length cliRetries 0).1 = false := by
          simpa using hw
        exact Or.inl fun hc => received_ne_nil hempty.1 hsent (List.append_eq_nil_iff.mp hc).2
  | recv k =>
    have hrs : rs ++ s.readsOf (.recv k) = rs := List.append_nil rs
    rw [hrs]
    exact ⟨h.slot, h.descriptor, h.joins, h.fresh, h.user, h.clean, by simp [CliSystem.step]⟩
  | recvFails =>
    have hrs : rs ++ s.readsOf .recvFails = rs := List.append_nil rs
    rw [hrs]
    exact ⟨h.slot, h.descriptor, h.joins, h.fresh, h.user, h.clean, by simp [CliSystem.step]⟩

theorem Linked.run (h : Linked i s.waiting s.server rs s.up s.down)
    (hcan : Mealy.Never (CliSystem.step i) (fun s a => ¬ s.Can i a) s acts) :
    let s' := Mealy.exec (CliSystem.step i) s acts
    Linked i s'.waiting s'.server (rs ++ readings s.server (turnsOf acts)) s'.up s'.down := by
  induction acts generalizing s rs with
  | nil =>
    have hrs : rs ++ readings s.server (turnsOf []) = rs := List.append_nil rs
    rw [hrs]
    exact h
  | cons a acts ih =>
    rw [Mealy.never_cons, not_not] at hcan
    have hnext := ih (h.act hcan.1) hcan.2
    have hrs : readings s.server (turnsOf (a :: acts)) =
        s.readsOf a ++ readings (s.step i a).1.server (turnsOf acts) := by
      cases a with
      | turn t => rfl
      | types input send =>
        rw [types_server]
        rfl
      | recv k => rfl
      | recvFails => rfl
    rw [hrs, ← List.append_assoc]
    exact hnext

/-- The server of the system makes the turns among the acts. -/
theorem server_of_run (acts : List CliAct) :
    (Mealy.exec (CliSystem.step i) s acts).server =
      Mealy.exec Server.step s.server (turnsOf acts) := by
  induction acts generalizing s with
  | nil => rfl
  | cons a acts ih =>
    rw [Mealy.exec_cons, ih]
    cases a with
    | turn t => rfl
    | types input send =>
      rw [types_server]
      rfl
    | recv k => rfl
    | recvFails => rfl

theorem sentTo_append (i : ℕ) (rs rs' : List Reading) :
    sentTo i (rs ++ rs') = sentTo i rs ++ sentTo i rs' := by
  rw [sentTo, List.filter_append, List.filterMap_append]
  rfl

/-- What has been heard and what is on the way are what the server has sent. -/
theorem heard_of_run (acts : List CliAct) :
    let s' := Mealy.exec (CliSystem.step i) s acts
    s'.heard.flatten ++ s'.down =
      s.heard.flatten ++ s.down ++ (sentTo i (readings s.server (turnsOf acts))).flatten := by
  induction acts generalizing s with
  | nil => exact (List.append_nil _).symm
  | cons a acts ih =>
    intro s'
    have hstep : s'.heard.flatten ++ s'.down = _ := ih (s := (s.step i a).1)
    rw [hstep]
    cases a with
    | turn t =>
      have hread : readings s.server (turnsOf (.turn t :: acts)) =
          s.server.readsOf t ++ readings (s.server.step t).1 (turnsOf acts) := rfl
      rw [hread, sentTo_append, List.flatten_append, ← List.append_assoc]
      change s.heard.flatten ++ (s.down ++ (sentTo i (s.server.readsOf t)).flatten) ++ _ = _
      rw [← List.append_assoc]
      rfl
    | types input send =>
      rw [CliSystem.step]
      split_ifs <;> rfl
    | recv k =>
      rw [CliSystem.step]
      dsimp only
      rw [List.flatten_append, List.flatten_singleton, List.append_assoc s.heard.flatten,
        List.take_append_drop]
      rfl
    | recvFails => rfl

/-- The text begins with the bytes, up to a NUL in them. -/
def Begins (bytes : Str) (text : Option Str) : Prop := ∀ t ∈ text, CStr.cut bytes <+: t

theorem begins_strIn (bytes rest : Str) : Begins bytes (strIn (bytes ++ rest)) := by
  intro t ht
  obtain rfl : CStr.cut (bytes ++ rest) = t := by
    rw [strIn] at ht
    split_ifs at ht
    · exact Option.some.inj ht
    · cases ht
  rw [CStr.cut, CStr.cut, List.takeWhile_append]
  split_ifs with hall
  · exact (List.takeWhile_prefix _).trans (List.prefix_append _ _)
  · exact List.prefix_rfl

/-- Each text that is shown begins with what was heard for it, and the array keeps its size. -/
theorem shown_of_run (hshown : List.Forall₂ Begins s.heard s.shown)
    (hresp : s.resp.length = maxRespLen)
    (hcan : Mealy.Never (CliSystem.step i) (fun s a => ¬ s.Can i a) s acts) :
    let s' := Mealy.exec (CliSystem.step i) s acts
    List.Forall₂ Begins s'.heard s'.shown ∧ s'.resp.length = maxRespLen := by
  induction acts generalizing s with
  | nil => exact ⟨hshown, hresp⟩
  | cons a acts ih =>
    rw [Mealy.never_cons, not_not] at hcan
    have hkeep : List.Forall₂ Begins (s.step i a).1.heard (s.step i a).1.shown ∧
        (s.step i a).1.resp.length = maxRespLen := by
      cases a with
      | turn t => exact ⟨hshown, hresp⟩
      | types input send =>
        rw [CliSystem.step]
        split_ifs <;> exact ⟨hshown, hresp⟩
      | recv k =>
        obtain ⟨-, -, hk, -⟩ := hcan.1
        have hle : (s.down.take k).length ≤ s.resp.length :=
          (List.length_take_le k s.down).trans (hresp ▸ hk)
        refine ⟨List.rel_append hshown (.cons (begins_strIn _ _) .nil), ?_⟩
        change (s.down.take k ++ s.resp.drop (s.down.take k).length).length = maxRespLen
        rw [List.length_append, List.length_drop, Nat.add_sub_cancel' hle, hresp]
      | recvFails => exact ⟨hshown, hresp⟩
    exact ih hkeep.1 hkeep.2 hcan.2

/-- What an act puts on the stream to the server. -/
def CliAct.sends : CliAct → Str
  | .turn _ | .recv _ | .recvFails => []
  | .types input send =>
    let cmd := getUserInput input
    if cmd = [] ∨ cmd.head? = some CStr.newline then []
    else received cmd (sendLoop send cmd.length cliRetries 0).2

/-- What the client has sent after `USER_JOIN`. -/
def typed (acts : List CliAct) : Str := acts.flatMap CliAct.sends

@[simp] theorem typed_cons (a : CliAct) (acts : List CliAct) :
    typed (a :: acts) = a.sends ++ typed acts := List.flatMap_cons

/-- What the server has taken and what is on the way to it are what has been sent. -/
theorem taken_of_run (hcan : Mealy.Never (CliSystem.step i) (fun s a => ¬ s.Can i a) s acts) :
    taken i (readings s.server (turnsOf acts)) ++ (Mealy.exec (CliSystem.step i) s acts).up =
      s.up ++ typed acts := by
  induction acts generalizing s with
  | nil => exact (List.append_nil _).symm
  | cons a acts ih =>
    rw [Mealy.never_cons, not_not] at hcan
    have hrest := ih hcan.2
    rw [Mealy.exec_cons]
    cases a with
    | turn t =>
      have hread : readings s.server (turnsOf (.turn t :: acts)) =
          s.server.readsOf t ++ readings (s.server.step t).1 (turnsOf acts) := rfl
      obtain ⟨⟨rest, hup⟩, -⟩ := hcan.1
      have hleft : (s.step i (.turn t)).1.up = rest := by
        change s.up.drop (taken i (s.server.readsOf t)).length = rest
        rw [← hup, List.drop_left]
      have hserver : (s.step i (.turn t)).1.server = (s.server.step t).1 := rfl
      rw [hleft, hserver] at hrest
      rw [hread, taken_append, List.append_assoc, hrest, ← List.append_assoc, hup]
      rfl
    | types input send =>
      rw [types_server] at hrest
      change taken i (readings s.server (turnsOf acts)) ++ _ = _
      rw [hrest, CliSystem.step, typed_cons, CliAct.sends]
      split_ifs
      · rfl
      · exact List.append_assoc _ _ _
    | recv k => exact hrest
    | recvFails => exact hrest

variable {s₀ : Server} {fd : ℤ}

/-- A new connection is linked to a client that has sent `USER_JOIN`. -/
theorem linked_start (hi : i < s₀.table.len) (hslot : s₀.table.conns i = ⟨fd, .unkn, .handshake⟩)
    (hfd : 0 < fd) : Linked i false s₀ [] userJoin [] := by
  refine ⟨hi, ?_, fun _ _ => List.prefix_rfl, fun _ _ => ⟨rfl, rfl⟩, fun hs => ?_, by decide,
    by simp⟩
  · rw [hslot]
    exact fun _ => hfd
  · rw [hslot] at hs
    exact absurd rfl hs

/-- The client connects to a server that has run before. -/
structure Connects (n : Node) (master : Bool) (pre : List Tick) (i : ℕ) (fd : ℤ) (s₀ : Server) :
    Prop where
  run : Mealy.exec Server.step (.start n master) pre = s₀
  slot : i < s₀.table.len
  conn : s₀.table.conns i = ⟨fd, .unkn, .handshake⟩
  descriptor : 0 < fd

variable {n : Node} {master : Bool} {pre : List Tick} {resp : Str}

theorem Connects.server (h : Connects n master pre i fd s₀) (resp : Str) (acts : List CliAct) :
    (Mealy.exec (CliSystem.step i) (.start s₀ resp) acts).server =
      Mealy.exec Server.step (.start n master) (pre ++ turnsOf acts) := by
  rw [Mealy.exec_append, h.run]
  exact server_of_run acts

theorem Connects.linked (h : Connects n master pre i fd s₀)
    (hcan : Mealy.Never (CliSystem.step i) (fun s a => ¬ s.Can i a) (.start s₀ resp) acts) :
    let s := Mealy.exec (CliSystem.step i) (.start s₀ resp) acts
    Linked i s.waiting s.server ([] ++ readings s₀ (turnsOf acts)) s.up s.down :=
  Linked.run (s := .start s₀ resp) (linked_start h.slot h.conn h.descriptor) hcan

/-- CORRECT: in every sound run, however server, client and the other connections take turns and
    wherever the streams are cut: while a client waits, bytes are on the way to it or to the server,
    or the server has left; and a turn that reads its slot leaves bytes on the way to it, or leaves
    it. -/
theorem cli_wait_moves (hconn : Connects n master pre i fd s₀)
    (hsound : SoundRun n master (pre ++ turnsOf acts))
    (hcan : Mealy.Never (CliSystem.step i) (fun s a => ¬ s.Can i a) (.start s₀ resp) acts) :
    let s := Mealy.exec (CliSystem.step i) (.start s₀ resp) acts
    s.server.node.db.Safe ∧ (s.waiting = true → s.up ≠ [] ∨ s.down ≠ [] ∨ s.server.Left i) ∧
      ∀ t, s.Can i (.turn t) → (∃ r ∈ s.server.readsOf t, r.slot = i) →
        (s.step i (.turn t)).1.down ≠ [] ∨ (s.step i (.turn t)).1.server.Left i := by
  intro s
  have hlink := hconn.linked hcan
  have hserver : s.server = _ := hconn.server resp acts
  exact ⟨hserver ▸ hsound.safe, hlink.moving, fun t ht => (hlink.turn ht).2⟩

/-- The line is typed before the server has read anything, and only then come the prompt and the
    answer; the array is zero. -/
def earlyLine : List CliAct :=
  [.types (some (str "SET a 1\n")) fun _ => 7, .turn (readTick (str "USER_JOIN")),
    .recv maxRespLen, .turn (readTick (str "SET a 1"))]

def zeroResp : Str := List.replicate maxRespLen 0

theorem oneClient_connects : Connects ⟨htInit, none⟩ true [connectTick] 0 4 oneClient :=
  ⟨rfl, by decide, by decide +kernel, by decide⟩

theorem earlyLine_can : Mealy.Never (CliSystem.step 0) (fun s a => ¬ s.Can 0 a)
    (.start oneClient zeroResp) earlyLine := by
  rw [earlyLine, Mealy.never_cons, Mealy.never_cons, Mealy.never_cons, Mealy.never_cons]
  simp only [not_not]
  have hwhole : (0 : ℤ) ≤ 7 ∧ (7 : ℤ) ≤ (getUserInput (some (str "SET a 1\n"))).length := by
    decide +kernel
  refine ⟨⟨rfl, by decide, fun _ => Or.inr hwhole⟩, ?_, ?_, ?_, Mealy.never_nil⟩
  · exact ⟨by decide +kernel, by decide +kernel⟩
  · exact ⟨by decide +kernel, by decide, by decide, by decide +kernel⟩
  · exact ⟨by decide +kernel, by decide +kernel⟩

theorem earlyLine_sound :
    SoundRun ⟨htInit, none⟩ true ([connectTick] ++ turnsOf earlyLine) where
  started := .empty
  short := by decide +kernel
  clear := never_pins (by decide +kernel)

/-- The server has not read the line yet. -/
theorem cli_wait_moves_early :
    let s := Mealy.exec (CliSystem.step 0) (.start oneClient zeroResp) (earlyLine.take 1)
    s.up ≠ [] ∨ s.down ≠ [] ∨ s.server.Left 0 := by
  have hsound : SoundRun ⟨htInit, none⟩ true ([connectTick] ++ turnsOf (earlyLine.take 1)) :=
    ⟨.empty, by decide +kernel, never_pins (by decide +kernel)⟩
  exact (cli_wait_moves oneClient_connects hsound fun pre a h =>
    earlyLine_can pre a (h.trans (List.take_prefix 1 _))).2.1 (by decide +kernel)

/-- What is heard first is from the start of what has been sent: the prompt. -/
theorem heard_first {c : Conn} {heard : List Str} {down bytes : Str}
    (hsees : SlotSees master n rs i c) (huser : c.connState ≠ .handshake → c.connType = .user)
    (hheard : heard.flatten ++ down = (sentTo i rs).flatten) (hbytes : bytes ∈ heard.head?) :
    bytes <+: userPrompt ∨ userPrompt <+: bytes := by
  have hprefix : bytes <+: (sentTo i rs).flatten := by
    obtain ⟨rest, hrest⟩ := List.head?_eq_some_iff.mp hbytes
    rw [← hheard, hrest, List.flatten_cons, List.append_assoc]
    exact List.prefix_append _ _
  by_cases hstate : c.connState = .handshake
  · rw [(hsees.waiting hstate).1] at hprefix
    rw [List.prefix_nil.mp hprefix]
    exact Or.inl List.nil_prefix
  · rw [hsees.user hstate (huser hstate)] at hprefix
    exact List.prefix_or_prefix_of_prefix hprefix (List.prefix_append _ _)

/-- CORRECT: in every sound run that comes to no access out of bounds and in which allocation and
    the sums of EXPIRE go well, the requests of the slot are what the client has sent, cut in some
    way, and the client hears the prompt and the answers of the flat map to these requests, cut in
    some way as well. What it hears first, for whatever command, is the prompt; and each text it
    shows begins with the bytes it has heard for it. -/
theorem cli_session {m : Flat} (hm : Simulates n.db m) (hconn : Connects n master pre i fd s₀)
    (hresp : resp.length = maxRespLen) (hsound : SoundRun n master (pre ++ turnsOf acts))
    (hcan : Mealy.Never (CliSystem.step i) (fun s a => ¬ s.Can i a) (.start s₀ resp) acts)
    (hplain : ∀ x ∈ calls (.start n master) (pre ++ turnsOf acts), PlainRequest x.2)
    (hlive : ¬ (Mealy.exec (CliSystem.step i) (.start s₀ resp) acts).server.flow.Crashed) :
    let s := Mealy.exec (CliSystem.step i) (.start s₀ resp) acts
    let log := calls (.start n master) (pre ++ turnsOf acts)
    s.server.node.db.Safe ∧
    ((s.server.table.conns i).connState ≠ .handshake →
      (Mealy.inputsOf i log).flatMap Prod.snd ++ s.up = typed acts ∧
      s.heard.flatten ++ s.down =
        (userPrompt :: (Mealy.answersTo Flat.serve i m log).map CmdCtx.sent).flatten) ∧
    (∀ bytes ∈ s.heard.head?, bytes <+: userPrompt ∨ userPrompt <+: bytes) ∧
    List.Forall₂ Begins s.heard s.shown := by
  intro s log
  have hreads : readings (.start n master) (pre ++ turnsOf acts) =
      readings (.start n master) pre ++ readings s₀ (turnsOf acts) := by
    rw [readings, Mealy.logged_append, hconn.run]
    rfl
  have hserver : s.server = Mealy.exec Server.step (.start n master) (pre ++ turnsOf acts) :=
    hconn.server resp acts
  -- the run before the client has connected sends it nothing
  have hpre := sequenced_run master n pre
  rw [hconn.run] at hpre
  obtain ⟨hquiet, hcalls⟩ := (hpre.sees i hconn.slot).waiting (by rw [hconn.conn])
  have hheard : s.heard.flatten ++ s.down =
      (sentTo i (readings (.start n master) (pre ++ turnsOf acts))).flatten := by
    rw [hreads, sentTo_append, hquiet]
    exact heard_of_run acts
  have hlink := hconn.linked hcan
  have hall := sequenced_run master n (pre ++ turnsOf acts)
  rw [← hserver] at hall
  have hsees := hall.sees i hlink.slot
  refine ⟨hserver ▸ hsound.safe, fun hstate => ⟨?_, ?_⟩, fun bytes hbytes =>
    heard_first hsees (fun hstate => (hlink.user hstate).1) hheard hbytes,
    (shown_of_run (s := .start s₀ resp) .nil hresp hcan).1⟩
  · have hasked : (Mealy.inputsOf i log).flatMap Prod.snd =
        asked master i (readings s₀ (turnsOf acts)) := by
      have hlog : (Mealy.inputsOf i log).flatMap Prod.snd =
          asked master i (readings (.start n master) (pre ++ turnsOf acts)) := rfl
      rw [hlog, hreads, asked_append, asked_of_quiet hcalls, List.nil_append]
    have htaken : taken i (readings s₀ (turnsOf acts)) ++ s.up = userJoin ++ typed acts :=
      taken_of_run hcan
    have huser := (hlink.user hstate).2
    rw [List.nil_append, hall.host] at huser
    rw [huser, List.append_assoc] at htaken
    rw [hasked]
    exact List.append_cancel_left htaken
  · have hflat := (calls_follow_flat hm hplain (hserver ▸ hlive)).2 i
    rw [hheard, sent_of_flat hsees hstate (hlink.user hstate).1 hflat]
    rfl

/-- The answer to the line is still on the way when the prompt has been shown for it. -/
theorem cli_session_early :
    let s := Mealy.exec (CliSystem.step 0) (.start oneClient zeroResp) earlyLine
    s.heard.flatten ++ s.down = str "sahDB> OK\nsahDB> " ∧ s.shown = [some userPrompt] := by
  have hflow : (Mealy.exec (CliSystem.step 0) (.start oneClient zeroResp)
      earlyLine).server.flow = .next := by decide +kernel
  obtain ⟨-, h, -, -⟩ := @cli_session 0 earlyLine oneClient 4 ⟨htInit, none⟩ true [connectTick]
    zeroResp ∅ simulates_init oneClient_connects List.length_replicate earlyLine_sound earlyLine_can
    (by decide +kernel) (hflow ▸ not_crashed_next)
  refine ⟨?_, by decide +kernel⟩
  rw [(h (by decide +kernel)).2]
  decide +kernel

end Session

end SahDB
