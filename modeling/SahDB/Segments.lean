import SahDB.ConnBound
import SahDB.SlotRun
import SahDB.Requests
import SahDB.Lib.Framing

/-! Requests and the segments they arrive in.

    A read of the server is one message: what follows its first newline is lost, and a line that
    arrives in two reads is two messages. So the requests of a connection are the lines the client
    has sent only if the reads are aligned with the lines (`requests_eq_lines_iff`). -/

namespace SahDB

/-- The string a visit finds in `buf`. -/
def Visit.text (v : Visit) : Str := (socketReadData v.outcome).2

/-- The strings of some visits that are not empty. -/
def texts (visits : List Visit) : List Str := (visits.map Visit.text).filter (· ≠ [])

/-- The request of a visit stops the program, or ends its connection or the server. -/
def Visit.Stops (v : Visit) : Prop :=
  (∃ f, handleRequest v.env v.node v.text = .error f) ∨ (v.env.cmdArrOk = true ∧ Leaves v.text)

/-- No request but the last one stops anything. -/
def GoesOn : List Visit → Prop
  | [] => True
  | v :: visits => (v.text ≠ [] → texts visits ≠ [] → ¬ v.Stops) ∧ GoesOn visits

/-! ### A connection that has joined -/

section Joined
variable {v : Visit} {c : Conn} {visits : List Visit} {master : Bool}

theorem texts_cons_of_empty (h : v.text = []) : texts (v :: visits) = texts visits := by
  rw [texts, List.map_cons, h, List.filter_cons_of_neg (by simp), texts]

theorem texts_cons (h : v.text ≠ []) : texts (v :: visits) = v.text :: texts visits := by
  rw [texts, List.map_cons, List.filter_cons_of_pos (by simpa using h), texts]

/-- A single request stops nothing before it. -/
theorem goesOn_of_length_le (h : (texts visits).length ≤ 1) : GoesOn visits := by
  induction visits with
  | nil => trivial
  | cons v visits ih =>
    rcases eq_or_ne v.text [] with hempty | hne
    · rw [texts_cons_of_empty hempty] at h
      exact ⟨fun hv => absurd hempty hv, ih h⟩
    · rw [texts_cons hne, List.length_cons] at h
      have hnone : texts visits = [] := List.eq_nil_of_length_eq_zero (by omega)
      exact ⟨fun _ hmore => absurd hnone hmore, ih (by omega)⟩

/-- Serving a request passes it on, and the connection goes on unless the request stops it. -/
theorem serveUser_request (h : v.text ≠ []) :
    (serveUser v v.text c).request = some v.text ∧
    (¬ v.Stops → (serveUser v v.text c).conn = c ∧ (serveUser v v.text c).flow = .next) ∧
    (v.Stops → (serveUser v v.text c).conn.fd = -1 ∨ (serveUser v v.text c).flow ≠ .next) := by
  unfold serveUser
  rw [if_neg h]
  cases hreq : handleRequest v.env v.node v.text with
  | error f =>
    refine ⟨rfl, fun hstop => absurd (Or.inl ⟨f, hreq⟩) hstop, fun _ => Or.inr ?_⟩
    simp
  | ok done =>
    obtain ⟨node, out, res⟩ := done
    obtain ⟨d, hd, hdone⟩ := bind_ok hreq
    have hstays : Stays res ↔ ¬ v.Stops := by
      have hiff := processCommand_stays_iff ⟨by decide, by decide⟩ hd
      cases hdone
      rw [hiff, Visit.Stops, hreq]
      simp
    dsimp only
    split_ifs with hexit hshut
    · have hstop : v.Stops := not_not.mp fun hn => (hstays.mpr hn).1 hexit
      exact ⟨rfl, fun hn => absurd hstop hn, fun _ => Or.inl rfl⟩
    · have hstop : v.Stops := not_not.mp fun hn => (hstays.mpr hn).2 hshut
      exact ⟨rfl, fun hn => absurd hstop hn, fun _ => Or.inr (by simp)⟩
    · exact ⟨rfl, fun _ => ⟨rfl, rfl⟩, fun hstop => absurd hstop (hstays.mp ⟨hexit, hshut⟩)⟩

/-- A read that returns bytes serves a joined user its text. -/
theorem serveSlot_joined {fd : ℤ} {bytes : Str} (hfd : 0 < fd) (h : v.outcome = .data bytes) :
    serveSlot master v ⟨fd, .user, .active⟩ = serveUser v v.text ⟨fd, .user, .active⟩ := by
  rw [serveSlot, Visit.text, h]
  simp [socketReadData, hfd, dbErrOk, dbErrClientClosed, dbErrClientFatal]

/-- The requests of a user begin the texts of the reads, and are all of them if no request stops. -/
theorem passed_joined (master : Bool) {fd : ℤ} (hfd : 0 < fd)
    (hdata : ∀ v ∈ visits, ∃ bytes, v.outcome = .data bytes) :
    passed master ⟨fd, .user, .active⟩ visits <+: texts visits ∧
      (passed master ⟨fd, .user, .active⟩ visits = texts visits ↔ GoesOn visits) := by
  have hopen : fd ≠ -1 := by omega
  induction visits with
  | nil => exact ⟨List.prefix_rfl, iff_of_true rfl trivial⟩
  | cons v visits ih =>
    obtain ⟨bytes, hbytes⟩ := hdata v (by simp)
    obtain ⟨hpre, hiff⟩ := ih fun w hw => hdata w (by simp [hw])
    rw [passed, if_neg hopen, serveSlot_joined hfd hbytes, GoesOn]
    dsimp only
    rcases eq_or_ne v.text [] with hempty | hne
    · have hserve : serveUser v v.text ⟨fd, .user, .active⟩ =
          ⟨⟨fd, .user, .active⟩, v.node, none, false, .next⟩ := if_pos hempty
      rw [hserve, texts_cons_of_empty hempty]
      dsimp only
      rw [if_pos rfl, Option.toList_none, List.nil_append]
      refine ⟨hpre, hiff.trans ⟨fun h => ⟨fun hn => absurd hempty hn, h⟩, fun h => h.2⟩⟩
    · obtain ⟨hreq, hon, hstop⟩ := serveUser_request (c := ⟨fd, .user, .active⟩) hne
      rw [hreq, texts_cons hne, Option.toList_some, List.singleton_append]
      by_cases hs : v.Stops
      · -- nothing is passed on afterwards
        have hrest : (if (serveUser v v.text ⟨fd, .user, .active⟩).flow = .next then
            passed master (serveUser v v.text ⟨fd, .user, .active⟩).conn visits else []) = [] := by
          rcases hstop hs with hclosed | hflow
          · cases visits with
            | nil => simp [passed]
            | cons w visits => simp [passed, hclosed]
          · rw [if_neg hflow]
        rw [hrest]
        refine ⟨List.cons_prefix_cons.mpr ⟨rfl, List.nil_prefix⟩, ?_⟩
        constructor
        · intro h
          have hnone : texts visits = [] := (List.cons.inj h).2.symm
          refine ⟨fun _ hmore => absurd hnone hmore, ?_⟩
          rw [← hiff, hnone, ← List.prefix_nil, ← hnone]
          exact hpre
        · rintro ⟨hlast, -⟩
          have hnone : texts visits = [] := not_not.mp fun hmore => hlast hne hmore hs
          rw [hnone]
      · obtain ⟨hconn, hflow⟩ := hon hs
        rw [if_pos hflow, hconn]
        refine ⟨List.cons_prefix_cons.mpr ⟨rfl, hpre⟩, ?_⟩
        rw [List.cons_inj_right, hiff]
        exact ⟨fun h => ⟨fun _ _ => hs, h⟩, fun h => h.2⟩

/-- A slot that is in no handshake and no user with a descriptor passes nothing on. -/
theorem serveSlot_other (master : Bool) (v : Visit) (hstate : c.connState ≠ .handshake)
    (huser : ¬ (c.connType = .user ∧ c.fd > 0)) :
    (serveSlot master v c).request = none ∧
      (serveSlot master v c).conn.connState ≠ .handshake ∧
      ¬ ((serveSlot master v c).conn.connType = .user ∧ (serveSlot master v c).conn.fd > 0) := by
  rw [serveSlot]
  dsimp only
  rw [if_neg hstate, if_neg huser]
  split_ifs
  · exact ⟨rfl, hstate, by simp⟩
  · exact ⟨rfl, hstate, huser⟩

theorem passed_other (hstate : c.connState ≠ .handshake)
    (huser : ¬ (c.connType = .user ∧ c.fd > 0)) : passed master c visits = [] := by
  induction visits generalizing c with
  | nil => rfl
  | cons v visits ih =>
    obtain ⟨hreq, hstate', huser'⟩ := serveSlot_other master v hstate huser
    rw [passed]
    dsimp only
    rw [hreq, ih hstate' huser']
    simp

theorem passed_closed (h : c.fd = -1) : passed master c visits = [] := by
  cases visits with
  | nil => rfl
  | cons v visits => rw [passed, if_pos h]

end Joined

/-! ### A connection from its start -/

section Fresh
variable {master : Bool} {fd : ℤ} {v : Visit} {visits : List Visit}

/-- After a first read that is not `USER_JOIN` a new connection passes nothing on. -/
theorem passed_fresh {bytes : Str} (h : v.outcome = .data bytes) :
    passed master ⟨fd, .unkn, .handshake⟩ (v :: visits) =
      if fd ≠ -1 ∧ v.text = userJoin then passed master ⟨fd, .user, .active⟩ visits else [] := by
  have hserve : serveSlot master v ⟨fd, .unkn, .handshake⟩ =
      serveHandshake master v v.text ⟨fd, .unkn, .handshake⟩ := by
    rw [serveSlot, Visit.text, h]
    simp [socketReadData, dbErrOk, dbErrClientClosed, dbErrClientFatal]
  rw [passed, hserve]
  rcases eq_or_ne fd (-1) with hfd | hfd
  · rw [if_pos hfd, if_neg (show ¬ (fd ≠ -1 ∧ v.text = userJoin) from fun hc => hc.1 hfd)]
  · rw [if_neg hfd]
    dsimp only
    rw [serveHandshake]
    by_cases hjoin : v.text = userJoin
    · simp [hjoin, hfd]
    · rw [if_neg hjoin, if_neg (show ¬ (fd ≠ -1 ∧ v.text = userJoin) from fun hc => hjoin hc.2)]
      by_cases hrepl : v.text = replJoin
      · rw [if_pos hrepl]
        cases masterInitHandshakeWithRepl master v.repl with
        | ok closed => exact passed_other (by simp) (by simp)
        | error f => rfl
      · rw [if_neg hrepl]
        exact passed_closed rfl

end Fresh

/-! ### Runs of the server -/

/-- The visits read the stream that joins and sends the lines, cut into chunks. -/
structure Segments (lines : List Str) (visits : List Visit) (chunks : List Str) : Prop where
  data : visits.map Visit.outcome = chunks.map ReadOutcome.data
  ne_nil : [] ∉ chunks
  stream : chunks.flatten = Framing.stream CStr.newline (userJoin :: lines)

/-- The run makes the visits of slot `i`, all of them unless they end its connection or the server.
    -/
def Makes (s : Server) (i : ℕ) (ticks : List Tick) (visits : List Visit) : Prop :=
  ∃ rest, visits = visitsOf i s ticks ++ rest ∧
    (rest = [] ∨ Ended s.master (s.table.conns i) (visitsOf i s ticks))

theorem Makes.requestsOf_eq {s : Server} {i : ℕ} {ticks : List Tick} {visits : List Visit}
    (h : Makes s i ticks visits) (hi : i < s.table.len) :
    requestsOf i (Mealy.outputs Server.step s ticks).flatten =
      passed s.master (s.table.conns i) visits := by
  obtain ⟨rest, rfl, rfl | hend⟩ := h
  · rw [List.append_nil, requestsOf_run hi]
  · rw [passed_append_of_ended hend, requestsOf_run hi]

section Chunks
variable {lines chunks : List Str} {visits : List Visit}

theorem text_of_data {v : Visit} {bytes : Str} (h : v.outcome = .data bytes)
    (hnul : (0 : UInt8) ∉ bytes) : v.text = Framing.text CStr.newline bytes := by
  rw [Visit.text, h]
  simp only [socketReadData, upToNewline, CStr.cut_of_notMem hnul, Framing.text]

/-- The texts of reads without NUL are the messages of a reader that takes each read for one. -/
theorem texts_eq_messages (hdata : visits.map Visit.outcome = chunks.map ReadOutcome.data)
    (hnul : ∀ bytes ∈ chunks, (0 : UInt8) ∉ bytes) :
    texts visits = Framing.messages CStr.newline chunks := by
  have hmap : visits.map Visit.text = chunks.map (Framing.text CStr.newline) := by
    induction visits generalizing chunks with
    | nil =>
      obtain rfl := List.map_eq_nil_iff.mp hdata.symm
      rfl
    | cons v visits ih =>
      cases chunks with
      | nil => simp at hdata
      | cons bytes chunks =>
        obtain ⟨hv, hrest⟩ := List.cons.inj hdata
        rw [List.map_cons, List.map_cons, text_of_data hv (hnul bytes (by simp)),
          ih hrest fun b hb => hnul b (by simp [hb])]
  rw [texts, hmap, Framing.messages]

theorem Segments.nul (h : Segments lines visits chunks) (hlines : ∀ l ∈ lines, (0 : UInt8) ∉ l) :
    ∀ bytes ∈ chunks, (0 : UInt8) ∉ bytes := by
  intro bytes hbytes h0
  have hmem : (0 : UInt8) ∈ chunks.flatten := List.mem_flatten.mpr ⟨bytes, hbytes, h0⟩
  rw [h.stream, Framing.stream, List.mem_flatMap] at hmem
  obtain ⟨l, hl, hmem⟩ := hmem
  rcases List.mem_append.mp hmem with h0 | h0
  · rcases List.mem_cons.mp hl with rfl | hl
    · exact absurd h0 (by decide)
    · exact hlines l hl h0
  · exact absurd h0 (by decide)

theorem Segments.outcome (h : Segments lines visits chunks) :
    ∀ v ∈ visits, ∃ bytes, v.outcome = .data bytes := by
  intro v hv
  have hmem : v.outcome ∈ visits.map Visit.outcome := List.mem_map_of_mem hv
  rw [h.data] at hmem
  obtain ⟨bytes, -, heq⟩ := List.mem_map.mp hmem
  exact ⟨bytes, heq.symm⟩

end Chunks

section Lines
variable {lines chunks : List Str} {v : Visit} {visits : List Visit}

theorem joined_lines (hlines : ∀ l ∈ lines, l ≠ [] ∧ CStr.newline ∉ l ∧ (0 : UInt8) ∉ l) :
    ∀ l ∈ userJoin :: lines, l ≠ [] ∧ CStr.newline ∉ l := by
  intro l hl
  rcases List.mem_cons.mp hl with rfl | hl
  · decide
  · exact ⟨(hlines l hl).1, (hlines l hl).2.1⟩

/-- A first text `USER_JOIN` before texts that begin with the lines aligns the chunks. -/
theorem Segments.aligned (h : Segments lines (v :: visits) chunks)
    (hlines : ∀ l ∈ lines, l ≠ [] ∧ CStr.newline ∉ l ∧ (0 : UInt8) ∉ l) (hjoin : v.text = userJoin)
    (hpre : lines <+: texts visits) :
    Framing.Aligned CStr.newline (userJoin :: lines) chunks ∧ texts visits = lines := by
  have hne : v.text ≠ [] := by rw [hjoin]; decide
  have htexts := texts_eq_messages h.data (h.nul fun l hl => (hlines l hl).2.2)
  rw [texts_cons hne, hjoin] at htexts
  have halign := Framing.aligned_of_prefix (joined_lines hlines) h.ne_nil h.stream
    (htexts ▸ List.cons_prefix_cons.mpr ⟨rfl, hpre⟩)
  rw [halign.messages_eq (joined_lines hlines)] at htexts
  exact ⟨halign, (List.cons.inj htexts).2⟩

/-- The texts of aligned reads are `USER_JOIN` and the lines. -/
theorem Segments.texts_eq (h : Segments lines (v :: visits) chunks)
    (hlines : ∀ l ∈ lines, l ≠ [] ∧ CStr.newline ∉ l ∧ (0 : UInt8) ∉ l)
    (halign : Framing.Aligned CStr.newline (userJoin :: lines) chunks) :
    v.text = userJoin ∧ texts visits = lines := by
  have hnul := h.nul fun l hl => (hlines l hl).2.2
  have htexts := texts_eq_messages h.data hnul
  have hjoin : v.text = userJoin := by
    cases chunks with
    | nil => cases halign
    | cons bytes chunks =>
      rw [text_of_data (List.cons.inj h.data).1 (hnul bytes (by simp))]
      exact halign.text_head (by decide)
  have hne : v.text ≠ [] := by rw [hjoin]; decide
  rw [halign.messages_eq (joined_lines hlines), texts_cons hne] at htexts
  exact ⟨hjoin, (List.cons.inj htexts).2⟩

end Lines

/-- The requests of a new connection whose reads are some segments of its lines. -/
theorem passed_eq_lines_iff {master : Bool} {fd : ℤ} {lines chunks : List Str}
    {visits : List Visit} (hlines : ∀ l ∈ lines, l ≠ [] ∧ CStr.newline ∉ l ∧ (0 : UInt8) ∉ l)
    (hseg : Segments lines visits chunks) :
    passed master ⟨fd, .unkn, .handshake⟩ visits = lines ↔
      lines = [] ∨ (0 < fd ∧ Framing.Aligned CStr.newline (userJoin :: lines) chunks ∧
        GoesOn visits.tail) := by
  cases visits with
  | nil =>
    have hnone : chunks = [] := List.map_eq_nil_iff.mp hseg.data.symm
    have hstream := hseg.stream
    simp [hnone, Framing.stream] at hstream
  | cons v visits =>
    obtain ⟨bytes, hbytes⟩ := hseg.outcome v (by simp)
    have hdata : ∀ w ∈ visits, ∃ bytes, w.outcome = .data bytes :=
      fun w hw => hseg.outcome w (by simp [hw])
    rw [passed_fresh hbytes, List.tail_cons]
    constructor
    · intro h
      rcases eq_or_ne lines [] with hnil | hnil
      · exact Or.inl hnil
      · split_ifs at h with hjoin
        · have hfd : 0 < fd := by
            by_contra hfd
            exact hnil (h ▸ passed_other (by simp) fun hc => hfd hc.2)
          obtain ⟨hpre, hiff⟩ := passed_joined master hfd hdata
          obtain ⟨halign, hrest⟩ := hseg.aligned hlines hjoin.2 (h ▸ hpre)
          exact Or.inr ⟨hfd, halign, hiff.mp (h.trans hrest.symm)⟩
        · exact absurd h.symm hnil
    · rintro (rfl | ⟨hfd, halign, hgoes⟩)
      · split_ifs with hjoin
        · -- after the handshake no text is left
          obtain ⟨-, hrest⟩ := hseg.aligned hlines hjoin.2 List.nil_prefix
          rcases lt_or_ge 0 fd with hfd | hfd
          · rw [← List.prefix_nil, ← hrest]
            exact (passed_joined master hfd hdata).1
          · exact passed_other (by simp) fun hc => absurd hc.2 (not_lt.mpr hfd)
        · rfl
      · obtain ⟨hjoin, hrest⟩ := hseg.texts_eq hlines halign
        rw [if_pos ⟨by omega, hjoin⟩, (passed_joined master hfd hdata).2.mpr hgoes, hrest]

/-- CORRECT: in every run of the server that reads a new connection's stream of lines in some
    chunks, whatever the other connections do, the requests of the connection are exactly the lines
    if and only if there is no line, or each read is aligned with the lines (a line with its
    newline, or a line and then its newline alone), no request but the last stops anything, and the
    descriptor is not 0. -/
theorem requests_eq_lines_iff {s : Server} {i : ℕ} {fd : ℤ} (hi : i < s.table.len)
    (hnew : s.table.conns i = ⟨fd, .unkn, .handshake⟩) {lines chunks : List Str}
    (hlines : ∀ l ∈ lines, l ≠ [] ∧ CStr.newline ∉ l ∧ (0 : UInt8) ∉ l) {visits : List Visit}
    (hseg : Segments lines visits chunks) {ticks : List Tick} (hrun : Makes s i ticks visits) :
    requestsOf i (Mealy.outputs Server.step s ticks).flatten = lines ↔
      lines = [] ∨ (0 < fd ∧ Framing.Aligned CStr.newline (userJoin :: lines) chunks ∧
        GoesOn visits.tail) := by
  rw [hrun.requestsOf_eq hi, hnew]
  exact passed_eq_lines_iff hlines hseg

/-- A server that has accepted one connection. -/
def oneClient : Server := ((Server.start ⟨htInit, none⟩ true).step connectTick).1

/-- A turn in which a read of the connection returns some bytes. -/
def readTick (bytes : Str) : Tick :=
  { connectTick with serverReady := false, ready := fun _ => true, read := fun _ => .data bytes }

/-- A line and its newline in two reads are one request. -/
theorem requests_eq_lines_iff_set :
    requestsOf 0 (Mealy.outputs Server.step oneClient [readTick (str "USER_JOIN\n"),
      readTick (str "SET a 1"), readTick (str "\n")]).flatten = [str "SET a 1"] := by
  have hnew : oneClient.table.conns 0 = ⟨4, .unkn, .handshake⟩ := by decide +kernel
  have hseg : Segments [str "SET a 1"] (visitsOf 0 oneClient [readTick (str "USER_JOIN\n"),
      readTick (str "SET a 1"), readTick (str "\n")])
      [str "USER_JOIN\n", str "SET a 1", str "\n"] := ⟨by decide +kernel, by decide, by decide⟩
  refine (requests_eq_lines_iff (by decide) hnew (by decide) hseg
    ⟨[], (List.append_nil _).symm, Or.inl rfl⟩).mpr
    (Or.inr ⟨by decide, .whole (.split .nil), goesOn_of_length_le ?_⟩)
  decide +kernel

/-- A command in the same segment as the handshake, as `benchmark/2.go` may send it, is lost. -/
theorem segment_loses_request :
    ¬ ∀ (s : Server) (i : ℕ) (fd : ℤ) (lines chunks : List Str) (visits : List Visit)
      (ticks : List Tick), i < s.table.len → s.table.conns i = ⟨fd, .unkn, .handshake⟩ → 0 < fd →
      (∀ l ∈ lines, l ≠ [] ∧ CStr.newline ∉ l ∧ (0 : UInt8) ∉ l ∧ l.length < 511 ∧ ¬ Leaves l) →
      (∀ bytes ∈ chunks, bytes.length ≤ maxCmdLen - 1) → Segments lines visits chunks →
      Makes s i ticks visits →
      requestsOf i (Mealy.outputs Server.step s ticks).flatten = lines := by
  intro h
  have hleave : ¬ Leaves (str "SET a 1") := by
    rintro ⟨name, htok, -⟩
    have hset : tokenize (spell [str "SET", str "a", str "1"]) = _ :=
      tokenize_spell (by decide) (by decide)
    cases hset.symm.trans htok
  have hlost := h oneClient 0 4 [str "SET a 1"] [str "USER_JOIN\nSET a 1\n"] _
    [readTick (str "USER_JOIN\nSET a 1\n")] (by decide) (by decide +kernel) (by decide)
    (by simpa [hleave] using by decide) (by decide) ⟨by decide +kernel, by decide, by decide⟩
    ⟨[], (List.append_nil _).symm, Or.inl rfl⟩
  revert hlost
  decide +kernel

end SahDB
