import SahDB.History

/-! Only joined users run commands.

    `Joined i h` reads off the history `h` that the connection in slot `i` has sent `USER_JOIN` in
    its handshake and has not been closed since. Every live slot of type `CONN_USER` is joined
    (`SlotsSound`), by induction on the history; and `handle_request` is reached for such slots
    only. -/

namespace SahDB

/-- The connection in slot `i` has joined as a user and is the same one since. -/
def Joined (i : ℕ) (h : List Moment) : Prop :=
  ∃ a m b, h = a ++ m :: b ∧ m.slot = i ∧ m.before.connState = .handshake ∧
    (∃ bytes, m.read = some (.data bytes) ∧ upToNewline bytes = userJoin) ∧
    ∀ x ∈ b, x.slot = i → x.read ≠ none ∧ x.closed = false

/-- What being served may do to a slot: nothing, the two ways out of the handshake, the close. -/
def Moment.Moves (m : Moment) : Prop :=
  m.after = m.before ∨ m.after = { m.before with fd := -1 } ∨
  (m.before.connType = .unkn ∧ m.before.connState = .handshake ∧
    (m.after = ⟨m.before.fd, .user, .active⟩ ∨ m.after = ⟨m.before.fd, .repl, .active⟩))

theorem Joined.keep {i : ℕ} {h : List Moment} (hj : Joined i h) {m : Moment}
    (hm : m.slot = i → m.read ≠ none ∧ m.closed = false) : Joined i (h ++ [m]) := by
  obtain ⟨a, j, b, rfl, hslot, hstate, hread, hrest⟩ := hj
  refine ⟨a, j, b ++ [m], by simp, hslot, hstate, hread, fun x hx => ?_⟩
  rcases List.mem_append.mp hx with hx | hx
  · exact hrest x hx
  · rw [List.mem_singleton.mp hx]
    exact hm

/-! ### What the loop body does to a slot -/

/-- The ways out of the loop body: a request is passed on only for a user out of its handshake, and
    the slot is closed, joins as a user, joins as a replica or stays as it is. -/
structure Does (v : Visit) (c : Conn) (d : SlotDone) : Prop where
  request : d.request ≠ none → c.connType = .user ∧ c.connState ≠ .handshake
  conn : d.conn = { c with fd := -1 } ∨
    (c.connState = .handshake ∧ d.conn = ⟨c.fd, .user, .active⟩ ∧
      ∃ bytes, v.outcome = .data bytes ∧ upToNewline bytes = userJoin) ∨
    (c.connState = .handshake ∧ d.conn = ⟨c.fd, .repl, .active⟩) ∨
    (d.conn = c ∧ d.closed = false)

theorem serveHandshake_does (master : Bool) {v : Visit} {c : Conn}
    (hstate : c.connState = .handshake)
    {bytes : Str} (hread : v.outcome = .data bytes) :
    Does v c (serveHandshake master v (upToNewline bytes) c) := by
  rw [serveHandshake]
  by_cases hjoin : upToNewline bytes = userJoin
  · rw [if_pos hjoin]
    exact ⟨fun h => absurd rfl h, Or.inr (Or.inl ⟨hstate, rfl, bytes, hread, hjoin⟩)⟩
  · rw [if_neg hjoin]
    split
    · cases masterInitHandshakeWithRepl master v.repl with
      | ok closed => exact ⟨fun h => absurd rfl h, Or.inr (Or.inr (Or.inl ⟨hstate, rfl⟩))⟩
      | error f => exact ⟨fun h => absurd rfl h, Or.inr (Or.inr (Or.inl ⟨hstate, rfl⟩))⟩
    · exact ⟨fun h => absurd rfl h, Or.inl rfl⟩

theorem serveUser_does {v : Visit} {c : Conn} (htype : c.connType = .user)
    (hstate : c.connState ≠ .handshake) (buf : Str) : Does v c (serveUser v buf c) := by
  refine ⟨fun _ => ⟨htype, hstate⟩, ?_⟩
  rw [serveUser]
  split_ifs
  · exact Or.inr (Or.inr (Or.inr ⟨rfl, rfl⟩))
  · cases handleRequest v.env v.node buf with
    | error f => exact Or.inr (Or.inr (Or.inr ⟨rfl, rfl⟩))
    | ok r =>
      obtain ⟨node, sends, res⟩ := r
      dsimp only
      split_ifs
      · exact Or.inl rfl
      · exact Or.inr (Or.inr (Or.inr ⟨rfl, rfl⟩))
      · exact Or.inr (Or.inr (Or.inr ⟨rfl, rfl⟩))

theorem serveSlot_does (master : Bool) (v : Visit) (c : Conn) :
    Does v c (serveSlot master v c) := by
  rw [serveSlot]
  cases hread : v.outcome with
  | eof => exact ⟨fun h => absurd rfl h, Or.inl rfl⟩
  | error => exact ⟨fun h => absurd rfl h, Or.inl rfl⟩
  | data bytes =>
    dsimp only [socketReadData]
    rw [if_neg (by decide)]
    split_ifs with hstate huser
    · exact serveHandshake_does master hstate hread
    · exact serveUser_does huser.1 hstate _
    · exact ⟨fun h => absurd rfl h, Or.inr (Or.inr (Or.inr ⟨rfl, rfl⟩))⟩

/-! ### The invariant of the histories -/

/-- What the history says of the slots in use. -/
structure SlotsSound (h : List Moment) (t : ConnTable) : Prop where
  slots : ∀ m ∈ h, m.slot < t.len
  handshake : ∀ i, i < t.len → (t.conns i).connState = .handshake → (t.conns i).connType = .unkn
  joined : ∀ i, i < t.len → (t.conns i).fd ≠ -1 → (t.conns i).connType = .user → Joined i h

namespace SlotsSound
variable {h : List Moment} {t : ConnTable}

theorem accept (hs : SlotsSound h t) (fd : ℤ) : SlotsSound (h ++ [.accepted t fd])
    { t.set t.len ⟨fd, .unkn, .handshake⟩ with len := t.len + 1 } := by
  have hnew : (t.set t.len ⟨fd, .unkn, .handshake⟩).conns t.len = ⟨fd, .unkn, .handshake⟩ :=
    Function.update_self ..
  have hold : ∀ i, i < t.len + 1 → i ≠ t.len →
      i < t.len ∧ (t.set t.len ⟨fd, .unkn, .handshake⟩).conns i = t.conns i :=
    fun i hi hne => ⟨by omega, Function.update_of_ne hne _ _⟩
  refine ⟨fun m hm => ?_, fun i hi hstate => ?_, fun i hi hfd htype => ?_⟩
  · rcases List.mem_append.mp hm with hm | hm
    · exact Nat.lt_succ_of_lt (hs.slots m hm)
    · rw [List.mem_singleton.mp hm]
      exact Nat.lt_succ_self _
  · rcases eq_or_ne i t.len with rfl | hne
    · rw [hnew]
    · obtain ⟨hlt, heq⟩ := hold i hi hne
      simp only [heq] at hstate ⊢
      exact hs.handshake i hlt hstate
  · rcases eq_or_ne i t.len with rfl | hne
    · rw [hnew] at htype
      cases htype
    · obtain ⟨hlt, heq⟩ := hold i hi hne
      simp only [heq] at hfd htype
      exact (hs.joined i hlt hfd htype).keep fun hc => absurd hc.symm hne

theorem serve (hs : SlotsSound h t) {i : ℕ} (hi : i < t.len) (hfd : (t.conns i).fd ≠ -1)
    (master : Bool) (v : Visit) : SlotsSound (h ++ [.served master i v (t.conns i)])
      (t.set i (serveSlot master v (t.conns i)).conn) := by
  have hcases := (serveSlot_does master v (t.conns i)).conn
  have hself : (t.set i (serveSlot master v (t.conns i)).conn).conns i =
      (serveSlot master v (t.conns i)).conn := Function.update_self ..
  have hother : ∀ j, j ≠ i →
      (t.set i (serveSlot master v (t.conns i)).conn).conns j = t.conns j :=
    fun j hne => Function.update_of_ne hne _ _
  refine ⟨fun m hm => ?_, fun j hj hstate => ?_, fun j hj hlive htype => ?_⟩
  · rcases List.mem_append.mp hm with hm | hm
    · exact hs.slots m hm
    · rw [List.mem_singleton.mp hm]
      exact hi
  · rcases eq_or_ne j i with rfl | hne
    · rw [hself] at hstate ⊢
      rcases hcases with heq | ⟨-, heq, -⟩ | ⟨-, heq⟩ | ⟨heq, -⟩ <;> rw [heq] at hstate ⊢
      · exact hs.handshake j hj hstate
      · cases hstate
      · cases hstate
      · exact hs.handshake j hj hstate
    · rw [hother j hne] at hstate ⊢
      exact hs.handshake j hj hstate
  · rcases eq_or_ne j i with rfl | hne
    · rw [hself] at hlive htype
      rcases hcases with heq | ⟨hhand, -, bytes, hread, hjoin⟩ | ⟨-, heq⟩ | ⟨heq, hopen⟩
      · rw [heq] at hlive
        exact absurd rfl hlive
      · -- this very read is the join
        refine ⟨h, _, [], rfl, rfl, hhand, ⟨bytes, congrArg some hread, hjoin⟩, ?_⟩
        simp
      · rw [heq] at htype
        cases htype
      · rw [heq] at htype
        refine (hs.joined j hj hfd htype).keep fun _ => ⟨Option.some_ne_none _, hopen⟩
    · rw [hother j hne] at hlive htype
      exact (hs.joined j hj hlive htype).keep fun hc => absurd hc.symm hne

end SlotsSound

theorem Follows.sound {master : Bool} {h : List Moment} {t : ConnTable} (hh : Follows master h t) :
    SlotsSound h t := by
  induction hh with
  | start => exact ⟨by simp, by simp [initConnTable], by simp [initConnTable]⟩
  | accept fd _ ih => exact ih.accept fd
  | serve v _ hi hfd ih => exact ih.serve hi hfd _ v

/-- What holds of a moment, given the history before it. -/
structure Moment.Lawful (before : List Moment) (m : Moment) : Prop where
  request : m.request ≠ none → m.before.connType = .user ∧ Joined m.slot before
  served : m.read ≠ none → m.before.fd ≠ -1 ∧ m.Moves
  stored : m.read = none → (∀ x ∈ before, x.slot ≠ m.slot) ∧ m.after.connType = .unkn ∧
    m.after.connState = .handshake

theorem Follows.lawful {master : Bool} {h : List Moment} {t : ConnTable} (hh : Follows master h t)
    {a : List Moment} {m : Moment} (hm : a ++ [m] <+: h) : m.Lawful a := by
  induction hh with
  | start => simp at hm
  | @accept h t fd hh ih =>
    rcases List.prefix_concat_iff.mp hm with heq | hpre
    · obtain ⟨rfl, hsame⟩ := List.append_inj' heq rfl
      obtain rfl := List.singleton_inj.mp hsame
      exact ⟨fun hreq => absurd rfl hreq, fun hread => absurd rfl hread,
        fun _ => ⟨fun x hx => ne_of_lt (hh.sound.slots x hx), rfl, rfl⟩⟩
    · exact ih hpre
  | @serve h t i v hh hi hfd ih =>
    rcases List.prefix_concat_iff.mp hm with heq | hpre
    · obtain ⟨rfl, hsame⟩ := List.append_inj' heq rfl
      obtain rfl := List.singleton_inj.mp hsame
      obtain ⟨hreq, hcases⟩ := serveSlot_does master v (t.conns i)
      refine ⟨fun h => ?_, fun _ => ⟨hfd, ?_⟩, fun hread => absurd hread (Option.some_ne_none _)⟩
      · exact ⟨(hreq h).1, hh.sound.joined i hi hfd (hreq h).1⟩
      · rcases hcases with heq | ⟨hstate, heq, -⟩ | ⟨hstate, heq⟩ | ⟨heq, -⟩
        · exact Or.inr (Or.inl heq)
        · exact Or.inr (Or.inr ⟨hh.sound.handshake i hi hstate, hstate, Or.inl heq⟩)
        · exact Or.inr (Or.inr ⟨hh.sound.handshake i hi hstate, hstate, Or.inr heq⟩)
        · exact Or.inl heq
    · exact ih hpre

/-! ### Closed slots -/

/-- A closed slot stays closed. -/
theorem step_closed {s : Server} {i : ℕ} (hi : i < s.table.len)
    (hfd : (s.table.conns i).fd = -1) (t : Tick) :
    i < (s.step t).1.table.len ∧ ((s.step t).1.table.conns i).fd = -1 := by
  cases hvisit : s.visitOf t i with
  | none =>
    obtain ⟨hconn, -, -, hlen⟩ := step_of_visitOf_none hi hvisit
    rw [hconn]
    exact ⟨hi.trans_le hlen, hfd⟩
  | some v => exact absurd hfd (step_of_visitOf_some hi hvisit).1

/-- CORRECT: in every run, for any outcomes of the accepts, reads, handshakes and commands of all
    clients, the history shows every event of the run; a request is passed on only for a slot of
    type `CONN_USER` whose connection, earlier, in `STATE_HANDSHAKE`, sent `USER_JOIN` and was
    not closed since; a slot that is served is not closed and only moves as `Moves` allows; a
    connection is stored in a slot never used before, as `(CONN_UNKN, STATE_HANDSHAKE)`; a closed
    slot stays closed; and an event on one slot leaves every other slot as it is. -/
theorem only_joined_users_run_commands (node : Node) (master : Bool) (ticks : List Tick) :
    let s := Server.start node master
    let h := history s ticks
    (Mealy.outputs Server.step s ticks).flatten = h.flatMap Moment.events ∧
    (∀ a m, a ++ [m] <+: h → m.request ≠ none →
      m.before.connType = .user ∧ Joined m.slot a) ∧
    (∀ m ∈ h, m.read ≠ none → m.before.fd ≠ -1 ∧ m.Moves) ∧
    (∀ a m, a ++ [m] <+: h → m.read = none → (∀ x ∈ a, x.slot ≠ m.slot) ∧
      m.after.connType = .unkn ∧ m.after.connState = .handshake) ∧
    (∀ (s' : Server) (more : List Tick) (i : ℕ), i < s'.table.len → (s'.table.conns i).fd = -1 →
      ((Mealy.exec Server.step s' more).table.conns i).fd = -1) ∧
    (∀ st t isSet i j, j ≠ i →
      (Server.visit t isSet st i).1.table.conns j = st.1.table.conns j) ∧
    (∀ (s' : Server) fd j, j ≠ s'.table.len →
      (s'.accept fd).1.table.conns j = s'.table.conns j) := by
  intro s h
  have hh : Follows master h (Mealy.exec Server.step s ticks).table :=
    run_history (s := s) .start ticks
  refine ⟨outputs_history (s := s) .start ticks, fun a m hm => (hh.lawful hm).request,
    fun m hm => ?_, fun a m hm => (hh.lawful hm).stored, fun s' more i hi hfd => ?_,
    fun st t isSet i j hj => (visit_untouched hj.symm).conn, fun s' fd j hj => ?_⟩
  · obtain ⟨a, b, hab⟩ := List.append_of_mem hm
    exact (hh.lawful (a := a) ⟨b, by rw [hab]; simp⟩).served
  · have hstep : ∀ s t, (i < s.table.len ∧ (s.table.conns i).fd = -1) →
        (i < (Server.step s t).1.table.len ∧ ((Server.step s t).1.table.conns i).fd = -1) :=
      fun s t hc => step_closed hc.1 hc.2 t
    exact (Mealy.exec_invariant hstep ⟨hi, hfd⟩ more).2
  · exact Function.update_of_ne hj _ _

end SahDB
