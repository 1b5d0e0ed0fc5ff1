import SahDB.ConnBound
import SahDB.History

/-! No stale descriptors in the connection table.

    `NoStale` is about the states at the top of the loop: the live slots hold open
    descriptors, no two the same. An accept keeps it, and so does every slot that is served, since
    each close clears its slot; except that `master_init_handshake_with_repl` closes the descriptor
    of a slot that `run_as_server` then leaves as it is (`FailsHandshake`). -/

namespace SahDB

/-- Every live slot holds an open descriptor, and no two the same. -/
structure NoStale (s : Server) : Prop where
  isOpen : ∀ i, i < s.table.len → (s.table.conns i).fd ≠ -1 → (s.table.conns i).fd ∈ s.openFds
  distinct : ∀ i j, i < s.table.len → j < s.table.len → (s.table.conns i).fd ≠ -1 →
    (s.table.conns i).fd = (s.table.conns j).fd → i = j

/-- A replica joins from slot `c` and the send or the receive of its handshake fails. -/
def FailsHandshake (read : ReadOutcome) (repl : ReplOutcome) (c : Conn) : Prop :=
  c.connState = .handshake ∧ (∃ bytes, read = .data bytes ∧ upToNewline bytes = replJoin) ∧
    (repl = .sendFail ∨ repl = .recvFail)

/-- Some slot that `select` reports in the turn, a new one included, fails its handshake. -/
def Server.HandshakeFails (s : Server) (t : Tick) : Prop :=
  ∃ i, i < (s.before t 0).1.table.len ∧
    let c := (s.before t 0).1.table.conns i
    c.fd ≠ -1 ∧ s.isSet t c.fd = true ∧ FailsHandshake (t.read i) (t.repl i) c

/-- `accept` returns -1 or a descriptor that is not open. -/
def Server.KernelSound (s : Server) (t : Tick) : Prop :=
  s.Accepts t → t.accepted = -1 ∨ t.accepted ∉ s.openFds

/-! ### One slot -/

theorem serveUser_closes (v : Visit) (buf : Str) (c : Conn) :
    let d := serveUser v buf c
    d.closed = false ∧ d.conn.fd = c.fd ∨ d.closed = true ∧ d.conn.fd = -1 := by
  intro d
  simp only [d, serveUser]
  split_ifs
  · exact Or.inl ⟨rfl, rfl⟩
  · cases handleRequest v.env v.node buf with
    | error f => exact Or.inl ⟨rfl, rfl⟩
    | ok r =>
      obtain ⟨node, sends, res⟩ := r
      dsimp only
      split_ifs
      · exact Or.inr ⟨rfl, rfl⟩
      · exact Or.inl ⟨rfl, rfl⟩
      · exact Or.inl ⟨rfl, rfl⟩

/-- A slot is cleared exactly when its descriptor is closed, unless it fails its handshake. -/
theorem serveSlot_closes {v : Visit} {c : Conn} (h : ¬ FailsHandshake v.outcome v.repl c) :
    let d := serveSlot true v c
    d.closed = false ∧ d.conn.fd = c.fd ∨ d.closed = true ∧ d.conn.fd = -1 := by
  intro d
  simp only [d]
  rw [serveSlot]
  cases hread : v.outcome with
  | eof => exact Or.inr ⟨rfl, rfl⟩
  | error => exact Or.inr ⟨rfl, rfl⟩
  | data bytes =>
    dsimp only [socketReadData]
    rw [if_neg (by decide)]
    split_ifs with hstate
    · rw [serveHandshake]
      by_cases hjoin : upToNewline bytes = userJoin
      · rw [if_pos hjoin]
        exact Or.inl ⟨rfl, rfl⟩
      · rw [if_neg hjoin]
        split_ifs with hrepl
        · cases hout : v.repl with
          | nomem => exact Or.inl ⟨rfl, rfl⟩
          | ok => exact Or.inl ⟨rfl, rfl⟩
          | sendFail => exact absurd ⟨hstate, ⟨bytes, hread, hrepl⟩, Or.inl hout⟩ h
          | recvFail => exact absurd ⟨hstate, ⟨bytes, hread, hrepl⟩, Or.inr hout⟩ h
        · exact Or.inr ⟨rfl, rfl⟩
    · exact serveUser_closes v _ c
    · exact Or.inl ⟨rfl, rfl⟩

/-- The slot that fails its handshake keeps the descriptor that was closed. -/
theorem serveSlot_fails {v : Visit} {c : Conn} (h : FailsHandshake v.outcome v.repl c) :
    let d := serveSlot true v c
    d.closed = true ∧ d.conn.fd = c.fd ∧ d.flow = .next := by
  obtain ⟨hstate, ⟨bytes, hread, hrepl⟩, hout⟩ := h
  intro d
  simp only [d]
  rw [serveSlot, hread]
  dsimp only [socketReadData]
  rw [if_neg (by decide), if_pos hstate, serveHandshake, hrepl, if_neg (by decide), if_pos rfl]
  rcases hout with hout | hout <;> rw [hout] <;> exact ⟨rfl, rfl, rfl⟩

/-! ### The table and the open descriptors -/

namespace NoStale
variable {s s' : Server} {i : ℕ} {c : Conn}

/-- A slot that keeps its descriptor. -/
theorem keep (hs : NoStale s) (ht : s'.table = s.table.set i c) (ho : s'.openFds = s.openFds)
    (hc : c.fd = (s.table.conns i).fd) : NoStale s' := by
  have hlen : s'.table.len = s.table.len := by rw [ht]; rfl
  have hfd : ∀ j, (s'.table.conns j).fd = (s.table.conns j).fd := by
    intro j
    rw [ht]
    rcases eq_or_ne j i with rfl | hj
    · rw [ConnTable.set_self, hc]
    · rw [ConnTable.set_of_ne _ _ hj]
  refine ⟨fun j hj => ?_, fun j k hj hk => ?_⟩
  · rw [hfd j, ho]
    exact hs.isOpen j (hlen ▸ hj)
  · rw [hfd j, hfd k]
    exact hs.distinct j k (hlen ▸ hj) (hlen ▸ hk)

/-- A slot that is cleared with its descriptor closed: no other slot holds it. -/
theorem close (hs : NoStale s) (hi : i < s.table.len) (ht : s'.table = s.table.set i c)
    (ho : s'.openFds = s.openFds.erase (s.table.conns i).fd) (hc : c.fd = -1) : NoStale s' := by
  have hlen : s'.table.len = s.table.len := by rw [ht]; rfl
  have hself : (s'.table.conns i).fd = -1 := by rw [ht, ConnTable.set_self, hc]
  have hother : ∀ j, j ≠ i → (s'.table.conns j).fd = (s.table.conns j).fd := by
    intro j hj
    rw [ht, ConnTable.set_of_ne _ _ hj]
  refine ⟨fun j hj hlive => ?_, fun j k hj hk hlive heq => ?_⟩
  · have hji : j ≠ i := fun hc => hlive (hc ▸ hself)
    rw [hother j hji] at hlive ⊢
    rw [hlen] at hj
    rw [ho, Finset.mem_erase]
    exact ⟨fun hc => hji (hs.distinct j i hj hi hlive hc), hs.isOpen j hj hlive⟩
  · have hji : j ≠ i := fun hc => hlive (hc ▸ hself)
    have hki : k ≠ i := fun hc => hlive (heq.trans (hc ▸ hself))
    rw [hother j hji] at hlive heq
    rw [hother k hki] at heq
    exact hs.distinct j k (hlen ▸ hj) (hlen ▸ hk) hlive heq

/-- A new descriptor is in no slot yet. -/
theorem accept (hs : NoStale s) {fd : ℤ} (hfd : fd = -1 ∨ fd ∉ s.openFds) :
    NoStale (s.accept fd).1 := by
  have hnew : ((s.accept fd).1.table.conns s.table.len).fd = fd := by
    change ((s.table.set s.table.len ⟨fd, .unkn, .handshake⟩).conns s.table.len).fd = fd
    rw [ConnTable.set_self]
  have hold : ∀ j, j < s.table.len + 1 → j ≠ s.table.len →
      j < s.table.len ∧ (s.accept fd).1.table.conns j = s.table.conns j :=
    fun j hj hne => ⟨by omega, ConnTable.set_of_ne _ _ hne⟩
  have hopen : ∀ x ∈ s.openFds, x ∈ (s.accept fd).1.openFds := by
    intro x hx
    simp only [Server.accept]
    split_ifs
    · exact hx
    · exact Finset.mem_insert_of_mem hx
  have hfresh : ∀ j, j < s.table.len → (s.table.conns j).fd ≠ -1 → (s.table.conns j).fd ≠ fd := by
    rintro j hj hlive rfl
    exact hfd.elim hlive fun hc => hc (hs.isOpen j hj hlive)
  refine ⟨fun j hj hlive => ?_, fun j k hj hk hlive heq => ?_⟩
  · rcases eq_or_ne j s.table.len with rfl | hne
    · rw [hnew] at hlive ⊢
      simp only [Server.accept, if_neg hlive]
      exact Finset.mem_insert_self _ _
    · obtain ⟨hlt, hconn⟩ := hold j hj hne
      rw [hconn] at hlive ⊢
      exact hopen _ (hs.isOpen j hlt hlive)
  · rcases eq_or_ne j s.table.len with rfl | hjn
    · rcases eq_or_ne k s.table.len with rfl | hkn
      · rfl
      · obtain ⟨hlt, hconn⟩ := hold k hk hkn
        rw [hnew] at hlive
        rw [hnew, hconn] at heq
        exact absurd heq.symm (hfresh k hlt (heq ▸ hlive))
    · obtain ⟨hlt, hconn⟩ := hold j hj hjn
      rw [hconn] at hlive heq
      rcases eq_or_ne k s.table.len with rfl | hkn
      · rw [hnew] at heq
        exact absurd heq (hfresh j hlt hlive)
      · obtain ⟨hlt', hconn'⟩ := hold k hk hkn
        rw [hconn'] at heq
        exact hs.distinct j k hlt hlt' hlive heq

end NoStale

/-! ### One turn -/

section Turn
variable {t : Tick} {isSet : ℤ → Bool} {st : Server × List Event} {i : ℕ}

/-- Serving a slot keeps the table sound, unless the slot fails its handshake. -/
theorem visit_noStale (hm : st.1.master = true) (hs : NoStale st.1) (hi : i < st.1.table.len)
    (h : (st.1.table.conns i).fd ≠ -1 → isSet (st.1.table.conns i).fd = true →
      ¬ FailsHandshake (t.read i) (t.repl i) (st.1.table.conns i)) :
    NoStale (Server.visit t isSet st i).1 := by
  by_cases hskip : st.1.flow ≠ .next ∨ (st.1.table.conns i).fd = -1 ∨
      isSet (st.1.table.conns i).fd = false
  · rw [visit_skip hskip]
    exact hs
  · rw [visit_serve hskip, hm]
    rw [not_or, not_or, Bool.not_eq_false] at hskip
    rcases serveSlot_closes (v := ⟨t.read i, t.env i, t.repl i, st.1.node⟩)
      (h hskip.2.1 hskip.2.2) with ⟨hclosed, hsame⟩ | ⟨hclosed, hclear⟩
    · exact hs.keep rfl (by rw [hclosed]; rfl) hsame
    · exact hs.close hi rfl (by rw [hclosed]; rfl) hclear

/-- Slot `i` holds a descriptor that is not open. -/
def Stale (i : ℕ) (s : Server) : Prop :=
  (s.table.conns i).fd ≠ -1 ∧ (s.table.conns i).fd ∉ s.openFds

/-- A slot that fails its handshake is left with the descriptor that was closed. -/
theorem visit_fails (hm : st.1.master = true) (hflow : st.1.flow = .next)
    (hfd : (st.1.table.conns i).fd ≠ -1) (hset : isSet (st.1.table.conns i).fd = true)
    (h : FailsHandshake (t.read i) (t.repl i) (st.1.table.conns i)) :
    Stale i (Server.visit t isSet st i).1 := by
  obtain ⟨hclosed, hsame, -⟩ :=
    serveSlot_fails (v := ⟨t.read i, t.env i, t.repl i, st.1.node⟩) h
  rw [visit_serve (by simp [hflow, hfd, hset]), hm, Stale]
  dsimp only
  rw [ConnTable.set_self, hsame, hclosed, if_pos rfl]
  exact ⟨hfd, Finset.notMem_erase _ _⟩

/-- It stays so while other slots are served. -/
theorem visit_stale {j : ℕ} (hj : j ≠ i) (h : Stale i st.1) :
    Stale i (Server.visit t isSet st j).1 := by
  have hfds : (Server.visit t isSet st j).1.openFds ⊆ st.1.openFds := by
    by_cases hskip : st.1.flow ≠ .next ∨ (st.1.table.conns j).fd = -1 ∨
        isSet (st.1.table.conns j).fd = false
    · rw [visit_skip hskip]
    · rw [visit_serve hskip]
      dsimp only
      split_ifs
      · exact Finset.erase_subset _ _
      · exact Finset.Subset.refl _
  rw [Stale, (visit_untouched hj).conn]
  exact ⟨h.1, fun hc => h.2 (hfds hc)⟩

end Turn

section Step
variable {s : Server} {t : Tick}

/-- A slot the turn has not come to is as it was after the accept. -/
theorem before_conn {i n : ℕ} (h : n ≤ i) :
    (s.before t n).1.table.conns i = (s.before t 0).1.table.conns i := by
  induction n with
  | zero => rfl
  | succ n ih =>
    rw [before_succ, (visit_untouched (show n ≠ i by omega)).conn]
    exact ih (Nat.le_of_succ_le h)

/-- What a slot of the turn has stopped stays stopped. -/
theorem before_flow {n m : ℕ} (h : n ≤ m) (hm : (s.before t m).1.flow = .next) :
    (s.before t n).1.flow = .next := by
  induction m, h using Nat.le_induction with
  | base => exact hm
  | succ m _ ih =>
    refine ih (of_not_not fun hc => ?_)
    rw [before_succ, visit_skip (Or.inl hc)] at hm
    exact hc hm

theorem before_zero_noStale (hs : NoStale s) (hk : s.KernelSound t) (hflow : s.flow = .next)
    (hselect : t.selectOk = true) : NoStale (s.before t 0).1 := by
  change NoStale (if t.serverReady then s.accept t.accepted else (s, [])).1
  split_ifs with hready
  · exact hs.accept (hk ⟨hflow, hselect, hready⟩)
  · exact hs

/-- A turn in which no slot fails its handshake. -/
theorem step_noStale (hm : s.master = true) (hs : NoStale s) (hk : s.KernelSound t)
    (h : ¬ s.HandshakeFails t) : NoStale (s.step t).1 := by
  by_cases hflow : s.flow = .next
  · cases hselect : t.selectOk with
    | false =>
      rw [step_selectFail hflow hselect]
      exact ⟨hs.isOpen, hs.distinct⟩
    | true =>
      have hstep : s.step t = s.before t (s.before t 0).1.table.len := step_serve hflow hselect
      have hall : ∀ n, n ≤ (s.before t 0).1.table.len → NoStale (s.before t n).1 := by
        intro n hn
        induction n with
        | zero => exact before_zero_noStale hs hk hflow hselect
        | succ n ih =>
          obtain ⟨hlen, -⟩ := before_const s t n
          rw [before_succ]
          refine visit_noStale ((before_master s t n).trans hm)
            (ih (Nat.le_of_succ_le hn)) (by omega) fun hfd hset hfail => ?_
          rw [before_conn le_rfl] at hfd hset hfail
          exact h ⟨n, hn, hfd, hset, hfail⟩
      rw [hstep]
      exact hall _ le_rfl
  · rw [step_stopped hflow]
    exact hs

/-- A turn in which a slot fails its handshake, and nothing stops the server. -/
theorem step_stale (hm : s.master = true) (h : s.HandshakeFails t)
    (hnext : (s.step t).1.flow = .next) : ¬ NoStale (s.step t).1 := by
  obtain ⟨i, hi, hfd, hset, hfail⟩ := h
  have hflow : s.flow = .next := of_not_not fun hc => by
    rw [step_stopped hc] at hnext
    exact hc hnext
  have hselect : t.selectOk = true := by
    by_contra hc
    rw [step_selectFail hflow (by simpa using hc)] at hnext
    cases hnext
  have hstep : s.step t = s.before t (s.before t 0).1.table.len := step_serve hflow hselect
  rw [hstep] at hnext ⊢
  have hall : ∀ n, i + 1 ≤ n → n ≤ (s.before t 0).1.table.len → Stale i (s.before t n).1 := by
    intro n hn
    induction n, hn using Nat.le_induction with
    | base =>
      intro hle
      rw [before_succ]
      refine visit_fails ((before_master s t i).trans hm)
        (before_flow (by omega) hnext) ?_ ?_ ?_ <;> rw [before_conn le_rfl]
      · exact hfd
      · exact hset
      · exact hfail
    | succ n hn ih =>
      intro hle
      rw [before_succ]
      exact visit_stale (by omega) (ih (by omega))
  intro hs
  have hstale := hall _ hi le_rfl
  refine hstale.2 (hs.isOpen i ?_ hstale.1)
  rw [(before_const s t _).1]
  exact hi

end Step

/-! ### A run -/

/-- If the loop still runs in the end, no turn has stopped it. -/
theorem never_stopped {s : Server} {ticks : List Tick}
    (h : (Mealy.exec Server.step s ticks).flow = .next) :
    Mealy.Never Server.step (fun s t => (Server.step s t).1.flow ≠ .next) s ticks := by
  induction ticks generalizing s with
  | nil =>
    intro pre t hp
    simp at hp
  | cons t ticks ih =>
    refine Mealy.never_cons.mpr ⟨fun hc => ?_, ih h⟩
    have hstays : ∀ (s : Server) (t : Tick), s.flow ≠ .next → (s.step t).1.flow ≠ .next := by
      intro s t hs
      rw [step_stopped hs]
      exact hs
    exact Mealy.exec_invariant (I := fun s : Server => s.flow ≠ .next) hstays hc ticks h

/-- CORRECT: on a node with a master, in every run to the top of some turn in which `accept` returns
    -1 or a descriptor that is not open, at the top of every turn each live slot holds an open
    descriptor and no two the same, exactly when in no turn a slot that joins as a replica fails
    in the send or the receive of its handshake. -/
theorem no_stale_descriptors_iff (node : Node) (ticks : List Tick)
    (hk : Mealy.Never Server.step (fun s t => ¬ s.KernelSound t) (Server.start node true) ticks)
    (hnext : (Mealy.exec Server.step (Server.start node true) ticks).flow = .next) :
    Mealy.Always Server.step NoStale (Server.start node true) ticks ↔
      Mealy.Never Server.step Server.HandshakeFails (Server.start node true) ticks := by
  have hstart : NoStale (Server.start node true) := by
    constructor <;> intro i <;> simp [Server.start, initConnTable]
  have hstep := never_stopped hnext
  refine Mealy.always_iff_never_within (I := fun s => NoStale s ∧ s.master = true)
    (A := fun s t => s.KernelSound t ∧ (s.step t).1.flow = .next) (fun s hs => hs.1)
    (fun s t hs hok hgood => ⟨step_noStale hs.2 hs.1 hok.1 hgood, (step_master s t).trans hs.2⟩)
    (fun s t hs hok hbad => step_stale hs.2 hbad hok.2) ⟨hstart, rfl⟩ fun pre t hp hno => ?_
  exact hno ⟨not_not.mp (hk pre t hp), not_not.mp (hstep pre t hp)⟩

/-- A turn in which the client of slot 0 asks to join as a replica and `send` fails. -/
def replJoinTick : Tick where
  selectOk := true
  serverReady := false
  ready := fun _ => true
  accepted := -1
  read := fun _ => .data (replJoin ++ str "\n")
  repl := fun _ => .sendFail
  env := fun _ => ⟨0, 0, 0, true, true, true, true, fun _ => true⟩

/-- A client connects, joins as a replica and leaves, and the next one gets its descriptor. -/
def reuseTicks : List Tick :=
  [connectTick, { replJoinTick with repl := fun _ => .ok },
    { replJoinTick with read := fun _ => .eof, repl := fun _ => .ok }, connectTick]

theorem no_stale_descriptors_iff_reuse :
    Mealy.Always Server.step NoStale (Server.start ⟨htInit, none⟩ true) reuseTicks := by
  have hsound : Mealy.Never Server.step (fun s t => ¬ s.KernelSound t)
      (Server.start ⟨htInit, none⟩ true) reuseTicks := by
    simp only [reuseTicks, Mealy.never_cons, not_not]
    refine ⟨fun _ => Or.inr (by decide +kernel), fun h => ?_, fun h => ?_,
      fun _ => Or.inr (by decide +kernel), Mealy.never_nil⟩
    · simp [Server.Accepts, replJoinTick] at h
    · simp [Server.Accepts, replJoinTick] at h
  have hthrough : Mealy.Never Server.step Server.HandshakeFails
      (Server.start ⟨htInit, none⟩ true) reuseTicks := by
    rintro pre t hpre ⟨i, -, -, -, -, -, hfail⟩
    have hok : ∀ t ∈ reuseTicks, t.repl = fun _ => .ok := by
      simp [reuseTicks, connectTick]
    rw [hok t (hpre.subset (by simp))] at hfail
    simp at hfail
  exact (no_stale_descriptors_iff _ reuseTicks hsound (by decide +kernel)).mpr hthrough

/-- After a replica's failed handshake its slot holds the descriptor that was closed. -/
theorem stale_after_failed_handshake :
    ¬ ∀ (node : Node) (ticks : List Tick),
      Mealy.Never Server.step (fun s t => ¬ s.KernelSound t) (Server.start node true) ticks →
      (Mealy.exec Server.step (Server.start node true) ticks).flow = .next →
      Mealy.Always Server.step NoStale (Server.start node true) ticks := by
  intro h
  have hend := h ⟨htInit, none⟩ [connectTick, replJoinTick] ?_ (by decide +kernel) _
    (List.prefix_refl _)
  · have hopen := hend.isOpen 0 (by decide +kernel) (by decide +kernel)
    revert hopen
    decide +kernel
  · refine Mealy.never_cons.mpr ⟨?_, Mealy.never_cons.mpr ⟨?_, fun pre t hp => ?_⟩⟩
    · simp [Server.KernelSound, Server.start]
    · simp [Server.KernelSound, Server.Accepts, replJoinTick]
    · simp at hp

end SahDB
