import SahDB.Faults

/-! The server as one flat map.

    `Flat.serve` is what a request means: a query works on the map, and any other request answers
    what its words say, whatever is stored (`fixedAnswer`). The program follows it on every request
    that does not fault (`serve_follows`), so in every run that does not crash each user gets the
    prompt and the answers of one flat map to which the requests come one after another
    (`server_refines_flat_map`). -/

namespace SahDB

/-! ### Requests that are no query -/

/-- What a request with these words answers if it is no query. -/
def fixedAnswer (env : ReqEnv) : List Str → CmdCtx
  | [] => .fresh
  | name :: args =>
    match findCommand name with
    | none => ⟨str "ERR", dbErrCmdNotexist⟩
    | some .help => if args = [] then ⟨helpText, dbErrHelp⟩ else .fresh
    | some .set => ⟨red ++ str "ERR" ++ reset, dbErrInvalidArgs⟩
    | some .get =>
      if args = [] then
        ⟨red ++ str "Incorrect number of args passed, run HELP GET" ++ reset, dbErrInvalidArgs⟩
      else .fresh
    | some .exists_ =>
      ⟨red ++ str "Incorrect number of args passed, run HELP EXISTS" ++ reset, dbErrInvalidArgs⟩
    | some .delete | some .expire => ⟨str "ERR", dbErrInvalidArgs⟩
    | some .save =>
      ⟨str "OK", if args ≠ [] then dbErrInvalidArgs
        else if env.fopenOk then dbErrOk else dbErrFileInaccessible⟩
    | some .exit =>
      if args = [] then ⟨red ++ bold ++ str "Bye..." ++ reset, dbErrExit⟩
      else ⟨red ++ str "ERR" ++ reset, dbErrInvalidArgs⟩
    | some .shutdown =>
      if args = [] then ⟨red ++ bold ++ str "Goodbye..." ++ reset, dbErrShutdown⟩
      else ⟨red ++ str "ERR" ++ reset, dbErrInvalidArgs⟩

section Fixed
variable {env : ReqEnv} {n : Node} {req : Str} {d : Done}

theorem helpText_ne_nil : helpText ≠ [] := by
  decide +kernel

/-- A handler with other arguments than a query answers the same in every store. -/
theorem Returns.fixed {name : Str} {args : List Str} {cmd : Command}
    (h : Returns env n .fresh cmd args d) (hcmd : findCommand name = some cmd)
    (hnone : Query.ofTokens (name :: args) = none) : d.ctx = fixedAnswer env (name :: args) := by
  rw [fixedAnswer, hcmd]
  cases h with
  | refused hargs =>
    have hempty : ∀ {cmd : Command}, cmd.Refuses args.length → ¬ cmd.Refuses 0 → args ≠ [] := by
      rintro cmd hrefuses hnot rfl
      exact hnot hrefuses
    cases cmd with
    | help => exact hargs.elim
    | set | exists_ | delete | expire => rfl
    | get =>
      rw [List.length_eq_zero_iff.mp hargs]
      rfl
    | save =>
      dsimp only
      rw [if_pos (hempty hargs (not_not.mpr rfl))]
      rfl
    | exit | shutdown =>
      dsimp only
      rw [if_neg (hempty hargs (not_not.mpr rfl))]
      rfl
  | help =>
    rw [fillCmdCtx, if_neg helpText_ne_nil]
    rfl
  | helpOf hne => exact (if_neg hne).symm
  | getOf hne => exact (if_neg hne).symm
  | save hsave =>
    rcases fetch_cases hsave with ⟨hopen, file, -, heq⟩ | ⟨hshut, heq⟩ <;> cases heq
    · rw [hopen]
      rfl
    · rw [hshut]
      rfl
  | exit => rfl
  | shutdown => rfl
  | getEx hex => simp [Query.ofTokens, hcmd, hex] at hnone
  | _ => simp [Query.ofTokens, hcmd] at hnone

theorem processCommand_fixed (henv : env.cmdArrOk = true) (hnone : Query.parse req = none)
    (h : processCommand env n req .fresh = .ok d) : d.ctx = fixedAnswer env (tokenize req) := by
  cases dispatches_of_processCommand h with
  | nomem hmem => exact absurd (hmem.symm.trans henv) Bool.false_ne_true
  | unknown _ htok hcmd =>
    rw [htok, fixedAnswer, hcmd]
    rfl
  | handled _ htok hcmd hd =>
    rw [Query.parse, htok] at hnone
    rw [htok]
    exact hd.fixed hcmd hnone

end Fixed

/-! ### The server as a map -/

/-- The context a query leaves; on a map it never faults (`run_returns`). -/
def contextOf : Except Fault CmdCtx → CmdCtx
  | .ok ctx => ctx
  | .error _ => .fresh

/-- What a request does to a flat map, and what the client gets. -/
def Flat.serve (m : Flat) (x : ReqEnv × Str) : Flat × CmdCtx :=
  match Query.parse x.2 with
  | some q => let r := q.run (Flat.step maxAllowed.toNat) x.1 .fresh m; (r.1, contextOf r.2)
  | none => (m, fixedAnswer x.1 (tokenize x.2))

theorem fill_returns (bound : ℕ) (m : Flat) (c : Call) (ctx : CmdCtx) :
    ∃ ctx', ctx.fill (Flat.step bound m c).2 = .ok ctx' := by
  cases c <;> exact ⟨_, rfl⟩

theorem run_returns (bound : ℕ) (env : ReqEnv) (ctx : CmdCtx) (m : Flat) (q : Query) :
    (q.run (Flat.step bound) env ctx m).2 =
      .ok (contextOf (q.run (Flat.step bound) env ctx m).2) := by
  obtain ⟨ctx', hctx⟩ : ∃ ctx', (q.run (Flat.step bound) env ctx m).2 = .ok ctx' := by
    obtain ⟨ctx₁, h₁⟩ := fill_returns bound m (q.call env) ctx
    by_cases hf : Query.Found (Flat.step bound m (q.call env)).2
    · cases hnext : q.next env with
      | none =>
        rw [Query.run_single hnext]
        exact ⟨ctx₁, h₁⟩
      | some c =>
        rw [Query.run_found hnext hf, h₁]
        exact fill_returns bound _ c ctx₁
    · rw [Query.run_not_found hf]
      exact ⟨ctx₁, h₁⟩
  rw [hctx]
  rfl

/-- A plain request that does not fault does to the node what it does to its map. -/
theorem serve_follows {n : Node} {m : Flat} {x : ReqEnv × Str} (hm : Simulates n.db m)
    (hplain : PlainRequest x) (hok : ¬ Stuck n x) :
    Simulates (n.serve x).1.db (m.serve x).1 ∧ (n.serve x).2 = .ok (m.serve x).2 := by
  rw [Flat.serve]
  cases hq : Query.parse x.2 with
  | some q =>
    rw [serve_query hplain.cmdArr hq]
    obtain ⟨hR, hans⟩ := run_simulates hm hplain hq ⟨[], dbErrOk⟩
    refine ⟨hR, (hans fun hlong => hok ⟨.outOfBounds, ?_⟩).trans (run_returns _ _ _ _ _)⟩
    rw [serve_query hplain.cmdArr hq, run_of_overruns hlong]
  | none =>
    rw [serve_other hq]
    refine ⟨hm, ?_⟩
    rw [Stuck, Node.serve] at hok
    rw [Node.serve]
    cases hrun : processCommand x.1 n x.2 ⟨[], dbErrOk⟩ with
    | error f =>
      rw [hrun] at hok
      exact absurd ⟨f, rfl⟩ hok
    | ok d => exact congrArg Except.ok (processCommand_fixed hplain.cmdArr hq hrun)

/-- A run that does not crash answers as the flat map does. -/
theorem calls_follow_flat {n : Node} {m : Flat} (hm : Simulates n.db m) {master : Bool}
    {ticks : List Tick} (hplain : ∀ x ∈ calls (.start n master) ticks, PlainRequest x.2)
    (hlive : ¬ (Mealy.exec Server.step (.start n master) ticks).flow.Crashed) :
    let log := calls (.start n master) ticks
    Simulates (Mealy.exec Node.serve n (log.map Prod.snd)).db
        (Mealy.exec Flat.serve m (log.map Prod.snd)) ∧
      ∀ i, Mealy.answersTo Node.serve i n log =
        (Mealy.answersTo Flat.serve i m log).map Except.ok := by
  intro log
  have hnever : Mealy.Never Node.serve (fun n x => ¬ PlainRequest x ∨ Stuck n x) n
      (log.map Prod.snd) := by
    intro pre x hpre hbad
    have hmem : x ∈ log.map Prod.snd := hpre.subset (by simp)
    obtain ⟨y, hy, rfl⟩ := List.mem_map.mp hmem
    exact hbad.elim (fun hx => hx (hplain y hy)) ((calls_answered hlive).2 pre _ hpre)
  exact Mealy.answersTo_of_simulation (R := fun (n : Node) m => Simulates n.db m)
    (g := Except.ok) (fun n m x hR hx => by
      rw [not_or, not_not] at hx
      exact serve_follows hR hx.1 hx.2) hm hnever

/-- What has been sent on the slot of a user. -/
theorem sent_of_flat {n : Node} {m : Flat} {master : Bool} {rs : List Reading} {i : ℕ} {c : Conn}
    (hsees : SlotSees master n rs i c) (hstate : c.connState ≠ .handshake)
    (htype : c.connType = .user) (hans : Mealy.answersTo Node.serve i n (callsOf master rs) =
      (Mealy.answersTo Flat.serve i m (callsOf master rs)).map Except.ok) :
    sentTo i rs =
      userPrompt :: (Mealy.answersTo Flat.serve i m (callsOf master rs)).map CmdCtx.sent := by
  rw [hsees.user hstate htype, hans, List.filterMap_map]
  congr 1
  exact congrFun List.filterMap_eq_map _

/-- CORRECT: in every sound run of the server that comes to no access out of bounds and in which
    allocation and the sums of EXPIRE go well, the store represents the flat map that the requests
    of all connections lead to, one after another, and every user has been sent the prompt and the
    answers of this flat map to its own requests. -/
theorem server_refines_flat_map {n : Node} {m : Flat} (hm : Simulates n.db m) {master : Bool}
    {ticks : List Tick} (hsound : SoundRun n master ticks)
    (hplain : ∀ x ∈ calls (.start n master) ticks, PlainRequest x.2)
    (hlive : ¬ (Mealy.exec Server.step (.start n master) ticks).flow.Crashed) :
    let s := Mealy.exec Server.step (.start n master) ticks
    let log := calls (.start n master) ticks
    s.node.db.Safe ∧ Simulates s.node.db (Mealy.exec Flat.serve m (log.map Prod.snd)) ∧
      ∀ i < s.table.len, (s.table.conns i).connState ≠ .handshake →
        (s.table.conns i).connType = .user → sentTo i (readings (.start n master) ticks) =
          userPrompt :: (Mealy.answersTo Flat.serve i m log).map CmdCtx.sent := by
  intro s log
  have hrun := sequenced_run master n ticks
  obtain ⟨hstore, hans⟩ := calls_follow_flat hm hplain hlive
  refine ⟨hsound.safe, ?_, fun i hi hstate htype => sent_of_flat (hrun.sees i hi) hstate htype
    (hans i)⟩
  rw [hrun.node]
  exact hstore

theorem server_refines_flat_map_get :
    sentTo 0 (readings (.start ⟨htInit, none⟩ true) getTicks) =
      [userPrompt, str "OK\nsahDB> ", str "1\nsahDB> "] := by
  have h := (@server_refines_flat_map ⟨htInit, none⟩ ∅ simulates_init true getTicks getTicks_sound
    (by decide +kernel) (getTicks_flow ▸ not_crashed_next)).2.2 0 (by decide +kernel)
    (by decide +kernel) (by decide +kernel)
  rw [h]
  decide +kernel

end SahDB
