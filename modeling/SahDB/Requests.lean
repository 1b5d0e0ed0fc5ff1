import SahDB.Status
import SahDB.Records

/-! A request is a few calls of `hash.c`.

    A handler that returns has refused its arguments, or done what it is for in one of a few ways
    (`Returns`), and what requests keep is read off these. To the store it does a run of calls whose
    new keys and values are words of the request (`processCommand_calls`), and its status ends the
    connection or the server exactly if the request is `EXIT` or `SHUTDOWN` alone on its line
    (`processCommand_stays_iff`). So a node that has served requests is in a state of `Db.after`,
    and every key and value in its table is a word: not empty, without blanks, newline and NUL. -/

namespace SahDB
open Db

/-! ### Reading arguments -/

theorem bind_ok {ε α β : Type} {x : Except ε α} {f : α → Except ε β} {b : β}
    (h : x >>= f = .ok b) : ∃ a, x = .ok a ∧ f a = .ok b := by
  cases x with
  | error e => cases h
  | ok a => exact ⟨a, rfl, h⟩

theorem arg_zero {cmdArr : List Str} {name : Str} (h : arg cmdArr 0 = .ok name) :
    ∃ args, cmdArr = name :: args := by
  cases cmdArr with
  | nil => cases h
  | cons a args => cases h; exact ⟨args, rfl⟩

theorem fetch_cases {fopenOk : Bool} {callocOk : Fin mod → Bool} {t : Table} {disk : Option Str}
    {r : Err × Option Str} (h : fetchDatasetFromMemory fopenOk callocOk t disk = .ok r) :
    (fopenOk = true ∧ ∃ file, datasetText t callocOk = .ok file ∧ r = (0, some file)) ∨
      fopenOk = false ∧ r = (dbErrFileInaccessible, disk) := by
  cases fopenOk with
  | true =>
    obtain ⟨file, hfile, h⟩ := bind_ok h
    cases h
    exact Or.inl ⟨rfl, file, hfile, rfl⟩
  | false =>
    cases h
    exact Or.inr ⟨rfl, rfl⟩

/-! ### How a request returns -/

/-- The numbers of arguments a handler refuses. -/
def Command.Refuses : Command → ℕ → Prop
  | .help, _ => False
  | .get, argc => argc = 0
  | .exists_, argc | .delete, argc => argc ≠ 1
  | .set, argc | .expire, argc => argc ≠ 2
  | .save, argc | .exit, argc | .shutdown, argc => argc ≠ 0

/-- What it answers them. -/
def Command.refusal : Command → Str
  | .get => red ++ str "Incorrect number of args passed, run HELP GET" ++ reset
  | .exists_ => red ++ str "Incorrect number of args passed, run HELP EXISTS" ++ reset
  | .delete | .expire => str "ERR"
  | .save => str "OK"
  | .help | .set | .exit | .shutdown => red ++ str "ERR" ++ reset

/-- How the handler of a command returns, by the arguments behind its name. -/
inductive Returns (env : ReqEnv) (n : Node) (ctx : CmdCtx) : Command → List Str → Done → Prop
  | refused {cmd args} (h : cmd.Refuses args.length) :
    Returns env n ctx cmd args (refuse n ctx cmd.refusal)
  | help : Returns env n ctx .help [] ⟨n, fillCmdCtx ctx dbErrHelp helpText, 0⟩
  | helpOf {args res} (h : args ≠ []) (hres : res = dbErrInvalidArgs ∨ res = 0) :
    Returns env n ctx .help args ⟨n, ctx, res⟩
  | set (k v) : Returns env n ctx .set [k, v] (reply n ctx (hashInsert n.db k v env.mallocOk))
  | get {k r} (h : hashGet n.db k env.time₁ = .ok r) : Returns env n ctx .get [k] (reply n ctx r)
  | getEx {k w} (h : strcaseEq w (str "ex") = true) :
    Returns env n ctx .get [k, w] (reply n ctx (hashGetExpiry n.db k env.time₁))
  | getOf {args} (h : args ≠ []) : Returns env n ctx .get args ⟨n, ctx, 0⟩
  | exists_ (k) : Returns env n ctx .exists_ [k] (reply n ctx (hashExists n.db k env.time₁))
  | delete (k) : Returns env n ctx .delete [k] (reply n ctx (hashDelete n.db k))
  | expire {k w found} (hfound : found = reply n ctx (hashExists n.db k env.time₁))
      (h : found.res = 0) : Returns env n ctx .expire [k, w]
        (reply found.node found.ctx (hashUpdateExpiry found.node.db k (CStr.atol w) env.time₂
          env.time₃ env.reallocOk))
  | expireOf {k w found} (hfound : found = reply n ctx (hashExists n.db k env.time₁))
      (h : found.res ≠ 0) : Returns env n ctx .expire [k, w] { found with res := 0 }
  | save {res disk}
      (h : fetchDatasetFromMemory env.fopenOk env.callocOk n.db.table n.disk = .ok (res, disk)) :
    Returns env n ctx .save [] ⟨{ n with disk := disk }, fillCmdCtx ctx res (str "OK"), res⟩
  | exit : Returns env n ctx .exit []
      ⟨n, fillCmdCtx ctx dbErrExit (red ++ bold ++ str "Bye..." ++ reset), dbErrExit⟩
  | shutdown : Returns env n ctx .shutdown []
      ⟨n, fillCmdCtx ctx dbErrShutdown (red ++ bold ++ str "Goodbye..." ++ reset), dbErrShutdown⟩

/-- How a request returns. -/
inductive Dispatches (env : ReqEnv) (n : Node) (ctx : CmdCtx) (req : Str) : Done → Prop
  | nomem (h : env.cmdArrOk = false) : Dispatches env n ctx req ⟨n, ctx, dbErrNomem⟩
  | unknown {name : Str} {args : List Str} (hmem : env.cmdArrOk = true)
      (htok : tokenize req = name :: args) (h : findCommand name = none) :
    Dispatches env n ctx req
      ⟨n, fillCmdCtx ctx dbErrCmdNotexist (str "ERR"), dbErrCmdNotexist⟩
  | handled {name : Str} {args : List Str} {cmd d} (hmem : env.cmdArrOk = true)
      (htok : tokenize req = name :: args) (hcmd : findCommand name = some cmd)
      (h : Returns env n ctx cmd args d) : Dispatches env n ctx req d

section Handlers
variable {env : ReqEnv} {n : Node} {ctx : CmdCtx} {name : Str} {args : List Str} {d : Done}

theorem helpHelper_returns (h : helpHelper (name :: args) n ctx = .ok d) :
    Returns env n ctx .help args d := by
  rcases args with _ | ⟨w, _ | ⟨x, args⟩⟩
  · cases h
    exact .help
  · have hrun : helpHelper [name, w] n ctx =
        if w ≠ [] then do printSubCommands w; return ⟨n, ctx, dbErrInvalidArgs⟩
        else return ⟨n, ctx, 0⟩ := rfl
    rw [hrun] at h
    split_ifs at h
    · obtain ⟨-, -, h⟩ := bind_ok h
      cases h
      exact .helpOf (by simp) (Or.inl rfl)
    · cases h
      exact .helpOf (by simp) (Or.inr rfl)
  · cases h
    exact .helpOf (by simp) (Or.inr rfl)

theorem getValFromKeyHelper_returns (h : getValFromKeyHelper env (name :: args) n ctx = .ok d) :
    Returns env n ctx .get args d := by
  rcases args with _ | ⟨k, _ | ⟨w, _ | ⟨x, args⟩⟩⟩
  · cases h
    exact .refused rfl
  · have hrun : getValFromKeyHelper env [name, k] n ctx =
        hashGet n.db k env.time₁ >>= fun r => .ok (reply n ctx r) := rfl
    rw [hrun] at h
    obtain ⟨r, hget, h⟩ := bind_ok h
    cases h
    exact .get hget
  · have hrun : getValFromKeyHelper env [name, k, w] n ctx =
        if strcaseEq w (str "ex") then .ok (reply n ctx (hashGetExpiry n.db k env.time₁))
        else .ok ⟨n, ctx, 0⟩ := rfl
    rw [hrun] at h
    split_ifs at h with hex <;> cases h
    · exact .getEx hex
    · exact .getOf (by simp)
  · cases h
    exact .getOf (by simp)

theorem expireKeyVal_returns (h : expireKeyVal env (name :: args) n ctx = .ok d) :
    Returns env n ctx .expire args d := by
  rcases args with _ | ⟨k, _ | ⟨w, _ | ⟨x, args⟩⟩⟩
  case cons.cons.nil =>
    have hrun : expireKeyVal env [name, k, w] n ctx =
        let found := reply n ctx (hashExists n.db k env.time₁)
        if found.res = 0 then .ok (reply found.node found.ctx (hashUpdateExpiry found.node.db k
          (CStr.atol w) env.time₂ env.time₃ env.reallocOk))
        else .ok { found with res := 0 } := rfl
    rw [hrun] at h
    dsimp only at h
    split_ifs at h with hfound <;> cases h
    · exact .expire rfl hfound
    · exact .expireOf rfl hfound
  all_goals
    cases h
    exact .refused (by simp [Command.Refuses])

theorem saveHelper_returns (h : saveHelper env (name :: args) n ctx = .ok d) :
    Returns env n ctx .save args d := by
  cases args with
  | nil =>
    have hrun : saveHelper env [name] n ctx =
        (fetchDatasetFromMemory env.fopenOk env.callocOk n.db.table n.disk >>= fun r =>
          .ok ⟨{ n with disk := r.2 }, fillCmdCtx ctx r.1 (str "OK"), r.1⟩) := rfl
    rw [hrun] at h
    obtain ⟨r, hsave, h⟩ := bind_ok h
    cases h
    exact .save hsave
  | cons x args =>
    cases h
    exact .refused (by simp [Command.Refuses])

/-- A handler returns in one of these ways. -/
theorem returns_of_handler {cmd : Command} (h : handler env (name :: args) n ctx cmd = .ok d) :
    Returns env n ctx cmd args d := by
  cases cmd with
  | help => exact helpHelper_returns h
  | get => exact getValFromKeyHelper_returns h
  | expire => exact expireKeyVal_returns h
  | save => exact saveHelper_returns h
  | set =>
    rcases args with _ | ⟨k, _ | ⟨v, _ | ⟨x, args⟩⟩⟩ <;> cases h
    · exact .refused (by simp [Command.Refuses])
    · exact .refused (by simp [Command.Refuses])
    · exact .set k v
    · exact .refused (by simp [Command.Refuses])
  | exists_ =>
    rcases args with _ | ⟨k, _ | ⟨x, args⟩⟩ <;> cases h
    · exact .refused (by simp [Command.Refuses])
    · exact .exists_ k
    · exact .refused (by simp [Command.Refuses])
  | delete =>
    rcases args with _ | ⟨k, _ | ⟨x, args⟩⟩ <;> cases h
    · exact .refused (by simp [Command.Refuses])
    · exact .delete k
    · exact .refused (by simp [Command.Refuses])
  | exit =>
    cases args <;> cases h
    · exact .exit
    · exact .refused (by simp [Command.Refuses])
  | shutdown =>
    cases args <;> cases h
    · exact .shutdown
    · exact .refused (by simp [Command.Refuses])

/-- A request returns in one of these ways. -/
theorem dispatches_of_processCommand {req : Str} (h : processCommand env n req ctx = .ok d) :
    Dispatches env n ctx req d := by
  unfold processCommand at h
  split_ifs at h with hmem
  · cases h
    exact .nomem hmem
  · rw [Bool.not_eq_false] at hmem
    obtain ⟨name, harg, h⟩ := bind_ok h
    obtain ⟨args, htok⟩ := arg_zero harg
    cases hcmd : findCommand name with
    | none =>
      rw [hcmd] at h
      cases h
      exact .unknown hmem htok hcmd
    | some cmd =>
      rw [hcmd, htok] at h
      exact .handled hmem htok hcmd (returns_of_handler h)

end Handlers

/-! ### What a request does to the store -/

/-- Every key and value the calls insert is among the words. -/
def InsertsFrom (words : List Str) (calls : List Call) : Prop :=
  ∀ k v ok, Call.insert k v ok ∈ calls → k ∈ words ∧ v ∈ words

/-- The node is the old one after some calls that insert only words of the request. -/
def ByCalls (words : List Str) (n n' : Node) : Prop :=
  ∃ calls, n'.db = n.db.after calls ∧ InsertsFrom words calls

theorem ByCalls.refl (words : List Str) (n : Node) : ByCalls words n n :=
  ⟨[], rfl, fun _ _ _ h => absurd h List.not_mem_nil⟩

/-- One call that is no insert. -/
theorem ByCalls.single {words : List Str} {n n' : Node} (c : Call)
    (h : n'.db = (n.db.step maxAllowed c).1) (hc : ∀ k v ok, c ≠ .insert k v ok) :
    ByCalls words n n' :=
  ⟨[c], h, fun k v ok hm => absurd (List.mem_singleton.mp hm).symm (hc k v ok)⟩

/-- What a handler other than those of `EXIT` and `SHUTDOWN` does: some calls that insert words of
    the request, and no status that ends anything. -/
structure Handled (words : List Str) (n : Node) (ctx : CmdCtx) (d : Done) : Prop where
  calls : ByCalls words n d.node
  stays : Stays ctx.status → Stays d.ctx.status

section Handled
variable {env : ReqEnv} {n : Node} {ctx : CmdCtx} {name : Str} {args : List Str} {cmd : Command}
  {d : Done}

theorem Handled.refl (words : List Str) (n : Node) (ctx : CmdCtx) (res : Err) :
    Handled words n ctx ⟨n, ctx, res⟩ := ⟨.refl words n, id⟩

theorem Handled.refuse (words : List Str) (n : Node) (ctx : CmdCtx) (resp : Str) :
    Handled words n ctx (refuse n ctx resp) := ⟨.refl words n, fun h => refuse_stays h resp⟩

/-- A handler that makes one call, which is no insert. -/
theorem Handled.single {words : List Str} {r : Db × Reply} (c : Call)
    (h : r.1 = (n.db.step maxAllowed c).1) (hc : ∀ k v ok, c ≠ .insert k v ok)
    (hr : r.2.code ∈ storeCodes) : Handled words n ctx (reply n ctx r) :=
  ⟨.single c h hc, fun hctx => reply_stays hctx hr⟩

theorem fetch_storeCode {t : Table} {disk disk' : Option Str} {res : Err}
    (h : fetchDatasetFromMemory env.fopenOk env.callocOk t disk = .ok (res, disk')) :
    res ∈ storeCodes := by
  rcases fetch_cases h with ⟨-, file, -, heq⟩ | ⟨-, heq⟩ <;> cases heq <;> simp [storeCodes]

/-- What a request does that is not `EXIT` or `SHUTDOWN` alone. -/
theorem Returns.handled (h : Returns env n ctx cmd args d)
    (hstays : ¬ (args = [] ∧ (cmd = .exit ∨ cmd = .shutdown))) :
    Handled (name :: args) n ctx d := by
  cases h with
  | refused => exact .refuse _ n ctx _
  | help => exact ⟨.refl _ n, fun hctx => fillCmdCtx_stays hctx (by unfold Stays; decide) _⟩
  | helpOf => exact .refl _ n ctx _
  | getOf => exact .refl _ n ctx _
  | set k v =>
    refine ⟨⟨[.insert k v env.mallocOk], rfl, fun k' v' ok hm => ?_⟩,
      fun hctx => reply_stays hctx (hashInsert_storeCode _ _ _ _)⟩
    cases List.mem_singleton.mp hm
    simp
  | @get k r hget =>
    exact .single (.get k env.time₁) (by rw [Db.step_get_of_ok _ hget]) (by simp)
      (hashGet_storeCode _ _ _ hget)
  | @getEx k =>
    exact .single (.getExpiry k env.time₁) rfl (by simp) (hashRead_storeCode _ _ _ _ _)
  | exists_ k => exact .single (.exists_ k env.time₁) rfl (by simp) (hashRead_storeCode _ _ _ _ _)
  | delete k => exact .single (.delete k) rfl (by simp) (hashDelete_storeCode _ _)
  | @expire k w found hfound =>
    subst hfound
    have hexists : Handled (name :: [k, w]) n ctx (reply n ctx (hashExists n.db k env.time₁)) :=
      .single (.exists_ k env.time₁) rfl (by simp) (hashRead_storeCode _ _ _ _ _)
    refine ⟨⟨[.exists_ k env.time₁, .updateExpiry k (CStr.atol w) env.time₂ env.time₃
      env.reallocOk], rfl, fun k' v' ok hm => ?_⟩,
      fun hctx => reply_stays (hexists.stays hctx) (hashUpdateExpiry_storeCode _ _ _ _ _ _)⟩
    simp at hm
  | @expireOf k w found hfound =>
    subst hfound
    have hexists : Handled (name :: [k, w]) n ctx (reply n ctx (hashExists n.db k env.time₁)) :=
      .single (.exists_ k env.time₁) rfl (by simp) (hashRead_storeCode _ _ _ _ _)
    exact ⟨hexists.calls, hexists.stays⟩
  | save hsave =>
    exact ⟨⟨[], rfl, fun _ _ _ hm => absurd hm List.not_mem_nil⟩, fun hctx => fillCmdCtx_stays hctx
      (stays_of_mem_storeCodes (fetch_storeCode hsave)) _⟩
  | exit => exact absurd ⟨rfl, Or.inl rfl⟩ hstays
  | shutdown => exact absurd ⟨rfl, Or.inr rfl⟩ hstays

/-- `EXIT` and `SHUTDOWN` alone leave with their codes. -/
theorem Returns.leaves (h : Returns env n ctx cmd [] d) (hcmd : cmd = .exit ∨ cmd = .shutdown) :
    d.node = n ∧ ¬ Stays d.ctx.status := by
  have hresp : ∀ text : Str, red ++ bold ++ text ++ reset ≠ [] := fun text => by
    simp [reset, str]
  cases h with
  | refused hargs => rcases hcmd with rfl | rfl <;> exact absurd rfl hargs
  | exit =>
    rw [fillCmdCtx, if_neg (hresp _)]
    exact ⟨rfl, fun hstays => hstays.1 rfl⟩
  | shutdown =>
    rw [fillCmdCtx, if_neg (hresp _)]
    exact ⟨rfl, fun hstays => hstays.2 rfl⟩
  | _ => simp at hcmd

theorem Returns.calls (h : Returns env n ctx cmd args d) : ByCalls (name :: args) n d.node := by
  by_cases hleaves : args = [] ∧ (cmd = .exit ∨ cmd = .shutdown)
  · obtain ⟨rfl, hcmd⟩ := hleaves
    rw [(h.leaves hcmd).1]
    exact .refl _ n
  · exact (h.handled hleaves).calls

theorem processCommand_calls {req : Str} (h : processCommand env n req ctx = .ok d) :
    ByCalls (tokenize req) n d.node := by
  cases dispatches_of_processCommand h with
  | nomem => exact .refl _ n
  | unknown => exact .refl _ n
  | handled _ htok _ hd =>
    rw [htok]
    exact hd.calls

/-- A request whose first word names a command goes to its handler. -/
theorem processCommand_of_tokens {req name : Str} {args : List Str} {cmd : Command}
    (henv : env.cmdArrOk = true) (h : tokenize req = name :: args)
    (hcmd : findCommand name = some cmd) :
    processCommand env n req ctx = handler env (name :: args) n ctx cmd := by
  unfold processCommand
  rw [if_neg (by simp [henv])]
  simp only [h, arg, List.getElem?_cons_zero, bind, Except.bind, hcmd]

end Handled

/-! ### Leaving -/

/-- The line is `EXIT` or `SHUTDOWN`, in a spelling the dispatch takes. -/
def Leaves (line : Str) : Prop :=
  ∃ name, tokenize line = [name] ∧
    (findCommand name = some .exit ∨ findCommand name = some .shutdown)

section Leaving
variable {env : ReqEnv} {n : Node} {ctx : CmdCtx} {d : Done}

/-- The line is a command of these on its own. -/
theorem leaves_iff {req name : Str} {args : List Str} (htok : tokenize req = name :: args) :
    Leaves req ↔
      args = [] ∧ (findCommand name = some .exit ∨ findCommand name = some .shutdown) := by
  rw [Leaves, htok]
  constructor
  · rintro ⟨name', heq, hcmd⟩
    obtain ⟨rfl, rfl⟩ := List.cons.inj heq
    exact ⟨rfl, hcmd⟩
  · rintro ⟨rfl, hcmd⟩
    exact ⟨name, rfl, hcmd⟩

/-- A request that returns ends its connection or the server exactly if it is `EXIT` or `SHUTDOWN`.
    -/
theorem processCommand_stays_iff {req : Str} (hctx : Stays ctx.status)
    (h : processCommand env n req ctx = .ok d) :
    Stays d.ctx.status ↔ ¬ (env.cmdArrOk = true ∧ Leaves req) := by
  cases dispatches_of_processCommand h with
  | nomem hmem => exact iff_of_true hctx (by simp [hmem])
  | unknown _ htok hcmd =>
    rw [leaves_iff htok]
    exact iff_of_true (fillCmdCtx_stays hctx (by unfold Stays; decide) _) (by simp [hcmd])
  | @handled name args cmd _ hmem htok hcmd hd =>
    rw [leaves_iff htok, hcmd, and_iff_right hmem]
    simp only [Option.some.injEq]
    by_cases hleaves : args = [] ∧ (cmd = .exit ∨ cmd = .shutdown)
    · obtain ⟨rfl, hleave⟩ := hleaves
      exact iff_of_false (hd.leaves hleave).2 (not_not.mpr ⟨rfl, hleave⟩)
    · have hhandled : Handled (name :: args) n ctx d := hd.handled hleaves
      exact iff_of_true (hhandled.stays hctx) hleaves

end Leaving

/-! ### Words -/

/-- What `tokenize` makes of a request: not empty, without blanks, newline and NUL. -/
structure Word (w : Str) : Prop where
  ne_nil : w ≠ []
  delim : ∀ c ∈ w, isDelim c = false
  nul : (0 : UInt8) ∉ w

theorem word_of_mem_tokenize {req w : Str} (h : w ∈ tokenize req) : Word w := by
  obtain ⟨hne, hmem⟩ := CStr.mem_tokens (List.mem_of_mem_take h)
  refine ⟨hne, fun c hc => (hmem c hc).1, fun h0 => ?_⟩
  have hcut := List.mem_takeWhile_imp (hmem 0 h0).2
  exact absurd hcut (by decide)

theorem word_iff {w : Str} :
    Word w ↔ w ≠ [] ∧ (w.all fun c => !isDelim c && c != 0) = true := by
  rw [List.all_eq_true]
  constructor
  · intro h
    refine ⟨h.ne_nil, fun c hc => ?_⟩
    have hnul : c ≠ 0 := fun h0 => h.nul (h0 ▸ hc)
    simp [h.delim c hc, hnul]
  · rintro ⟨hne, hall⟩
    simp only [Bool.and_eq_true, Bool.not_eq_true', bne_iff_ne] at hall
    exact ⟨hne, fun c hc => (hall c hc).1, fun h0 => (hall 0 h0).2 rfl⟩

instance (w : Str) : Decidable (Word w) := decidable_of_iff _ word_iff.symm

/-- The line that spells some words. -/
def spell (words : List Str) : Str := CStr.spaced 32 words

theorem tokenize_spell {words : List Str} (h : ∀ w ∈ words, Word w)
    (hlen : words.length ≤ maxCmdParams) : tokenize (spell words) = words := by
  have hnul : (0 : UInt8) ∉ spell words := fun h0 => by
    rcases CStr.mem_spaced h0 with h32 | ⟨w, hw, hc⟩
    · exact absurd h32 (by decide)
    · exact (h w hw).nul hc
  rw [tokenize, CStr.cut_of_notMem hnul, spell,
    CStr.tokens_spaced (by decide) fun w hw => ⟨(h w hw).ne_nil, (h w hw).delim⟩,
    List.take_of_length_le hlen]

theorem Word.newline {w : Str} (h : Word w) : CStr.newline ∉ w := fun hc =>
  absurd (h.delim _ hc) (by decide)

namespace Table

/-- Every key and value of the table satisfies `P`. -/
def AllWords (P : Str → Prop) (t : Table) : Prop := ∀ i, ∀ e ∈ t.chains i, P e.key ∧ P e.value

end Table

theorem words_stable (P : Str → Prop) :
    Stable (fun k v => P k ∧ P v) fun e => P e.key ∧ P e.value :=
  ⟨fun _ _ h => h, fun _ _ h _ => h, fun _ _ _ _ h => h⟩

/-! ### Nodes that have served requests -/

/-- A node that started empty and has served requests of a kind. -/
inductive Served (kind : Str → Prop) : Node → Prop
  | start (disk : Option Str) : Served kind ⟨htInit, disk⟩
  | request {n : Node} {env : ReqEnv} {req : Str} {ctx : CmdCtx} {d : Done} : Served kind n →
    kind req → processCommand env n req ctx = .ok d → Served kind d.node

/-- Its table is well formed and holds only words. -/
theorem Served.inv_words {kind : Str → Prop} {n : Node} (h : Served kind n) :
    n.db.Inv ∧ Table.AllWords Word n.db.table := by
  induction h with
  | start disk => exact ⟨htInit_inv, fun i e he => by simp [htInit, Db.table, Db.chain] at he⟩
  | request _ _ hrun ih =>
    obtain ⟨calls, hdb, hins⟩ := processCommand_calls hrun
    rw [hdb]
    exact after_records (words_stable Word) ih.1 ih.2 fun k v ok hm =>
      ⟨word_of_mem_tokenize (hins k v ok hm).1, word_of_mem_tokenize (hins k v ok hm).2⟩

end SahDB
