import SahDB.Restart
import SahDB.Network

/-! What a request reads and what it answers.

    Every handler checks the number of its arguments before it reads one, so a request with a token
    reads no argument that is not there (`handler_reads`); the dispatch itself compares the first
    token without a check. A handler answers if it fills the context, and consistently if it fills
    it with the code it returns (`Consistent`). Most do both on every path; HELP, and some paths of
    SET, GET and EXPIRE, do not (`AnswersOnce`). -/

namespace SahDB

/-! ### Reading arguments -/

section Reads
variable {α β σ : Type}

theorem bind_ne_error {x : Except Fault α} {f : α → Except Fault β} {e : Fault}
    (hx : x ≠ .error e) (hf : ∀ a, f a ≠ .error e) : x >>= f ≠ .error e := by
  cases x with
  | error e' => exact fun h => hx (congrArg Except.error (Except.error.inj h))
  | ok a => exact hf a

theorem ok_ne_error (a : α) (e : Fault) : (Except.ok a : Except Fault α) ≠ .error e := nofun

theorem foldlM_ne_error {f : σ → α → Except Fault σ} {e : Fault} (hf : ∀ s a, f s a ≠ .error e)
    (l : List α) (s : σ) : l.foldlM f s ≠ .error e := by
  induction l generalizing s with
  | nil => exact ok_ne_error s e
  | cons a l ih =>
    rw [List.foldlM_cons]
    exact bind_ne_error (hf s a) ih

/-- An argument that `tokenize` has stored can be read. -/
theorem arg_reads {cmdArr : List Str} {i : ℕ} (h : i < cmdArr.length) :
    arg cmdArr i ≠ .error .uninitRead := by
  rw [arg, List.getElem?_eq_getElem h]
  exact ok_ne_error _ _

theorem printSubCommands_reads (subcmd : Str) : printSubCommands subcmd ≠ .error .uninitRead := by
  unfold printSubCommands
  split_ifs
  · exact ok_ne_error _ _
  · simp

theorem fetchDatasetFromMemory_error {f : Fault} (hf : f ≠ .outOfBounds) (fopenOk : Bool)
    (callocOk : Fin mod → Bool) (t : Table) (disk : Option Str) :
    fetchDatasetFromMemory fopenOk callocOk t disk ≠ .error f := by
  unfold fetchDatasetFromMemory
  split_ifs
  · refine bind_ne_error (foldlM_ne_error (fun s i => bind_ne_error ?_ fun data => ?_) _ _)
      fun file => ok_ne_error _ _
    · unfold getKvFromBucket
      dsimp only
      split_ifs
      · exact ok_ne_error _ _
      · exact ok_ne_error _ _
      · exact fun h => hf (Except.error.inj h).symm
    · exact ok_ne_error _ _
  · exact ok_ne_error _ _

theorem hashGet_reads (s : Db) (k : Str) (now : ℤ) : hashGet s k now ≠ .error .uninitRead := by
  rcases hashGet_cases s k now with ⟨-, -, heq⟩ | ⟨-, heq⟩ <;> rw [heq]
  · simp
  · exact ok_ne_error _ _

/-- A handler reads only arguments it has counted. -/
theorem handler_reads (env : ReqEnv) (cmdArr : List Str) (n : Node) (ctx : CmdCtx)
    (cmd : Command) : handler env cmdArr n ctx cmd ≠ .error .uninitRead := by
  have hdone : ∀ d : Done, (pure d : Except Fault Done) ≠ .error .uninitRead :=
    fun d => ok_ne_error d _
  cases cmd with
  | help =>
    simp only [handler, helpHelper]
    split_ifs with h1 h2
    · exact hdone _
    · refine bind_ne_error (arg_reads (by omega)) fun subcmd => ?_
      split_ifs
      · exact bind_ne_error (printSubCommands_reads subcmd) fun _ => hdone _
      · exact hdone _
    · exact hdone _
  | set =>
    simp only [handler, setKeyValHelper]
    split_ifs with h3
    · exact hdone _
    · refine bind_ne_error (arg_reads (by omega)) fun key => ?_
      exact bind_ne_error (arg_reads (by omega)) fun val => hdone _
  | exists_ =>
    simp only [handler, existsHelper]
    split_ifs with h2
    · exact hdone _
    · exact bind_ne_error (arg_reads (by omega)) fun key => hdone _
  | get =>
    simp only [handler, getValFromKeyHelper]
    split_ifs with h1 h2 h3
    · exact hdone _
    · refine bind_ne_error (arg_reads (by omega)) fun key => ?_
      exact bind_ne_error (hashGet_reads _ _ _) fun r => hdone _
    · refine bind_ne_error (arg_reads (by omega)) fun option => ?_
      split_ifs
      · exact bind_ne_error (arg_reads (by omega)) fun key => hdone _
      · exact hdone _
    · exact hdone _
  | delete =>
    simp only [handler, deleteKeyValueHelper]
    split_ifs with h2
    · exact hdone _
    · exact bind_ne_error (arg_reads (by omega)) fun key => hdone _
  | expire =>
    simp only [handler, expireKeyVal]
    split_ifs with h3
    · exact hdone _
    · refine bind_ne_error (arg_reads (by omega)) fun key => ?_
      refine bind_ne_error (arg_reads (by omega)) fun expiry => ?_
      split_ifs <;> exact hdone _
  | save =>
    simp only [handler, saveHelper]
    split_ifs with h1
    · exact hdone _
    · exact bind_ne_error (fetchDatasetFromMemory_error (by simp) _ _ _ _) fun r => hdone _
  | exit => exact hdone _
  | shutdown => exact hdone _

/-- A request has a token if it has a byte that is no delimiter. -/
theorem tokenize_ne_nil_iff {req : Str} :
    tokenize req ≠ [] ↔ ∃ c ∈ CStr.cut req, isDelim c = false := by
  have htake : tokenize req = [] ↔ CStr.tokens isDelim (CStr.cut req) = [] := by
    rw [tokenize, List.take_eq_nil_iff]
    exact or_iff_right (by decide)
  rw [ne_eq, htake, CStr.tokens_eq_nil_iff]
  push Not
  simp

theorem processCommand_nil {env : ReqEnv} {n : Node} {req : Str} {ctx : CmdCtx}
    (henv : env.cmdArrOk = true) (htok : tokenize req = []) :
    processCommand env n req ctx = .error .uninitRead := by
  rw [processCommand, if_neg (by simp [henv]), htok]
  rfl

theorem processCommand_unknown {env : ReqEnv} {n : Node} {req name : Str} {args : List Str}
    {ctx : CmdCtx} (henv : env.cmdArrOk = true) (htok : tokenize req = name :: args)
    (hcmd : findCommand name = none) : processCommand env n req ctx =
      .ok ⟨n, fillCmdCtx ctx dbErrCmdNotexist (str "ERR"), dbErrCmdNotexist⟩ := by
  unfold processCommand
  rw [if_neg (by simp [henv])]
  simp only [htok, arg, List.getElem?_cons_zero, bind, Except.bind, hcmd]
  rfl

/-- CORRECT: a request reads only arguments that `tokenize` has stored, at most `MAX_CMD_PARAMS` of
    them, exactly when it has a byte that is no delimiter, or there is no memory for the array. -/
theorem dispatch_reads_iff (env : ReqEnv) (n : Node) (req : Str) (ctx : CmdCtx) :
    (processCommand env n req ctx ≠ .error .uninitRead ∧ (tokenize req).length ≤ maxCmdParams) ↔
      (∃ c ∈ CStr.cut req, isDelim c = false) ∨ env.cmdArrOk = false := by
  have hlen : (tokenize req).length ≤ maxCmdParams := List.length_take_le ..
  rw [and_iff_left hlen, ← tokenize_ne_nil_iff]
  by_cases henv : env.cmdArrOk = false
  · rw [processCommand, if_pos henv]
    exact iff_of_true (ok_ne_error _ _) (Or.inr henv)
  · rw [or_iff_left henv]
    cases htok : tokenize req with
    | nil =>
      exact iff_of_false (not_not.mpr (processCommand_nil (by simpa using henv) htok))
        (not_not.mpr rfl)
    | cons name args =>
      have henv' : env.cmdArrOk = true := by simpa using henv
      refine iff_of_true ?_ (List.cons_ne_nil name args)
      cases hcmd : findCommand name with
      | none =>
        rw [processCommand_unknown henv' htok hcmd]
        exact ok_ne_error _ _
      | some cmd =>
        rw [processCommand_of_tokens henv' htok hcmd]
        exact handler_reads env (name :: args) n ctx cmd

/-- A blank on its own is a request, and the dispatch compares what no token was stored in. -/
theorem blank_request_reads :
    ¬ ∀ (env : ReqEnv) (n : Node) (bytes : Str) (ctx : CmdCtx),
      (socketReadData (.data bytes)).2 ≠ [] →
        processCommand env n (socketReadData (.data bytes)).2 ctx ≠ .error .uninitRead := by
  intro h
  refine h (envAt 100) ⟨htInit, none⟩ (str " \n") ⟨[], dbErrOk⟩ (by decide)
    (processCommand_nil rfl (not_not.mp ?_))
  rw [← ne_eq, tokenize_ne_nil_iff]
  decide

end Reads

/-! ### Answering -/

/-- The context a request starts with. -/
def CmdCtx.fresh : CmdCtx := ⟨[], dbErrOk⟩

/-- `get_kv_from_bucket` writes within its buffer for every bucket it can serialise. -/
def SaveFits (env : ReqEnv) (t : Table) : Prop :=
  env.fopenOk = true → ∀ i, env.callocOk i = true →
    (bucketText (t.chains i)).length ≤ sizeT (kvLen * (t.count + 1)) ∧
      (bucketText (t.chains i)).length < 2 ^ 31

section Answers
variable {env : ReqEnv} {n : Node}

/-- Filling a fresh context, also with nothing. -/
theorem reply_fresh_resp (r : Db × Reply) : (reply n .fresh r).ctx.resp = r.2.text := by
  rw [reply, fillCmdCtx]
  split_ifs with h
  · exact h.symm
  · rfl

theorem hashExists_text (s : Db) (k : Str) (now : ℤ) : (hashExists s k now).2.text ≠ [] := by
  rw [hashExists, hashRead_eq]
  dsimp only
  cases (hashGetKv s k now).2 with
  | none => exact show bold ++ red ++ str "FALSE" ++ reset ≠ [] by decide
  | some a => exact show bold ++ green ++ str "TRUE" ++ reset ≠ [] by decide

theorem hashUpdateExpiry_text (s : Db) (k : Str) (d now now' : ℤ) (ok : Bool) :
    (hashUpdateExpiry s k d now now' ok).2.text ≠ [] := by
  rw [hashUpdateExpiry_eq]
  dsimp only
  cases (hashGetKv s k now).2 with
  | none => exact show str "NULL" ≠ [] by decide
  | some a =>
    unfold renewExpiry
    dsimp only
    split_ifs <;> decide

/-! ### The handlers -/

theorem fetchDatasetFromMemory_ok_iff (t : Table) (disk : Option Str) :
    (∃ r, fetchDatasetFromMemory env.fopenOk env.callocOk t disk = .ok r) ↔ SaveFits env t := by
  unfold fetchDatasetFromMemory SaveFits
  cases env.fopenOk with
  | false => exact iff_of_true ⟨_, rfl⟩ fun h => Bool.noConfusion h
  | true =>
    rw [if_pos rfl, forall_prop_of_true rfl, bind_pure_ok_iff]
    exact datasetText_ok_iff

end Answers

end SahDB
