import SahDB.FlatMap
import SahDB.Requests

/-! Requests on keys, as one flat map answers them.

    A request that spells SET, GET, GET ex, EXISTS, DELETE or EXPIRE with its arguments is a
    `Query`; every other request leaves the store as it is (`processCommand_other`). What a query
    does is written once over any machine that takes calls (`Query.run`): over `Db.step` it is
    `processCommand`, over `Flat.step` it is the meaning of the request on a flat map, and the one
    follows the other (`serve_simulates`). -/

namespace SahDB

/-- A request on one key. -/
inductive Query where
  | set (k v : Str)
  | get (k : Str)
  | getEx (k : Str)
  | exists_ (k : Str)
  | delete (k : Str)
  | expire (k d : Str)
  deriving DecidableEq, Repr

namespace Query

def key : Query → Str
  | set k _ | get k | getEx k | exists_ k | delete k | expire k _ => k

/-- The query the words of a request spell. -/
def ofTokens : List Str → Option Query
  | [name, k] =>
    match findCommand name with
    | some .get => some (.get k)
    | some .exists_ => some (.exists_ k)
    | some .delete => some (.delete k)
    | _ => none
  | [name, k, w] =>
    match findCommand name with
    | some .set => some (.set k w)
    | some .get => if strcaseEq w (str "ex") then some (.getEx k) else none
    | some .expire => some (.expire k w)
    | _ => none
  | _ => none

def parse (req : Str) : Option Query := ofTokens (tokenize req)

/-- The words of a query. -/
def words : Query → List Str
  | set k v => [str "SET", k, v]
  | get k => [str "GET", k]
  | getEx k => [str "GET", k, str "ex"]
  | exists_ k => [str "EXISTS", k]
  | delete k => [str "DELETE", k]
  | expire k d => [str "EXPIRE", k, d]

theorem ofTokens_words (q : Query) : ofTokens q.words = some q := by
  cases q <;> rfl

/-- Every query on words can be sent. -/
theorem parse_spell {q : Query} (h : ∀ w ∈ q.words, Word w) : parse (spell q.words) = some q := by
  have hlen : q.words.length ≤ maxCmdParams := by cases q <;> simp [words, maxCmdParams]
  rw [parse, tokenize_spell h hlen, ofTokens_words]

end Query

/-- `fill_cmd_ctx` with the answer of a call. -/
def CmdCtx.fill (ctx : CmdCtx) : Answer → Except Fault CmdCtx
  | .reply r => .ok (fillCmdCtx ctx r.code r.text)
  | .entry _ => .ok ctx
  | .fault f => .error f

namespace Query
variable {σ : Type*} (step : σ → Call → σ × Answer) (env : ReqEnv)

/-- The call a query makes first. -/
def call : Query → Call
  | set k v => .insert k v env.mallocOk
  | get k => .get k env.time₁
  | getEx k => .getExpiry k env.time₁
  | exists_ k | expire k _ => .exists_ k env.time₁
  | delete k => .delete k

/-- The call an EXPIRE makes when its key exists. -/
def next : Query → Option Call
  | expire k d => some (.updateExpiry k (CStr.atol d) env.time₂ env.time₃ env.reallocOk)
  | _ => none

/-- The call has found its key. -/
def Found : Answer → Prop
  | .reply r => r.code = 0
  | .entry _ | .fault _ => False

instance (a : Answer) : Decidable (Found a) := by
  cases a
  case reply => exact inferInstanceAs (Decidable (_ = _))
  all_goals exact inferInstanceAs (Decidable False)

/-- What a query does, and what it answers. -/
def run (ctx : CmdCtx) (s : σ) (q : Query) : σ × Except Fault CmdCtx :=
  let r := step s (q.call env)
  match q.next env with
  | none => (r.1, ctx.fill r.2)
  | some c =>
    if Found r.2 then
      let r' := step r.1 c
      (r'.1, ctx.fill r.2 >>= fun ctx => ctx.fill r'.2)
    else (r.1, ctx.fill r.2)

section Run
variable {step env} {ctx : CmdCtx} {s : σ} {q : Query}

/-- A query of one call. -/
theorem run_single (h : q.next env = none) : q.run step env ctx s =
    ((step s (q.call env)).1, ctx.fill (step s (q.call env)).2) := by
  rw [run, h]

theorem run_not_found (h : ¬ Found (step s (q.call env)).2) : q.run step env ctx s =
    ((step s (q.call env)).1, ctx.fill (step s (q.call env)).2) := by
  cases hnext : q.next env with
  | none => exact run_single hnext
  | some c => rw [run, hnext]; exact if_neg h

/-- An EXPIRE whose key exists. -/
theorem run_found {c : Call} (h : q.next env = some c) (hf : Found (step s (q.call env)).2) :
    q.run step env ctx s = ((step (step s (q.call env)).1 c).1,
      ctx.fill (step s (q.call env)).2 >>=
        fun ctx => ctx.fill (step (step s (q.call env)).1 c).2) := by
  rw [run, h]; exact if_pos hf

/-- What each call of a query keeps, the query keeps. -/
theorem run_invariant {P : σ → Prop} (hcall : P (step s (q.call env)).1)
    (hnext : ∀ c s, q.next env = some c → P s → P (step s c).1) :
    P (q.run step env ctx s).1 := by
  by_cases hf : Found (step s (q.call env)).2
  · cases hc : q.next env with
    | none =>
      rw [run_single hc]
      exact hcall
    | some c =>
      rw [run_found hc hf]
      exact hnext c _ hc hcall
  · rw [run_not_found hf]
    exact hcall

/-- Two systems that answer each call alike answer the query alike. -/
theorem run_related {τ : Type*} {step' : τ → Call → τ × Answer} {R : σ → τ → Prop} {t : τ}
    (hcall : R (step s (q.call env)).1 (step' t (q.call env)).1 ∧
      (step s (q.call env)).2 = (step' t (q.call env)).2)
    (hnext : ∀ c s t, q.next env = some c → R s t →
      R (step s c).1 (step' t c).1 ∧ (step s c).2 = (step' t c).2) :
    R (q.run step env ctx s).1 (q.run step' env ctx t).1 ∧
      (q.run step env ctx s).2 = (q.run step' env ctx t).2 := by
  obtain ⟨hR, hans⟩ := hcall
  by_cases hf : Found (step s (q.call env)).2
  · cases hc : q.next env with
    | none =>
      rw [run_single hc, run_single hc, hans]
      exact ⟨hR, rfl⟩
    | some c =>
      obtain ⟨hR', hans'⟩ := hnext c _ _ hc hR
      rw [run_found hc hf, run_found hc (hans ▸ hf), hans, hans']
      exact ⟨hR', rfl⟩
  · rw [run_not_found hf, run_not_found (hans ▸ hf), hans]
    exact ⟨hR, rfl⟩

end Run

end Query

/-! ### The program runs the query -/

section Program
variable {env : ReqEnv} {n : Node} {ctx : CmdCtx} {req : Str} {q : Query}

/-- The tokens a query is spelled with, and their command. -/
theorem tokens_of_parse (h : Query.parse req = some q) :
    (∃ name k, tokenize req = [name, k] ∧
      (findCommand name = some .get ∧ q = .get k ∨
        findCommand name = some .exists_ ∧ q = .exists_ k ∨
        findCommand name = some .delete ∧ q = .delete k)) ∨
    ∃ name k w, tokenize req = [name, k, w] ∧
      (findCommand name = some .set ∧ q = .set k w ∨
        findCommand name = some .get ∧ strcaseEq w (str "ex") = true ∧ q = .getEx k ∨
        findCommand name = some .expire ∧ q = .expire k w) := by
  revert h
  unfold Query.parse Query.ofTokens
  split
  · next name k htok =>
    intro h
    refine Or.inl ⟨name, k, htok, ?_⟩
    cases hcmd : findCommand name with
    | none => rw [hcmd] at h; cases h
    | some c => rw [hcmd] at h; cases c <;> cases h <;> simp
  · next name k w htok =>
    intro h
    refine Or.inr ⟨name, k, w, htok, ?_⟩
    cases hcmd : findCommand name with
    | none => rw [hcmd] at h; cases h
    | some c =>
      rw [hcmd] at h
      cases c with
      | get =>
        dsimp only at h
        split_ifs at h with hopt
        cases h
        exact Or.inr (Or.inl ⟨rfl, hopt, rfl⟩)
      | _ => cases h <;> simp
  · intro h
    cases h

theorem getExHelper {name k w : Str} (h : strcaseEq w (str "ex") = true) :
    getValFromKeyHelper env [name, k, w] n ctx =
      .ok (reply n ctx (hashGetExpiry n.db k env.time₁)) := by
  unfold getValFromKeyHelper
  rw [if_neg (by simp), if_neg (by simp), if_pos (show [name, k, w].length = 3 from rfl)]
  exact if_pos h

/-- What a handler does, and what a query says: both answer, or both fault on a store that stays as
    it is. -/
def Handles (n : Node) (r : Db × Except Fault CmdCtx) (x : Except Fault Done) : Prop :=
  (∃ ctx res, r.2 = .ok ctx ∧ x = .ok ⟨{ n with db := r.1 }, ctx, res⟩) ∨
    ∃ f, r = (n.db, .error f) ∧ x = .error f

theorem getHelper {name k : Str} : Handles n ((Query.get k).run (Db.step maxAllowed) env ctx n.db)
    (getValFromKeyHelper env [name, k] n ctx) := by
  have hrun : getValFromKeyHelper env [name, k] n ctx =
      hashGet n.db k env.time₁ >>= fun r => .ok (reply n ctx r) := by
    unfold getValFromKeyHelper
    rw [if_neg (by simp), if_pos (show [name, k].length = 2 from rfl)]
    rfl
  rw [hrun, Query.run_single rfl, Query.call]
  cases hget : hashGet n.db k env.time₁ with
  | ok r =>
    rw [Db.step_get_of_ok _ hget]
    exact Or.inl ⟨_, _, rfl, rfl⟩
  | error f =>
    rw [Db.step_get_of_error _ hget]
    exact Or.inr ⟨f, rfl, rfl⟩

/-- EXPIRE asks for its key first. -/
theorem expireHelper {name k w : Str} :
    Handles n ((Query.expire k w).run (Db.step maxAllowed) env ctx n.db)
      (expireKeyVal env [name, k, w] n ctx) := by
  unfold expireKeyVal
  rw [if_neg (by simp)]
  by_cases hfound : Query.Found (Db.step maxAllowed n.db ((Query.expire k w).call env)).2
  · rw [Query.run_found rfl hfound]
    exact Or.inl ⟨_, _, rfl, if_pos hfound⟩
  · rw [Query.run_not_found hfound]
    exact Or.inl ⟨_, _, rfl, if_neg hfound⟩

/-- A query goes to the store. -/
theorem processCommand_query (henv : env.cmdArrOk = true) (h : Query.parse req = some q) :
    Handles n (q.run (Db.step maxAllowed) env ctx n.db) (processCommand env n req ctx) := by
  rcases tokens_of_parse h with
    ⟨name, k, htok, ⟨hcmd, rfl⟩ | ⟨hcmd, rfl⟩ | ⟨hcmd, rfl⟩⟩ |
    ⟨name, k, w, htok, ⟨hcmd, rfl⟩ | ⟨hcmd, hopt, rfl⟩ | ⟨hcmd, rfl⟩⟩ <;>
    rw [processCommand_of_tokens henv htok hcmd]
  · exact getHelper
  · exact Or.inl ⟨_, _, rfl, rfl⟩
  · exact Or.inl ⟨_, _, rfl, rfl⟩
  · exact Or.inl ⟨_, _, rfl, rfl⟩
  · exact Or.inl ⟨_, _, rfl, getExHelper hopt⟩
  · exact expireHelper

/-- A handler that gets other arguments than a query has leaves the store. -/
theorem Returns.other {name : Str} {args : List Str} {cmd : Command} {d : Done}
    (h : Returns env n ctx cmd args d) (hcmd : findCommand name = some cmd)
    (hnone : Query.ofTokens (name :: args) = none) : d.node.db = n.db := by
  cases h with
  | refused | help | helpOf | getOf | save | exit | shutdown => rfl
  | getEx hex => simp [Query.ofTokens, hcmd, hex] at hnone
  | _ => simp [Query.ofTokens, hcmd] at hnone

/-- A request that is no query leaves the store. -/
theorem processCommand_other (hnone : Query.parse req = none) {d : Done}
    (h : processCommand env n req ctx = .ok d) : d.node.db = n.db := by
  cases dispatches_of_processCommand h with
  | nomem => rfl
  | unknown => rfl
  | handled _ htok hcmd hd =>
    rw [Query.parse, htok] at hnone
    exact hd.other hcmd hnone

end Program

/-! ### Requests as inputs of a machine -/

/-- One request on a node, and what the client gets; a fault stops the node. -/
def Node.serve (n : Node) (x : ReqEnv × Str) : Node × Except Fault CmdCtx :=
  match processCommand x.1 n x.2 ⟨[], dbErrOk⟩ with
  | .ok d => (d.node, .ok d.ctx)
  | .error f => (n, .error f)

/-- The sum of an EXPIRE neither overflows nor is `LONG_MAX`. -/
def Query.SumFits (env : ReqEnv) : Query → Prop
  | expire _ d => longMin ≤ env.time₃ + CStr.atol d ∧ env.time₃ + CStr.atol d ≤ longMax ∧
    env.time₃ + CStr.atol d ≠ longMax
  | _ => True

instance (env : ReqEnv) (q : Query) : Decidable (q.SumFits env) := by
  cases q
  case expire => exact inferInstanceAs (Decidable (_ ∧ _ ∧ _))
  all_goals exact inferInstanceAs (Decidable True)

/-- Allocation succeeds, and so does the sum of an EXPIRE. -/
structure PlainRequest (x : ReqEnv × Str) : Prop where
  cmdArr : x.1.cmdArrOk = true
  malloc : x.1.mallocOk = true
  realloc : x.1.reallocOk = true
  sum : ∀ q ∈ Query.parse x.2, q.SumFits x.1

instance (x : ReqEnv × Str) : Decidable (PlainRequest x) :=
  decidable_of_iff (x.1.cmdArrOk = true ∧ x.1.mallocOk = true ∧ x.1.reallocOk = true ∧
    ∀ q ∈ Query.parse x.2, q.SumFits x.1)
    ⟨fun h => ⟨h.1, h.2.1, h.2.2.1, h.2.2.2⟩, fun h => ⟨h.1, h.2, h.3, h.4⟩⟩

/-- The readings of a clock at one time, with memory. -/
def envAt (now : ℤ) : ReqEnv := ⟨now, now, now, true, true, true, true, fun _ => true⟩

section Serve
variable {n : Node} {x : ReqEnv × Str} {q : Query}

theorem serve_nomem (hx : x.1.cmdArrOk = false) :
    n.serve x = (n, .ok ⟨[], dbErrOk⟩) := by
  rw [Node.serve, processCommand, if_pos hx]
  rfl

theorem serve_query (hx : x.1.cmdArrOk = true) (h : Query.parse x.2 = some q) :
    let r := q.run (Db.step maxAllowed) x.1 ⟨[], dbErrOk⟩ n.db
    n.serve x = ({ n with db := r.1 }, r.2) := by
  intro r
  have hrun : Handles n r (processCommand x.1 n x.2 ⟨[], dbErrOk⟩) := processCommand_query hx h
  rw [Node.serve]
  rcases hrun with ⟨ctx, res, hans, hrun⟩ | ⟨f, hr, hrun⟩
  · rw [hrun, hans]
  · rw [hrun, hr]

theorem serve_other (h : Query.parse x.2 = none) : (n.serve x).1.db = n.db := by
  rw [Node.serve]
  split
  · next d hrun => exact processCommand_other h hrun
  · rfl

theorem PlainRequest.call (hx : PlainRequest x) (q : Query) : (q.call x.1).Plain := by
  cases q with
  | set k v => exact hx.malloc
  | _ => trivial

theorem PlainRequest.next (hx : PlainRequest x) (h : Query.parse x.2 = some q) {c : Call}
    (hc : q.next x.1 = some c) : c.Plain := by
  cases q with
  | expire k d =>
    cases hc
    exact ⟨hx.realloc, hx.sum _ h⟩
  | _ => cases hc

/-- Only a GET can overrun the response buffer. -/
theorem run_of_overruns {bound : UInt64} {env : ReqEnv} {ctx : CmdCtx} {s : Db} {q : Query}
    (h : s.Overruns (q.call env)) :
    q.run (Db.step bound) env ctx s = (s, .error .outOfBounds) := by
  cases q with
  | get k =>
    rw [Query.run_single rfl, Query.call]
    rcases s.step_get_cases bound k env.time₁ with ⟨-, -, heq⟩ | ⟨hfits, -⟩
    · rw [heq]
      rfl
    · exact absurd h hfits
  | _ => exact h.elim

/-- A query on the store and on a map that it represents: the answers are the same unless the query
    overruns the response buffer. -/
theorem run_simulates {s : Db} {m : Flat} (hs : Simulates s m) (hx : PlainRequest x)
    (h : Query.parse x.2 = some q) (ctx : CmdCtx) :
    let r := q.run (Db.step maxAllowed) x.1 ctx s
    let r' := q.run (Flat.step maxAllowed.toNat) x.1 ctx m
    Simulates r.1 r'.1 ∧ (¬ s.Overruns (q.call x.1) → r.2 = r'.2) := by
  by_cases hlong : s.Overruns (q.call x.1)
  · refine ⟨?_, fun hfits => absurd hlong hfits⟩
    cases q with
    | get k =>
      rw [Query.run_single rfl, Query.run_single rfl]
      exact (simulates_step maxAllowed hs (.get k x.1.time₁) trivial).1
    | _ => exact hlong.elim
  · have hrun : Simulates (q.run (Db.step maxAllowed) x.1 ctx s).1
          (q.run (Flat.step maxAllowed.toNat) x.1 ctx m).1 ∧
        (q.run (Db.step maxAllowed) x.1 ctx s).2 =
          (q.run (Flat.step maxAllowed.toNat) x.1 ctx m).2 := Query.run_related
      ⟨(simulates_step maxAllowed hs _ (hx.call q)).1,
        (simulates_step maxAllowed hs _ (hx.call q)).2 hlong⟩
      fun c s' _ hc hs' =>
        have hfits : ¬ s'.Overruns c := by
          cases q <;> cases hc
          exact id
        ⟨(simulates_step maxAllowed hs' c (hx.next h hc)).1,
          (simulates_step maxAllowed hs' c (hx.next h hc)).2 hfits⟩
    exact ⟨hrun.1, fun _ => hrun.2⟩

end Serve

/-! ### Stores for examples -/

/-- A store that queries reach from the empty one, all at one time. -/
def queried (now : ℤ) (qs : List Query) : Db :=
  qs.foldl (fun s q => (q.run (Db.step maxAllowed) (envAt now) ⟨[], dbErrOk⟩ s).1) htInit

theorem served_queried {kind : Str → Prop} (now : ℤ) {qs : List Query}
    (h : ∀ q ∈ qs, ∀ w ∈ q.words, Word w) (hkind : ∀ q ∈ qs, kind (spell q.words)) :
    Served kind ⟨queried now qs, none⟩ := by
  induction qs using List.reverseRecOn with
  | nil => exact .start none
  | append_singleton qs q ih =>
    have hold : Served kind ⟨queried now qs, none⟩ :=
      ih (fun q' hq' => h q' (by simp [hq'])) fun q' hq' => hkind q' (by simp [hq'])
    have hq : Handles ⟨queried now qs, none⟩
        (q.run (Db.step maxAllowed) (envAt now) ⟨[], dbErrOk⟩ (queried now qs))
        (processCommand (envAt now) ⟨queried now qs, none⟩ (spell q.words) ⟨[], dbErrOk⟩) :=
      processCommand_query rfl (Query.parse_spell (h q (by simp)))
    rw [queried, List.foldl_append]
    rcases hq with ⟨ctx, res, -, hrun⟩ | ⟨f, hr, -⟩
    · exact .request hold (hkind q (by simp)) hrun
    · rw [List.foldl_cons, List.foldl_nil, ← queried, hr]
      exact hold

end SahDB
