import SahDB.Clients

/-! Missing stays missing.

    A GET, GET ex, EXISTS or EXPIRE reports its key missing exactly if the flat map has no entry for
    it afterwards (`run_asks`). No other query maps the key, and a request that is no query leaves
    the map; only a SET that succeeds does (`serve_unmapped`). -/

namespace SahDB

/-- The call looks up its key and reports if it is missing. -/
def Call.Reads : Call → Prop
  | .get _ _ | .getExpiry _ _ | .exists_ _ _ | .updateExpiry _ _ _ _ _ => True
  | _ => False

namespace Flat
variable {m : Flat} {k : Str}

theorem touch_cases (m : Flat) (k : Str) (now : ℤ) :
    (m.touch k now).1 = none ∧ (m.touch k now).2.lookup k = none ∨
    ∃ e, m.touch k now = (some e, m) ∧ m.lookup k = some e := by
  unfold touch
  cases hl : m.lookup k with
  | none => exact Or.inl ⟨rfl, hl⟩
  | some e =>
    dsimp only
    split_ifs
    · exact Or.inl ⟨rfl, AList.lookup_erase k m⟩
    · exact Or.inr ⟨e, rfl, rfl⟩

/-- A reply to a lookup of `k`: it reports the key missing, and then it is, or it is found. -/
def Looks (k : Str) (before after : Flat) (r : Reply) : Prop :=
  (r.code = dbErrKeyNotexist ∧ r.text ≠ [] ∧ after.lookup k = none) ∨
  (r.code = 0 ∧ before.lookup k ≠ none)

theorem read_looks {missing : Str} (hm : missing ≠ []) (found : Str × ℤ → Str) (m : Flat)
    (k : Str) (now : ℤ) :
    Looks k m (m.read missing found k now).1 (m.read missing found k now).2 := by
  rcases touch_cases m k now with ⟨hnone, hl⟩ | ⟨e, hsome, hl⟩
  · refine Or.inl ?_
    rw [read_fst]
    refine ⟨?_, ?_, hl⟩ <;> unfold read <;> generalize m.touch k now = r at hnone <;>
      obtain ⟨o, m'⟩ := r <;> cases hnone
    · rfl
    · exact hm
  · refine Or.inr ⟨?_, by rw [hl]; exact Option.some_ne_none e⟩
    rw [read, hsome]

theorem expire_looks (m : Flat) (k : Str) (d now now' : ℤ) :
    Looks k m (m.expire k d now now').1 (m.expire k d now now').2 := by
  unfold expire
  rcases touch_cases m k now with ⟨hnone, hl⟩ | ⟨e, hsome, hl⟩
  · refine Or.inl ?_
    generalize m.touch k now = r at hnone hl
    obtain ⟨o, m'⟩ := r
    cases hnone
    exact ⟨rfl, show str "NULL" ≠ [] by decide, hl⟩
  · rw [hsome]
    exact Or.inr ⟨rfl, by rw [hl]; exact Option.some_ne_none e⟩

theorem step_looks (bound : ℕ) (m : Flat) {c : Call} (hc : c.Reads) :
    ∃ r, (m.step bound c).2 = .reply r ∧ Looks c.key m (m.step bound c).1 r := by
  cases c with
  | get k now => exact ⟨_, rfl, read_looks (by decide) _ m k now⟩
  | getExpiry k now => exact ⟨_, rfl, read_looks (by decide) _ m k now⟩
  | exists_ k now => exact ⟨_, rfl, read_looks (by decide) _ m k now⟩
  | updateExpiry k d now now' ok => exact ⟨_, rfl, expire_looks m k d now now'⟩
  | _ => exact absurd hc id

end Flat

/-! ### Queries -/

/-- The client gets an answer with this status. -/
def Says (status : Err) : Except Fault CmdCtx → Prop
  | .ok ctx => ctx.status = status
  | .error _ => False

instance (status : Err) (out : Except Fault CmdCtx) : Decidable (Says status out) := by
  cases out
  · exact inferInstanceAs (Decidable False)
  · exact inferInstanceAs (Decidable (_ = _))

theorem Says.unique {a b : Err} {out : Except Fault CmdCtx} (h : Says a out) (h' : Says b out) :
    a = b := by
  cases out with
  | ok ctx => exact h.symm.trans h'
  | error f => exact h.elim

namespace Query

/-- The queries that report their key missing. -/
def Asks : Query → Prop
  | get _ | getEx _ | exists_ _ | expire _ _ => True
  | _ => False

theorem Asks.call {q : Query} (h : q.Asks) (env : ReqEnv) : (q.call env).Reads := by
  cases q <;> first | exact trivial | exact absurd h id

theorem next_reads {env : ReqEnv} {q : Query} {c : Call} (h : q.next env = some c) : c.Reads := by
  cases q with
  | expire k d => cases h; exact trivial
  | _ => cases h

section Run
variable {env : ReqEnv} {bound : ℕ} {m : Flat} {q : Query}

theorem fill_missing {ctx : CmdCtx} {r : Reply} (h : r.text ≠ []) :
    Says r.code (ctx.fill (.reply r)) := by
  simp only [CmdCtx.fill, fillCmdCtx, if_neg h, Says]

theorem fill_found {ctx : CmdCtx} {r : Reply} (hctx : ctx.status = 0) (hr : r.code = 0) :
    Says 0 (ctx.fill (.reply r)) := by
  simp only [CmdCtx.fill, fillCmdCtx, Says]
  split_ifs
  · exact hctx
  · exact hr

/-- A query that asks for its key reports it missing if it is, and only if it is afterwards. -/
theorem run_asks (hq : q.Asks) :
    let r := q.run (Flat.step bound) env ⟨[], dbErrOk⟩ m
    (Says dbErrKeyNotexist r.2 → r.1.lookup q.key = none) ∧
      (m.lookup q.key = none → Says dbErrKeyNotexist r.2) := by
  have hne : (0 : Err) ≠ dbErrKeyNotexist := by decide
  obtain ⟨r₁, hans₁, hlook₁⟩ := Flat.step_looks bound m (hq.call env)
  rw [q.call_key] at hlook₁
  rcases hlook₁ with ⟨hcode₁, htext₁, hl₁⟩ | ⟨hcode₁, hl₁⟩
  · have hf : ¬ Found (m.step bound (q.call env)).2 := by
      rw [hans₁]
      exact fun hc : r₁.code = 0 => hne (hc.symm.trans hcode₁)
    rw [run_not_found hf, hans₁]
    exact ⟨fun _ => hl₁, fun _ => hcode₁ ▸ fill_missing htext₁⟩
  · have hf : Found (m.step bound (q.call env)).2 := by
      rw [hans₁]
      exact hcode₁
    have hzero : Says 0 (CmdCtx.fill ⟨[], dbErrOk⟩ (.reply r₁)) := fill_found rfl hcode₁
    cases hnext : q.next env with
    | none =>
      rw [run_single hnext, hans₁]
      exact ⟨fun hc => absurd (hzero.unique hc) hne, fun hc => absurd hc hl₁⟩
    | some c =>
      obtain ⟨r₂, hans₂, hlook₂⟩ :=
        Flat.step_looks bound (m.step bound (q.call env)).1 (next_reads hnext)
      rw [(next_key hnext).1] at hlook₂
      rw [run_found hnext hf, hans₁, hans₂]
      refine ⟨fun hc => ?_, fun hc => absurd hc hl₁⟩
      rcases hlook₂ with ⟨-, -, hl₂⟩ | ⟨hcode₂, -⟩
      · exact hl₂
      · exact absurd (Says.unique (fill_found hzero hcode₂) hc) hne

theorem run_lookup_ne {k : Str} {ctx : CmdCtx} (h : k ≠ q.key) :
    (q.run (Flat.step bound) env ctx m).1.lookup k = m.lookup k := by
  refine run_invariant (P := fun m' : Flat => m'.lookup k = m.lookup k)
    (Flat.step_lookup_ne bound m (by rw [q.call_key]; exact h)) fun c m' hc h' => ?_
  refine (Flat.step_lookup_ne bound m' ?_).trans h'
  rw [(next_key hc).1]
  exact h

/-- A key that is not mapped stays so, but for a SET that succeeds. -/
theorem run_unmapped {k : Str} (hk : m.lookup k = none) :
    let r := q.run (Flat.step bound) env ⟨[], dbErrOk⟩ m
    r.1.lookup k = none ∨ ∃ v, q = .set k v ∧ Says 0 r.2 := by
  rcases eq_or_ne k q.key with rfl | hne
  · by_cases hasks : q.Asks
    · exact Or.inl ((run_asks hasks).1 ((run_asks hasks).2 hk))
    · cases q with
      | set k v =>
        have hk : m.lookup k = none := hk
        rw [run_single rfl]
        simp only [call, key, Flat.step, Flat.set, hk]
        split_ifs
        · exact Or.inl hk
        · exact Or.inr ⟨v, rfl, rfl⟩
      | delete k =>
        have hk : m.lookup k = none := hk
        rw [run_single rfl]
        simp only [call, key, Flat.step, Flat.delete, hk]
        exact Or.inl hk
      | _ => exact absurd trivial hasks
  · exact Or.inl ((run_lookup_ne hne).trans hk)

end Run

end Query

/-! ### Requests -/

/-- The request asks for `k`: GET, GET ex, EXISTS or EXPIRE. -/
def AsksFor (k : Str) (x : ReqEnv × Str) : Prop :=
  ∃ q, Query.parse x.2 = some q ∧ q.Asks ∧ q.key = k

/-- A SET of `k` that succeeds. -/
def Sets (k : Str) (z : (ReqEnv × Str) × Except Fault CmdCtx) : Prop :=
  (∃ v, Query.parse z.1.2 = some (.set k v)) ∧ Says 0 z.2

/-- The node represents a map without `k`. -/
def Unmapped (k : Str) (n : Node) : Prop := ∃ m, Simulates n.db m ∧ m.lookup k = none

section Serve
variable {n : Node} {x : ReqEnv × Str} {k : Str}

/-- Every request keeps the node a map. -/
theorem serve_represents (h : ∃ m, Simulates n.db m) (hx : PlainRequest x) :
    ∃ m, Simulates (n.serve x).1.db m := by
  obtain ⟨m, hs⟩ := h
  cases hq : Query.parse x.2 with
  | none =>
    rw [serve_other hq]
    exact ⟨m, hs⟩
  | some q =>
    rw [serve_query hx.cmdArr hq]
    exact ⟨_, (run_simulates hs hx hq _).1⟩

/-- A key that is not mapped stays so, but for a SET that succeeds. -/
theorem serve_unmapped (h : Unmapped k n) (hx : PlainRequest x)
    (hset : ¬ Sets k (x, (n.serve x).2)) :
    Unmapped k (n.serve x).1 := by
  obtain ⟨m, hs, hk⟩ := h
  cases hq : Query.parse x.2 with
  | none =>
    rw [Unmapped, serve_other hq]
    exact ⟨m, hs, hk⟩
  | some q =>
    obtain ⟨hs', hans⟩ := run_simulates hs hx hq ⟨[], dbErrOk⟩
    rw [serve_query hx.cmdArr hq] at hset ⊢
    refine ⟨_, hs', (Query.run_unmapped hk).resolve_right ?_⟩
    rintro ⟨v, rfl, hstatus⟩
    exact hset ⟨⟨v, hq⟩, hans id ▸ hstatus⟩

/-- The answer to a query that reports its key missing is the map's answer. -/
theorem says_missing_iff {m : Flat} (hs : Simulates n.db m) (hx : PlainRequest x) {q : Query}
    (hq : Query.parse x.2 = some q) :
    Says dbErrKeyNotexist (n.serve x).2 ↔ ¬ n.db.Overruns (q.call x.1) ∧
      Says dbErrKeyNotexist (q.run (Flat.step maxAllowed.toNat) x.1 ⟨[], dbErrOk⟩ m).2 := by
  rw [serve_query hx.cmdArr hq]
  by_cases hlong : n.db.Overruns (q.call x.1)
  · rw [run_of_overruns hlong]
    exact iff_of_false id fun h => h.1 hlong
  · rw [← (run_simulates hs hx hq ⟨[], dbErrOk⟩).2 hlong]
    exact (and_iff_right hlong).symm

/-- A report that `k` is missing is right. -/
theorem unmapped_of_says (h : ∃ m, Simulates n.db m) (hx : PlainRequest x) (ha : AsksFor k x)
    (hs : Says dbErrKeyNotexist (n.serve x).2) : Unmapped k (n.serve x).1 := by
  obtain ⟨m, hsim⟩ := h
  obtain ⟨q, hq, hasks, rfl⟩ := ha
  have hsaid := ((says_missing_iff hsim hx hq).mp hs).2
  rw [serve_query hx.cmdArr hq]
  exact ⟨_, (run_simulates hsim hx hq _).1, (Query.run_asks hasks).1 hsaid⟩

/-- And a key that is not mapped is reported missing. -/
theorem says_of_unmapped (h : Unmapped k n) (hx : PlainRequest x) (ha : AsksFor k x) :
    Says dbErrKeyNotexist (n.serve x).2 := by
  obtain ⟨m, hsim, hk⟩ := h
  obtain ⟨q, hq, hasks, rfl⟩ := ha
  refine (says_missing_iff hsim hx hq).mpr ⟨fun hlong => ?_, (Query.run_asks hasks).2 hk⟩
  obtain ⟨e, hl⟩ := Flat.Overruns.lookup ((hsim.overruns_iff _).mp hlong)
  rw [q.call_key, hk] at hl
  cases hl

end Serve

/-- CORRECT: in every run of requests from an empty store, with any clock readings, once a GET,
    GET ex, EXISTS or EXPIRE has reported `k` missing, every later one on `k` reports it missing
    until a SET of `k` succeeds. -/
theorem missing_stays_missing (disk : Option Str) (xs : List (ReqEnv × Str))
    (hplain : ∀ x ∈ xs, PlainRequest x) (k : Str)
    (a b c : List ((ReqEnv × Str) × Except Fault CmdCtx))
    (x y : (ReqEnv × Str) × Except Fault CmdCtx)
    (hrun : Mealy.trace Node.serve ⟨htInit, disk⟩ xs = a ++ x :: (b ++ y :: c))
    (hx : AsksFor k x.1) (hmissing : Says dbErrKeyNotexist x.2) (hset : ∀ z ∈ b, ¬ Sets k z)
    (hy : AsksFor k y.1) : Says dbErrKeyNotexist y.2 := by
  obtain ⟨is₁, is₂, rfl, -, h₂⟩ := Mealy.trace_split hrun
  obtain ⟨i, is₃, rfl, rfl, h₃⟩ := Mealy.trace_cons h₂
  obtain ⟨is₄, is₅, rfl, rfl, h₅⟩ := Mealy.trace_split h₃
  obtain ⟨j, is₆, rfl, rfl, -⟩ := Mealy.trace_cons h₅
  -- the first report leaves the key unmapped
  have hstart : ∃ m, Simulates (Mealy.exec Node.serve ⟨htInit, disk⟩ is₁).db m := by
    refine Mealy.exec_of_trace (I := fun n : Node => ∃ m, Simulates n.db m)
      (G := fun z => PlainRequest z.1) (fun n x h hx => serve_represents h hx)
      ⟨∅, simulates_init⟩ fun z hz => hplain z.1 ?_
    exact List.mem_append_left _ (Mealy.fst_mem_of_trace hz)
  have hgone := unmapped_of_says hstart (hplain i (by simp)) hx hmissing
  -- and it stays so up to the second request
  have hstays := Mealy.exec_of_trace (I := Unmapped k)
    (G := fun z => PlainRequest z.1 ∧ ¬ Sets k z) (fun n x h hx => serve_unmapped h hx.1 hx.2)
    hgone fun z hz => ⟨hplain z.1 (by simp [Mealy.fst_mem_of_trace hz]), hset z hz⟩
  exact says_of_unmapped hstays (hplain j (by simp)) hy

/-- A key that expired at 105 is missing at 110, and is so again when the clock has stepped back. -/
theorem missing_stays_missing_back :
    let xs : List (ReqEnv × Str) := [(envAt 100, str "SET a 1"), (envAt 100, str "EXPIRE a 5"),
      (envAt 110, str "GET a"), (envAt 90, str "SAVE"), (envAt 90, str "GET a")]
    Says dbErrKeyNotexist ((Mealy.exec Node.serve ⟨htInit, none⟩ (xs.take 4)).serve
      (envAt 90, str "GET a")).2 := by
  intro xs
  have hget : Query.parse (str "GET a") = some (.get (str "a")) := by decide +kernel
  have hsave : Query.parse (str "SAVE") = none := by decide +kernel
  have hasks : ∀ now, AsksFor (str "a") (envAt now, str "GET a") := fun now =>
    ⟨.get (str "a"), hget, trivial, rfl⟩
  refine missing_stays_missing none xs (by decide +kernel) (str "a")
    (Mealy.trace Node.serve ⟨htInit, none⟩ (xs.take 2))
    (Mealy.trace Node.serve (Mealy.exec Node.serve ⟨htInit, none⟩ (xs.take 3))
      [(envAt 90, str "SAVE")]) []
    ((envAt 110, str "GET a"), _) ((envAt 90, str "GET a"), _) rfl (hasks 110)
    (by decide +kernel) (fun z hz => ?_) (hasks 90)
  rintro ⟨⟨v, hv⟩, -⟩
  rw [List.mem_singleton.mp hz] at hv
  cases hsave.symm.trans hv

end SahDB
