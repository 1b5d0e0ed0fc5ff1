import SahDB.Missing
import SahDB.Answers
import SahDB.SafeRuns

/-! What an EXPIRE promises.

    A request on another key leaves the record of `k` (`exec_find_ne`), so the answers for `k` after
    an EXPIRE depend on the expiry it has written. That is the sum of the clock and the duration as
    a `time_t`: a sum past `LONG_MAX` has become negative and means long ago, and the sum -1 means
    no expiry. -/

namespace SahDB
open Db

/-! ### Other keys -/

section Steps
open Table
variable {s : Db} {k : Str}

theorem Call.Looks.key {c : Call} {now : ℤ} (h : c.Looks k now) : c.key = k := by
  cases c <;> first | exact h.1 | exact h.elim

/-- A call leaves the records of other keys. -/
theorem step_find_ne (hi : s.Inv) {c : Call} (h : k ≠ c.key) :
    (s.step maxAllowed c).1.table.find k = s.table.find k := by
  have hyields := hi.yields maxAllowed c
  generalize (s.step maxAllowed c).1 = s' at hyields ⊢
  cases hyields with
  | same => rfl
  | setValue hat =>
    rw [setValue_alloc_table hi hat]
    exact find_modify_ne s.table (fun _ => rfl) h
  | full => rw [alloc_table hi.fresh]
  | link =>
    rw [link_table hi.fresh]
    exact find_append_ne s.table h
  | lazily looks hat =>
    rw [lazyUnlink_table hi hat]
    exact find_remove_ne s.table (looks.key ▸ h)
  | delete hat =>
    rw [unlink_table hi hat]
    exact find_remove_ne s.table h
  | renew hat =>
    rw [(renewExpiry_table hi hat _ _ _).2]
    exact find_modify_ne s.table (fun _ => rfl) h

theorem Query.run_find_ne (hi : s.Inv) {env : ReqEnv} {ctx : CmdCtx} {q : Query} (h : k ≠ q.key) :
    (q.run (Db.step maxAllowed) env ctx s).1.table.find k = s.table.find k := by
  refine (run_invariant (P := fun s' : Db => s'.Inv ∧ s'.table.find k = s.table.find k)
    ⟨hi.step_inv maxAllowed _, step_find_ne hi (by rw [q.call_key]; exact h)⟩ ?_).2
  rintro c s' hc ⟨hi', h'⟩
  refine ⟨hi'.step_inv maxAllowed c, (step_find_ne hi' ?_).trans h'⟩
  rw [(next_key hc).1]
  exact h

end Steps

/-! ### Later requests -/

section Serve
variable {n : Node} {k : Str}

theorem serve_inv (h : n.db.Inv) (x : ReqEnv × Str) : (n.serve x).1.db.Inv :=
  serve_invariant h fun _ _ _ => Query.run_invariant (P := Db.Inv) (h.step_inv maxAllowed _)
    fun c _ _ hi => hi.step_inv maxAllowed c

/-- The request is on no key, or on another one. -/
def Avoids (k : Str) (x : ReqEnv × Str) : Prop := ∀ q ∈ Query.parse x.2, k ≠ q.key

theorem serve_find_ne (hi : n.db.Inv) {x : ReqEnv × Str} (hx : Avoids k x) :
    (n.serve x).1.db.table.find k = n.db.table.find k := by
  cases hmem : x.1.cmdArrOk with
  | false => rw [serve_nomem hmem]
  | true =>
    cases hq : Query.parse x.2 with
    | none => rw [serve_other hq]
    | some q =>
      rw [serve_query hmem hq]
      exact Query.run_find_ne hi (hx q hq)

/-- Requests that avoid `k` leave its record. -/
theorem exec_find_ne (h : n.db.Inv) {xs : List (ReqEnv × Str)} (hxs : ∀ x ∈ xs, Avoids k x) :
    (Mealy.exec Node.serve n xs).db.Inv ∧
      (Mealy.exec Node.serve n xs).db.table.find k = n.db.table.find k := by
  induction xs generalizing n with
  | nil => exact ⟨h, rfl⟩
  | cons x xs ih =>
    obtain ⟨hi, hfind⟩ := ih (serve_inv h x) fun y hy => hxs y (by simp [hy])
    exact ⟨hi, hfind.trans (serve_find_ne h (hxs x (by simp)))⟩

end Serve

/-! ### The record an EXPIRE leaves -/

section Expire
variable {s : Db} {k : Str}

/-- An EXPIRE that answers OK has written the sum. -/
theorem hashUpdateExpiry_find (hi : s.Inv) {d now now' : ℤ} {ok : Bool}
    (hok : (hashUpdateExpiry s k d now now' ok).2.code = dbErrOk) :
    ∃ e, s.table.find k = some e ∧ (hashUpdateExpiry s k d now now' ok).1.table.find k =
      some (e.setExpiry (timeT (now' + d))) := by
  have hne : dbErrKeyNotexist ≠ dbErrOk := by decide
  rw [hashUpdateExpiry_eq] at hok ⊢
  rcases hashGetKv_cases s k now with ⟨-, heq⟩ | ⟨a, pre, post, hat, ⟨-, heq⟩ | ⟨-, heq⟩⟩ <;>
    rw [heq] at hok ⊢
  · exact absurd hok hne
  · exact absurd hok hne
  · refine ⟨s.kv a, hat.find, ?_⟩
    dsimp only
    rw [(renewExpiry_table hi hat d now' ok).2]
    refine (Table.find_modify_self s.table k (f := Kv.setExpiry _) fun _ => rfl).trans ?_
    rw [hat.find]
    rfl

/-- The question whether a live key exists leaves the table. -/
theorem hashExists_table (hi : s.Inv) {e : Kv} (hfind : s.table.find k = some e) {now : ℤ}
    (hlive : ¬ e.Expired now) : (hashExists s k now).1.table = s.table := by
  rw [hashExists, hashRead_eq, (hashGetKv_spec hi k now).2.1, Table.touch_live hfind hlive]

theorem serve_expire {n : Node} (hi : n.db.Inv) {x : ReqEnv × Str} {w : Str}
    (hx : Query.parse x.2 = some (.expire k w)) (hok : (n.serve x).2 = .ok ⟨str "OK", dbErrOk⟩) :
    ∃ e, n.db.table.find k = some e ∧
      (n.serve x).1.db.table.find k = some (e.setExpiry (timeT (x.1.time₃ + CStr.atol w))) := by
  cases hmem : x.1.cmdArrOk with
  | false =>
    rw [serve_nomem hmem] at hok
    cases hok
  | true =>
    rw [serve_query hmem hx] at hok ⊢
    by_cases hf : Query.Found (n.db.step maxAllowed ((Query.expire k w).call x.1)).2
    · obtain ⟨e, hfind, hlive⟩ := (hashRead_code_iff n.db _ _ k x.1.time₁).mp hf
      rw [Query.run_found rfl hf] at hok ⊢
      have hsaid : Says dbErrOk (.ok ⟨str "OK", dbErrOk⟩) := rfl
      have hcode := (Query.fill_missing (hashUpdateExpiry_text _ _ _ _ _ _)).unique (hok ▸ hsaid)
      obtain ⟨e', hfind', hnew⟩ := hashUpdateExpiry_find (hashRead_inv hi _ _ k x.1.time₁) hcode
      rw [← hashExists, hashExists_table hi hfind hlive] at hfind'
      exact ⟨e', hfind', hnew⟩
    · rw [Query.run_not_found hf] at hok
      have hsaid : Says dbErrOk (.ok ⟨str "OK", dbErrOk⟩) := rfl
      exact absurd ((Query.fill_missing (hashExists_text _ _ _)).unique (hok ▸ hsaid)) hf

/-- EXPIRE of a live key answers OK if there is memory. -/
theorem serve_expire_ok {n : Node} (hi : n.db.Inv) {x : ReqEnv × Str} {w : Str}
    (hx : Query.parse x.2 = some (.expire k w)) (hmem : x.1.cmdArrOk = true)
    (hrealloc : x.1.reallocOk = true) {e : Kv} (hfind : n.db.table.find k = some e)
    (h1 : ¬ e.Expired x.1.time₁) (h2 : ¬ e.Expired x.1.time₂) :
    (n.serve x).2 = .ok ⟨str "OK", dbErrOk⟩ := by
  have hf : Query.Found (n.db.step maxAllowed ((Query.expire k w).call x.1)).2 :=
    (hashRead_code_iff n.db _ _ k x.1.time₁).mpr ⟨e, hfind, h1⟩
  have hsame := hashExists_table hi hfind h1
  have hupdate : (hashUpdateExpiry (hashExists n.db k x.1.time₁).1 k (CStr.atol w) x.1.time₂
      x.1.time₃ x.1.reallocOk).2 = ⟨dbErrOk, str "OK"⟩ := by
    rw [hashUpdateExpiry_eq, hrealloc]
    rcases hashGetKv_cases (hashExists n.db k x.1.time₁).1 k x.1.time₂ with
      ⟨hn, -⟩ | ⟨a, pre, post, hat, ⟨he, -⟩ | ⟨-, heq⟩⟩
    · rw [hsame, hfind] at hn
      cases hn
    · have hkv := hat.find
      rw [hsame, hfind] at hkv
      exact absurd (Option.some.inj hkv ▸ he) h2
    · rw [heq]
      exact renewExpiry_ok _ a _ _
  rw [serve_query hmem hx, Query.run_found rfl hf]
  exact congrArg (fun r => CmdCtx.fill (fillCmdCtx ⟨[], dbErrOk⟩ _ _) (.reply r)) hupdate

/-- GET returns and finds the key. -/
def GetFinds (s : Db) (k : Str) (now : ℤ) : Prop :=
  ∃ v, (hashGet s k now).map Prod.snd = .ok ⟨dbErrOk, v⟩

/-- GET finds a record that has not expired. -/
theorem getFinds_iff (hi : s.Inv) {e : Kv} (hfind : s.table.find k = some e) (he : Narrow e)
    (now : ℤ) : GetFinds s k now ↔ ¬ e.Expired now := by
  rw [GetFinds, hashGet_spec hi]
  by_cases hexp : e.Expired now
  · rw [Table.touch_expired hfind hexp]
    refine iff_of_false ?_ (not_not.mpr hexp)
    rintro ⟨v, hv⟩
    exact absurd (congrArg Reply.code (Except.ok.inj hv))
      (show dbErrKeyNotexist ≠ dbErrOk by decide)
  · rw [Table.touch_live hfind hexp]
    exact iff_of_true ⟨e.value, if_pos he⟩ hexp

end Expire

/-- The written sum orders all later times as the sum itself does, unless it is -1 or too large. -/
theorem expired_exact_iff {sum t : ℤ} (h0 : 0 ≤ t) (h1 : t ≤ longMax) (hlow : longMin ≤ sum)
    (hhigh : sum ≤ 2 * longMax) :
    (∀ t', t ≤ t' → (¬ (timeT sum ≠ -1 ∧ timeT sum ≤ t') ↔ t' < sum)) ↔
      sum ≤ longMax ∧ sum ≠ -1 := by
  rcases le_or_gt sum longMax with hle | hgt
  · rw [timeT_of_mem hlow hle]
    constructor
    · intro hall
      refine ⟨hle, ?_⟩
      rintro rfl
      have := (hall t le_rfl).mp fun hc => hc.1 rfl
      omega
    · rintro ⟨-, hne⟩ t' -
      omega
  · -- the sum has become negative
    have hwrap : timeT sum = sum - 2 ^ 64 := by
      simp only [timeT, Int.bmod_def, longMax] at hgt hhigh ⊢
      split_ifs <;> omega
    refine iff_of_false (fun hall => ?_) fun hc => absurd hc.1 (not_le.mpr hgt)
    have hnow := hall t le_rfl
    rw [hwrap] at hnow
    simp only [longMax] at h1 hgt hhigh
    omega

/-- CORRECT: in every run of requests that fit the command buffer, and in which no DELETE meets an
    entry in the heap with expiry `LONG_MAX`, the heap points to entries of the table only; and for
    every EXPIRE of `k` in it that answers OK, at time `t` and with duration `d`, in the absence of
    requests on `k` a GET of `k` at any `t' ≥ t` succeeds if and only if `t' < t + d`, exactly when
    `t + d` is at most `LONG_MAX` and not -1. -/
theorem expire_exact_iff {n₀ : Node} (h : Started n₀.db) {pre : List (ReqEnv × Str)}
    (hlen : ∀ y ∈ pre, y.2.length < maxCmdLen) (hpins : Mealy.Never Node.serve Pins n₀ pre)
    {x : ReqEnv × Str} {k w : Str} (hx : Query.parse x.2 = some (.expire k w))
    (hok : ((Mealy.exec Node.serve n₀ pre).serve x).2 = .ok ⟨str "OK", dbErrOk⟩)
    (h0 : 0 ≤ x.1.time₃) (h1 : x.1.time₃ ≤ longMax) :
    let n := ((Mealy.exec Node.serve n₀ pre).serve x).1
    (∀ xs, Mealy.Never Node.serve Pins n xs → (Mealy.exec Node.serve n xs).db.NoDangling) ∧
    ((∀ xs, Mealy.Never Node.serve Pins n xs → (∀ y ∈ xs, Avoids k y) → ∀ t', x.1.time₃ ≤ t' →
        (GetFinds (Mealy.exec Node.serve n xs).db k t' ↔ t' < x.1.time₃ + CStr.atol w)) ↔
      x.1.time₃ + CStr.atol w ≤ longMax ∧ x.1.time₃ + CStr.atol w ≠ -1) := by
  intro n
  have hbefore : (Mealy.exec Node.serve n₀ pre).db.Safe := h.safe.exec hlen hpins
  have howned : n.db.Owned := hbefore.owned.serve fun ⟨_, q, hq, hpin⟩ => by
    cases hx.symm.trans hq
    exact hpin
  refine ⟨fun xs hxs => (howned.exec hxs).noDangling, ?_⟩
  obtain ⟨e, hold, hfind⟩ := serve_expire hbefore.owned.inv hx hok
  have hget : ∀ xs, Mealy.Never Node.serve Pins n xs → (∀ y ∈ xs, Avoids k y) → ∀ t',
      (GetFinds (Mealy.exec Node.serve n xs).db k t' ↔
        ¬ (timeT (x.1.time₃ + CStr.atol w) ≠ -1 ∧ timeT (x.1.time₃ + CStr.atol w) ≤ t')) := by
    intro xs hpins hxs t'
    obtain ⟨hi, hsame⟩ := exec_find_ne howned.inv hxs
    exact getFinds_iff hi (hsame.trans hfind) (hbefore.narrow.find hold : Narrow e) t'
  obtain ⟨hlow, hhigh⟩ := atol_range w
  rw [← expired_exact_iff h0 h1 (by omega) (by omega)]
  constructor
  · intro hall t' ht'
    rw [← hall [] Mealy.never_nil (by simp) t' ht', hget [] Mealy.never_nil (by simp) t']
  · intro hall xs hp hxs t' ht'
    rw [hget xs hp hxs t']
    exact hall t' ht'

/-- EXPIRE k d at 100, after SET k v. -/
def expireSet (d : Str) : ReqEnv × Str := (envAt 100, spell (Query.expire (str "k") d).words)

theorem expireSet_parse {d : Str} (hd : Word d) :
    Query.parse (expireSet d).2 = some (.expire (str "k") d) := by
  refine Query.parse_spell fun w hw => ?_
  simp only [Query.words, List.mem_cons, List.not_mem_nil, or_false] at hw
  rcases hw with rfl | rfl | rfl
  · decide
  · decide
  · exact hd

theorem expireSet_ok {d : Str} (hd : Word d) :
    (Node.serve ⟨setOnly, none⟩ (expireSet d)).2 = .ok ⟨str "OK", dbErrOk⟩ :=
  serve_expire_ok setOnly_reached.inv_records.1 (expireSet_parse hd) rfl rfl setOnly_fits.2.2.2
    (fun hexp => hexp.1 rfl) fun hexp => hexp.1 rfl

/-- After SET k v and EXPIRE k 5 at 100, a GET of k at 104 finds it, also with another key set
    meanwhile. -/
theorem expire_exact_iff_short :
    let n := ((Mealy.exec Node.serve ⟨htInit, none⟩ [(envAt 100, str "SET k v")]).serve
      (envAt 100, str "EXPIRE k 5")).1
    GetFinds (Mealy.exec Node.serve n [(envAt 102, str "SET a b")]).db (str "k") 104 := by
  have hset : Query.parse (spell (Query.set (str "a") (str "b")).words) = _ :=
    Query.parse_spell (by decide)
  have hstart : Started (Node.mk htInit none).db := .empty
  have hlen : ∀ y ∈ [(envAt 100, str "SET k v")], y.2.length < maxCmdLen := by decide
  obtain ⟨-, hexact⟩ := expire_exact_iff hstart hlen (never_pins (by decide +kernel))
    (expireSet_parse (show Word (str "5") by decide)) (by decide +kernel) (by decide) (by decide)
  refine (hexact.mpr (by decide) [(envAt 102, str "SET a b")]
    (never_pins (by decide +kernel))
    (fun y hy q hq => ?_) 104 (by decide)).mpr (by decide)
  rw [List.mem_singleton.mp hy] at hq
  cases hset.symm.trans hq
  decide

/-- EXPIRE k -101 at 100 answers OK, and then GET k at 100 finds k, which does not expire. -/
theorem negative_expire_persists :
    ¬ ∀ n, Reached n → ∀ (x : ReqEnv × Str) (k w : Str), Query.parse x.2 = some (.expire k w) →
      (n.serve x).2 = .ok ⟨str "OK", dbErrOk⟩ → 0 ≤ x.1.time₃ → x.1.time₃ ≤ longMax →
        ∀ xs, (∀ y ∈ xs, Avoids k y) → ∀ t', x.1.time₃ ≤ t' →
          (GetFinds (Mealy.exec Node.serve (n.serve x).1 xs).db k t' ↔
            t' < x.1.time₃ + CStr.atol w) := by
  intro h
  have hword : Word (str "-101") := by decide
  have hget := h _ setOnly_reached (expireSet (str "-101")) _ _ (expireSet_parse hword)
    (expireSet_ok hword) (by decide) (by decide) [] (by simp) 100 (by decide)
  have hi := setOnly_reached.inv_records.1
  obtain ⟨e, hold, hfind⟩ := serve_expire hi (expireSet_parse hword) (expireSet_ok hword)
  cases setOnly_fits.2.2.2.symm.trans hold
  have hlive := getFinds_iff (serve_inv hi _) hfind (show Narrow _ by unfold Narrow; decide) 100
  exact absurd (hget.mp (hlive.mpr fun hc => hc.1 (by decide))) (by decide)

end SahDB
