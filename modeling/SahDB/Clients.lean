import SahDB.Queries

/-! Clients on disjoint keys do not interfere.

    A call reads and changes its own key only (`step_lookup_ne`, `step_local`), as long as the map
    is below its bound. So a map restricted to the keys of one client (`Restricts`) moves with the
    requests of this client and stays still under those of the others. -/

namespace SahDB

/-- The key of a call. -/
def Call.key : Call → Str
  | .insert k _ _ | .get k _ | .getExpiry k _ | .exists_ k _ | .getKv k _ | .delete k
  | .updateExpiry k _ _ _ _ => k

/-- The call may add a key. -/
def Call.Adds : Call → Prop
  | .insert _ _ _ => True
  | _ => False

namespace Flat
variable {m m' : Flat} {j k : Str}

/-! ### A call works on its own key -/

theorem touch_lookup_ne (h : j ≠ k) (now : ℤ) : (m.touch k now).2.lookup j = m.lookup j := by
  unfold touch
  split
  · rfl
  · split_ifs
    · exact AList.lookup_erase_ne h
    · rfl

/-- A read leaves the map that looking up its key leaves. -/
theorem read_fst (missing : Str) (found : Str × ℤ → Str) (m : Flat) (k : Str) (now : ℤ) :
    (m.read missing found k now).1 = (m.touch k now).2 := by
  unfold read
  generalize m.touch k now = r
  obtain ⟨_ | e, m'⟩ := r <;> rfl

theorem read_lookup_ne (h : j ≠ k) (missing : Str) (found : Str × ℤ → Str) (now : ℤ) :
    (m.read missing found k now).1.lookup j = m.lookup j := by
  rw [read_fst]
  exact touch_lookup_ne h now

/-- Other keys keep their entries. -/
theorem step_lookup_ne (bound : ℕ) (m : Flat) {c : Call} (h : j ≠ c.key) :
    (m.step bound c).1.lookup j = m.lookup j := by
  cases c with
  | insert k v ok =>
    have hj : j ≠ k := h
    simp only [step, set]
    split
    · exact AList.lookup_insert_ne hj
    · split_ifs
      · rfl
      · exact AList.lookup_insert_ne hj
  | get k now => exact read_lookup_ne h _ _ now
  | getExpiry k now => exact read_lookup_ne h _ _ now
  | exists_ k now => exact read_lookup_ne h _ _ now
  | getKv k now => exact touch_lookup_ne h now
  | delete k =>
    have hj : j ≠ k := h
    simp only [step, delete]
    split_ifs
    · exact AList.lookup_erase_ne hj
    · rfl
  | updateExpiry k d now now' ok =>
    have hj : j ≠ k := h
    have ht := touch_lookup_ne (m := m) hj now
    simp only [step, expire]
    generalize m.touch k now = r at ht
    obtain ⟨_ | e, m'⟩ := r
    · exact ht
    · exact (AList.lookup_insert_ne hj).trans ht

theorem touch_local (h : m.lookup k = m'.lookup k) (now : ℤ) :
    (m.touch k now).1 = (m'.touch k now).1 ∧
      (m.touch k now).2.lookup k = (m'.touch k now).2.lookup k := by
  unfold touch
  rw [← h]
  cases hl : m.lookup k with
  | none => exact ⟨rfl, h⟩
  | some e =>
    dsimp only
    split_ifs
    · exact ⟨rfl, by rw [AList.lookup_erase, AList.lookup_erase]⟩
    · exact ⟨rfl, h⟩

theorem read_local (h : m.lookup k = m'.lookup k) (missing : Str) (found : Str × ℤ → Str)
    (now : ℤ) : (m.read missing found k now).2 = (m'.read missing found k now).2 ∧
      (m.read missing found k now).1.lookup k = (m'.read missing found k now).1.lookup k := by
  obtain ⟨hans, hl⟩ := touch_local h now
  rw [read_fst, read_fst]
  refine ⟨?_, hl⟩
  unfold read
  generalize m.touch k now = r at hans
  generalize m'.touch k now = r' at hans
  obtain ⟨o, m₁⟩ := r
  obtain ⟨o', m₁'⟩ := r'
  obtain rfl : o = o' := hans
  cases o <;> rfl

/-- Two maps that agree on the key of a call, and have room, answer alike and agree again. -/
theorem step_local (bound : ℕ) {c : Call} (h : m.lookup c.key = m'.lookup c.key)
    (hroom : c.Adds → m.size + 1 < bound ∧ m'.size + 1 < bound) :
    (m.step bound c).2 = (m'.step bound c).2 ∧
      (m.step bound c).1.lookup c.key = (m'.step bound c).1.lookup c.key := by
  cases c with
  | insert k v ok =>
    have hk : m.lookup k = m'.lookup k := h
    simp only [step, set, Call.key]
    rw [← hk]
    cases hl : m.lookup k with
    | none =>
      dsimp only
      obtain ⟨hm, hm'⟩ := hroom trivial
      rw [if_neg (not_le.mpr hm), if_neg (not_le.mpr hm'), AList.lookup_insert,
        AList.lookup_insert]
      exact ⟨rfl, rfl⟩
    | some e =>
      dsimp only
      rw [AList.lookup_insert, AList.lookup_insert]
      exact ⟨rfl, rfl⟩
  | get k now =>
    obtain ⟨hans, hl⟩ := read_local h (str "ERR") (fun e => e.1) now
    exact ⟨congrArg Answer.reply hans, hl⟩
  | getExpiry k now =>
    obtain ⟨hans, hl⟩ := read_local h (red ++ str "ERR" ++ reset)
      (fun e => if e.2 ≠ -1 then showSizeT e.2 else red ++ str "NULL" ++ reset) now
    exact ⟨congrArg Answer.reply hans, hl⟩
  | exists_ k now =>
    obtain ⟨hans, hl⟩ := read_local h (bold ++ red ++ str "FALSE" ++ reset)
      (fun _ => bold ++ green ++ str "TRUE" ++ reset) now
    exact ⟨congrArg Answer.reply hans, hl⟩
  | getKv k now =>
    have hk : m.lookup k = m'.lookup k := h
    obtain ⟨hans, hl⟩ := touch_local hk now
    refine ⟨congrArg Answer.entry ?_, hl⟩
    rw [hans]
  | delete k =>
    have hk : m.lookup k = m'.lookup k := h
    simp only [step, delete, Call.key]
    rw [← hk]
    split_ifs
    · exact ⟨rfl, by rw [AList.lookup_erase, AList.lookup_erase]⟩
    · exact ⟨rfl, hk⟩
  | updateExpiry k d now now' ok =>
    have hk : m.lookup k = m'.lookup k := h
    obtain ⟨hans, hl⟩ := touch_local hk now
    simp only [step, expire, Call.key]
    generalize m.touch k now = r at hans hl
    generalize m'.touch k now = r' at hans hl
    obtain ⟨o, m₁⟩ := r
    obtain ⟨o', m₁'⟩ := r'
    obtain rfl : o = o' := hans
    cases o with
    | none => exact ⟨rfl, hl⟩
    | some e =>
      dsimp only
      rw [AList.lookup_insert, AList.lookup_insert]
      exact ⟨rfl, rfl⟩

theorem Overruns.lookup {c : Call} (h : m.Overruns c) : ∃ e, m.lookup c.key = some e := by
  cases c with
  | get k now =>
    obtain ⟨e, hl, -⟩ := h
    exact ⟨e, hl⟩
  | _ => exact h.elim

/-! ### The part of a map on some keys -/

/-- `m'` is the part of `m` on the keys of `K`. -/
structure Restricts (K : Str → Prop) (m m' : Flat) : Prop where
  same : ∀ k, K k → m'.lookup k = m.lookup k
  only : ∀ k, ¬ K k → m'.lookup k = none

namespace Restricts
variable {K : Str → Prop}

theorem empty (K : Str → Prop) : Restricts K ∅ ∅ :=
  ⟨fun _ _ => rfl, fun _ _ => AList.lookup_empty _⟩

theorem size_le (h : Restricts K m m') : m'.size ≤ m.size := by
  refine (List.Nodup.subperm m'.nodupKeys fun k hk => ?_).length_le
  have hsome : (m'.lookup k).isSome := AList.lookup_isSome.mpr (AList.mem_keys.mpr hk)
  have hK : K k := by
    by_contra hno
    rw [h.only k hno] at hsome
    cases hsome
  rw [h.same k hK] at hsome
  exact AList.mem_keys.mp (AList.lookup_isSome.mp hsome)

/-- A call of the client on both maps. -/
theorem own (h : Restricts K m m') (bound : ℕ) {c : Call} (hc : K c.key)
    (hroom : c.Adds → m.size + 1 < bound) : Restricts K (m.step bound c).1 (m'.step bound c).1 ∧
      (m.step bound c).2 = (m'.step bound c).2 := by
  have hsize := h.size_le
  obtain ⟨hans, hkey⟩ := step_local bound (h.same _ hc).symm fun hadds =>
    ⟨hroom hadds, by have := hroom hadds; omega⟩
  refine ⟨⟨fun k hk => ?_, fun k hk => ?_⟩, hans⟩
  · rcases eq_or_ne k c.key with rfl | hne
    · exact hkey.symm
    · rw [step_lookup_ne bound m' hne, step_lookup_ne bound m hne]
      exact h.same k hk
  · rw [step_lookup_ne bound m' fun (hkc : k = c.key) => hk (hkc ▸ hc)]
    exact h.only k hk

/-- A call of another client. -/
theorem other (h : Restricts K m m') (bound : ℕ) {c : Call} (hc : ¬ K c.key) :
    Restricts K (m.step bound c).1 m' := by
  refine ⟨fun k hk => ?_, h.only⟩
  rw [step_lookup_ne bound m fun (hkc : k = c.key) => hc (hkc ▸ hk)]
  exact h.same k hk

/-- A call of the client overruns its buffer on both maps. -/
theorem overruns_iff (h : Restricts K m m') {c : Call} (hc : K c.key) :
    m.Overruns c ↔ m'.Overruns c := by
  cases c with
  | get k now => simp only [Overruns, h.same k hc]
  | _ => exact Iff.rfl

end Restricts

end Flat

/-! ### Queries of the clients -/

theorem Query.call_key (env : ReqEnv) (q : Query) : (q.call env).key = q.key := by cases q <;> rfl

theorem Query.next_key {env : ReqEnv} {q : Query} {c : Call} (h : q.next env = some c) :
    c.key = q.key ∧ ¬ c.Adds := by
  cases q with
  | expire k d =>
    cases h
    exact ⟨rfl, id⟩
  | _ => cases h

section Clients
variable {K : Str → Prop} {m m' : Flat} {q : Query}

/-- A query of the client on both maps. -/
theorem Flat.Restricts.run_own (h : Restricts K m m') (bound : ℕ) (env : ReqEnv) (ctx : CmdCtx)
    (hq : K q.key) (hroom : m.size + 1 < bound) :
    let r := q.run (Flat.step bound) env ctx m
    let r' := q.run (Flat.step bound) env ctx m'
    Restricts K r.1 r'.1 ∧ r.2 = r'.2 := by
  refine Query.run_related (h.own bound (by rw [q.call_key]; exact hq) fun _ => hroom) ?_
  intro c m₁ m₁' hc h'
  obtain ⟨hkey, hadds⟩ := Query.next_key hc
  exact h'.own bound (by rw [hkey]; exact hq) fun hadd => absurd hadd hadds

/-- A query of another client. -/
theorem Flat.Restricts.run_other (h : Restricts K m m') (bound : ℕ) (env : ReqEnv) (ctx : CmdCtx)
    (hq : ¬ K q.key) :
    Restricts K (q.run (Flat.step bound) env ctx m).1 m' := by
  refine Query.run_invariant (P := (Restricts K · m'))
    (h.other bound (by rw [q.call_key]; exact hq)) fun c m₁ hc h' => ?_
  exact h'.other bound (by rw [(Query.next_key hc).1]; exact hq)

end Clients

/-- The node represents a map whose part on the keys of `K` the client's own node represents. -/
def SeesOwn (K : Str → Prop) (n n' : Node) : Prop :=
  ∃ m m', Simulates n.db m ∧ Simulates n'.db m' ∧ Flat.Restricts K m m'

section Sees
variable {K : Str → Prop} {n n' : Node} {x : ReqEnv × Str} {q : Query}

theorem SeesOwn.own (h : SeesOwn K n n') (hx : PlainRequest x) (hq : Query.parse x.2 = some q)
    (hK : K q.key) (hroom : n.db.count + 1 < maxAllowed.toNat) :
    SeesOwn K (n.serve x).1 (n'.serve x).1 ∧ (n.serve x).2 = (n'.serve x).2 := by
  obtain ⟨m, m', hs, hs', hR⟩ := h
  obtain ⟨hs₁, hans⟩ := run_simulates hs hx hq ⟨[], dbErrOk⟩
  obtain ⟨hs₁', hans'⟩ := run_simulates hs' hx hq ⟨[], dbErrOk⟩
  obtain ⟨hR₁, hout⟩ := hR.run_own maxAllowed.toNat x.1 ⟨[], dbErrOk⟩ hK
    (by rw [hs.2.size]; exact hroom)
  rw [serve_query hx.cmdArr hq, serve_query hx.cmdArr hq]
  refine ⟨⟨_, _, hs₁, hs₁', hR₁⟩, ?_⟩
  have hboth : n.db.Overruns (q.call x.1) ↔ n'.db.Overruns (q.call x.1) := by
    rw [hs.overruns_iff, hs'.overruns_iff]
    exact hR.overruns_iff (by rw [q.call_key]; exact hK)
  by_cases hlong : n.db.Overruns (q.call x.1)
  · rw [run_of_overruns hlong, run_of_overruns (hboth.mp hlong)]
  · exact (hans hlong).trans (hout.trans (hans' fun h => hlong (hboth.mpr h)).symm)

theorem SeesOwn.other (h : SeesOwn K n n') (hx : PlainRequest x) (hq : Query.parse x.2 = some q)
    (hK : ¬ K q.key) : SeesOwn K (n.serve x).1 n' := by
  obtain ⟨m, m', hs, hs', hR⟩ := h
  obtain ⟨hs₁, -⟩ := run_simulates hs hx hq ⟨[], dbErrOk⟩
  rw [serve_query hx.cmdArr hq]
  exact ⟨_, _, hs₁, hs', hR.run_other _ x.1 _ hK⟩

end Sees

/-- CORRECT: on a store that stays below capacity, each of any clients whose queries are on keys of
    their own gets in every interleaving exactly the responses and statuses of its own queries, run
    alone from an empty store with the same clock readings. -/
theorem disjoint_clients {κ : Type*} [DecidableEq κ] (disk disk' : Option Str)
    (xs : List (κ × ReqEnv × Str)) (hplain : ∀ x ∈ xs, PlainRequest x.2)
    (hquery : ∀ x ∈ xs, (Query.parse x.2.2).isSome)
    (hdisjoint : ∀ x ∈ xs, ∀ y ∈ xs, x.1 ≠ y.1 →
      (Query.parse x.2.2).map Query.key ≠ (Query.parse y.2.2).map Query.key)
    (hroom : Mealy.Always Node.serve (fun n => n.db.count + 1 < maxAllowed.toNat)
      ⟨htInit, disk⟩ (xs.map Prod.snd)) (c : κ) :
    Mealy.answersTo Node.serve c ⟨htInit, disk⟩ xs =
      Mealy.outputs Node.serve ⟨htInit, disk'⟩ (Mealy.inputsOf c xs) := by
  -- the keys of the client
  let K : Str → Prop := fun k => ∃ x ∈ xs, x.1 = c ∧ (Query.parse x.2.2).map Query.key = some k
  have hstart : SeesOwn K ⟨htInit, disk⟩ ⟨htInit, disk'⟩ :=
    ⟨∅, ∅, simulates_init, simulates_init, .empty K⟩
  refine Mealy.answersTo_eq_outputs (R := SeesOwn K)
    (A := fun n x => x ∈ xs ∧ n.db.count + 1 < maxAllowed.toNat) (fun n n' i h hok => ?_)
    (fun n n' d i h hok hd => ?_) hstart fun pre x hp hno => ?_
  · obtain ⟨q, hq⟩ := Option.isSome_iff_exists.mp (hquery _ hok.1)
    exact h.own (hplain _ hok.1) hq ⟨_, hok.1, rfl, congrArg (Option.map Query.key) hq⟩ hok.2
  · obtain ⟨q, hq⟩ := Option.isSome_iff_exists.mp (hquery _ hok.1)
    refine h.other (hplain _ hok.1) hq ?_
    rintro ⟨y, hy, rfl, hkey⟩
    exact hdisjoint _ hok.1 y hy hd ((congrArg (Option.map Query.key) hq).trans hkey.symm)
  · refine hno ⟨hp.subset (by simp), ?_⟩
    rw [Mealy.exec_map]
    exact hroom _ (((List.prefix_append pre [x]).trans hp).map Prod.snd)

/-- Two clients whose keys are in one chain: one lets its key expire, the other sets its own. -/
theorem disjoint_clients_two :
    let xs : List (Bool × ReqEnv × Str) := [(true, envAt 100, str "SET a 1"),
      (false, envAt 100, str "SET bx 2"), (true, envAt 100, str "EXPIRE a 0"),
      (true, envAt 100, str "GET a")]
    Mealy.answersTo Node.serve true ⟨htInit, none⟩ xs = Mealy.outputs Node.serve ⟨htInit, none⟩
      [(envAt 100, str "SET a 1"), (envAt 100, str "EXPIRE a 0"), (envAt 100, str "GET a")] := by
  intro xs
  refine disjoint_clients none none xs (by decide +kernel) (by decide +kernel) (by decide +kernel)
    ?_ true
  simp only [xs, List.map, Mealy.always_cons, Mealy.always_nil]
  decide +kernel

end SahDB
