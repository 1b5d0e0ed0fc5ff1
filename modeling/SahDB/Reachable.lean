import SahDB.Load

/-! What holds in every state the program can reach: a start, empty or from a file, and then any
    calls with any clock readings and allocation outcomes. -/

namespace SahDB
open Db

/-! ### The table invariant -/

/-- CORRECT: in every reachable state each entry is in the chain of its key's hash, no key occurs
    twice in the table, and the count is the number of entries; a call that answers ERR_FULL leaves
    every chain and the count as they were. -/
theorem table_invariant {s₀ : Db} (h : Started s₀) (calls : List Call) :
    let s := s₀.after calls
    (∀ i, ∀ e ∈ s.chain i, stringFoldingHash e.key = i) ∧
    s.table.keys.Nodup ∧
    s.count = ∑ i, (s.chain i).length ∧
    ∀ c r, (s.step maxAllowed c).2 = .reply r → r.code = errFull →
      (∀ i, (s.step maxAllowed c).1.chain i = s.chain i) ∧
        (s.step maxAllowed c).1.count = s.count := by
  intro s
  have hi : s.Inv := h.inv calls
  refine ⟨hi.wf.placed, Table.keys_nodup hi.wf.placed hi.wf.distinct, hi.wf.counted, ?_⟩
  intro c r hr hcode
  have ht := hi.step_full maxAllowed hr hcode
  exact ⟨fun i => congrFun (congrArg Table.chains ht) i, congrArg Table.count ht⟩

/-- A file that cannot be opened leaves the store empty; then a key is set twice and deleted. -/
theorem table_invariant_deleted :
    let s := htInit.after [.insert (str "a") (str "1") true, .insert (str "a") (str "2") true,
      .delete (str "a")]
    s.count = ∑ i, (s.chain i).length :=
  (table_invariant (@Started.rebuilt (fun _ => ⟨0, 0, true⟩) none _ _ rfl) _).2.2.1

/-! ### GET after SET -/

/-- After a successful SET the record has the value, the expiry an earlier one left, or -1. -/
theorem find_insert {s : Db} (h : s.Inv) {k v : Str} {ok : Bool}
    (hset : (hashInsert s k v ok).2.code = 0) :
    (hashInsert s k v ok).1.Inv ∧ (hashInsert s k v ok).1.table.find k =
      some ⟨k, v, ((s.table.find k).map Kv.expiry).getD (-1)⟩ := by
  cases ok with
  | false => exact absurd hset (show dbErrNomem ≠ 0 by decide)
  | true =>
    obtain ⟨hf, ht, hr⟩ := hashInsert_spec h k v maxAllowed
    refine ⟨hashInsert_inv h k v true maxAllowed, ?_⟩
    rw [hr] at hset
    rw [ht]
    cases hk : s.table.find k with
    | some e =>
      have hkey := Table.key_of_find hk
      rw [Table.insert_found v _ hk,
        Table.find_modify_self _ k (f := Kv.setValue v) fun _ => rfl, hk]
      simp [Kv.setValue, hkey]
    | none =>
      by_cases hfull : maxAllowed.toNat ≤ s.table.count + 1
      · rw [Table.insert_full v hk hfull] at hset
        have hcode : errFull = 0 := hset
        exact absurd hcode (by decide)
      · rw [Table.insert_new v hk (not_le.mp hfull)]
        exact Table.find_append_self (e := ⟨k, v, -1⟩) hk

/-- CORRECT: a GET right after a successful SET returns the value exactly when SET did not find the
    key in the table with an expiry that has passed, and the value fits the response buffer. -/
theorem get_after_set {s₀ : Db} (h : Started s₀) (calls : List Call) (k v : Str) (ok : Bool)
    (t : ℤ) (hset : (hashInsert (s₀.after calls) k v ok).2.code = 0) :
    (hashGet (hashInsert (s₀.after calls) k v ok).1 k t).map Prod.snd = .ok ⟨0, v⟩ ↔
      (¬ ∃ e, (s₀.after calls).table.find k = some e ∧ e.Expired t) ∧ v.length < maxRespLen := by
  obtain ⟨hi, hfind⟩ := find_insert (h.inv calls) hset
  generalize hashInsert (s₀.after calls) k v ok = r at hi hfind
  have hexp : (Kv.mk k v (((s₀.after calls).table.find k).map Kv.expiry |>.getD (-1))).Expired t ↔
      ∃ e, (s₀.after calls).table.find k = some e ∧ e.Expired t := by
    cases (s₀.after calls).table.find k with
    | none => simp [Kv.Expired]
    | some e => simp [Kv.Expired]
  rw [← hexp]
  rw [hashGet_spec hi]
  by_cases he : (Kv.mk k v (((s₀.after calls).table.find k).map Kv.expiry |>.getD (-1))).Expired t
  · rw [Table.touch_expired hfind he]
    refine iff_of_false (fun hc => ?_) fun hc => hc.1 he
    exact absurd (congrArg Reply.code (Except.ok.inj hc)) (show dbErrKeyNotexist ≠ 0 by decide)
  · rw [Table.touch_live hfind he, and_iff_right he]
    dsimp only
    split_ifs with hfits
    · exact iff_of_true rfl hfits
    · exact iff_of_false nofun hfits

/-- The key has expired, but no read has purged it yet: SET keeps the old expiry. -/
def staleCalls : List Call :=
  [.insert (str "k") (str "a") true, .updateExpiry (str "k") 1 100 100 true]

/-- SET k b at time 200 answers OK and GET k at time 200 answers ERR. -/
theorem set_then_get_misses :
    ¬ ∀ s₀, Started s₀ → ∀ (calls : List Call) (k v : Str) (t : ℤ),
      (hashInsert (s₀.after calls) k v true).2.code = 0 →
        (hashGet (hashInsert (s₀.after calls) k v true).1 k t).map Prod.snd = .ok ⟨0, v⟩ := by
  intro h
  have hget := h htInit .empty staleCalls (str "k") (str "b") 200 (by decide +kernel)
  revert hget
  decide +kernel

/-- GET sees the value if the old expiry is still ahead. -/
theorem get_after_set_live :
    (hashGet (hashInsert (htInit.after staleCalls) (str "k") (str "b") true).1 (str "k") 100).map
      Prod.snd = .ok ⟨0, str "b"⟩ := by
  refine (get_after_set .empty staleCalls (str "k") (str "b") true 100 (by decide +kernel)).mpr
    ⟨?_, by decide⟩
  have hfind : (htInit.after staleCalls).table.find (str "k") = some ⟨str "k", str "a", 101⟩ := by
    decide +kernel
  rw [hfind]
  rintro ⟨e, he, -, hle⟩
  cases he
  exact absurd hle (by decide)

end SahDB
