import SahDB.Queries
import SahDB.SaveSpec

/-! The buffer of `get_kv_from_bucket`.

    The buffer has `KV_LEN` bytes for every entry of the table and one more, and nothing checks a
    length. A record is short because its key and value were words of one request (`Short`), which
    every request keeps; and a chain has no more entries than the table. -/

namespace SahDB
open Table

/-! ### Records are short -/

/-- The key and the value of the record fit one request together. -/
def Short (e : Kv) : Prop := e.key.length + e.value.length < maxCmdLen

theorem short_stable : Stable (fun k v => k.length + v.length < maxCmdLen) Short where
  new _ _ h := h
  value _ _ h _ := h
  expiry _ _ _ _ h := h

section Requests
variable {n : Node}

/-- A query that sets a good pair, or sets nothing. -/
theorem Query.run_records {good : Str → Str → Prop} {P : Kv → Prop} (hP : Stable good P) {s : Db}
    (hi : s.Inv) (h : AllRecords P s.table) {env : ReqEnv} {ctx : CmdCtx} {q : Query}
    (hq : ∀ k v, q = .set k v → good k v) :
    (q.run (Db.step maxAllowed) env ctx s).1.Inv ∧
      AllRecords P (q.run (Db.step maxAllowed) env ctx s).1.table := by
  have hcall : ∀ k v ok, q.call env = .insert k v ok → good k v := by
    intro k v ok hc
    cases q <;> cases hc
    exact hq k v rfl
  refine run_invariant (P := fun s' : Db => s'.Inv ∧ AllRecords P s'.table)
    ⟨hi.step_inv maxAllowed _, step_records hP hi h _ hcall⟩ ?_
  rintro c s' hnext ⟨hi', h'⟩
  refine ⟨hi'.step_inv maxAllowed c, step_records hP hi' h' c fun k v ok hc => ?_⟩
  cases q <;> cases hnext
  cases hc

/-- The words of a request are no longer than the request together. -/
theorem length_flatten_tokenize_le (req : Str) :
    (tokenize req).flatten.length ≤ req.length :=
  ((List.take_sublist _ _).flatten.length_le.trans (CStr.length_flatten_tokens_le _ _)).trans
    (List.takeWhile_prefix _).length_le

theorem short_of_set {req k v : Str} (hlen : req.length ≤ maxCmdLen - 1)
    (h : Query.parse req = some (.set k v)) : k.length + v.length < maxCmdLen := by
  have hle := (length_flatten_tokenize_le req).trans hlen
  rcases tokens_of_parse h with
    ⟨name, key, htok, ⟨-, hq⟩ | ⟨-, hq⟩ | ⟨-, hq⟩⟩ |
    ⟨name, key, w, htok, ⟨-, hq⟩ | ⟨-, -, hq⟩ | ⟨-, hq⟩⟩ <;> cases hq
  rw [htok] at hle
  simp only [List.flatten_cons, List.flatten_nil, List.length_append, List.length_nil,
    maxCmdLen] at hle ⊢
  omega

/-- Requests that fit the command buffer leave short records. -/
theorem Served.short (h : Served (fun req => req.length ≤ maxCmdLen - 1) n) :
    n.db.Inv ∧ AllRecords Short n.db.table := by
  induction h with
  | start disk => exact ⟨htInit_inv, fun i e he => by simp [htInit, Db.table, Db.chain] at he⟩
  | @request n env req ctx d _ hlen hrun ih =>
    cases hq : Query.parse req with
    | none => rwa [processCommand_other hq hrun]
    | some q =>
      cases henv : env.cmdArrOk with
      | false =>
        rw [processCommand, if_pos henv] at hrun
        cases hrun
        exact ih
      | true =>
        rcases processCommand_query henv hq with ⟨ctx', res, -, hrun'⟩ | ⟨f, -, hrun'⟩ <;>
          cases hrun.symm.trans hrun'
        exact Query.run_records short_stable ih.1 ih.2 fun k v hset =>
          short_of_set hlen (hset ▸ hq)

end Requests

/-! ### Chains fit the buffer -/

theorem length_expiryText_le (t : ℤ) : (expiryText t).length ≤ 20 := by
  unfold expiryText
  split_ifs
  · refine (Decimal.length_print_le_iff (by decide)).mpr ?_
    have hlt := Int.emod_lt_of_pos t (show (0 : ℤ) < 2 ^ 64 by decide)
    omega
  · decide

/-- A short record takes less than its share. -/
theorem Short.length_recordText_le {e : Kv} (h : Short e) : (recordText e).length ≤ kvLen := by
  have hexp := length_expiryText_le e.expiry
  simp only [Short, maxCmdLen] at h
  simp only [recordText, List.length_append, List.length_cons, List.length_nil, kvLen]
  omega

theorem length_bucketText_le {chain : List Kv} (h : ∀ e ∈ chain, Short e) :
    (bucketText chain).length ≤ kvLen * chain.length := by
  induction chain with
  | nil => simp [bucketText]
  | cons e chain ih =>
    have hrest := ih fun e' he' => h e' (by simp [he'])
    have he := (h e (by simp)).length_recordText_le
    rw [bucketText, List.flatMap_cons, List.length_append, List.length_cons, Nat.mul_succ]
    rw [bucketText] at hrest
    omega

/-- A bucket of such a store takes less than the share of all entries. -/
theorem Served.length_bucketText_le {n : Node}
    (h : Served (fun req => req.length ≤ maxCmdLen - 1) n) (i : Fin mod) :
    (bucketText (n.db.chain i)).length ≤ kvLen * n.db.count := by
  obtain ⟨hi, hshort⟩ := h.short
  have hcount : (n.db.chain i).length ≤ n.db.count := hi.wf.length_chain_le i
  exact (SahDB.length_bucketText_le (hshort i)).trans (Nat.mul_le_mul_left kvLen hcount)

/-- CORRECT: in every store that requests of at most `MAX_CMD_LEN - 1` bytes reach from the empty
    one, the bytes `get_kv_from_bucket` stores for a bucket are at most `KV_LEN * (count + 1)`, and
    the byte it overwrites with the terminator is one of the buffer. -/
theorem bucket_fits {n : Node} (h : Served (fun req => req.length ≤ maxCmdLen - 1) n)
    (i : Fin mod) :
    (bucketText (n.db.chain i)).length ≤ kvLen * (n.db.count + 1) ∧
      (n.db.chain i ≠ [] → 0 < (bucketText (n.db.chain i)).length ∧
        (bucketText (n.db.chain i)).length - 1 < kvLen * (n.db.count + 1)) := by
  have hle := h.length_bucketText_le i
  rw [Nat.mul_succ]
  refine ⟨hle.trans (Nat.le_add_right _ _), fun hne => ?_⟩
  obtain ⟨e, chain, hchain⟩ := List.exists_cons_of_ne_nil hne
  have hpos : 0 < kvLen := by decide
  rw [hchain, bucketText_cons] at hle ⊢
  simp only [List.length_append, List.length_cons] at hle ⊢
  omega

/-- The keys "a" and "bx" share a bucket: their two records take 51 of 3072 bytes. -/
theorem bucket_fits_shared :
    let s := queried 100 [.set (str "a") (str "1"), .set (str "bx") (str "2")]
    let data := bucketText (s.chain (stringFoldingHash (str "bx")))
    data = str "a!1!18446744073709551615|bx!2!18446744073709551615|" ∧
      data.length ≤ kvLen * (s.count + 1) ∧ data.length - 1 < kvLen * (s.count + 1) := by
  intro s data
  have hdata : data = str "a!1!18446744073709551615|bx!2!18446744073709551615|" := by
    decide +kernel
  have hserved : Served (fun req => req.length ≤ maxCmdLen - 1) ⟨s, none⟩ :=
    served_queried 100 (by decide) (by decide)
  obtain ⟨hle, hlast⟩ := bucket_fits hserved (stringFoldingHash (str "bx"))
  refine ⟨hdata, hle, (hlast fun hnil => ?_).2⟩
  have hempty : data = [] := congrArg bucketText hnil
  rw [hdata] at hempty
  exact absurd hempty (by decide)

end SahDB
