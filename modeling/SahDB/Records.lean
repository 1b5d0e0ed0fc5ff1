import SahDB.Load

/-! What holds of every record of the table.

    Records come from SET, which makes them or changes their value, and from EXPIRE and the loader,
    which change their expiry. A property that these changes leave (`Stable`) holds of every record
    after any calls, and after any load. -/

namespace SahDB
open Db

namespace Table

/-- Every record of the table satisfies `P`. -/
def AllRecords (P : Kv → Prop) (t : Table) : Prop := ∀ i, ∀ e ∈ t.chains i, P e

section Records
variable {P : Kv → Prop} {t : Table} {k : Str}

/-- Replacing one chain by records that satisfy `P`. -/
theorem AllRecords.update (h : AllRecords P t) {i : Fin mod} {l : List Kv} {n : ℕ}
    (hl : ∀ e ∈ l, P e) : AllRecords P ⟨Function.update t.chains i l, n⟩ := by
  intro j e he
  dsimp only at he
  rcases eq_or_ne j i with rfl | hj
  · rw [Function.update_self] at he; exact hl e he
  · rw [Function.update_of_ne hj] at he; exact h j e he

theorem AllRecords.modify (h : AllRecords P t) {f : Kv → Kv}
    (hf : ∀ e, e.key = k → P e → P (f e)) : AllRecords P (t.modify k f) := by
  refine h.update fun e he => ?_
  have hall := h (stringFoldingHash k)
  rw [Table.bucket] at he
  generalize t.chains (stringFoldingHash k) = l at he hall
  induction l with
  | nil => simp [KeyedList.modify] at he
  | cons a l ih =>
    rw [KeyedList.modify] at he
    split_ifs at he with hkey
    · rcases List.mem_cons.mp he with rfl | he
      · exact hf a hkey (hall a (by simp))
      · exact hall e (by simp [he])
    · rcases List.mem_cons.mp he with rfl | he
      · exact hall e (by simp)
      · exact ih he fun b hb => hall b (by simp [hb])

theorem AllRecords.remove (h : AllRecords P t) (k : Str) : AllRecords P (t.remove k) :=
  h.update fun e he => h _ e ((KeyedList.remove_sublist k _).subset he)

theorem AllRecords.append (h : AllRecords P t) {e : Kv} (he : P e) : AllRecords P (t.append e) := by
  refine h.update fun e' he' => ?_
  rcases List.mem_append.mp he' with he' | he'
  · exact h _ e' he'
  · rw [List.mem_singleton.mp he']; exact he

theorem AllRecords.insert (h : AllRecords P t) {v : Str} (hnew : P ⟨k, v, -1⟩)
    (hset : ∀ e, e.key = k → P e → P (e.setValue v)) (bound : ℕ) :
    AllRecords P (t.insert bound k v).2 := by
  unfold Table.insert
  split_ifs
  · exact h.modify hset
  · exact h
  · exact h.append hnew

theorem AllRecords.delete (h : AllRecords P t) (k : Str) : AllRecords P (t.delete k).2 := by
  unfold Table.delete
  split_ifs
  · exact h.remove k
  · exact h

theorem AllRecords.touch (h : AllRecords P t) (k : Str) (now : ℤ) :
    AllRecords P (t.touch k now).2 := by
  unfold Table.touch
  split
  · exact h
  · split_ifs
    · exact h.remove k
    · exact h

theorem AllRecords.find (h : AllRecords P t) {e : Kv} (he : t.find k = some e) : P e :=
  h _ e (mem_of_find he)

end Records

end Table

/-! ### What a SET, an EXPIRE and a loaded expiry leave -/

/-- `P` holds of every record that is made of a good key and value, and with every expiry. -/
structure Stable (good : Str → Str → Prop) (P : Kv → Prop) : Prop where
  new : ∀ k v, good k v → P ⟨k, v, -1⟩
  value : ∀ e v, good e.key v → P e → P (e.setValue v)
  expiry : ∀ e x, longMin ≤ x → x ≤ longMax → P e → P (e.setExpiry x)

theorem timeT_range (t : ℤ) : longMin ≤ timeT t ∧ timeT t ≤ longMax := by
  have h1 := Int.le_bmod (x := t) (m := 2 ^ 64) (by decide)
  have h2 := Int.bmod_lt (x := t) (m := 2 ^ 64) (by decide)
  simp only [longMin, longMax, timeT]
  omega

theorem atol_range (s : Str) : longMin ≤ CStr.atol s ∧ CStr.atol s ≤ longMax := by
  unfold CStr.atol longMin longMax
  split <;> omega

section Steps
open Table
variable {good : Str → Str → Prop} {P : Kv → Prop} {s s' : Db}

theorem hashInsert_records (hP : Stable good P) (hi : s.Inv) (h : AllRecords P s.table) {k v : Str}
    (hg : good k v) (ok : Bool) : AllRecords P (hashInsert s k v ok).1.table := by
  cases ok with
  | false => exact h
  | true =>
    refine (hashInsert_spec hi k v maxAllowed).2.1 ▸ h.insert (hP.new k v hg) (fun e he => ?_) _
    exact hP.value e v (he ▸ hg)

/-- A call that inserts a good key and value, or none. -/
theorem step_records (hP : Stable good P) (hi : s.Inv) (h : AllRecords P s.table) (c : Call)
    (hc : ∀ k v ok, c = .insert k v ok → good k v) :
    AllRecords P (s.step maxAllowed c).1.table := by
  have hyields := hi.yields maxAllowed c
  generalize (s.step maxAllowed c).1 = s' at hyields ⊢
  cases hyields with
  | same => exact h
  | @setValue k v a pre post hat =>
    rw [setValue_alloc_table hi hat]
    exact h.modify fun e he => hP.value e v (he ▸ hc k v true rfl)
  | full =>
    rw [alloc_table hi.fresh]
    exact h
  | @link k v =>
    rw [link_table hi.fresh]
    exact h.append (hP.new k v (hc k v true rfl))
  | lazily _ hat =>
    rw [lazyUnlink_table hi hat]
    exact h.remove _
  | delete hat =>
    rw [unlink_table hi hat]
    exact h.remove _
  | @renew k d now now' ok a pre post hat =>
    obtain ⟨h1, h2⟩ := timeT_range (now' + d)
    rw [(renewExpiry_table hi hat d now' ok).2]
    exact h.modify fun e _ => hP.expiry e _ h1 h2

theorem after_records (hP : Stable good P) (hi : s.Inv) (h : AllRecords P s.table)
    {calls : List Call} (hc : ∀ k v ok, Call.insert k v ok ∈ calls → good k v) :
    (s.after calls).Inv ∧ AllRecords P (s.after calls).table := by
  induction calls generalizing s with
  | nil => exact ⟨hi, h⟩
  | cons c calls ih =>
    exact ih (hi.step_inv maxAllowed c)
      (step_records hP hi h c fun k v ok hk => hc k v ok (by simp [hk]))
      fun k v ok hk => hc k v ok (by simp [hk])

/-! ### Loading -/

theorem loadExpiry_records (hP : Stable good P) (hi : s.Inv) (h : AllRecords P s.table)
    (env : LoadEnv) (key exp : Str) : AllRecords P (loadExpiry env s key exp).table := by
  obtain ⟨h1, h2⟩ := atol_range exp
  rw [(loadExpiry_spec hi env key exp).2, Table.loadExpiry]
  split_ifs
  · exact h.delete key
  · have ht := h.touch key env.now
    split
    · next t heq => rw [heq] at ht; exact ht
    · next t heq =>
      rw [heq] at ht
      exact ht.modify fun e _ => hP.expiry e _ h1 h2

theorem loadRecord_records (hP : Stable good P) (hi : s.Inv) (h : AllRecords P s.table)
    {env : LoadEnv} {kv : Str}
    (hg : ∀ key val rest, CStr.tokens (· = bang) kv = key :: val :: rest → good key val)
    (hrun : loadRecord env s kv = .ok s') : AllRecords P s'.table := by
  rcases loadRecord_cases hrun with rfl | ⟨key, val, rest, hfields, rfl | ⟨exp, rfl⟩⟩
  · exact h
  · exact hashInsert_records hP hi h (hg key val rest hfields) _
  · exact loadExpiry_records hP (hashInsert_inv hi key val _ _)
      (hashInsert_records hP hi h (hg key val rest hfields) _) env key exp

/-- A start from a file whose records have good keys and values. -/
theorem rebuild_records (hP : Stable good P) {env : ℕ → LoadEnv} {disk : Option Str} {code : Err}
    {l : Loader}
    (hg : ∀ file, disk = some file → ∀ kv ∈ records false (readLines file), ∀ key val rest,
      CStr.tokens (· = bang) kv = key :: val :: rest → good key val)
    (hrun : rebuildFromSavefile env disk (Loader.start htInit) = .ok (code, l)) :
    AllRecords P l.db.table := by
  have h0 : htInit.Inv ∧ AllRecords P htInit.table :=
    ⟨htInit_inv, fun i e he => by simp [htInit, Db.table, Db.chain] at he⟩
  refine (rebuild_invariant (P := fun s => s.Inv ∧ AllRecords P s.table)
    (fun file hfile kv hkv env s s' hs h => ?_) (l := Loader.start htInit) h0 hrun).2
  exact ⟨loadRecord_inv hs.1 h, loadRecord_records hP hs.1 hs.2 (hg file hfile kv hkv) h⟩

end Steps

end SahDB
