import SahDB.SaveSpec
import SahDB.Records

/-! What a restart makes of a saved table.

    The writer prints an expiry as an unsigned number, or -1 if it is `LONG_MAX`; the loader takes
    -1 for no expiry and reads any other number as a signed one. So a record comes back with another
    expiry, or not at all if that has passed (`Kv.reload`). For a table the format can carry
    (`Storable`) the file is read back record by record, and what is found under a key afterwards is
    what its record has become (`Storable.rebuild_find`). -/

namespace SahDB
open Db

namespace Kv

/-- What a restart makes of a record that is read at `curtime`. -/
def reload (curtime : ℤ) (e : Kv) : Option Kv :=
  if e.expiry = longMax then some (e.setExpiry (-1))
  else
    let t := min longMax (e.expiry % 2 ^ 64)
    if t ≤ curtime then none else some (e.setExpiry t)

theorem key_of_reload {curtime : ℤ} {e e' : Kv} (h : e.reload curtime = some e') :
    e'.key = e.key ∧ e'.value = e.value := by
  unfold reload at h
  dsimp only at h
  split_ifs at h <;> cases h <;> exact ⟨rfl, rfl⟩

end Kv

/-- At time `now`, with memory. -/
def loadAt (now : ℤ) : LoadEnv := ⟨now, now, true⟩

/-- What a restart makes of records, the first of which is number `n` of the file. -/
def reloads (env : ℕ → LoadEnv) : ℕ → List Kv → List Kv
  | _, [] => []
  | n, e :: es => (e.reload (env n).curtime).toList ++ reloads env (n + 1) es

namespace Table

/-- Linking records one after another. -/
def appendAll (t : Table) (es : List Kv) : Table := es.foldl append t

/-- Each chain gets the records of its bucket, in order. -/
theorem appendAll_chains (t : Table) (es : List Kv) (i : Fin mod) :
    (t.appendAll es).chains i = t.chains i ++ es.filter fun e => stringFoldingHash e.key = i := by
  induction es generalizing t with
  | nil => simp [appendAll]
  | cons e es ih =>
    rw [appendAll, List.foldl_cons, ← appendAll, ih]
    rcases eq_or_ne (stringFoldingHash e.key) i with rfl | hi
    · have hc : (t.append e).chains (stringFoldingHash e.key) =
          t.chains (stringFoldingHash e.key) ++ [e] := Function.update_self ..
      rw [hc, List.filter_cons_of_pos (by simp), List.append_assoc, List.singleton_append]
    · have hc : (t.append e).chains i = t.chains i := Function.update_of_ne hi.symm _ _
      rw [hc, List.filter_cons_of_neg (by simpa using hi)]

theorem appendAll_append (t : Table) (es es' : List Kv) :
    t.appendAll (es ++ es') = (t.appendAll es).appendAll es' := List.foldl_append

theorem appendAll_find_ne {t : Table} {k : Str} {es : List Kv} (h : ∀ e ∈ es, e.key ≠ k) :
    (t.appendAll es).find k = t.find k := by
  induction es generalizing t with
  | nil => rfl
  | cons e es ih =>
    change ((t.append e).appendAll es).find k = _
    rw [ih fun e' he' => h e' (by simp [he']), find_append_ne _ (h e (by simp)).symm]

theorem appendAll_count (t : Table) (es : List Kv) :
    (t.appendAll es).count = t.count + es.length := by
  induction es generalizing t with
  | nil => rfl
  | cons e es ih =>
    change ((t.append e).appendAll es).count = _
    rw [ih, List.length_cons]
    simp only [append]
    omega

end Table

section Reloads
variable {env : ℕ → LoadEnv} {es : List Kv}

theorem mem_reloads {n : ℕ} {e' : Kv} (h : e' ∈ reloads env n es) :
    ∃ e ∈ es, ∃ m, e.reload (env m).curtime = some e' := by
  induction es generalizing n with
  | nil => cases h
  | cons e es ih =>
    rcases List.mem_append.mp h with h | h
    · exact ⟨e, List.mem_cons_self, n, Option.mem_toList.mp h⟩
    · obtain ⟨a, ha, hm⟩ := ih h
      exact ⟨a, List.mem_cons_of_mem _ ha, hm⟩

/-- The record found under a key is what the record with that key has become. -/
theorem find_reloads (hnd : (es.map Kv.key).Nodup) {e : Kv} (he : e ∈ es) (n : ℕ) {t : Table}
    (hnew : t.find e.key = none) :
    ∃ m, (t.appendAll (reloads env n es)).find e.key = e.reload (env m).curtime := by
  induction es generalizing n t with
  | nil => cases he
  | cons a es ih =>
    rw [List.map_cons, List.nodup_cons] at hnd
    rw [reloads, Table.appendAll_append]
    rcases List.mem_cons.mp he with rfl | he
    · refine ⟨n, ?_⟩
      rw [Table.appendAll_find_ne fun e' he' hk => ?_]
      · cases hr : e.reload (env n).curtime with
        | none => exact hnew
        | some e' =>
          have hkey := (Kv.key_of_reload hr).1
          rw [← hkey] at hnew ⊢
          exact Table.find_append_self hnew
      · obtain ⟨b, hb, m, hm⟩ := mem_reloads he'
        exact hnd.1 (hk ▸ (Kv.key_of_reload hm).1 ▸ List.mem_map_of_mem hb)
    · refine ih hnd.2 he (n + 1) ?_
      rw [Table.appendAll_find_ne fun e' he' hk => ?_]
      · exact hnew
      · have hkey := (Kv.key_of_reload (Option.mem_toList.mp he')).1
        exact hnd.1 (hkey ▸ hk ▸ List.mem_map_of_mem he)

theorem length_reloads_le (n : ℕ) : (reloads env n es).length ≤ es.length := by
  induction es generalizing n with
  | nil => exact le_rfl
  | cons e es ih =>
    have := ih (n + 1)
    rw [reloads, List.length_append, List.length_cons, Option.length_toList]
    split_ifs <;> omega

end Reloads

/-! ### One record -/

theorem showSizeT_ne_minus (t : ℤ) : showSizeT t ≠ str "-1" := by
  intro hc
  have hminus : (45 : UInt8) ∈ showSizeT t := by rw [hc]; decide
  exact absurd (Decimal.isDigit_of_mem_print hminus) (by decide)

theorem atol_showSizeT (t : ℤ) : CStr.atol (showSizeT t) = min longMax (t % 2 ^ 64) := by
  have hpos : 0 ≤ t % 2 ^ 64 := Int.emod_nonneg t (by decide)
  rw [showSizeT, CStr.atol_print, Int.toNat_of_nonneg hpos]
  rfl

theorem tokens_recordBody {e : Kv} (h : Clean e.key ∧ Clean e.value) :
    CStr.tokens (· = bang) (recordBody e) = [e.key, e.value, expiryText e.expiry] := by
  have hexp := expiryText_clean e.expiry
  rw [recordBody, CStr.tokens_upto h.1.ne_nil h.1.bang, CStr.tokens_upto h.2.ne_nil h.2.bang,
    CStr.tokens_whole hexp.ne_nil hexp.bang]

/-- A saved record is linked at the end of its chain as what it has become, if anything. -/
theorem loadRecord_reload {s : Db} (hi : s.Inv) {e : Kv} (hc : Clean e.key ∧ Clean e.value)
    (hnew : s.table.find e.key = none) (hroom : s.table.count + 1 < maxAllowed.toNat)
    {env : LoadEnv} (hok : env.mallocOk = true) :
    ∃ s', loadRecord env s (recordBody e) = .ok s' ∧ s'.Inv ∧
      s'.table = s.table.appendAll (e.reload env.curtime).toList := by
  have hi1 := hashInsert_inv hi e.key e.value true maxAllowed
  obtain ⟨-, ht1, -⟩ := hashInsert_spec hi e.key e.value maxAllowed
  rw [Table.insert_new _ hnew hroom] at ht1
  have hfind := Table.find_append_self (e := ⟨e.key, e.value, -1⟩) hnew
  rw [loadRecord_fields, tokens_recordBody hc, hok]
  refine ⟨_, rfl, ?_⟩
  rw [Kv.reload]
  by_cases hmax : e.expiry = longMax
  · rw [expiryText, if_neg (not_not.mpr hmax), if_neg (not_not.mpr rfl), if_pos hmax]
    exact ⟨hi1, ht1⟩
  · obtain ⟨hi2, ht2⟩ := loadExpiry_spec hi1 env e.key (showSizeT e.expiry)
    rw [expiryText, if_pos hmax, if_pos (showSizeT_ne_minus _), if_neg hmax]
    refine ⟨hi2, ?_⟩
    rw [ht2, ht1, atol_showSizeT, Table.loadExpiry]
    dsimp only
    by_cases hle : min longMax (e.expiry % 2 ^ 64) ≤ env.curtime
    · rw [if_pos hle, if_pos hle, Table.delete_found hfind]
      exact Table.remove_append (e := ⟨e.key, e.value, -1⟩) hnew
    · have hlive : ¬ (Kv.mk e.key e.value (-1)).Expired env.now := fun hc => hc.1 rfl
      rw [if_neg hle, if_neg hle, Table.touch_live hfind hlive]
      exact Table.modify_append (e := ⟨e.key, e.value, -1⟩) hnew rfl

/-! ### All records of a file -/

theorem loadNext_ok {env : ℕ → LoadEnv} {l : Loader} {kv : Str} {s : Db}
    (h : loadRecord (env l.records) l.db kv = .ok s) :
    loadNext env l kv = .ok { l with db := s, records := l.records + 1 } := by
  rw [loadNext, h]; rfl

/-- Records with new, distinct keys: the table gets what they have become. -/
theorem load_reloads {es : List Kv} (hc : CleanChain es) (hnd : (es.map Kv.key).Nodup)
    {env : ℕ → LoadEnv} (hok : ∀ n, (env n).mallocOk = true) {l : Loader} (hi : l.db.Inv)
    (hnew : ∀ e ∈ es, l.db.table.find e.key = none)
    (hroom : l.db.table.count + es.length + 1 < maxAllowed.toNat) :
    ∃ l', (es.map recordBody).foldlM (loadNext env) l = .ok l' ∧ l'.db.Inv ∧
      l'.records = l.records + es.length ∧
      l'.db.table = l.db.table.appendAll (reloads env l.records es) := by
  induction es generalizing l with
  | nil => exact ⟨l, rfl, hi, rfl, rfl⟩
  | cons e es ih =>
    rw [List.map_cons, List.nodup_cons] at hnd
    rw [List.length_cons] at hroom
    obtain ⟨s', hrun, hi', ht⟩ := loadRecord_reload hi (hc e (by simp)) (hnew e (by simp))
      (by omega) (hok l.records)
    have hold : ∀ e' ∈ (e.reload (env l.records).curtime).toList, e'.key = e.key := fun e' he' =>
      (Kv.key_of_reload (Option.mem_toList.mp he')).1
    have hnew' : ∀ e' ∈ es, s'.table.find e'.key = none := by
      intro e' he'
      rw [ht, Table.appendAll_find_ne fun a ha hk => ?_]
      · exact hnew e' (by simp [he'])
      · exact hnd.1 (hold a ha ▸ hk ▸ List.mem_map_of_mem he')
    have hroom' : s'.table.count + es.length + 1 < maxAllowed.toNat := by
      rw [ht, Table.appendAll_count, Option.length_toList]
      split_ifs <;> omega
    obtain ⟨l', hrun', hi'', hn, ht'⟩ := ih (l := { l with db := s', records := l.records + 1 })
      (fun e he => hc e (by simp [he])) hnd.2 hi' hnew' hroom'
    refine ⟨l', ?_, hi'', ?_, ?_⟩
    · rw [List.map_cons, List.foldlM_cons, loadNext_ok hrun]
      exact hrun'
    · rw [hn, List.length_cons]; dsimp only; omega
    · rw [ht', ht, reloads, Table.appendAll_append]

/-! ### The whole table -/

/-- A table the file format can carry: well placed, distinct and clean keys, clean values, and lines
    that fit the reader's buffer. -/
structure Storable (t : Table) : Prop where
  placed : ∀ i, ∀ e ∈ t.chains i, stringFoldingHash e.key = i
  distinct : ∀ i, KeyedList.Distinct Kv.key (t.chains i)
  clean : ∀ i, CleanChain (t.chains i)
  line : ∀ i, (bucketLine (t.chains i)).length ≤ 8190

theorem mem_dataset {t : Table} {e : Kv} : e ∈ dataset t ↔ ∃ i, e ∈ t.chains i := by
  simp [dataset]

namespace Storable
variable {t : Table}

theorem nodup (h : Storable t) : ((dataset t).map Kv.key).Nodup := by
  have hn := Table.keys_nodup h.placed h.distinct
  rwa [Table.keys, ← List.map_flatMap] at hn

theorem cleanChain (h : Storable t) : CleanChain (dataset t) := fun e he =>
  (mem_dataset.mp he).elim fun i hi => h.clean i e hi

theorem length_bucketText (h : Storable t) (i : Fin mod) :
    (bucketText (t.chains i)).length ≤ 8191 := by
  have := h.line i
  rw [bucketLine, List.length_dropLast] at this
  omega

theorem fitsReader (h : Storable t) : ∀ line ∈ datasetLines t, FitsReader line := by
  intro line hl
  rcases List.mem_cons.mp hl with rfl | hl
  · exact fitsReader_header
  · obtain ⟨i, -, hi⟩ := List.mem_flatMap.mp hl
    unfold blockLines at hi
    split_ifs at hi with hne
    · cases hi
    · simp only [List.mem_cons, List.not_mem_nil, or_false] at hi
      rcases hi with rfl | rfl | rfl
      · exact fitsReader_dollar
      · have hc := h.clean i
        refine ⟨notMem_bucketLine_words (Or.inl rfl) fun e he =>
            ⟨(hc e he).1.newline, (hc e he).2.newline⟩,
          notMem_bucketLine_words (Or.inr rfl) fun e he => ⟨(hc e he).1.nul, (hc e he).2.nul⟩, ?_⟩
        exact lt_of_le_of_lt (h.line i) (by decide)
      · exact fitsReader_dollar

/-- There are fewer records than bytes. -/
theorem length_dataset (h : Storable t) : (dataset t).length ≤ 101 * 8191 := by
  rw [dataset, List.length_flatMap]
  have hsum := List.sum_le_card_nsmul ((List.finRange mod).map fun i => (t.chains i).length) 8191
    fun n hn => by
      obtain ⟨i, -, rfl⟩ := List.mem_map.mp hn
      exact (length_le_bucketText _).trans (h.length_bucketText i)
  rw [List.length_map, List.length_finRange, smul_eq_mul] at hsum
  exact hsum

/-- The records of one bucket among all of them are those of its chain. -/
theorem filter_dataset (h : Storable t) (i : Fin mod) :
    (dataset t).filter (fun e => stringFoldingHash e.key = i) = t.chains i := by
  have hone : ∀ j, (t.chains j).filter (fun e => stringFoldingHash e.key = i) =
      if j = i then t.chains i else [] := by
    intro j
    split_ifs with hji
    · subst hji
      exact List.filter_eq_self.mpr fun e he => by simpa using h.placed j e he
    · exact List.filter_eq_nil_iff.mpr fun e he => by simpa [h.placed j e he] using hji
  rw [dataset, List.filter_flatMap]
  simp only [hone]
  have hall : ∀ is : List (Fin mod), is.Nodup →
      (is.flatMap fun j => if j = i then t.chains i else []) =
        if i ∈ is then t.chains i else [] := by
    intro is hnd
    induction is with
    | nil => rfl
    | cons j is ih =>
      rw [List.nodup_cons] at hnd
      rw [List.flatMap_cons, ih hnd.2]
      rcases eq_or_ne j i with rfl | hji
      · rw [if_pos rfl, if_neg hnd.1, if_pos (by simp), List.append_nil]
      · rw [if_neg hji, List.nil_append]
        simp [hji.symm]
  rw [hall _ (List.nodup_finRange mod), if_pos (List.mem_finRange i)]

theorem room (h : Storable t) : (dataset t).length + 1 < maxAllowed.toNat := by
  have hlen := h.length_dataset
  have hmax : maxAllowed.toNat = 9223372036854775807 := rfl
  omega

/-- Loading the file of the table, with memory. -/
theorem rebuild (h : Storable t) (env : ℕ → LoadEnv) (hok : ∀ n, (env n).mallocOk = true) :
    ∃ l, rebuildFromSavefile env (some (unlines (datasetLines t))) (Loader.start htInit) =
        .ok (dbErrOk, l) ∧ l.processSave = false ∧ l.db.Inv ∧
      l.db.table = htInit.table.appendAll (reloads env 0 (dataset t)) := by
  have hroom := h.room
  obtain ⟨l, hrun, hi, -, ht⟩ := load_reloads (l := Loader.start htInit) h.cleanChain h.nodup hok
    htInit_inv (fun _ _ => rfl) (by
      have hzero : (Loader.start htInit).db.table.count = 0 := rfl
      omega)
  obtain ⟨hrec, hsw⟩ := records_datasetLines (t := t) h.clean
  refine ⟨{ l with processSave := false }, ?_, rfl, hi, ht⟩
  have hlines := readLines_unlines h.fitsReader
  have hload : (records false (readLines (unlines (datasetLines t)))).foldlM (loadNext env)
      (Loader.start htInit) = .ok l := by rw [hlines, hrec, hrun]
  rw [rebuild_of_load hload, hlines, hsw]

/-- What is found under a saved key after a restart. -/
theorem rebuild_find (h : Storable t) {env : ℕ → LoadEnv} {l : Loader}
    (ht : l.db.table = htInit.table.appendAll (reloads env 0 (dataset t))) {i : Fin mod} {e : Kv}
    (he : e ∈ t.chains i) : ∃ n, l.db.table.find e.key = e.reload (env n).curtime := by
  rw [ht]
  exact find_reloads h.nodup (mem_dataset.mpr ⟨i, he⟩) 0 rfl

end Storable

end SahDB
