import SahDB.Restart
import SahDB.SelfLoad

/-! Restarting from the start of a save file.

    A SAVE that is killed leaves a prefix of the file. All its records are records of the store, but
    perhaps the last, which may be the start of one (`records_of_part`). If that ends inside the
    value, the start of the value is loaded for the whole (`CutsValue`); if it ends inside the key
    or right behind it, there is no value and the load stops (`CutsKey`). -/

namespace SahDB
open Db Table

/-! ### Where a file can end -/

/-- The lines of some buckets and the `$` in front of the next. -/
def blocksBefore (t : Table) (is : List (Fin mod)) : List Str :=
  (is.flatMap fun i => blockLines (t.chains i)) ++ [dollar]

/-- The file ends in `r`, where the record of `e` starts, and its last line is no `$`. -/
def EndsIn (t : Table) (p : Str) (e : Kv) (r : Str) : Prop :=
  ∃ is i is' pre post, List.finRange mod = is ++ i :: is' ∧ t.chains i = pre ++ e :: post ∧
    p = unlines (fileHeaderVer :: blocksBefore t is) ++ (bucketText pre ++ r) ∧ r ≠ [] ∧
    bucketText pre ++ r ≠ dollar

/-- The file ends inside a value. -/
def CutsValue (t : Table) (p : Str) : Prop :=
  ∃ e v, EndsIn t p e (e.key ++ bang :: v) ∧ v ≠ [] ∧ v <+: e.value ∧ v ≠ e.value

/-- The file ends inside a key or right behind it. -/
def CutsKey (t : Table) (p : Str) : Prop := ∃ e r, EndsIn t p e r ∧ r <+: e.key ++ [bang]

/-- Every pair of the store is one of the table. -/
def OnlySaved (t : Table) (s : Db) : Prop :=
  ∀ i, ∀ e ∈ s.chain i, (t.find e.key).map Kv.value = some e.value

/-- A start of a text around a separator ends before it or goes on behind it. -/
theorem prefix_append_cons {c : UInt8} {q a b : Str} (h : q <+: a ++ c :: b) :
    q <+: a ∨ ∃ q', q = a ++ c :: q' ∧ q' <+: b := by
  rcases List.prefix_or_prefix_of_prefix h (List.prefix_append a (c :: b)) with hq | ⟨r, rfl⟩
  · exact Or.inl hq
  · have hr : r <+: c :: b := (List.prefix_append_right_inj a).mp h
    cases r with
    | nil => exact Or.inl (by simp)
    | cons d r =>
      obtain ⟨rfl, htail⟩ := List.cons_prefix_cons.mp hr
      exact Or.inr ⟨r, rfl, htail⟩

/-! ### Starts of a record -/

section Part
variable {e : Kv} {r : Str}

/-- A record that ends inside its value has the key and the start of the value. -/
theorem tokens_cut (hc : Clean e.key ∧ Clean e.value) {v : Str} (hv : v ≠ [])
    (hpre : v <+: e.value) : CStr.tokens (· = bang) (e.key ++ bang :: v) = [e.key, v] := by
  have hno : bang ∉ v := fun hm => hc.2.bang (hpre.subset hm)
  rw [CStr.tokens_upto hc.1.ne_nil hc.1.bang, CStr.tokens_whole hv hno]

/-- One that ends before its value has no value. -/
theorem not_fielded (hc : Clean e.key ∧ Clean e.value) (hr : r <+: e.key ++ [bang]) :
    ¬ Fielded r := by
  rw [Fielded]
  rcases prefix_append_cons hr with hr | ⟨s, rfl, hs⟩
  · rcases eq_or_ne r [] with rfl | hne
    · rw [CStr.tokens_nil]; simp
    · have hno : bang ∉ r := fun hm => hc.1.bang (hr.subset hm)
      rw [CStr.tokens_whole hne hno]; simp
  · rw [List.prefix_nil.mp hs, CStr.tokens_upto hc.1.ne_nil hc.1.bang, CStr.tokens_nil]
    simp

/-- What the loader makes of the start of a record: no pair, the start of the value for the value,
    or the pair. -/
theorem part_cases (hc : Clean e.key ∧ Clean e.value) (hr : r <+: recordBody e) :
    r <+: e.key ++ [bang] ∨ (∃ v, v ≠ [] ∧ v <+: e.value ∧ r = e.key ++ bang :: v) ∨
      ∃ rest, CStr.tokens (· = bang) r = e.key :: e.value :: rest := by
  rcases prefix_append_cons hr with hr | ⟨s, rfl, hs⟩
  · exact Or.inl (hr.trans (List.prefix_append _ _))
  rcases eq_or_ne s [] with rfl | hsne
  · exact Or.inl List.prefix_rfl
  rcases prefix_append_cons hs with hv | ⟨x, rfl, -⟩
  · exact Or.inr (Or.inl ⟨s, hsne, hv, rfl⟩)
  · rw [CStr.tokens_upto hc.1.ne_nil hc.1.bang, CStr.tokens_upto hc.2.ne_nil hc.2.bang]
    exact Or.inr (Or.inr ⟨_, rfl⟩)

end Part

/-! ### Starts of a bucket line -/

section Line
variable {chain : List Kv} {q : Str}

theorem prefix_bucketLine (hne : chain ≠ []) (h : q <+: bucketLine chain) :
    ∃ pre e post r, chain = pre ++ e :: post ∧ q = bucketText pre ++ r ∧ r <+: recordBody e := by
  induction chain generalizing q with
  | nil => exact absurd rfl hne
  | cons e chain ih =>
    cases chain with
    | nil => exact ⟨[], e, [], q, rfl, rfl, bucketLine_singleton e ▸ h⟩
    | cons e' chain =>
      rw [bucketLine_cons] at h
      rcases prefix_append_cons h with hq | ⟨q', rfl, hq⟩
      · exact ⟨[], e, e' :: chain, q, rfl, rfl, hq⟩
      · obtain ⟨pre, a, post, r, hsplit, rfl, hr⟩ := ih (by simp) hq
        refine ⟨e :: pre, a, post, r, by rw [hsplit]; rfl, ?_, hr⟩
        rw [bucketText_cons, List.append_assoc, List.cons_append]

/-- Up to each of its records a line is as the text. -/
theorem prefix_of_record (pre : List Kv) (e : Kv) (post : List Kv) :
    bucketText pre ++ recordBody e <+: bucketLine (pre ++ e :: post) := by
  rw [bucketLine, bucketText_append, bucketText_cons, ← List.append_assoc,
    List.dropLast_append_of_ne_nil (by simp)]
  exact List.prefix_append _ _

/-- The start of a record is one record. -/
theorem tokens_start {e : Kv} (h : Clean e.key ∧ Clean e.value) {r : Str} (hr : r <+: recordBody e)
    (hne : r ≠ []) : CStr.tokens (· = bar) r = [r] :=
  CStr.tokens_whole hne fun hm => notMem_bar h (hr.subset hm)

/-- The start of a line that fits is one line or none. -/
theorem readLines_part {line : Str} (h : FitsReader line) (hq : q <+: line) (hne : q ≠ []) :
    readLines q = [q] := by
  obtain ⟨hn, h0, hlen⟩ := h
  have hsub : ∀ {b : UInt8}, b ∉ line → b ∉ q := fun hb hm => hb (hq.subset hm)
  rw [readLines, CStr.pieces_of_length_le (hsub hn) hne (hq.length_le.trans hlen.le), List.map_cons,
    CStr.cut_of_notMem (hsub h0), CStr.chomp_of_notMem (hsub hn)]
  rfl

/-- The start of a `$` line has no records. -/
theorem records_dollar_part (on : Bool) (hq : q <+: dollar) : records on (readLines q) = [] := by
  rcases eq_or_ne q [] with rfl | hne
  · rw [readLines_nil]; rfl
  · have hlen := hq.length_le
    have heq : q = dollar := hq.eq_of_length_le (by
      have := List.length_pos_of_ne_nil hne
      exact this)
    subst heq
    rw [readLines_part fitsReader_dollar List.prefix_rfl hne]
    cases on <;> rfl

end Line

/-! ### Starts of the file -/

section File
variable {t : Table} {p : Str}

theorem blocksBefore_cons (t : Table) (i : Fin mod) (is : List (Fin mod)) :
    blocksBefore t (i :: is) = blockLines (t.chains i) ++ blocksBefore t is := by
  rw [blocksBefore, List.flatMap_cons, List.append_assoc, blocksBefore]

theorem Storable.fits_bucketLine (h : Storable t) {i : Fin mod} (hne : t.chains i ≠ []) :
    FitsReader (bucketLine (t.chains i)) := by
  refine h.fitsReader _ (List.mem_cons_of_mem _ (List.mem_flatMap.mpr ⟨i, List.mem_finRange i, ?_⟩))
  rw [blockLines, if_neg hne]
  simp

theorem Storable.fits_blocksBefore (h : Storable t) (is : List (Fin mod)) :
    ∀ line ∈ fileHeaderVer :: blocksBefore t is, FitsReader line := by
  intro line hl
  rcases List.mem_cons.mp hl with rfl | hl
  · exact fitsReader_header
  · rcases List.mem_append.mp hl with hl | hl
    · obtain ⟨i, -, hi⟩ := List.mem_flatMap.mp hl
      exact h.fitsReader _
        (List.mem_cons_of_mem _ (List.mem_flatMap.mpr ⟨i, List.mem_finRange i, hi⟩))
    · rw [List.mem_singleton.mp hl]
      exact fitsReader_dollar

/-- A data line, broken off: every record is one of the chain, but for the last. -/
theorem records_of_part_line {chain : List Kv} (hc : CleanChain chain) (hne : chain ≠ [])
    (hfits : FitsReader (bucketLine chain)) (hp : p <+: bucketLine chain) {kv : Str}
    (hkv : kv ∈ records true (readLines p)) :
    kv ∈ chain.map recordBody ∨
      ∃ pre e post, chain = pre ++ e :: post ∧ p = bucketText pre ++ kv ∧ kv ≠ [] ∧
        p ≠ dollar ∧ kv <+: recordBody e := by
  obtain ⟨pre, e, post, r, hsplit, hpr, hr⟩ := prefix_bucketLine hne hp
  rcases eq_or_ne p [] with hnil | hq
  · rw [hnil, readLines_nil] at hkv
    cases hkv
  rw [readLines_part hfits hp hq, records] at hkv
  rcases eq_or_ne p dollar with hdollar | hdollar
  · rw [if_pos hdollar] at hkv
    cases hkv
  rw [if_neg hdollar, if_pos rfl, records, List.append_nil, hpr,
    tokens_bucketText fun a ha => hc a (by simp [hsplit, ha])] at hkv
  rcases List.mem_append.mp hkv with hkv | hkv
  · refine Or.inl ?_
    rw [hsplit, List.map_append]
    exact List.mem_append_left _ hkv
  · rcases eq_or_ne r [] with rfl | hrne
    · rw [CStr.tokens_nil] at hkv
      cases hkv
    · rw [tokens_start (hc e (by simp [hsplit])) hr hrne, List.mem_singleton] at hkv
      subst hkv
      exact Or.inr ⟨pre, e, post, hsplit, hpr, hrne, hdollar, hr⟩

/-- A block and what follows it, broken off: in the block as in its data line, or behind it. -/
theorem records_of_part_block {chain : List Kv} (hc : CleanChain chain) (hne : chain ≠ [])
    (hfits : FitsReader (bucketLine chain)) {s : Str} (hp : p <+: unlines (blockLines chain) ++ s)
    {kv : Str} (hkv : kv ∈ records false (readLines p)) :
    kv ∈ chain.map recordBody ∨
      (∃ pre e post, chain = pre ++ e :: post ∧
        p = dollar ++ CStr.newline :: (bucketText pre ++ kv) ∧ kv ≠ [] ∧
        bucketText pre ++ kv ≠ dollar ∧ kv <+: recordBody e) ∨
      ∃ q, p = unlines (blockLines chain) ++ q ∧ q <+: s ∧ kv ∈ records false (readLines q) := by
  rw [unlines_block hne] at hp
  -- in front of the data line
  rcases prefix_append_cons hp with hp0 | ⟨p1, rfl, hp1⟩
  · rw [records_dollar_part false hp0] at hkv
    cases hkv
  rw [records_dollar, Bool.not_false] at hkv
  rcases prefix_append_cons hp1 with hp1 | ⟨p2, rfl, hp2⟩
  · -- in the data line
    refine (records_of_part_line hc hne hfits hp1 hkv).imp_right fun hpart => Or.inl ?_
    obtain ⟨pre, e, post, hsplit, rfl, hrest⟩ := hpart
    exact ⟨pre, e, post, hsplit, rfl, hrest⟩
  · -- behind it
    rw [readLines_cons hfits, records, if_neg (bucketLine_ne_dollar hne), if_pos rfl,
      tokens_bucketLine hc] at hkv
    rcases List.mem_append.mp hkv with hkv | hkv
    · exact Or.inl hkv
    rcases prefix_append_cons hp2 with hp3 | ⟨p3, rfl, hp3⟩
    · rw [records_dollar_part true hp3] at hkv
      cases hkv
    · rw [records_dollar, Bool.not_true] at hkv
      exact Or.inr (Or.inr ⟨p3, (unlines_block hne p3).symm, hp3, hkv⟩)

/-- The blocks of some buckets, broken off: every record is one of the table, but for the last. -/
theorem records_of_part_blocks (h : Storable t) {is : List (Fin mod)}
    (hp : p <+: unlines (is.flatMap fun i => blockLines (t.chains i))) {kv : Str}
    (hkv : kv ∈ records false (readLines p)) :
    (∃ e ∈ dataset t, kv = recordBody e) ∨
    ∃ is₁ i is₂ pre e post, is = is₁ ++ i :: is₂ ∧ t.chains i = pre ++ e :: post ∧
      p = unlines (blocksBefore t is₁) ++ (bucketText pre ++ kv) ∧ kv ≠ [] ∧
      bucketText pre ++ kv ≠ dollar ∧ kv <+: recordBody e := by
  induction is generalizing p with
  | nil =>
    rw [List.prefix_nil.mp hp, readLines_nil] at hkv
    cases hkv
  | cons i is ih =>
    rw [List.flatMap_cons, unlines_append] at hp
    rcases eq_or_ne (t.chains i) [] with hnil | hne
    · have hskip : blockLines (t.chains i) = [] := if_pos hnil
      rw [hskip] at hp
      refine (ih hp hkv).imp_right ?_
      rintro ⟨is₁, j, is₂, pre, e, post, rfl, hrest⟩
      refine ⟨i :: is₁, j, is₂, pre, e, post, rfl, ?_⟩
      rw [blocksBefore_cons, hskip]
      exact hrest
    · rcases records_of_part_block (h.clean i) hne (h.fits_bucketLine hne) hp hkv with
        hsaved | ⟨pre, e, post, hsplit, rfl, hrest⟩ | ⟨q, rfl, hq, hkv⟩
      · obtain ⟨e, he, rfl⟩ := List.mem_map.mp hsaved
        exact Or.inl ⟨e, mem_dataset.mpr ⟨i, he⟩, rfl⟩
      · exact Or.inr ⟨[], i, is, pre, e, post, rfl, hsplit, by simp [blocksBefore, unlines], hrest⟩
      · refine (ih hq hkv).imp_right ?_
        rintro ⟨is₁, j, is₂, pre, e, post, rfl, hsplit, rfl, hrest⟩
        refine ⟨i :: is₁, j, is₂, pre, e, post, rfl, hsplit, ?_, hrest⟩
        rw [blocksBefore_cons, unlines_append, List.append_assoc]

/-- Every record in the start of a file is one of the table, but for the last. -/
theorem records_of_part (h : Storable t) (hp : p <+: unlines (datasetLines t)) {kv : Str}
    (hkv : kv ∈ records false (readLines p)) :
    (∃ e ∈ dataset t, kv = recordBody e) ∨
      ∃ e ∈ dataset t, EndsIn t p e kv ∧ kv <+: recordBody e := by
  rw [datasetLines, unlines_cons] at hp
  rcases prefix_append_cons hp with hp | ⟨p1, rfl, hp1⟩
  · -- in the header
    rcases eq_or_ne p [] with rfl | hne
    · rw [readLines_nil] at hkv
      cases hkv
    · rw [readLines_part fitsReader_header hp hne] at hkv
      simp [records] at hkv
  · rw [records_header] at hkv
    refine (records_of_part_blocks h hp1 hkv).imp_right ?_
    rintro ⟨is, i, is', pre, e, post, his, hsplit, rfl, hne, hdollar, hr⟩
    refine ⟨e, mem_dataset.mpr ⟨i, by rw [hsplit]; simp⟩,
      ⟨is, i, is', pre, post, his, hsplit, ?_, hne, hdollar⟩, hr⟩
    rw [unlines_cons, List.append_assoc, List.cons_append]

/-- What the loader sees in a file that ends where a record starts. -/
theorem records_of_endsIn (h : Storable t) {e : Kv} {r : Str} (hend : EndsIn t p e r)
    (hr : r <+: recordBody e) : ∃ es es', dataset t = es ++ e :: es' ∧
      records false (readLines p) = es.map recordBody ++ [r] := by
  obtain ⟨is, i, is', pre, post, his, hsplit, rfl, hne, hdollar⟩ := hend
  have hc := hsplit ▸ h.clean i
  have hchain : t.chains i ≠ [] := by rw [hsplit]; simp
  have hpart : bucketText pre ++ r <+: bucketLine (t.chains i) :=
    ((List.prefix_append_right_inj _).mpr hr).trans (hsplit ▸ prefix_of_record pre e post)
  have hq : bucketText pre ++ r ≠ [] := by simp [hne]
  refine ⟨is.flatMap t.chains ++ pre, post ++ is'.flatMap t.chains, ?_, ?_⟩
  · rw [dataset, his, List.flatMap_append, List.flatMap_cons, hsplit]
    simp
  · rw [readLines_unlines_append (h.fits_blocksBefore is),
      readLines_part (h.fits_bucketLine hchain) hpart hq, List.cons_append, records,
      if_neg (by decide), if_neg (by simp), blocksBefore, List.append_assoc, records_append,
      (records_blocks h.clean is).1, (records_blocks h.clean is).2, List.singleton_append, records,
      if_pos rfl, Bool.not_false, records, if_neg hdollar, if_pos rfl,
      tokens_bucketText fun a ha => hc a (by simp [ha]), tokens_start (hc e (by simp)) hr hne]
    simp [records]

end File

/-! ### What is loaded -/

section Load
variable {t : Table} {p : Str}

theorem saved_stable (t : Table) : Stable (fun k v => (t.find k).map Kv.value = some v)
    fun e => (t.find e.key).map Kv.value = some e.value :=
  ⟨fun _ _ h => h, fun _ _ h _ => h, fun _ _ _ _ h => h⟩

/-- If the file does not end inside a value, every pair that is loaded is one of the table. -/
theorem onlySaved_of_not_cuts (h : Storable t) (hi : t.Inv) (hp : p <+: unlines (datasetLines t))
    (hcut : ¬ CutsValue t p) {env : ℕ → LoadEnv} {code : Err} {l : Loader}
    (hload : rebuildFromSavefile env (some p) (Loader.start htInit) = .ok (code, l)) :
    OnlySaved t l.db := by
  refine rebuild_records (saved_stable t) (fun file hfile kv hkv key val rest htok => ?_) hload
  cases hfile
  have hfind : ∀ e ∈ dataset t, (t.find e.key).map Kv.value = some e.value := by
    intro e he
    obtain ⟨i, hei⟩ := mem_dataset.mp he
    rw [hi.find_of_mem hei]
    rfl
  rcases records_of_part h hp hkv with ⟨e, he, rfl⟩ | ⟨e, he, hend, hr⟩
  · rw [tokens_recordBody (h.cleanChain e he)] at htok
    cases htok
    exact hfind e he
  · have hc := h.cleanChain e he
    rcases part_cases hc hr with hkey | ⟨v, hv, hpre, rfl⟩ | ⟨fields, hfields⟩
    · have hno := not_fielded hc hkey
      rw [Fielded, htok] at hno
      simp at hno
    · rw [tokens_cut hc hv hpre] at htok
      cases htok
      rcases eq_or_ne val e.value with rfl | hcutv
      · exact hfind e he
      · exact absurd ⟨e, val, hend, hv, hpre, hcutv⟩ hcut
    · rw [htok] at hfields
      cases hfields
      exact hfind e he

/-- If it does not end inside a key or right behind it, the load returns. -/
theorem rebuild_of_not_cuts (h : Storable t) (hp : p <+: unlines (datasetLines t))
    (hcut : ¬ CutsKey t p) (env : ℕ → LoadEnv) :
    ∃ l, rebuildFromSavefile env (some p) (Loader.start htInit) = .ok (dbErrOk, l) := by
  have hall : ∀ kv ∈ records false (readLines p), Fielded kv := by
    intro kv hkv
    rcases records_of_part h hp hkv with ⟨e, he, rfl⟩ | ⟨e, he, hend, hr⟩
    · rw [Fielded, tokens_recordBody (h.cleanChain e he)]
      simp
    · have hc := h.cleanChain e he
      rcases part_cases hc hr with hkey | ⟨v, hv, hpre, rfl⟩ | ⟨fields, hfields⟩
      · exact absurd ⟨e, kv, hend, hkey⟩ hcut
      · rw [Fielded, tokens_cut hc hv hpre]; simp
      · rw [Fielded, hfields]; simp
  obtain ⟨l, hl⟩ := load_ok hall env (Loader.start htInit)
  exact ⟨_, rebuild_of_load hl⟩

/-- Behind the records in front of it, the start of a value is loaded for the value. -/
theorem load_cut (h : Storable t) {es es' : List Kv} {e : Kv} (hsplit : dataset t = es ++ e :: es')
    {v : Str} (hv : v ≠ []) (hpre : v <+: e.value) {env : ℕ → LoadEnv}
    (hok : ∀ n, (env n).mallocOk = true) :
    ∃ l, (es.map recordBody ++ [e.key ++ bang :: v]).foldlM (loadNext env) (Loader.start htInit) =
        .ok l ∧ l.db.table.find e.key = some ⟨e.key, v, -1⟩ := by
  have hclean : CleanChain (es ++ e :: es') := hsplit ▸ h.cleanChain
  have hnd := h.nodup
  rw [hsplit, List.map_append, List.map_cons, List.nodup_append] at hnd
  have hroom := h.room
  rw [hsplit, List.length_append, List.length_cons] at hroom
  have hzero : (Loader.start htInit).db.table.count = 0 := rfl
  -- the whole records in front of it
  obtain ⟨l, hrun, hinv, -, ht⟩ := load_reloads (l := Loader.start htInit)
    (fun a ha => hclean a (by simp [ha])) hnd.1 hok htInit_inv (fun _ _ => rfl) (by omega)
  -- the key is new
  have hnew : l.db.table.find e.key = none := by
    rw [ht, appendAll_find_ne fun a ha hk => ?_]
    · rfl
    · obtain ⟨b, hb, m, hm⟩ := mem_reloads ha
      exact hnd.2.2 b.key (List.mem_map_of_mem hb) e.key List.mem_cons_self
        ((Kv.key_of_reload hm).1.symm.trans hk)
  have hcount : l.db.table.count + 1 < maxAllowed.toNat := by
    rw [ht, appendAll_count]
    have := (length_reloads_le 0 : (reloads env 0 es).length ≤ es.length)
    have hstart0 : (Loader.start htInit).records = 0 := rfl
    rw [hstart0]
    omega
  -- so it gets the start of the value
  obtain ⟨-, hset, -⟩ := hashInsert_spec hinv e.key v maxAllowed
  rw [Table.insert_new v hnew hcount] at hset
  have hlast : loadRecord (env l.records) l.db (e.key ++ bang :: v) =
      .ok (hashInsert l.db e.key v true).1 := by
    rw [loadRecord_fields, tokens_cut (hclean e (by simp)) hv hpre, hok]
    rfl
  refine ⟨{ l with db := (hashInsert l.db e.key v true).1, records := l.records + 1 }, ?_, ?_⟩
  · rw [List.foldlM_append, hrun]
    change [e.key ++ bang :: v].foldlM (loadNext env) l = _
    rw [List.foldlM_cons, loadNext_ok hlast]
    rfl
  · exact hset ▸ find_append_self (e := ⟨e.key, v, -1⟩) hnew

/-- A file that ends inside a value loads with a pair that was never saved. -/
theorem CutsValue.loads (h : Storable t) (hi : t.Inv) (hcut : CutsValue t p) (env : ℕ → LoadEnv)
    (hok : ∀ n, (env n).mallocOk = true) :
    ∃ l, rebuildFromSavefile env (some p) (Loader.start htInit) = .ok (dbErrOk, l) ∧
      ¬ OnlySaved t l.db := by
  obtain ⟨e, v, hend, hv, hpre, hne⟩ := hcut
  have hstart : e.key ++ bang :: v <+: recordBody e :=
    (List.prefix_append_right_inj _).mpr (List.cons_prefix_cons.mpr
      ⟨rfl, hpre.trans (List.prefix_append _ _)⟩)
  obtain ⟨es, es', hsplit, hrec⟩ := records_of_endsIn h hend hstart
  obtain ⟨l, hload, hfind⟩ := load_cut h hsplit hv hpre hok
  refine ⟨_, rebuild_of_load (hrec ▸ hload), fun honly => hne ?_⟩
  have hsaved := honly _ _ (mem_of_find hfind)
  obtain ⟨i, hei⟩ := mem_dataset.mp (show e ∈ dataset t by rw [hsplit]; simp)
  rw [hi.find_of_mem hei] at hsaved
  exact (Option.some.inj hsaved).symm

/-- A file that ends inside a key or right behind it stops the load. -/
theorem CutsKey.faults (h : Storable t) (hcut : CutsKey t p) {env : ℕ → LoadEnv}
    (hok : ∀ n, (env n).mallocOk = true) :
    ¬ ∃ l, rebuildFromSavefile env (some p) (Loader.start htInit) = .ok (dbErrOk, l) := by
  obtain ⟨e, r, hend, hkey⟩ := hcut
  have hr : r <+: recordBody e := hkey.trans
    ((List.prefix_append_right_inj _).mpr (List.cons_prefix_cons.mpr ⟨rfl, List.nil_prefix⟩))
  obtain ⟨es, es', hsplit, hrec⟩ := records_of_endsIn h hend hr
  have hclean := h.cleanChain e (by rw [hsplit]; simp)
  rw [rebuild_ok_iff hok, hrec]
  exact fun hall => not_fielded (h.cleanChain e (by rw [hsplit]; simp)) hkey (hall r (by simp))

end Load

/-! ### Recovery -/

/-- CORRECT: on any prefix of what SAVE writes for a store with plain words whose lines fit, a load
    that returns has only pairs of the store exactly when the prefix does not end inside a value,
    and every load returns exactly when it does not end inside a key or right behind it. -/
theorem torn_save_iff {n : Node} (h : Reached n) (hw : PlainWords n.db) (hl : LinesFit n.db)
    {disk : Option Str} {file : Str}
    (hsave : fetchDatasetFromMemory true (fun _ => true) n.db.table disk = .ok (0, some file))
    {p : Str} (hp : p <+: file) :
    ((∀ env code l, rebuildFromSavefile env (some p) (Loader.start htInit) = .ok (code, l) →
        OnlySaved n.db.table l.db) ↔ ¬ CutsValue n.db.table p) ∧
    ((∀ env, ∃ l, rebuildFromSavefile env (some p) (Loader.start htInit) = .ok (dbErrOk, l)) ↔
      ¬ CutsKey n.db.table p) := by
  have hst := h.storable hw hl
  have hi := h.inv_records.1.wf
  rw [file_of_fetch hsave] at hp
  refine ⟨⟨fun honly hcut => ?_, fun hcut env code l hload => ?_⟩,
    ⟨fun hall hcut => ?_, fun hcut env => rebuild_of_not_cuts hst hp hcut env⟩⟩
  · obtain ⟨l, hload, hno⟩ := hcut.loads hst hi (fun _ => loadAt 0) fun _ => rfl
    exact hno (honly _ _ l hload)
  · exact onlySaved_of_not_cuts hst hi hp hcut hload
  · exact hcut.faults hst (fun _ => rfl) (hall fun _ => loadAt 0)

/-- SET k ab -/
def longValue : Db := queried 100 [.set (str "k") (str "ab")]

theorem longValue_reached : Reached ⟨longValue, none⟩ := reached_queried 100 (by decide)

theorem longValue_fits :
    PlainWords longValue ∧ LinesFit longValue ∧ FitsBuffer longValue.table := by
  decide +kernel

/-- The start of its file, up to the a of the value. -/
def tornFile : Str := str "SahDB001\n$\nk!a"

theorem tornFile_starts : tornFile <+: unlines (datasetLines longValue.table) := by decide +kernel

theorem tornFile_cutsValue : CutsValue longValue.table tornFile := by
  have hchain : ∀ i, longValue.table.chains i =
      if i = stringFoldingHash (str "k") then [⟨str "k", str "ab", -1⟩] else [] := by
    decide +kernel
  let before := (List.finRange mod).take (stringFoldingHash (str "k")).val
  have hsplit : List.finRange mod = before ++ stringFoldingHash (str "k") ::
      (List.finRange mod).drop ((stringFoldingHash (str "k")).val + 1) := by decide +kernel
  have hfile : tornFile = unlines (fileHeaderVer :: blocksBefore longValue.table before) ++
      (bucketText [] ++ (str "k" ++ bang :: str "a")) := by decide +kernel
  refine ⟨⟨str "k", str "ab", -1⟩, str "a", ⟨before, _, _, [], [], hsplit, ?_, hfile, by decide,
    by decide⟩, by decide, by decide, by decide⟩
  rw [hchain, if_pos rfl]
  rfl

/-- Its load has the pair k, a. -/
theorem torn_save_iff_long :
    ¬ ∀ env code l, rebuildFromSavefile env (some tornFile) (Loader.start htInit) = .ok (code, l) →
      OnlySaved longValue.table l.db := by
  intro hall
  obtain ⟨hplain, hlines, hbuffer⟩ := longValue_fits
  exact (torn_save_iff longValue_reached hplain hlines (fetch_of_fits hbuffer none)
    tornFile_starts).1.mp hall tornFile_cutsValue

/-- The start of a value is loaded for the value. -/
theorem torn_value_is_loaded :
    ¬ ∀ (n : Node), Reached n → PlainWords n.db → LinesFit n.db → ∀ disk file,
      fetchDatasetFromMemory true (fun _ => true) n.db.table disk = .ok (0, some file) →
        ∀ p, p <+: file → ∀ env code l,
          rebuildFromSavefile env (some p) (Loader.start htInit) = .ok (code, l) →
            OnlySaved n.db.table l.db := by
  intro h
  obtain ⟨hplain, hlines, hbuffer⟩ := longValue_fits
  obtain ⟨l, hload, hno⟩ := tornFile_cutsValue.loads (longValue_reached.storable hplain hlines)
    longValue_reached.inv_records.1.wf (fun _ => loadAt 200) fun _ => rfl
  exact hno (h _ longValue_reached hplain hlines none _ (fetch_of_fits hbuffer none) _
    tornFile_starts _ _ l hload)

end SahDB
