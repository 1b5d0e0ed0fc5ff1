import SahDB.Requests
import SahDB.SaveSpec

/-! How much of a store its save file determines.

    The writer escapes nothing. Where no key contains `!` and no value contains both `!` and `|`, a
    record can be read off the front of any text that starts with it (`recordText_append_inj`), so
    the file determines the records of every bucket and with them the mapping
    (`save_format_unambiguous`). With a `!` in a key it does not. -/

namespace SahDB
open Db

/-- The key contains no separator of fields, and the value not both separators. -/
def Separable (e : Kv) : Prop := bang ∉ e.key ∧ ¬ (bang ∈ e.value ∧ bar ∈ e.value)

instance (e : Kv) : Decidable (Separable e) := inferInstanceAs (Decidable (_ ∧ _))

/-- What the file says of a record. -/
def fields (e : Kv) : Str × Str × Str := (e.key, e.value, expiryText e.expiry)

/-- The lines of a text without newlines in them can be read off it. -/
theorem unlines_injective {a b : List Str} (ha : ∀ l ∈ a, CStr.newline ∉ l)
    (hb : ∀ l ∈ b, CStr.newline ∉ l) (h : unlines a = unlines b) : a = b := by
  induction a generalizing b with
  | nil =>
    cases b with
    | nil => rfl
    | cons l b => rw [unlines_cons] at h; simp [unlines] at h
  | cons k a ih =>
    cases b with
    | nil => rw [unlines_cons] at h; simp [unlines] at h
    | cons l b =>
      rw [unlines_cons, unlines_cons] at h
      obtain ⟨rfl, hrest⟩ := CStr.append_cons_inj (ha k (by simp)) (hb l (by simp)) h
      rw [ih (fun l hl => ha l (by simp [hl])) (fun l hl => hb l (by simp [hl])) hrest]

/-! ### Records -/

section Fields
variable {v v' x x' s t : Str}

/-- Values without `!` end at the first one. -/
theorem value_inj_of_bang (hv : bang ∉ v) (hv' : bang ∉ v') (hx : bar ∉ x) (hx' : bar ∉ x')
    (h : v ++ bang :: (x ++ bar :: s) = v' ++ bang :: (x' ++ bar :: t)) :
    v = v' ∧ x = x' ∧ s = t := by
  obtain ⟨rfl, hrest⟩ := CStr.append_cons_inj hv hv' h
  exact ⟨rfl, CStr.append_cons_inj hx hx' hrest⟩

/-- Values without `|` end at the last `!` before the first `|`. -/
theorem value_inj_of_bar (hv : bar ∉ v) (hv' : bar ∉ v') (hx : Clean x) (hx' : Clean x')
    (h : v ++ bang :: (x ++ bar :: s) = v' ++ bang :: (x' ++ bar :: t)) :
    v = v' ∧ x = x' ∧ s = t := by
  have hno : ∀ {v x : Str}, bar ∉ v → Clean x → bar ∉ v ++ bang :: x := by
    intro v x hv hx
    simp only [List.mem_append, List.mem_cons, not_or]
    exact ⟨hv, by decide, hx.bar⟩
  have happ : ∀ v x s : Str, v ++ bang :: (x ++ bar :: s) = (v ++ bang :: x) ++ bar :: s :=
    fun v x s => by rw [List.append_assoc, List.cons_append]
  rw [happ, happ] at h
  obtain ⟨hfields, hrest⟩ := CStr.append_cons_inj (hno hv hx) (hno hv' hx') h
  -- read backwards, the expiry comes first
  have hback := congrArg List.reverse hfields
  rw [List.reverse_append, List.reverse_append, List.reverse_cons, List.reverse_cons,
    List.append_assoc, List.append_assoc] at hback
  obtain ⟨hexp, hval⟩ :=
    CStr.append_cons_inj (by simpa using hx.bang) (by simpa using hx'.bang) hback
  exact ⟨List.reverse_injective hval, List.reverse_injective hexp, hrest⟩

/-- A value with `|` and no `!` is read apart from one with `!` and no `|`. -/
theorem value_ne_of_mixed (hv : bang ∉ v) (hbar : bar ∈ v) (hv' : bar ∉ v') (hbang : bang ∈ v')
    (h : v ++ bang :: s = v' ++ bang :: t) : False := by
  obtain ⟨p, q, rfl, hp⟩ := List.eq_append_cons_of_mem hbang
  rw [List.append_assoc, List.cons_append] at h
  obtain ⟨rfl, -⟩ := CStr.append_cons_inj hv hp h
  exact hv' (List.mem_append_left _ hbar)

/-- A value that does not contain both separators can be told from any other such value. -/
theorem value_inj (hv : ¬ (bang ∈ v ∧ bar ∈ v)) (hv' : ¬ (bang ∈ v' ∧ bar ∈ v')) (hx : Clean x)
    (hx' : Clean x') (h : v ++ bang :: (x ++ bar :: s) = v' ++ bang :: (x' ++ bar :: t)) :
    v = v' ∧ x = x' ∧ s = t := by
  rw [not_and] at hv hv'
  rcases em (bang ∈ v) with hb | hb <;> rcases em (bang ∈ v') with hb' | hb'
  · exact value_inj_of_bar (hv hb) (hv' hb') hx hx' h
  · rcases em (bar ∈ v') with hbar | hbar
    · exact (value_ne_of_mixed hb' hbar (hv hb) hb h.symm).elim
    · exact value_inj_of_bar (hv hb) hbar hx hx' h
  · rcases em (bar ∈ v) with hbar | hbar
    · exact (value_ne_of_mixed hb hbar (hv' hb') hb' h).elim
    · exact value_inj_of_bar hbar (hv' hb') hx hx' h
  · exact value_inj_of_bang hb hb' hx.bar hx'.bar h

end Fields

/-- A record can be read off the front of a text. -/
theorem recordText_append_inj {e e' : Kv} (he : Separable e) (he' : Separable e') {s t : Str}
    (h : recordText e ++ s = recordText e' ++ t) : fields e = fields e' ∧ s = t := by
  simp only [recordText, List.append_assoc, List.cons_append] at h
  obtain ⟨hk, h⟩ := CStr.append_cons_inj he.1 he'.1 h
  obtain ⟨hv, hx, hrest⟩ := value_inj he.2 he'.2 (expiryText_clean _) (expiryText_clean _) h
  exact ⟨by rw [fields, fields, hk, hv, hx], hrest⟩

theorem bucketText_injective {c c' : List Kv} (hc : ∀ e ∈ c, Separable e)
    (hc' : ∀ e ∈ c', Separable e) (h : bucketText c = bucketText c') :
    c.map fields = c'.map fields := by
  have hne : ∀ (e : Kv) (c : List Kv), bucketText (e :: c) ≠ [] := by
    intro e c
    rw [bucketText_cons]; simp
  induction c generalizing c' with
  | nil =>
    cases c' with
    | nil => rfl
    | cons e' c' => exact absurd h.symm (hne e' c')
  | cons e c ih =>
    cases c' with
    | nil => exact absurd h (hne e c)
    | cons e' c' =>
      obtain ⟨hf, hrest⟩ := recordText_append_inj (hc e (by simp)) (hc' e' (by simp)) h
      rw [List.map_cons, List.map_cons, hf,
        ih (fun e he => hc e (by simp [he])) (fun e he => hc' e (by simp [he])) hrest]

theorem bucketLine_injective {c c' : List Kv} (hne : c ≠ []) (hne' : c' ≠ [])
    (hc : ∀ e ∈ c, Separable e) (hc' : ∀ e ∈ c', Separable e) (h : bucketLine c = bucketLine c') :
    c.map fields = c'.map fields :=
  bucketText_injective hc hc' (by rw [bucketText_eq_line hne, bucketText_eq_line hne', h])

/-! ### Whole files -/

/-- Blocks one after another determine the records in them. -/
theorem blocks_injective {cs cs' : List (List Kv)} (hc : ∀ c ∈ cs, ∀ e ∈ c, Separable e)
    (hc' : ∀ c ∈ cs', ∀ e ∈ c, Separable e) (h : cs.flatMap blockLines = cs'.flatMap blockLines) :
    cs.flatten.map fields = cs'.flatten.map fields := by
  have hblock : ∀ {c : List Kv}, c ≠ [] → blockLines c = [dollar, bucketLine c, dollar] :=
    fun hne => if_neg hne
  induction cs generalizing cs' with
  | nil =>
    induction cs' with
    | nil => rfl
    | cons c' cs' ih' =>
      rcases eq_or_ne c' [] with rfl | hne
      · exact ih' (fun c hm => hc' c (by simp [hm])) h
      · rw [List.flatMap_cons, hblock hne] at h
        cases h
  | cons c cs ih =>
    rcases eq_or_ne c [] with rfl | hne
    · exact ih (fun c hm => hc c (by simp [hm])) hc' h
    · rw [List.flatMap_cons, hblock hne] at h
      induction cs' with
      | nil => cases h
      | cons c' cs' ih' =>
        rcases eq_or_ne c' [] with rfl | hne'
        · exact ih' (fun c hm => hc' c (by simp [hm])) h
        · rw [List.flatMap_cons, hblock hne'] at h
          simp only [List.cons_append, List.nil_append, List.cons.injEq, true_and] at h
          have hhead := bucketLine_injective hne hne' (hc c (by simp)) (hc' c' (by simp)) h.1
          have htail := ih (fun c hm => hc c (by simp [hm])) (fun c hm => hc' c (by simp [hm])) h.2
          rw [List.flatten_cons, List.flatten_cons, List.map_append, List.map_append, hhead, htail]

/-- The lines of a file determine the records of the table. -/
theorem datasetLines_injective {t t' : Table} (ht : ∀ i, ∀ e ∈ t.chains i, Separable e)
    (ht' : ∀ i, ∀ e ∈ t'.chains i, Separable e) (h : datasetLines t = datasetLines t') :
    (dataset t).map fields = (dataset t').map fields := by
  have hflat : ∀ t : Table, (List.finRange mod).flatMap (fun i => blockLines (t.chains i)) =
      ((List.finRange mod).map t.chains).flatMap blockLines := fun t => by rw [List.flatMap_map]
  have hmem : ∀ {t : Table}, (∀ i, ∀ e ∈ t.chains i, Separable e) →
      ∀ c ∈ (List.finRange mod).map t.chains, ∀ e ∈ c, Separable e := by
    intro t ht c hc
    obtain ⟨i, -, rfl⟩ := List.mem_map.mp hc
    exact ht i
  have hblocks := (List.cons.inj h).2
  rw [hflat, hflat] at hblocks
  exact blocks_injective (hmem ht) (hmem ht') hblocks

/-- The mapping of a well-formed table can be read off its records. -/
theorem find_value_of_dataset {t t' : Table} (hi' : t'.Inv)
    (h : (dataset t).map fields = (dataset t').map fields) {k : Str} {e : Kv}
    (he : t.find k = some e) : (t'.find k).map Kv.value = some e.value := by
  have hmem : e ∈ dataset t :=
    List.mem_flatMap.mpr ⟨stringFoldingHash k, List.mem_finRange _, Table.mem_of_find he⟩
  have hf : fields e ∈ (dataset t').map fields := h ▸ List.mem_map_of_mem hmem
  obtain ⟨e', he', hfe⟩ := List.mem_map.mp hf
  obtain ⟨i, -, hi2⟩ := List.mem_flatMap.mp he'
  have hkey : e'.key = k := (congrArg Prod.fst hfe).trans (Table.key_of_find he)
  have hfind := hi'.find_of_mem hi2
  rw [hkey] at hfind
  rw [hfind]
  exact congrArg some (congrArg (fun f => f.2.1) hfe)

theorem datasetLines_newline {t : Table} (hw : t.AllWords Word) :
    ∀ line ∈ datasetLines t, CStr.newline ∉ line := by
  intro line hl
  rcases List.mem_cons.mp hl with rfl | hl
  · decide
  · obtain ⟨i, -, hi⟩ := List.mem_flatMap.mp hl
    unfold blockLines at hi
    split_ifs at hi
    · cases hi
    · simp only [List.mem_cons, List.not_mem_nil, or_false] at hi
      rcases hi with rfl | rfl | rfl
      · decide
      · exact notMem_bucketLine_words (Or.inl rfl) fun e he =>
          ⟨(hw i e he).1.newline, (hw i e he).2.newline⟩
      · decide

/-! ### Stores that SET, DELETE and EXPIRE reach -/

/-- A SET, DELETE or EXPIRE request. -/
def StoreRequest (req : Str) : Prop :=
  ∃ name args, tokenize req = name :: args ∧
    findCommand name ∈ [some Command.set, some Command.delete, some Command.expire]

/-- CORRECT: two stores that such requests reach, without `!` in a key and without both `!` and `|`
    in a value, and whose mappings differ, are saved as different files. -/
theorem save_format_unambiguous {n n' : Node} (hn : Served StoreRequest n)
    (hn' : Served StoreRequest n') (hb : ∀ i, ∀ e ∈ n.db.chain i, Separable e)
    (hb' : ∀ i, ∀ e ∈ n'.db.chain i, Separable e) {file file' : Str}
    (hf : datasetText n.db.table (fun _ => true) = .ok file)
    (hf' : datasetText n'.db.table (fun _ => true) = .ok file')
    (hdiff : ∃ k, (n.db.table.find k).map Kv.value ≠ (n'.db.table.find k).map Kv.value) :
    file ≠ file' := by
  obtain ⟨k, hk⟩ := hdiff
  obtain ⟨hi, hw⟩ := hn.inv_words
  obtain ⟨hi', hw'⟩ := hn'.inv_words
  intro heq
  rw [datasetText_of_ok hf, datasetText_of_ok hf'] at heq
  have hlines := unlines_injective (datasetLines_newline hw) (datasetLines_newline hw') heq
  have hrec := datasetLines_injective hb hb' hlines
  refine hk ?_
  cases he : n.db.table.find k with
  | some e => rw [find_value_of_dataset hi'.wf hrec he]; rfl
  | none =>
    cases he' : n'.db.table.find k with
    | none => rfl
    | some e' =>
      have hback := find_value_of_dataset hi.wf hrec.symm he'
      rw [he] at hback
      cases hback

/-- A node that has served one SET. -/
def setNode (k v : Str) : Node := ⟨(hashInsert htInit k v true).1, none⟩

theorem setNode_served {k v : Str} (hk : Word k) (hv : Word v) :
    Served StoreRequest (setNode k v) := by
  have htok : tokenize (spell [str "SET", k, v]) = [str "SET", k, v] := by
    refine tokenize_spell (fun w hw => ?_) (by simp [maxCmdParams])
    simp only [List.mem_cons, List.not_mem_nil, or_false] at hw
    rcases hw with rfl | rfl | rfl
    · decide
    · exact hk
    · exact hv
  have hcmd : findCommand (str "SET") = some .set := by decide
  let env : ReqEnv := ⟨0, 0, 0, true, true, true, true, fun _ => true⟩
  have hrun : processCommand env ⟨htInit, none⟩ (spell [str "SET", k, v]) ⟨[], dbErrOk⟩ =
      handler env [str "SET", k, v] ⟨htInit, none⟩ ⟨[], dbErrOk⟩ .set :=
    processCommand_of_tokens rfl htok hcmd
  exact (Served.start none).request ⟨_, _, htok, by rw [hcmd]; simp⟩ (hrun.trans rfl)

/-- Two one-key stores with different values have different files. -/
theorem save_format_unambiguous_values :
    datasetText (setNode (str "a") (str "1")).db.table (fun _ => true) =
        .ok (str "SahDB001\n$\na!1!18446744073709551615\n$\n") ∧
      str "SahDB001\n$\na!1!18446744073709551615\n$\n" ≠
        str "SahDB001\n$\na!2!18446744073709551615\n$\n" := by
  have hf : datasetText (setNode (str "a") (str "1")).db.table (fun _ => true) =
      .ok (str "SahDB001\n$\na!1!18446744073709551615\n$\n") := by decide +kernel
  have hf' : datasetText (setNode (str "a") (str "2")).db.table (fun _ => true) =
      .ok (str "SahDB001\n$\na!2!18446744073709551615\n$\n") := by decide +kernel
  refine ⟨hf, save_format_unambiguous (setNode_served (by decide) (by decide))
    (setNode_served (by decide) (by decide)) (by decide +kernel) (by decide +kernel) hf hf'
    ⟨str "a", by decide +kernel⟩⟩

/-- SET a!b c and SET a b!c are saved as the same bytes. -/
theorem save_format_ambiguous :
    ¬ ∀ (n n' : Node) (file file' : Str), Served StoreRequest n → Served StoreRequest n' →
      datasetText n.db.table (fun _ => true) = .ok file →
        datasetText n'.db.table (fun _ => true) = .ok file' →
          (∃ k, (n.db.table.find k).map Kv.value ≠ (n'.db.table.find k).map Kv.value) →
            file ≠ file' := by
  intro h
  let file := str "SahDB001\n$\na!b!c!18446744073709551615\n$\n"
  exact h (setNode (str "a!b") (str "c")) (setNode (str "a") (str "b!c")) file file
    (setNode_served (by decide) (by decide)) (setNode_served (by decide) (by decide))
    (by decide +kernel) (by decide +kernel) ⟨str "a", by decide +kernel⟩ rfl

end SahDB
