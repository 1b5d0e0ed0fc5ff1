import SahDB.Load

/-! Saving and restarting.

    The file of a table is the unlines of `datasetLines`; where lines fit the reader's buffer they
    are what it reads back (`readLines_unlines`), and where keys and values are clean the records in
    them are the records of the table (`records_datasetLines`). Loading those one after another
    rebuilds each chain in order, without the entries that have expired. -/

namespace SahDB
open Db

/-! ### What a record looks like -/

/-- A word that the save format can carry. -/
structure Clean (w : Str) : Prop where
  ne_nil : w ≠ []
  bang : bang ∉ w
  bar : bar ∉ w
  newline : CStr.newline ∉ w
  nul : (0 : UInt8) ∉ w

instance (w : Str) : Decidable (Clean w) :=
  decidable_of_iff (w ≠ [] ∧ SahDB.bang ∉ w ∧ SahDB.bar ∉ w ∧ CStr.newline ∉ w ∧ (0 : UInt8) ∉ w)
    ⟨fun h => ⟨h.1, h.2.1, h.2.2.1, h.2.2.2.1, h.2.2.2.2⟩,
      fun h => ⟨h.ne_nil, h.bang, h.bar, h.newline, h.nul⟩⟩

/-- A record without the separator after it. -/
def recordBody (e : Kv) : Str := e.key ++ bang :: (e.value ++ bang :: expiryText e.expiry)

theorem recordText_eq (e : Kv) : recordText e = recordBody e ++ [bar] := by
  simp [recordText, recordBody]

theorem mem_expiryText {t : ℤ} {c : UInt8} (hc : c ∈ expiryText t) :
    c = 45 ∨ Decimal.IsDigit c := by
  unfold expiryText at hc
  split_ifs at hc
  · exact Or.inr (Decimal.isDigit_of_mem_print hc)
  · have hmem : c = 45 ∨ c = 49 := by simpa [str] using hc
    rcases hmem with rfl | rfl
    · exact Or.inl rfl
    · exact Or.inr (by decide)

/-- An expiry text is a word the format can carry. -/
theorem expiryText_clean (t : ℤ) : Clean (expiryText t) := by
  have hno : ∀ b : UInt8, b ≠ 45 → ¬ Decimal.IsDigit b → b ∉ expiryText t := fun b h1 h2 hb =>
    (mem_expiryText hb).elim h1 h2
  refine ⟨?_, hno _ (by decide) (by decide), hno _ (by decide) (by decide),
    hno _ (by decide) (by decide), hno _ (by decide) (by decide)⟩
  unfold expiryText
  split_ifs
  · exact Decimal.print_ne_nil _
  · decide

theorem notMem_recordBody {e : Kv} {b : UInt8} (hb : b ≠ bang) (hk : b ∉ e.key)
    (hv : b ∉ e.value) (ht : b ∉ expiryText e.expiry) : b ∉ recordBody e := by
  simp only [recordBody, List.mem_append, List.mem_cons, not_or]
  exact ⟨hk, hb, hv, hb, ht⟩

/-! ### The records of a bucket -/

section Bucket
variable {chain : List Kv}

/-- The data line of a bucket. -/
def bucketLine (chain : List Kv) : Str := (bucketText chain).dropLast

theorem bucketText_cons (e : Kv) (chain : List Kv) :
    bucketText (e :: chain) = recordBody e ++ bar :: bucketText chain := by
  rw [bucketText, List.flatMap_cons, recordText_eq, List.append_assoc]
  rfl

theorem bucketText_append (a b : List Kv) : bucketText (a ++ b) = bucketText a ++ bucketText b :=
  List.flatMap_append

theorem bucketLine_singleton (e : Kv) : bucketLine [e] = recordBody e := by
  rw [bucketLine, bucketText_cons]
  exact List.dropLast_concat

theorem bucketLine_cons (e e' : Kv) (chain : List Kv) :
    bucketLine (e :: e' :: chain) = recordBody e ++ bar :: bucketLine (e' :: chain) := by
  have hne : bucketText (e' :: chain) ≠ [] := by rw [bucketText_cons]; simp
  rw [bucketLine, bucketText_cons, List.dropLast_append_of_ne_nil (by simp),
    List.dropLast_cons_of_ne_nil hne, bucketLine]

/-- The words of a chain are clean. -/
def CleanChain (chain : List Kv) : Prop := ∀ e ∈ chain, Clean e.key ∧ Clean e.value

theorem notMem_bar {e : Kv} (h : Clean e.key ∧ Clean e.value) : bar ∉ recordBody e :=
  notMem_recordBody (by decide) h.1.bar h.2.bar (expiryText_clean _).bar

theorem recordBody_ne_nil (e : Kv) : recordBody e ≠ [] := by simp [recordBody]

/-- The line is the text without the last separator. -/
theorem bucketText_eq_line (hne : chain ≠ []) : bucketText chain = bucketLine chain ++ [bar] := by
  induction chain with
  | nil => exact absurd rfl hne
  | cons e chain ih =>
    cases chain with
    | nil => rw [bucketLine_singleton, bucketText_cons]; rfl
    | cons e' chain => rw [bucketLine_cons, bucketText_cons, ih (by simp)]; simp

/-- The text of a bucket is split record by record. -/
theorem tokens_bucketText_append (chain : List Kv) (s : Str) :
    CStr.tokens (· = bar) (bucketText chain ++ s) =
      (chain.flatMap fun e => CStr.tokens (· = bar) (recordBody e)) ++
        CStr.tokens (· = bar) s := by
  induction chain with
  | nil => rfl
  | cons e chain ih =>
    rw [bucketText_cons, List.append_assoc, List.cons_append,
      CStr.tokens_append (x := bar) (by simp), ih, List.flatMap_cons, List.append_assoc]

/-- So is its line. -/
theorem tokens_bucketLine_parts (chain : List Kv) :
    CStr.tokens (· = bar) (bucketLine chain) =
      chain.flatMap fun e => CStr.tokens (· = bar) (recordBody e) := by
  rcases eq_or_ne chain [] with rfl | hne
  · exact CStr.tokens_nil
  · have htext := tokens_bucketText_append chain []
    rw [List.append_nil, bucketText_eq_line hne, CStr.tokens_append (by simp), CStr.tokens_nil,
      List.append_nil, List.append_nil] at htext
    exact htext

/-- A record of clean words is one part. -/
theorem tokens_records (hc : CleanChain chain) :
    (chain.flatMap fun e => CStr.tokens (· = bar) (recordBody e)) = chain.map recordBody := by
  induction chain with
  | nil => rfl
  | cons e chain ih =>
    rw [List.flatMap_cons, CStr.tokens_whole (recordBody_ne_nil e) (notMem_bar (hc e (by simp))),
      ih fun e he => hc e (by simp [he])]
    rfl

/-- The loader splits a data line into the records it was made of. -/
theorem tokens_bucketLine (hc : CleanChain chain) :
    CStr.tokens (· = bar) (bucketLine chain) = chain.map recordBody := by
  rw [tokens_bucketLine_parts, tokens_records hc]

/-- And so the start of one. -/
theorem tokens_bucketText (hc : CleanChain chain) (s : Str) :
    CStr.tokens (· = bar) (bucketText chain ++ s) =
      chain.map recordBody ++ CStr.tokens (· = bar) s := by
  rw [tokens_bucketText_append, tokens_records hc]

/-- A byte that is in no field and is no separator is not in the line. -/
theorem notMem_bucketText {b : UInt8} (hb : b ≠ bar) (h : ∀ e ∈ chain, b ∉ recordBody e) :
    b ∉ bucketText chain := by
  induction chain with
  | nil => simp [bucketText]
  | cons e chain ih =>
    rw [bucketText_cons, List.mem_append, List.mem_cons]
    rintro (hm | hm | hm)
    · exact h e (by simp) hm
    · exact hb hm
    · exact ih (fun e he => h e (by simp [he])) hm

theorem notMem_bucketLine {b : UInt8} (hb : b ≠ bar) (h : ∀ e ∈ chain, b ∉ recordBody e) :
    b ∉ bucketLine chain := fun hm =>
  notMem_bucketText hb h ((List.dropLast_sublist _).subset hm)

/-- A line end or a NUL gets into the line only through its words. -/
theorem notMem_bucketLine_words {b : UInt8} (hb : b = CStr.newline ∨ b = 0)
    (hw : ∀ e ∈ chain, b ∉ e.key ∧ b ∉ e.value) : b ∉ bucketLine chain := by
  rcases hb with rfl | rfl
  · exact notMem_bucketLine (by decide) fun e he =>
      notMem_recordBody (by decide) (hw e he).1 (hw e he).2 (expiryText_clean _).newline
  · exact notMem_bucketLine (by decide) fun e he =>
      notMem_recordBody (by decide) (hw e he).1 (hw e he).2 (expiryText_clean _).nul

theorem bucketLine_ne_dollar (hne : chain ≠ []) : bucketLine chain ≠ dollar := by
  obtain ⟨e, chain, rfl⟩ := List.exists_cons_of_ne_nil hne
  have hmem : bang ∈ bucketLine (e :: chain) := by
    cases chain with
    | nil => rw [bucketLine_singleton]; simp [recordBody]
    | cons e' chain => rw [bucketLine_cons]; simp [recordBody]
  intro hd
  rw [hd] at hmem
  exact absurd hmem (by decide)

theorem length_le_bucketText (chain : List Kv) : chain.length ≤ (bucketText chain).length := by
  induction chain with
  | nil => simp
  | cons e chain ih =>
    rw [bucketText_cons, List.length_append, List.length_cons, List.length_cons]; omega

end Bucket

/-! ### The lines of the file -/

/-- The lines of a bucket. -/
def blockLines (chain : List Kv) : List Str :=
  if chain = [] then [] else [dollar, bucketLine chain, dollar]

/-- The lines of the file of a table. -/
def datasetLines (t : Table) : List Str :=
  fileHeaderVer :: (List.finRange mod).flatMap fun i => blockLines (t.chains i)

/-- Every record of a table, bucket by bucket. -/
def dataset (t : Table) : List Kv := (List.finRange mod).flatMap t.chains

def unlines (lines : List Str) : Str := lines.flatMap fun line => line ++ [CStr.newline]

theorem unlines_cons (line : Str) (lines : List Str) :
    unlines (line :: lines) = line ++ CStr.newline :: unlines lines := by
  rw [unlines, List.flatMap_cons, List.append_assoc]; rfl

theorem unlines_append (a b : List Str) : unlines (a ++ b) = unlines a ++ unlines b :=
  List.flatMap_append

/-- A line `rebuild_from_savefile` reads whole. -/
def FitsReader (line : Str) : Prop :=
  CStr.newline ∉ line ∧ (0 : UInt8) ∉ line ∧ line.length < maxRespLen - 1

theorem readLines_cons {line : Str} (h : FitsReader line) (s : Str) :
    readLines (line ++ CStr.newline :: s) = line :: readLines s := by
  obtain ⟨hn, h0, hlen⟩ := h
  have hcut : (0 : UInt8) ∉ line ++ [CStr.newline] := by
    simp only [List.mem_append, List.mem_singleton, not_or]
    exact ⟨h0, by decide⟩
  rw [readLines, CStr.pieces_line hn hlen, List.map_cons, CStr.cut_of_notMem hcut, CStr.chomp_line]
  rfl

theorem readLines_nil : readLines [] = [] := by rw [readLines, CStr.pieces_nil]; rfl

theorem fitsReader_dollar : FitsReader dollar := ⟨by decide, by decide, by decide⟩

theorem fitsReader_header : FitsReader fileHeaderVer := ⟨by decide, by decide, by decide⟩

/-- A `$` line switches `process_save`. -/
theorem records_dollar (on : Bool) (s : Str) :
    records on (readLines (dollar ++ CStr.newline :: s)) = records (!on) (readLines s) := by
  rw [readLines_cons fitsReader_dollar, records, if_pos rfl]

/-- The header is no data. -/
theorem records_header (s : Str) :
    records false (readLines (fileHeaderVer ++ CStr.newline :: s)) =
      records false (readLines s) := by
  rw [readLines_cons fitsReader_header, records, if_neg (by decide), if_neg (by simp)]

theorem unlines_block {chain : List Kv} (hne : chain ≠ []) (s : Str) :
    unlines (blockLines chain) ++ s = dollar ++ CStr.newline ::
      (bucketLine chain ++ CStr.newline :: (dollar ++ CStr.newline :: s)) := by
  rw [blockLines, if_neg hne]
  simp [unlines]

theorem readLines_unlines_append {lines : List Str} (h : ∀ line ∈ lines, FitsReader line)
    (s : Str) : readLines (unlines lines ++ s) = lines ++ readLines s := by
  induction lines with
  | nil => rfl
  | cons line lines ih =>
    rw [unlines_cons, List.append_assoc, List.cons_append, readLines_cons (h line (by simp)),
      ih fun l hl => h l (by simp [hl]), List.cons_append]

theorem readLines_unlines {lines : List Str} (h : ∀ line ∈ lines, FitsReader line) :
    readLines (unlines lines) = lines := by
  have happ := readLines_unlines_append h []
  rwa [List.append_nil, readLines_nil, List.append_nil] at happ

theorem records_append (on : Bool) (a b : List Str) :
    records on (a ++ b) = records on a ++ records (switched on a) b := by
  induction a generalizing on with
  | nil => rfl
  | cons line a ih =>
    rw [List.cons_append, records, records, switched]
    split_ifs
    · exact ih _
    · rw [ih, List.append_assoc]
    · exact ih _

theorem switched_append (on : Bool) (a b : List Str) :
    switched on (a ++ b) = switched (switched on a) b := by
  induction a generalizing on with
  | nil => rfl
  | cons line a ih => rw [List.cons_append, switched, switched, ih]

/-- A block is read as the records of its chain and leaves `process_save` as it was. -/
theorem records_blockLines {chain : List Kv} (hc : CleanChain chain) :
    records false (blockLines chain) = chain.map recordBody ∧
      switched false (blockLines chain) = false := by
  unfold blockLines
  split_ifs with hne
  · rw [hne]; exact ⟨rfl, rfl⟩
  · have hd := bucketLine_ne_dollar hne
    constructor
    · simp [records, hd, tokens_bucketLine hc]
    · simp [switched, hd]

theorem records_blocks {t : Table} (hc : ∀ i, CleanChain (t.chains i)) (is : List (Fin mod)) :
    records false (is.flatMap fun i => blockLines (t.chains i)) =
        (is.flatMap t.chains).map recordBody ∧
      switched false (is.flatMap fun i => blockLines (t.chains i)) = false := by
  induction is with
  | nil => exact ⟨rfl, rfl⟩
  | cons i is ih =>
    obtain ⟨hr, hs⟩ := records_blockLines (hc i)
    rw [List.flatMap_cons, List.flatMap_cons, records_append, switched_append, hr, hs, ih.1,
      List.map_append]
    exact ⟨rfl, ih.2⟩

/-- The loader reads the records of the table, and ends outside a block. -/
theorem records_datasetLines {t : Table} (hc : ∀ i, CleanChain (t.chains i)) :
    records false (datasetLines t) = (dataset t).map recordBody ∧
      switched false (datasetLines t) = false := by
  have hhead : fileHeaderVer ≠ dollar := by decide
  rw [datasetLines, records, switched, if_neg hhead, if_neg hhead]
  exact records_blocks hc _

/-! ### What the writer writes -/

section Writer
variable {t : Table}

/-- The bytes of every bucket fit the buffer of `get_kv_from_bucket`. -/
def FitsBuffer (t : Table) : Prop :=
  ∀ i, (bucketText (t.chains i)).length ≤ sizeT (kvLen * (t.count + 1)) ∧
    (bucketText (t.chains i)).length < 2 ^ 31

instance (t : Table) : Decidable (FitsBuffer t) := inferInstanceAs (Decidable (∀ _, _))

/-- Serialising a bucket succeeds exactly when its bytes fit. -/
theorem getKvFromBucket_ok_iff {count : ℕ} {chain : List Kv} {ok : Bool} :
    (∃ data, getKvFromBucket count chain ok = .ok data) ↔
      (ok = true → (bucketText chain).length ≤ sizeT (kvLen * (count + 1)) ∧
        (bucketText chain).length < 2 ^ 31) := by
  unfold getKvFromBucket
  dsimp only
  split_ifs with hnone hfits
  · refine iff_of_true ⟨_, rfl⟩ fun hok => ?_
    rcases hnone with rfl | hok'
    · exact ⟨Nat.zero_le _, by decide⟩
    · cases hok.symm.trans hok'
  · exact iff_of_true ⟨_, rfl⟩ fun _ => hfits
  · refine iff_of_false ?_ fun hc => hfits (hc ?_)
    · rintro ⟨data, hc⟩
      cases hc
    · rw [not_or] at hnone
      simpa using hnone.2

/-- What is printed for a bucket that is serialised. -/
theorem bucketBlock_of_ok {count : ℕ} {chain : List Kv} {data : Option Str}
    (h : getKvFromBucket count chain true = .ok data) :
    bucketBlock data = unlines (blockLines chain) := by
  unfold getKvFromBucket at h
  unfold blockLines
  by_cases hne : chain = []
  · rw [if_pos (Or.inl hne)] at h
    cases h
    rw [if_pos hne]; rfl
  · rw [if_neg (by simp [hne])] at h
    dsimp only at h
    split_ifs at h
    cases h
    obtain ⟨e, chain, rfl⟩ := List.exists_cons_of_ne_nil hne
    have hpos : 0 < (bucketText (e :: chain)).dropLast.length := by
      rw [bucketText_cons, List.length_dropLast, List.length_append, List.length_cons]
      have := List.length_pos_of_ne_nil (recordBody_ne_nil e)
      omega
    rw [if_neg hne, bucketBlock, if_pos hpos]
    simp [unlines, bucketLine]

/-- The writer prints one bucket after another. -/
theorem foldlM_blocks {is : List (Fin mod)} {file file' : Str}
    (h : (is.foldlM (fun file i => do
        let data ← getKvFromBucket t.count (t.chains i) true
        return file ++ bucketBlock data) file : Except Fault Str) = .ok file') :
    file' = file ++ unlines (is.flatMap fun i => blockLines (t.chains i)) := by
  induction is generalizing file with
  | nil => cases h; simp [unlines]
  | cons i is ih =>
    rw [List.foldlM_cons] at h
    cases hg : getKvFromBucket t.count (t.chains i) true with
    | error e => rw [hg] at h; cases h
    | ok data =>
      rw [hg] at h
      rw [ih h, bucketBlock_of_ok hg, List.flatMap_cons, unlines_append, List.append_assoc]

/-- Whatever is written without a fault is the lines of the table. -/
theorem datasetText_of_ok {file : Str} (h : datasetText t (fun _ => true) = .ok file) :
    file = unlines (datasetLines t) := by
  rw [foldlM_blocks h]
  simp [datasetLines, unlines]

/-- The file is written exactly when every bucket that is serialised fits. -/
theorem datasetText_ok_iff {callocOk : Fin mod → Bool} :
    (∃ file, datasetText t callocOk = .ok file) ↔ ∀ i, callocOk i = true →
      (bucketText (t.chains i)).length ≤ sizeT (kvLen * (t.count + 1)) ∧
        (bucketText (t.chains i)).length < 2 ^ 31 := by
  have hbucket : ∀ (file : Str) (i : Fin mod),
      (∃ file', (do
        let data ← getKvFromBucket t.count (t.chains i) (callocOk i)
        return file ++ bucketBlock data) = .ok file') ↔ _ :=
    fun file i => bind_pure_ok_iff.trans getKvFromBucket_ok_iff
  rw [datasetText, foldlM_ok_iff hbucket]
  simp only [List.mem_finRange, true_imp_iff]

/-- With room for every bucket its lines are. -/
theorem datasetText_eq (h : FitsBuffer t) :
    datasetText t (fun _ => true) = .ok (unlines (datasetLines t)) := by
  obtain ⟨file, hfile⟩ := datasetText_ok_iff.mpr fun i _ => h i
  exact (datasetText_of_ok hfile) ▸ hfile

/-- What SAVE writes. -/
theorem file_of_fetch {disk : Option Str} {file : Str}
    (h : fetchDatasetFromMemory true (fun _ => true) t disk = .ok (0, some file)) :
    file = unlines (datasetLines t) := by
  rw [fetchDatasetFromMemory, if_pos rfl] at h
  cases htext : datasetText t (fun _ => true) with
  | error e => rw [htext] at h; cases h
  | ok text =>
    rw [htext] at h
    cases h
    exact datasetText_of_ok htext

theorem fetch_of_fits (h : FitsBuffer t) (disk : Option Str) :
    fetchDatasetFromMemory true (fun _ => true) t disk =
      .ok (0, some (unlines (datasetLines t))) := by
  rw [fetchDatasetFromMemory, if_pos rfl, datasetText_eq h]
  rfl

end Writer

end SahDB
