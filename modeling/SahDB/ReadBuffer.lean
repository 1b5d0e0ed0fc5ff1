import SahDB.Reload

/-! Loading through a buffer: `fgets` hands out a line longer than `MAX_RESP_LEN - 1` bytes in
    pieces.

    The pieces are loaded as if each were a line. That gives the records of the whole line when
    every cut in a data line is next to a `|` and no piece is a `$` of its own (`CutsClean`); a cut
    inside a record splits it in two. -/

namespace SahDB
open Db

/-- The most bytes one `fgets` of `rebuild_from_savefile` reads. -/
def readLen : ℕ := maxRespLen - 1

/-- A line in the state `on` is read in pieces that mean what the line means: it is a `$` line, or
    no piece is, and in a data line each cut is next to a `|`. -/
def CutClean (on : Bool) (line : Str) : Prop :=
  line = dollar ∨ dollar ∉ CStr.pieces readLen line ∧
    (on = true → (CStr.pieces readLen line).IsChain fun p q =>
      p.getLast? = some bar ∨ q.head? = some bar)

/-- Every line is clean in the state it is read in. -/
def CutsClean : Bool → List Str → Prop
  | _, [] => True
  | on, line :: lines => CutClean on line ∧ CutsClean (if line = dollar then !on else on) lines

/-! ### Two lists of lines that load alike -/

/-- The lists have the same records and leave `process_save` alike. -/
def SameLoad (on : Bool) (a b : List Str) : Prop :=
  records on a = records on b ∧ switched on a = switched on b

theorem SameLoad.trans {on : Bool} {a b c : List Str} (h : SameLoad on a b) (h' : SameLoad on b c) :
    SameLoad on a c := ⟨h.1.trans h'.1, h.2.trans h'.2⟩

theorem SameLoad.cons {on : Bool} {line : Str} {a b : List Str}
    (h : SameLoad (if line = dollar then !on else on) a b) :
    SameLoad on (line :: a) (line :: b) := by
  rw [SameLoad, records, records, switched, switched]
  split_ifs at h ⊢
  · exact h
  · exact ⟨congrArg _ h.1, h.2⟩
  · exact h

/-- Loads of such lists end alike. -/
theorem SameLoad.loadLines_eq {l : Loader} {a b : List Str} (h : SameLoad l.processSave a b)
    (env : ℕ → LoadEnv) : loadLines env l a = loadLines env l b := by
  rw [SahDB.loadLines_eq, SahDB.loadLines_eq, h.1, h.2]

/-- An empty line has no records. -/
theorem sameLoad_nil_cons (on : Bool) (lines : List Str) : SameLoad on ([] :: lines) lines := by
  have hd : ([] : Str) ≠ dollar := by decide
  rw [SameLoad, records, switched, if_neg hd, if_neg hd, CStr.tokens_nil, List.nil_append]
  exact ⟨ite_self _, rfl⟩

/-! ### One line in pieces -/

/-- A line and its newline are read as the pieces of the line. -/
theorem sameLoad_pieces {line : Str} (hn : CStr.newline ∉ line) (h0 : (0 : UInt8) ∉ line)
    (on : Bool) (s : Str) :
    SameLoad on (readLines (line ++ CStr.newline :: s))
      (CStr.pieces readLen line ++ readLines s) := by
  induction hlen : line.length using Nat.strong_induction_on generalizing line on with
  | _ m ih =>
    by_cases hfits : line.length < readLen
    · rw [readLines_cons ⟨hn, h0, hfits⟩]
      rcases eq_or_ne line [] with rfl | hne
      · rw [CStr.pieces_nil]
        exact sameLoad_nil_cons on _
      · rw [CStr.pieces_of_length_le hn hne (Nat.le_of_lt hfits)]
        exact ⟨rfl, rfl⟩
    · -- the first piece fills the buffer
      have htake : (line.take readLen).length = readLen := by rw [List.length_take]; omega
      have hpos : 0 < (line.take readLen).length := by rw [htake]; decide
      have hsub : ∀ {c : UInt8}, c ∉ line → c ∉ line.take readLen := fun hc hm =>
        hc (List.mem_of_mem_take hm)
      have hfull := fun s => CStr.pieces_full (hsub hn) hpos s
      rw [htake] at hfull
      have hread : readLines (line ++ CStr.newline :: s) =
          line.take readLen :: readLines (line.drop readLen ++ CStr.newline :: s) := by
        conv_lhs => rw [← List.take_append_drop readLen line, List.append_assoc]
        rw [readLines, ← readLen, hfull, List.map_cons, CStr.cut_of_notMem (hsub h0),
          CStr.chomp_of_notMem (hsub hn)]
        rfl
      have hpieces : CStr.pieces readLen line =
          line.take readLen :: CStr.pieces readLen (line.drop readLen) := by
        conv_lhs => rw [← List.take_append_drop readLen line]
        exact hfull _
      rw [hread, hpieces, List.cons_append]
      refine SameLoad.cons (ih _ ?_ (fun hm => hn (List.mem_of_mem_drop hm))
        (fun hm => h0 (List.mem_of_mem_drop hm)) _ rfl)
      rw [← hlen, List.length_drop]
      omega

/-- Lines that are no `$` leave `process_save` as it is and give their records if they are data. -/
theorem load_parts (on : Bool) {parts : List Str} (hd : dollar ∉ parts) (lines : List Str) :
    records on (parts ++ lines) =
        (if on then parts.flatMap (CStr.tokens (· = bar)) else []) ++ records on lines ∧
      switched on (parts ++ lines) = switched on lines := by
  induction parts with
  | nil => cases on <;> exact ⟨rfl, rfl⟩
  | cons p parts ih =>
    rw [List.mem_cons, not_or] at hd
    obtain ⟨hr, hs⟩ := ih hd.2
    rw [List.cons_append, records, switched, if_neg (Ne.symm hd.1), if_neg (Ne.symm hd.1), hr, hs]
    cases on with
    | false => exact ⟨rfl, rfl⟩
    | true => exact ⟨by simp, rfl⟩

/-- A clean line loads in pieces as it does whole. -/
theorem CutClean.sameLoad {on : Bool} {line : Str} (h : CutClean on line) (lines : List Str) :
    SameLoad on (CStr.pieces readLen line ++ lines) (line :: lines) := by
  by_cases hl : line = dollar
  · subst hl
    rw [CStr.pieces_of_length_le (by decide) (by decide) (by decide)]
    exact ⟨rfl, rfl⟩
  · obtain ⟨hd, hbar⟩ := h.resolve_left hl
    obtain ⟨hr, hs⟩ := load_parts on hd lines
    rw [SameLoad, hr, hs, records, switched, if_neg hl, if_neg hl]
    refine ⟨?_, rfl⟩
    cases on with
    | false => rfl
    | true =>
      have htok := CStr.tokens_flatten (d := fun c => decide (c = bar)) (by simp)
        (CStr.nil_notMem_pieces readLen line) (hbar rfl)
      rw [CStr.pieces_flatten (by decide)] at htok
      rw [if_pos rfl, if_pos rfl, htok]

theorem sameLoad_unlines {on : Bool} {lines : List Str}
    (hlines : ∀ line ∈ lines, CStr.newline ∉ line ∧ (0 : UInt8) ∉ line)
    (h : CutsClean on lines) : SameLoad on (readLines (unlines lines)) lines := by
  induction lines generalizing on with
  | nil => rw [unlines, List.flatMap_nil, readLines, CStr.pieces_nil]; exact ⟨rfl, rfl⟩
  | cons line lines ih =>
    obtain ⟨hn, h0⟩ := hlines line (by simp)
    have hrest := ih (fun l hl => hlines l (by simp [hl])) h.2
    rw [unlines_cons]
    exact (sameLoad_pieces hn h0 on _).trans ((h.1.sameLoad _).trans hrest.cons)

/-- No piece of a line that is no `$` is a `$`. -/
def NoStrayDollar (lines : List Str) : Prop :=
  ∀ line ∈ lines, line = dollar ∨ dollar ∉ CStr.pieces readLen line

theorem length_records_unlines (on : Bool) {lines : List Str}
    (hlines : ∀ line ∈ lines, CStr.newline ∉ line ∧ (0 : UInt8) ∉ line)
    (hd : NoStrayDollar lines) :
    (records on lines).length ≤ (records on (readLines (unlines lines))).length ∧
      ((records on (readLines (unlines lines))).length = (records on lines).length →
        CutsClean on lines) := by
  induction lines generalizing on with
  | nil => exact ⟨Nat.zero_le _, fun _ => trivial⟩
  | cons line lines ih =>
    obtain ⟨hn, h0⟩ := hlines line (by simp)
    have hrest : ∀ l ∈ lines, CStr.newline ∉ l ∧ (0 : UInt8) ∉ l :=
      fun l hl => hlines l (by simp [hl])
    have hd' : NoStrayDollar lines := fun l hl => hd l (by simp [hl])
    rw [unlines_cons, (sameLoad_pieces hn h0 on _).1, records, CutsClean]
    by_cases hl : line = dollar
    · subst hl
      obtain ⟨hle, hclean⟩ := ih (!on) hrest hd'
      rw [CStr.pieces_of_length_le (by decide) (by decide) (by decide), if_pos rfl, if_pos rfl,
        List.singleton_append, records, if_pos rfl]
      exact ⟨hle, fun h => ⟨Or.inl rfl, hclean h⟩⟩
    · have hno := (hd line (by simp)).resolve_left hl
      obtain ⟨hle, hclean⟩ := ih on hrest hd'
      rw [(load_parts on hno _).1, if_neg hl, if_neg hl]
      cases on with
      | false => exact ⟨hle, fun h => ⟨Or.inr ⟨hno, by simp⟩, hclean h⟩⟩
      | true =>
        obtain ⟨hle', hchain⟩ := CStr.length_tokens_flatten (x := bar)
          (d := fun c => decide (c = bar)) (by simp) (CStr.nil_notMem_pieces readLen line)
        rw [CStr.pieces_flatten (by decide)] at hle' hchain
        rw [if_pos rfl, if_pos rfl, List.length_append, List.length_append]
        exact ⟨by omega, fun h => ⟨Or.inr ⟨hno, fun _ => hchain (by omega)⟩, hclean (by omega)⟩⟩

/-- Where no piece is a stray `$`, the loader sees the records of the whole lines exactly if every
    line is cut cleanly. -/
theorem records_unlines_iff {on : Bool} {lines : List Str}
    (hlines : ∀ line ∈ lines, CStr.newline ∉ line ∧ (0 : UInt8) ∉ line)
    (hd : NoStrayDollar lines) :
    records on (readLines (unlines lines)) = records on lines ↔ CutsClean on lines := by
  constructor
  · intro h
    exact (length_records_unlines on hlines hd).2 (congrArg List.length h)
  · intro h
    exact (sameLoad_unlines hlines h).1

/-! ### The whole file -/

/-- CORRECT: a file whose lines are all cut cleanly loads as `process_save_data` does on its whole
    lines. -/
theorem rebuild_eq_whole_lines {lines : List Str} {l : Loader}
    (hlines : ∀ line ∈ lines, CStr.newline ∉ line ∧ (0 : UInt8) ∉ line)
    (h : CutsClean l.processSave lines) (env : ℕ → LoadEnv) :
    rebuildFromSavefile env (some (unlines lines)) l =
      (loadLines env l lines).map fun l => (dbErrOk, l) := by
  simp only [rebuildFromSavefile, (sameLoad_unlines hlines h).loadLines_eq env]
  cases loadLines env l lines <;> rfl

/-- `n` times the letter a. -/
def filler (n : ℕ) : Str := List.replicate n 97

theorem length_filler (n : ℕ) : (filler n).length = n := List.length_replicate

theorem filler_clean {n : ℕ} (hn : 0 < n) : Clean (filler n) := by
  have hno : ∀ {c : UInt8}, c ≠ 97 → c ∉ filler n := fun hc hm => hc (List.eq_of_mem_replicate hm)
  refine ⟨?_, hno (by decide), hno (by decide), hno (by decide), hno (by decide)⟩
  exact List.ne_nil_of_length_pos (by rwa [length_filler])

theorem notMem_cleanRecord {e : Kv} (hk : Clean e.key) (hv : Clean e.value) {c : UInt8}
    (hb : c ≠ bang) (hc : ∀ w, Clean w → c ∉ w) : c ∉ recordBody e :=
  notMem_recordBody hb (hc _ hk) (hc _ hv) (hc _ (expiryText_clean _))

/-- A record that fills the buffer. -/
def wideRecord : Kv := ⟨str "k", filler 8186, longMax⟩

theorem length_wideRecord : (recordBody wideRecord).length = readLen := by
  rw [recordBody, show expiryText wideRecord.expiry = str "-1" by decide, List.length_append,
    List.length_cons, List.length_append, List.length_cons,
    show wideRecord.value.length = 8186 from length_filler 8186]
  rfl

/-- A data line of two records, of which the buffer holds the first one. -/
theorem rebuild_eq_whole_lines_cut :
    let lines := [dollar, recordBody wideRecord ++ bar :: str "b!2!-1", dollar]
    rebuildFromSavefile (fun _ => ⟨0, 0, true⟩) (some (unlines lines)) (Loader.start htInit) =
      (loadLines (fun _ => ⟨0, 0, true⟩) (Loader.start htInit) lines).map fun l =>
        (dbErrOk, l) := by
  intro lines
  have hrecord := @notMem_cleanRecord wideRecord (by decide) (filler_clean (by decide))
  have hn := hrecord (c := CStr.newline) (by decide) fun w hw => hw.newline
  have h0 := hrecord (c := 0) (by decide) fun w hw => hw.nul
  have hfull := CStr.pieces_full hn (by rw [length_wideRecord]; decide) (bar :: str "b!2!-1")
  have hrest : CStr.pieces readLen (bar :: str "b!2!-1") = [bar :: str "b!2!-1"] :=
    CStr.pieces_of_length_le (by decide) (by decide) (by decide)
  rw [length_wideRecord, hrest] at hfull
  have hdollar : dollar ∉ [recordBody wideRecord, bar :: str "b!2!-1"] := by
    have hne : dollar ≠ recordBody wideRecord := fun hc => by
      have hlen := congrArg List.length hc
      rw [length_wideRecord] at hlen
      exact absurd hlen (by decide)
    simp only [List.mem_cons, List.not_mem_nil, or_false, not_or]
    exact ⟨hne, by decide⟩
  have hclean : CutsClean (Loader.start htInit).processSave lines := by
    refine ⟨Or.inl rfl, Or.inr ⟨?_, fun _ => ?_⟩, Or.inl rfl, trivial⟩
    · rw [hfull]
      exact hdollar
    · rw [hfull]
      exact List.isChain_cons_cons.mpr ⟨Or.inr rfl, List.isChain_singleton _⟩
  refine rebuild_eq_whole_lines (fun line hl => ?_) hclean _
  simp only [lines, List.mem_cons, List.not_mem_nil, or_false] at hl
  rcases hl with rfl | rfl | rfl
  · decide
  · exact ⟨List.mem_append.not.mpr (not_or.mpr ⟨hn, by decide⟩),
      List.mem_append.not.mpr (not_or.mpr ⟨h0, by decide⟩)⟩
  · decide

/-! ### A cut inside a record -/

/-- Every record of a data line is `key!value!expiry` with fields that are not empty. -/
def WellFormed (lines : List Str) : Prop :=
  ∀ kv ∈ records false lines, ∃ key val exp, kv = key ++ bang :: (val ++ bang :: exp) ∧
    ∀ w ∈ [key, val, exp], w ≠ [] ∧ bang ∉ w

/-- A key and a value that fill the buffer to the last byte, the second `!` included. -/
def longRecord : Kv := ⟨str "k", filler 8188, longMax⟩

def fullPiece : Str := longRecord.key ++ bang :: (longRecord.value ++ [bang])

/-- A file of this one record. -/
def longFile : List Str := [dollar, recordBody longRecord, dollar]

theorem longRecord_clean : Clean longRecord.key ∧ Clean longRecord.value :=
  ⟨by decide, filler_clean (by decide)⟩

theorem longRecord_split : recordBody longRecord = fullPiece ++ str "-1" := by
  have hexp : expiryText longRecord.expiry = str "-1" := by decide
  rw [recordBody, hexp, fullPiece, List.append_assoc, List.cons_append, List.append_assoc]
  rfl

theorem notMem_fullPiece {c : UInt8} (h : c ∉ recordBody longRecord) : c ∉ fullPiece := fun hc =>
  h (by rw [longRecord_split]; exact List.mem_append_left _ hc)

theorem notMem_longRecord {c : UInt8} (hb : c ≠ bang) (hc : ∀ w, Clean w → c ∉ w) :
    c ∉ recordBody longRecord :=
  notMem_cleanRecord longRecord_clean.1 longRecord_clean.2 hb hc

/-- The buffer ends after the second `!`. -/
theorem pieces_longRecord :
    CStr.pieces readLen (recordBody longRecord) = [fullPiece, str "-1"] := by
  have hlen : fullPiece.length = readLen := by
    rw [fullPiece, List.length_append, List.length_cons, List.length_append,
      show longRecord.value.length = 8188 from length_filler 8188]
    rfl
  have hn := notMem_fullPiece (notMem_longRecord (by decide) fun w hw => hw.newline)
  have hfull := CStr.pieces_full hn (by rw [hlen]; decide) (str "-1")
  rw [hlen] at hfull
  rw [longRecord_split, hfull, CStr.pieces_of_length_le (by decide) (by decide) (by decide)]

/-- Read in pieces, the record is two, and the second has no value. -/
theorem records_longFile :
    records false (readLines (unlines longFile)) = [fullPiece, str "-1"] := by
  have hun : unlines longFile = dollar ++ CStr.newline ::
      (recordBody longRecord ++ CStr.newline :: (dollar ++ CStr.newline :: [])) := by
    simp [unlines, longFile]
  have hsame := sameLoad_pieces (notMem_longRecord (by decide) fun w hw => hw.newline)
    (notMem_longRecord (by decide) fun w hw => hw.nul) true (dollar ++ CStr.newline :: [])
  have hbar := notMem_fullPiece (notMem_longRecord (c := bar) (by decide) fun w hw => hw.bar)
  have hparts : dollar ∉ [fullPiece, str "-1"] := by
    have hne : dollar ≠ fullPiece := by
      intro hc
      have hmem : bang ∈ fullPiece := by simp [fullPiece]
      rw [← hc] at hmem
      exact absurd hmem (by decide)
    simp only [List.mem_cons, List.not_mem_nil, or_false, not_or]
    exact ⟨hne, by decide⟩
  rw [hun, records_dollar, Bool.not_false, hsame.1, pieces_longRecord,
    readLines_cons fitsReader_dollar, readLines_nil, (load_parts true hparts _).1]
  simp only [if_true, List.flatMap_cons, List.flatMap_nil, List.append_nil]
  rw [CStr.tokens_whole (by simp [fullPiece]) hbar, CStr.tokens_whole (by decide) (by decide)]
  simp [records]

/-- The load of a well-formed file through the buffer can stop at a NULL pointer where the load of
    its whole lines goes through. -/
theorem long_record_faults :
    ¬ ∀ (lines : List Str) (env : ℕ → LoadEnv),
      (∀ line ∈ lines, CStr.newline ∉ line ∧ (0 : UInt8) ∉ line) → WellFormed lines →
        rebuildFromSavefile env (some (unlines lines)) (Loader.start htInit) =
          (loadLines env (Loader.start htInit) lines).map fun l => (dbErrOk, l) := by
  intro h
  have hne : recordBody longRecord ≠ dollar := bucketLine_singleton longRecord ▸
    bucketLine_ne_dollar (List.cons_ne_nil _ _)
  have hbar := notMem_longRecord (c := bar) (by decide) fun w hw => hw.bar
  have hrec : records false longFile = [recordBody longRecord] := by
    simp [longFile, records, hne, CStr.tokens_whole (recordBody_ne_nil _) hbar]
  have heq := h longFile (fun _ => ⟨0, 0, true⟩) ?_ ?_
  · -- through the buffer the load stops, on whole lines it does not
    obtain ⟨l, hok⟩ : ∃ l, [recordBody longRecord].foldlM (loadNext fun _ => ⟨0, 0, true⟩)
        (Loader.start htInit) = .ok l := by
      rw [List.foldlM_cons, loadNext, loadRecord_fields, tokens_recordBody longRecord_clean]
      exact ⟨_, rfl⟩
    obtain ⟨e, hbad⟩ : ∃ e, [fullPiece, str "-1"].foldlM (loadNext fun _ => ⟨0, 0, true⟩)
        (Loader.start htInit) = .error e := by
      rw [List.foldlM_cons]
      cases loadNext (fun _ => ⟨0, 0, true⟩) (Loader.start htInit) fullPiece with
      | error e => exact ⟨e, rfl⟩
      | ok l => exact ⟨.nullDeref, rfl⟩
    simp only [rebuildFromSavefile, loadLines_eq] at heq
    rw [show (Loader.start htInit).processSave = false from rfl, records_longFile, hrec, hbad,
      hok] at heq
    cases heq
  · intro line hl
    have hlong : CStr.newline ∉ recordBody longRecord ∧ (0 : UInt8) ∉ recordBody longRecord :=
      ⟨notMem_longRecord (by decide) fun w hw => hw.newline,
        notMem_longRecord (by decide) fun w hw => hw.nul⟩
    simp only [longFile, List.mem_cons, List.not_mem_nil, or_false] at hl
    rcases hl with rfl | rfl | rfl
    · decide
    · exact hlong
    · decide
  · intro kv hkv
    rw [hrec, List.mem_singleton] at hkv
    refine ⟨longRecord.key, longRecord.value, expiryText longRecord.expiry, hkv, fun w hw => ?_⟩
    simp only [List.mem_cons, List.not_mem_nil, or_false] at hw
    rcases hw with rfl | rfl | rfl
    · exact ⟨longRecord_clean.1.ne_nil, longRecord_clean.1.bang⟩
    · exact ⟨longRecord_clean.2.ne_nil, longRecord_clean.2.bang⟩
    · exact ⟨(expiryText_clean _).ne_nil, (expiryText_clean _).bang⟩

end SahDB
