import SahDB.Reload
import SahDB.Queries

/-! Expiries over a restart.

    Whatever requests a node has served, its records are words with a 64-bit expiry
    (`Reached.inv_records`); so if they contain no byte the file format uses and the lines fit, its
    table can be carried over (`Reached.storable`), and `Kv.reload` says what becomes of each
    expiry. A record without one swaps -1 for `LONG_MAX` at one restart and back at the next; an
    expired one stays away if its expiry is neither negative nor `LONG_MAX`. -/

namespace SahDB
open Db Table

/-! ### Stores that any requests reach -/

/-- A node that started, empty or from a file, and has served requests. -/
inductive Reached : Node → Prop
  | start {s : Db} (disk : Option Str) : Started s → Reached ⟨s, disk⟩
  | request {n : Node} {env : ReqEnv} {req : Str} {ctx : CmdCtx} {d : Done} : Reached n →
    processCommand env n req ctx = .ok d → Reached d.node

/-- A string that is not empty. -/
def Text (w : Str) : Prop := w ≠ [] ∧ (0 : UInt8) ∉ w

/-- The record has a key, a value and a 64-bit expiry. -/
structure Sound (e : Kv) : Prop where
  key : Text e.key
  value : Text e.value
  low : longMin ≤ e.expiry
  high : e.expiry ≤ longMax

theorem sound_stable : Stable (fun k v => Text k ∧ Text v) Sound where
  new _ _ h := ⟨h.1, h.2, show longMin ≤ -1 by decide, show -1 ≤ longMax by decide⟩
  value _ _ h he := ⟨he.key, h.2, he.low, he.high⟩
  expiry _ _ h1 h2 he := ⟨he.key, he.value, h1, h2⟩

theorem Word.text {w : Str} (h : Word w) : Text w := ⟨h.ne_nil, h.nul⟩

/-- A record of the file is a part of one of its lines. -/
theorem mem_records {on : Bool} {lines : List Str} {kv : Str} (h : kv ∈ records on lines) :
    ∃ line ∈ lines, kv ∈ CStr.tokens (· = bar) line := by
  induction lines generalizing on with
  | nil => cases h
  | cons line lines ih =>
    have hrest : ∀ {on}, kv ∈ records on lines →
        ∃ l ∈ line :: lines, kv ∈ CStr.tokens (· = bar) l := fun h =>
      (ih h).imp fun l hl => ⟨List.mem_cons_of_mem _ hl.1, hl.2⟩
    rw [records] at h
    split_ifs at h
    · exact hrest h
    · rcases List.mem_append.mp h with h | h
      · exact ⟨line, List.mem_cons_self, h⟩
      · exact hrest h
    · exact hrest h

theorem nul_notMem_readLines {file line : Str} (h : line ∈ readLines file) :
    (0 : UInt8) ∉ line := by
  obtain ⟨piece, -, rfl⟩ := List.mem_map.mp h
  have hcut : (0 : UInt8) ∉ CStr.cut piece := fun h0 => by
    simpa using List.mem_takeWhile_imp h0
  intro h0
  unfold CStr.chomp at h0
  split_ifs at h0
  · exact hcut ((List.dropLast_sublist _).subset h0)
  · exact hcut h0

/-- What the loader takes for a key and a value is not empty. -/
theorem text_of_fields {file kv key val : Str} {rest : List Str}
    (hkv : kv ∈ records false (readLines file))
    (h : CStr.tokens (· = bang) kv = key :: val :: rest) : Text key ∧ Text val := by
  obtain ⟨line, hline, hbar⟩ := mem_records hkv
  have htext : ∀ w ∈ CStr.tokens (· = bang) kv, Text w := fun w hw =>
    ⟨(CStr.mem_tokens hw).1, fun h0 => nul_notMem_readLines hline
      ((CStr.mem_tokens hbar).2 0 ((CStr.mem_tokens hw).2 0 h0).2).2⟩
  rw [h] at htext
  exact ⟨htext key (by simp), htext val (by simp)⟩

theorem Started.records {s : Db} (h : Started s) : AllRecords Sound s.table := by
  cases h with
  | empty => exact fun i e he => by simp [htInit, Db.table, Db.chain] at he
  | rebuilt hrun =>
    exact rebuild_records sound_stable (fun _ _ _ hkv _ _ _ hf => text_of_fields hkv hf) hrun

theorem Reached.inv_records {n : Node} (h : Reached n) :
    n.db.Inv ∧ AllRecords Sound n.db.table := by
  induction h with
  | start disk hs => exact ⟨hs.inv_empty.1, hs.records⟩
  | request _ hrun ih =>
    obtain ⟨calls, hdb, hins⟩ := processCommand_calls hrun
    rw [hdb]
    exact after_records sound_stable ih.1 ih.2 fun k v ok hm =>
      ⟨(word_of_mem_tokenize (hins k v ok hm).1).text,
        (word_of_mem_tokenize (hins k v ok hm).2).text⟩

theorem Served.reached {kind : Str → Prop} {n : Node} (h : Served kind n) : Reached n := by
  induction h with
  | start disk => exact .start disk .empty
  | request _ _ hrun ih => exact .request ih hrun

/-! ### Stores the file can carry -/

/-- No byte of the word means anything to the file format. -/
def Plain (w : Str) : Prop := bang ∉ w ∧ bar ∉ w ∧ CStr.newline ∉ w

instance (w : Str) : Decidable (Plain w) := inferInstanceAs (Decidable (_ ∧ _))

/-- The keys and values of the store are plain. -/
def PlainWords (s : Db) : Prop := ∀ i, ∀ e ∈ s.chain i, Plain e.key ∧ Plain e.value

/-- The bucket lines fit the reader's buffer. -/
def LinesFit (s : Db) : Prop := ∀ i, (bucketLine (s.chain i)).length ≤ 8190

instance (s : Db) : Decidable (PlainWords s) := inferInstanceAs (Decidable (∀ _, _))

instance (s : Db) : Decidable (LinesFit s) := inferInstanceAs (Decidable (∀ _, _))

theorem Text.clean {w : Str} (h : Text w) (hp : Plain w) : Clean w :=
  ⟨h.1, hp.1, hp.2.1, hp.2.2, h.2⟩

theorem storable_of {s : Db} (hi : s.Inv) (hs : AllRecords Sound s.table) (hp : PlainWords s)
    (hl : LinesFit s) : Storable s.table where
  placed := hi.wf.placed
  distinct := hi.wf.distinct
  clean i e he := ⟨(hs i e he).key.clean (hp i e he).1, (hs i e he).value.clean (hp i e he).2⟩
  line := hl

theorem Reached.storable {n : Node} (h : Reached n) (hp : PlainWords n.db) (hl : LinesFit n.db) :
    Storable n.db.table := storable_of h.inv_records.1 h.inv_records.2 hp hl

/-- The records after a restart are made of those before. -/
theorem Storable.reload_of_mem {t : Table} (h : Storable t) {env : ℕ → LoadEnv} {l : Loader}
    (ht : l.db.table = htInit.table.appendAll (reloads env 0 (dataset t))) {i : Fin mod} {e' : Kv}
    (he : e' ∈ l.db.chain i) : ∃ e ∈ t.chains i, ∃ n, e.reload (env n).curtime = some e' := by
  have hchain := congrFun (congrArg Table.chains ht) i
  rw [appendAll_chains] at hchain
  have hmem : e' ∈ l.db.table.chains i := he
  rw [hchain] at hmem
  have hfilter := (List.mem_append.mp hmem).resolve_left List.not_mem_nil
  obtain ⟨hr, hplace⟩ := List.mem_filter.mp hfilter
  obtain ⟨e, hed, n, hn⟩ := mem_reloads hr
  obtain ⟨j, hj⟩ := mem_dataset.mp hed
  have hij : i = j := by
    rw [← h.placed j e hj, ← (Kv.key_of_reload hn).1]
    simpa using (of_decide_eq_true hplace).symm
  exact ⟨e, hij ▸ hj, n, hn⟩

/-! ### Keys without a TTL -/

theorem Kv.reload_max {e : Kv} (h : e.expiry = longMax) (curtime : ℤ) :
    e.reload curtime = some (e.setExpiry (-1)) := if_pos h

/-- A loaded store is well formed, and what it was loaded from is what the file says. -/
theorem Storable.of_rebuild {t : Table} (h : Storable t) {env : ℕ → LoadEnv} {disk : Option Str}
    {file : Str} {code : Err} {l : Loader}
    (hsave : fetchDatasetFromMemory true (fun _ => true) t disk = .ok (0, some file))
    (hok : ∀ n, (env n).mallocOk = true)
    (hload : rebuildFromSavefile env (some file) (Loader.start htInit) = .ok (code, l)) :
    l.db.table = htInit.table.appendAll (reloads env 0 (dataset t)) := by
  obtain ⟨l', hload', -, -, ht⟩ := h.rebuild env hok
  rw [file_of_fetch hsave, hload'] at hload
  cases hload
  exact ht

theorem reached_queried (now : ℤ) {qs : List Query}
    (h : ∀ q ∈ qs, ∀ w ∈ q.words, Word w) : Reached ⟨queried now qs, none⟩ :=
  (served_queried now h fun _ _ => trivial : Served (fun _ => True) _).reached

/-- SET k v -/
def setOnly : Db := queried 100 [.set (str "k") (str "v")]

theorem setOnly_reached : Reached ⟨setOnly, none⟩ :=
  reached_queried 100 (by decide)

/-- Its file is the plain one, and this is its record. -/
theorem setOnly_fits : PlainWords setOnly ∧ LinesFit setOnly ∧ FitsBuffer setOnly.table ∧
    setOnly.table.find (str "k") = some ⟨str "k", str "v", -1⟩ := by decide +kernel

/-- CORRECT: a key that has expired when a store with plain words whose lines fit is saved is
    missing after the restart exactly when its expiry is not `LONG_MAX`, and not negative unless the
    restart is at the end of time. -/
theorem expired_stays_missing_iff {n : Node} (h : Reached n) (hp : PlainWords n.db)
    (hl : LinesFit n.db) {k : Str} {e : Kv} (hfind : n.db.table.find k = some e) {t1 t2 : ℤ}
    (hexp : e.Expired t1) (h12 : t1 ≤ t2) {disk : Option Str} {file : Str}
    (hsave : fetchDatasetFromMemory true (fun _ => true) n.db.table disk = .ok (0, some file)) :
    ∃ l, rebuildFromSavefile (fun _ => loadAt t2) (some file) (Loader.start htInit) =
        .ok (dbErrOk, l) ∧
      ((hashGet l.db k t2).map Prod.snd = .ok ⟨dbErrKeyNotexist, str "ERR"⟩ ↔
        e.expiry ≠ longMax ∧ (0 ≤ e.expiry ∨ longMax ≤ t2)) := by
  have hst := h.storable hp hl
  obtain ⟨l, hload, -, hi, ht⟩ := hst.rebuild (fun _ => loadAt t2) fun _ => rfl
  refine ⟨l, file_of_fetch hsave ▸ hload, ?_⟩
  have hkey := key_of_find hfind
  subst hkey
  obtain ⟨m, hm⟩ := hst.rebuild_find ht (mem_of_find hfind)
  have hsound := h.inv_records.2.find hfind
  obtain ⟨hne, hle⟩ := hexp
  rw [hashGet_spec hi]
  have hanswer : ∀ v : Str, (.ok ⟨0, v⟩ : Except Fault Reply) ≠ .ok ⟨dbErrKeyNotexist, str "ERR"⟩ :=
    fun v hc => absurd (congrArg Reply.code (Except.ok.inj hc))
      (show (0 : Err) ≠ dbErrKeyNotexist by decide)
  -- what comes back is live, since the loader drops what is not
  have hlive : ∀ e', e.reload t2 = some e' → ¬ e'.Expired t2 := by
    intro e' he' hc
    unfold Kv.reload at he'
    dsimp only at he'
    split_ifs at he' with hmax hdrop
    · cases he'; exact hc.1 rfl
    · cases he'; exact hdrop hc.2
  -- the number that is read is above the clock only if it was printed of a negative one
  have hsigned : min longMax (e.expiry % 2 ^ 64) ≤ t2 ↔ 0 ≤ e.expiry ∨ longMax ≤ t2 := by
    have hlow := hsound.low
    have hhigh := hsound.high
    simp only [longMin, longMax] at hlow hhigh ⊢
    omega
  have hmissing : e.reload t2 = none ↔ e.expiry ≠ longMax ∧ (0 ≤ e.expiry ∨ longMax ≤ t2) := by
    rw [Kv.reload]
    dsimp only
    split_ifs with hmax hdrop
    · exact iff_of_false (by simp) fun hc => hc.1 hmax
    · exact iff_of_true rfl ⟨hmax, hsigned.mp hdrop⟩
    · exact iff_of_false (by simp) fun hc => hdrop (hsigned.mpr hc.2)
  rw [← hmissing]
  cases hr : e.reload t2 with
  | none => rw [touch_none t2 (hm.trans hr)]; exact iff_of_true rfl rfl
  | some e' =>
    rw [touch_live (hm.trans hr) (hlive e' hr)]
    refine iff_of_false ?_ (by simp)
    dsimp only
    split_ifs
    · exact hanswer _
    · simp

/-- SET k v and EXPIRE k -105, at time 100. -/
def negativeOnly : Db := queried 100 [.set (str "k") (str "v"), .expire (str "k") (str "-105")]

theorem negativeOnly_reached : Reached ⟨negativeOnly, none⟩ := reached_queried 100 (by decide)

theorem negativeOnly_fits : PlainWords negativeOnly ∧ LinesFit negativeOnly ∧
    FitsBuffer negativeOnly.table ∧
    negativeOnly.table.find (str "k") = some ⟨str "k", str "v", -5⟩ := by decide +kernel

/-- SET k v and EXPIRE k 5, at time 100. -/
def shortOnly : Db := queried 100 [.set (str "k") (str "v"), .expire (str "k") (str "5")]

theorem shortOnly_reached : Reached ⟨shortOnly, none⟩ := reached_queried 100 (by decide)

theorem shortOnly_fits : PlainWords shortOnly ∧ LinesFit shortOnly ∧ FitsBuffer shortOnly.table ∧
    shortOnly.table.find (str "k") = some ⟨str "k", str "v", 105⟩ := by decide +kernel

/-- Saved at 150 and restarted at 200, the second store has lost its expired key. -/
theorem expired_stays_missing_iff_short :
    ∃ l, rebuildFromSavefile (fun _ => loadAt 200) (some (unlines (datasetLines shortOnly.table)))
        (Loader.start htInit) = .ok (dbErrOk, l) ∧
      (hashGet l.db (str "k") 200).map Prod.snd = .ok ⟨dbErrKeyNotexist, str "ERR"⟩ := by
  obtain ⟨hplain, hlines, hbuffer, hfind⟩ := shortOnly_fits
  obtain ⟨l, hload, hget⟩ := expired_stays_missing_iff shortOnly_reached hplain hlines hfind
    (show Kv.Expired _ 150 by decide) (show (150 : ℤ) ≤ 200 by decide) (fetch_of_fits hbuffer none)
  exact ⟨l, hload, hget.mpr (by decide)⟩

/-- The key of the first, expired at 100, is back after a restart at 200. -/
theorem restart_revives_expired :
    ¬ ∀ (n : Node), Reached n → PlainWords n.db → LinesFit n.db → ∀ k e,
      n.db.table.find k = some e → ∀ t1 t2, e.Expired t1 → t1 ≤ t2 → ∀ disk file,
        fetchDatasetFromMemory true (fun _ => true) n.db.table disk = .ok (0, some file) →
          ∃ l, rebuildFromSavefile (fun _ => loadAt t2) (some file) (Loader.start htInit) =
            .ok (dbErrOk, l) ∧
              (hashGet l.db k t2).map Prod.snd = .ok ⟨dbErrKeyNotexist, str "ERR"⟩ := by
  intro h
  obtain ⟨hplain, hlines, hbuffer, hfind⟩ := negativeOnly_fits
  obtain ⟨l, hload, hget⟩ := h _ negativeOnly_reached hplain hlines _ _ hfind 100 200 (by decide)
    (by decide) none _ (fetch_of_fits hbuffer none)
  have hst := negativeOnly_reached.storable hplain hlines
  obtain ⟨l', hload', -, hi, ht⟩ := hst.rebuild (fun _ => loadAt 200) fun _ => rfl
  rw [hload'] at hload
  cases hload
  obtain ⟨m, hm⟩ := hst.rebuild_find ht (mem_of_find hfind)
  have hback : l.db.table.find (str "k") = some ⟨str "k", str "v", longMax⟩ := hm
  rw [hashGet_spec hi, touch_live hback (by decide)] at hget
  have hcode : (0 : Err) = dbErrKeyNotexist := congrArg Reply.code (Except.ok.inj hget)
  exact absurd hcode (by decide)

end SahDB
