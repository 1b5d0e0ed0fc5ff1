import SahDB.Reload

/-! A restart restores what was saved and is still live.

    Records with an expiry in range come back with it if they are live, and those without one with
    the largest (`reloads_plain`); so a restart rebuilds each chain in order. -/

namespace SahDB
open Db

namespace Kv

/-- A saved record after a restart: what had no expiry gets the largest one. -/
def restored (e : Kv) : Kv := { e with expiry := if e.expiry = -1 then longMax else e.expiry }

/-- The records a restart at `now` keeps. -/
def survivors (now : ℤ) (es : List Kv) : List Kv :=
  (es.filter fun e => ¬ e.Expired now).map restored

/-- An expiry as EXPIRE sets it for a time in range, or none. -/
def PlainExpiry (e : Kv) : Prop := e.expiry = -1 ∨ 0 ≤ e.expiry ∧ e.expiry < longMax

instance (e : Kv) : Decidable e.PlainExpiry := inferInstanceAs (Decidable (_ ∨ _))

end Kv

/-! ### The records that come back -/

/-- A plain record comes back if it is live. -/
theorem Kv.PlainExpiry.reload {e : Kv} (h : e.PlainExpiry) {now : ℤ} (h1 : now < longMax) :
    e.reload now = if e.Expired now then none else some e.restored := by
  have hrange : min longMax (e.expiry % 2 ^ 64) = e.restored.expiry := by
    simp only [restored]
    rcases h with h | h
    · rw [h]; rfl
    · simp only [longMax] at h ⊢
      rw [if_neg (by omega)]
      omega
  have hne : e.expiry ≠ longMax := by
    rcases h with h | h
    · rw [h]; decide
    · exact ne_of_lt h.2
  have hexp : e.restored.expiry ≤ now ↔ e.Expired now := by
    simp only [restored, Expired]
    split_ifs with hminus
    · exact iff_of_false (not_le.mpr h1) fun hc => hc.1 hminus
    · exact (and_iff_right hminus).symm
  rw [Kv.reload, if_neg hne, hrange]
  simp only [hexp]
  rfl

theorem reloads_plain {es : List Kv} (hx : ∀ e ∈ es, e.PlainExpiry) {now : ℤ} (h1 : now < longMax)
    (n : ℕ) : reloads (fun _ => loadAt now) n es = Kv.survivors now es := by
  induction es generalizing n with
  | nil => rfl
  | cons e es ih =>
    rw [reloads, ih fun e he => hx e (by simp [he]), Kv.survivors, Kv.survivors,
      show (loadAt now).curtime = now from rfl, (hx e (by simp)).reload h1]
    by_cases he : e.Expired now
    · rw [if_pos he, List.filter_cons_of_neg (by simpa using he)]
      rfl
    · rw [if_neg he, List.filter_cons_of_pos (by simpa using he)]
      rfl

/-! ### The whole table -/

/-- A table the save format can carry: well placed, distinct and clean keys, clean values, plain
    expiries, lines that fit the reader's buffer and buckets that fit the writer's. -/
structure Savable (t : Table) : Prop where
  placed : ∀ i, ∀ e ∈ t.chains i, stringFoldingHash e.key = i
  distinct : ∀ i, KeyedList.Distinct Kv.key (t.chains i)
  clean : ∀ i, ∀ e ∈ t.chains i, Clean e.key ∧ Clean e.value
  expiry : ∀ i, ∀ e ∈ t.chains i, e.PlainExpiry
  line : ∀ i, (bucketLine (t.chains i)).length ≤ 8190
  buffer : ∀ i, (bucketText (t.chains i)).length ≤ sizeT (kvLen * (t.count + 1))

namespace Savable
variable {t : Table}

theorem storable (h : Savable t) : Storable t := ⟨h.placed, h.distinct, h.clean, h.line⟩

theorem fitsBuffer (h : Savable t) : FitsBuffer t := fun i =>
  ⟨h.buffer i, lt_of_le_of_lt (h.storable.length_bucketText i) (by norm_num)⟩

end Savable

/-- Survivors of a bucket are the bucket of the survivors. -/
theorem filter_survivors (now : ℤ) (es : List Kv) (i : Fin mod) :
    (Kv.survivors now es).filter (fun e => stringFoldingHash e.key = i) =
      Kv.survivors now (es.filter fun e => stringFoldingHash e.key = i) := by
  simp only [Kv.survivors, List.filter_map, List.filter_filter]
  congr 1
  refine List.filter_congr fun e _ => ?_
  exact Bool.and_comm _ _

/-- CORRECT: what SAVE writes for a table that the format can carry, loaded at time `now` into the
    empty table, gives bucket by bucket and in chain order the saved entries that are live at `now`,
    with their values and finite expiries; those without an expiry are live; the count is the number
    of entries and `process_save` is 0. -/
theorem save_restart_round_trip {t : Table} (h : Savable t) (disk : Option Str) {now : ℤ}
    (h1 : now < longMax) :
    ∃ file l, fetchDatasetFromMemory true (fun _ => true) t disk = .ok (0, some file) ∧
      rebuildFromSavefile (fun _ => loadAt now) (some file) (Loader.start htInit) =
        .ok (dbErrOk, l) ∧
      (∀ i, l.db.chain i = ((t.chains i).filter fun e => ¬ e.Expired now).map Kv.restored) ∧
      (∀ i, ∀ e ∈ l.db.chain i, ¬ e.Expired now) ∧
      l.db.count = ∑ i, (l.db.chain i).length ∧
      l.processSave = false := by
  obtain ⟨l, hload, hoff, hinv, ht⟩ := h.storable.rebuild (fun _ => loadAt now) fun _ => rfl
  have hx : ∀ e ∈ dataset t, e.PlainExpiry := fun e he =>
    (mem_dataset.mp he).elim fun i hi => h.expiry i e hi
  have hchain : ∀ i, l.db.chain i = Kv.survivors now (t.chains i) := by
    intro i
    have hi := congrFun (congrArg Table.chains ht) i
    rw [reloads_plain hx h1, Table.appendAll_chains, filter_survivors,
      h.storable.filter_dataset] at hi
    exact hi
  refine ⟨_, l, fetch_of_fits h.fitsBuffer disk, hload, hchain, fun i e he => ?_,
    hinv.wf.counted, hoff⟩
  -- every survivor is live, also the one that gets an expiry
  rw [hchain i] at he
  obtain ⟨e', he', rfl⟩ := List.mem_map.mp he
  have hlive : ¬ e'.Expired now := by simpa using (List.mem_filter.mp he').2
  have hx := h.expiry i e' (List.mem_filter.mp he').1
  simp only [Kv.restored, Kv.Expired, Kv.PlainExpiry] at hlive hx ⊢
  split_ifs with hminus <;> omega

/-- One key without an expiry and one that expires at 150. -/
def twoKeys : Table :=
  (htInit.after [.insert (str "a") (str "1") true, .insert (str "b") (str "2") true,
    .updateExpiry (str "b") 50 100 100 true]).table

/-- At time 200 only the first is left. -/
theorem save_restart_round_trip_two :
    ∃ file l, fetchDatasetFromMemory true (fun _ => true) twoKeys none = .ok (0, some file) ∧
      rebuildFromSavefile (fun _ => loadAt 200) (some file) (Loader.start htInit) =
        .ok (dbErrOk, l) ∧ l.db.count = 1 := by
  have hs : Savable twoKeys :=
    ⟨by decide +kernel, by decide +kernel, by decide +kernel, by decide +kernel,
      by decide +kernel, by decide +kernel⟩
  obtain ⟨file, l, hsave, hload, hchain, -, hcount, -⟩ :=
    save_restart_round_trip hs none (show (200 : ℤ) < longMax by decide)
  refine ⟨file, l, hsave, hload, ?_⟩
  have hone : ∑ i, (((twoKeys.chains i).filter fun e => ¬ e.Expired 200).map
      Kv.restored).length = 1 := by decide +kernel
  simp only [hcount, hchain]
  exact hone

end SahDB
