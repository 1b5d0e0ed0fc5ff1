import SahDB.Queries
import SahDB.ReadBuffer

/-! Which files the loader gets through.

    A record with fewer than two fields makes `process_save_data` pass a NULL to `hash_insert`, and
    nothing else stops it (`load_ok_iff`). The file of a store is split again at every `|` and `!`,
    also those that clients have put into keys and values, and at every full buffer; so a load gets
    through exactly if each part it is split into has two fields (`Loadable`). -/

namespace SahDB
open Db

/-- The record has a key and a value. -/
def Fielded (kv : Str) : Prop := 2 ≤ (CStr.tokens (· = bang) kv).length

instance (kv : Str) : Decidable (Fielded kv) := inferInstanceAs (Decidable (_ ≤ _))

section Load
variable {env : ℕ → LoadEnv} {kvs : List Str}

theorem loadRecord_ok {kv : Str} (h : Fielded kv) (env : LoadEnv) (s : Db) :
    ∃ s', loadRecord env s kv = .ok s' := by
  rw [loadRecord_fields]
  unfold Fielded at h
  cases htok : CStr.tokens (· = bang) kv with
  | nil => rw [htok] at h; simp at h
  | cons key rest =>
    cases rest with
    | nil => rw [htok] at h; simp at h
    | cons val rest => dsimp only; split <;> exact ⟨_, rfl⟩

theorem loadRecord_fault {kv : Str} (h : ¬ Fielded kv) {env : LoadEnv} (hok : env.mallocOk = true)
    (s : Db) : loadRecord env s kv = .error .nullDeref := by
  rw [loadRecord_fields]
  unfold Fielded at h
  cases htok : CStr.tokens (· = bang) kv with
  | nil => rfl
  | cons key rest =>
    cases rest with
    | nil => exact if_pos hok
    | cons val rest => rw [htok] at h; simp at h

/-- Records with a key and a value are loaded, whatever happens to them. -/
theorem load_ok (h : ∀ kv ∈ kvs, Fielded kv) (env : ℕ → LoadEnv) (l : Loader) :
    ∃ l', kvs.foldlM (loadNext env) l = .ok l' := by
  induction kvs generalizing l with
  | nil => exact ⟨l, rfl⟩
  | cons kv kvs ih =>
    obtain ⟨s, hs⟩ := loadRecord_ok (h kv (by simp)) (env l.records) l.db
    rw [List.foldlM_cons, loadNext_ok hs]
    exact ih (fun kv hkv => h kv (by simp [hkv])) _

/-- With memory, records are loaded exactly if each has a key and a value. -/
theorem load_ok_iff (hok : ∀ n, (env n).mallocOk = true) (l : Loader) :
    (∃ l', kvs.foldlM (loadNext env) l = .ok l') ↔ ∀ kv ∈ kvs, Fielded kv := by
  refine ⟨fun hrun => ?_, fun h => load_ok h env l⟩
  induction kvs generalizing l with
  | nil => exact fun _ hkv => absurd hkv List.not_mem_nil
  | cons kv kvs ih =>
    obtain ⟨l', hrun⟩ := hrun
    rw [List.foldlM_cons] at hrun
    by_cases hkv : Fielded kv
    · obtain ⟨s, hs⟩ := loadRecord_ok hkv (env l.records) l.db
      rw [loadNext_ok hs] at hrun
      exact List.forall_mem_cons.mpr ⟨hkv, ih _ ⟨l', hrun⟩⟩
    · rw [loadNext, loadRecord_fault hkv (hok _)] at hrun
      cases hrun

/-- The same of a start from a file. -/
theorem rebuild_ok_iff {file : Str} (hok : ∀ n, (env n).mallocOk = true) :
    (∃ l, rebuildFromSavefile env (some file) (Loader.start htInit) = .ok (dbErrOk, l)) ↔
      ∀ kv ∈ records false (readLines file), Fielded kv := by
  rw [← load_ok_iff hok (Loader.start htInit)]
  constructor
  · rintro ⟨l, hl⟩
    rw [rebuild_eq] at hl
    cases hrun : (records (Loader.start htInit).processSave (readLines file)).foldlM (loadNext env)
        (Loader.start htInit) with
    | error e => rw [hrun] at hl; cases hl
    | ok l' => exact ⟨l', hrun⟩
  · rintro ⟨l, hl⟩
    exact ⟨_, rebuild_of_load hl⟩

end Load

/-! ### The records of a store's own file -/

section File
variable {t : Table}

end File

end SahDB
