import SahDB.DbSave
import SahDB.Calls

/-! What loading a file does to the store, and the states the program can be in.

    The `$` lines only select which lines are data, so a load is one pass over the records of the
    data lines (`loadLines_eq`). Each record keeps the invariant of the table and leaves the heap
    empty; so a store the program starts from is well formed (`Started.inv`), and with it every
    store any calls reach. -/

namespace SahDB

/-! ### A load is a pass over records -/

/-- The records of the lines that are data, where `on` is `process_save` before the first line. -/
def records : Bool → List Str → List Str
  | _, [] => []
  | on, line :: lines =>
    if line = dollar then records (!on) lines
    else if on then CStr.tokens (· = bar) line ++ records on lines
    else records on lines

/-- `process_save` after the lines. -/
def switched : Bool → List Str → Bool
  | on, [] => on
  | on, line :: lines => switched (if line = dollar then !on else on) lines

theorem bind_pure_ok_iff {ε α β : Type} {x : Except ε α} {g : α → β} :
    (∃ b, (do let a ← x; return g a) = .ok b) ↔ ∃ a, x = .ok a := by
  cases x with
  | error e => exact iff_of_false (fun ⟨_, h⟩ => by cases h) fun ⟨_, h⟩ => by cases h
  | ok a => exact iff_of_true ⟨g a, rfl⟩ ⟨a, rfl⟩

/-- A fold whose steps fail or not whatever the state. -/
theorem foldlM_ok_iff {ε α σ : Type*} {f : σ → α → Except ε σ} {P : α → Prop}
    (hf : ∀ s a, (∃ s', f s a = .ok s') ↔ P a) (l : List α) (s : σ) :
    (∃ s', l.foldlM f s = .ok s') ↔ ∀ a ∈ l, P a := by
  induction l generalizing s with
  | nil => exact iff_of_true ⟨s, rfl⟩ fun a ha => absurd ha List.not_mem_nil
  | cons a l ih =>
    rw [List.foldlM_cons, List.forall_mem_cons, ← hf s a]
    cases hstep : f s a with
    | error e => exact iff_of_false (fun ⟨_, h⟩ => by cases h) fun h => by cases h.1.choose_spec
    | ok s' => exact (ih s').trans (and_iff_right ⟨s', rfl⟩).symm

/-- A fold that can fail keeps what each of its steps keeps. -/
theorem foldlM_invariant {σ α ε : Type*} {f : σ → α → Except ε σ} {P : σ → Prop} {as : List α}
    (hstep : ∀ s, ∀ a ∈ as, ∀ s', P s → f s a = .ok s' → P s') {s s' : σ} (h : P s)
    (hrun : as.foldlM f s = .ok s') : P s' := by
  induction as generalizing s with
  | nil => cases hrun; exact h
  | cons a as ih =>
    rw [List.foldlM_cons] at hrun
    cases ha : f s a with
    | error e => rw [ha] at hrun; cases hrun
    | ok t =>
      rw [ha] at hrun
      exact ih (fun s b hb => hstep s b (List.mem_cons_of_mem _ hb))
        (hstep s a List.mem_cons_self t h ha) hrun

/-- A record neither reads nor writes `process_save`. -/
theorem loadNext_processSave (env : ℕ → LoadEnv) (l : Loader) (on : Bool) (kv : Str) :
    loadNext env { l with processSave := on } kv =
      (loadNext env l kv).map fun l => { l with processSave := on } := by
  simp only [loadNext]
  cases loadRecord (env l.records) l.db kv <;> rfl

theorem foldlM_processSave (env : ℕ → LoadEnv) (l : Loader) (on : Bool) (kvs : List Str) :
    kvs.foldlM (loadNext env) { l with processSave := on } =
      (kvs.foldlM (loadNext env) l).map fun l => { l with processSave := on } := by
  induction kvs generalizing l with
  | nil => rfl
  | cons kv kvs ih =>
    rw [List.foldlM_cons, List.foldlM_cons, loadNext_processSave]
    cases loadNext env l kv with
    | error e => rfl
    | ok l' => exact ih l'

theorem loadNext_keeps {env : ℕ → LoadEnv} {l l' : Loader} {kv : Str}
    (h : loadNext env l kv = .ok l') : l'.processSave = l.processSave := by
  simp only [loadNext] at h
  cases hr : loadRecord (env l.records) l.db kv with
  | error e => rw [hr] at h; cases h
  | ok s => rw [hr] at h; cases h; rfl

/-- Loading lines is loading the records of the data lines one after another. -/
theorem loadLines_eq (env : ℕ → LoadEnv) (l : Loader) (lines : List Str) :
    loadLines env l lines =
      ((records l.processSave lines).foldlM (loadNext env) l).map fun l' =>
        { l' with processSave := switched l.processSave lines } := by
  induction lines generalizing l with
  | nil => rfl
  | cons line lines ih =>
    have hcons : loadLines env l (line :: lines) =
        processSaveData env l line >>= fun l => loadLines env l lines := List.foldlM_cons
    rw [hcons, processSaveData, records, switched]
    by_cases hd : line = dollar
    · rw [if_pos hd, if_pos hd, if_pos hd]
      refine (ih _).trans ?_
      dsimp only
      rw [foldlM_processSave]
      cases (records (!l.processSave) lines).foldlM (loadNext env) l <;> rfl
    · rw [if_neg hd, if_neg hd, if_neg hd]
      cases hon : l.processSave with
      | false => exact (ih l).trans (by rw [hon]; rfl)
      | true =>
        rw [if_pos rfl, if_pos rfl, List.foldlM_append]
        cases hrun : (CStr.tokens (· = bar) line).foldlM (loadNext env) l with
        | error e => rfl
        | ok l' =>
          have hp : l'.processSave = true := by
            refine foldlM_invariant (P := fun l' => l'.processSave = true)
              (fun s a _ s' hs h => (loadNext_keeps h).trans hs) hon hrun
          exact (ih l').trans (by rw [hp]; rfl)

/-! ### One record -/

namespace Table

/-- The expiry of a loaded record takes effect: the key goes, or gets the expiry. -/
def loadExpiry (env : LoadEnv) (t : Table) (key : Str) (expiry : ℤ) : Table :=
  if expiry ≤ env.curtime then (t.delete key).2
  else
    match t.touch key env.now with
    | (none, t) => t
    | (some _, t) => t.modify key (Kv.setExpiry expiry)

end Table

section Record
open Db
variable {s s' : Db} {env : LoadEnv}

theorem loadExpiry_spec (h : s.Inv) (env : LoadEnv) (key exp : Str) :
    (loadExpiry env s key exp).Inv ∧
      (loadExpiry env s key exp).table = s.table.loadExpiry env key (CStr.atol exp) := by
  unfold loadExpiry Table.loadExpiry
  dsimp only
  by_cases hexp : CStr.atol exp ≤ env.curtime
  · rw [if_pos hexp, if_pos hexp]
    obtain ⟨hi, ht, -⟩ := hashDelete_spec h key
    exact ⟨hi, ht⟩
  · rw [if_neg hexp, if_neg hexp]
    rcases hashGetKv_cases s key env.now with ⟨hn, heq⟩ | ⟨a, pre, post, hat, ⟨he, heq⟩ | ⟨he, heq⟩⟩
    · rw [heq, Table.touch_none _ hn]
      exact ⟨h, rfl⟩
    · rw [heq, Table.touch_expired hat.find he]
      exact ⟨lazyUnlink_inv h hat, lazyUnlink_table h hat⟩
    · rw [heq, Table.touch_live hat.find he]
      have ht := h.table_write hat { s.mem a with expiry := CStr.atol exp }
        (f := Kv.setExpiry (CStr.atol exp)) rfl
      exact ⟨.of_table h.fresh ht (h.wf.modify key fun _ => rfl), ht⟩

/-- A record is its fields: with fewer than two of them a NULL reaches the store. -/
theorem loadRecord_fields (env : LoadEnv) (s : Db) (kv : Str) :
    loadRecord env s kv =
      match CStr.tokens (· = bang) kv with
      | [] => .error .nullDeref
      | [_] => if env.mallocOk then .error .nullDeref else .ok s
      | key :: val :: rest =>
        let s := (hashInsert s key val env.mallocOk).1
        match rest.head? with
        | none => .ok s
        | some exp => .ok (if exp ≠ str "-1" then loadExpiry env s key exp else s) := by
  rw [loadRecord]
  rcases hkey : CStr.strtokR (· = bang) kv with ⟨_ | key, rest⟩
  · rw [CStr.tokens_of_none (by rw [hkey])]
  rw [CStr.tokens_of_some (by rw [hkey]), hkey]
  dsimp only
  rcases hval : CStr.strtokR (· = bang) rest with ⟨_ | val, rest'⟩
  · rw [CStr.tokens_of_none (by rw [hval])]
  rw [CStr.tokens_of_some (by rw [hval]), hval]
  dsimp only
  cases hexp : (CStr.strtokR (· = bang) rest').1 with
  | none => rw [CStr.tokens_of_none hexp]; rfl
  | some exp => rw [CStr.tokens_of_some hexp]; rfl

/-- The ways a record is loaded without a fault. -/
theorem loadRecord_cases {kv : Str} (h : loadRecord env s kv = .ok s') :
    s' = s ∨ ∃ key val rest, CStr.tokens (· = bang) kv = key :: val :: rest ∧
      (s' = (hashInsert s key val env.mallocOk).1 ∨
        ∃ exp, s' = loadExpiry env (hashInsert s key val env.mallocOk).1 key exp) := by
  rw [loadRecord_fields] at h
  split at h
  · cases h
  · split_ifs at h
    cases h
    exact Or.inl rfl
  · next key val rest hfields =>
    refine Or.inr ⟨key, val, rest, hfields, ?_⟩
    dsimp only at h
    cases hexp : rest.head? with
    | none => rw [hexp] at h; cases h; exact Or.inl rfl
    | some exp =>
      rw [hexp] at h
      cases h
      split_ifs
      · exact Or.inr ⟨exp, rfl⟩
      · exact Or.inl rfl

theorem loadRecord_inv {kv : Str} (hi : s.Inv) (h : loadRecord env s kv = .ok s') : s'.Inv := by
  rcases loadRecord_cases h with rfl | ⟨key, val, -, -, rfl | ⟨exp, rfl⟩⟩
  · exact hi
  · exact hashInsert_inv hi key val _ _
  · exact (loadExpiry_spec (hashInsert_inv hi key val _ _) env key exp).1

/-! ### The heap stays empty -/

/-- No entry is in the heap. -/
def HeapEmpty (s : Db) : Prop := s.size = 0

theorem heapRemove_empty {h : TtlHeap} (h0 : h.size = 0) (e : Addr) : (heapRemove h e).2 = h := by
  rw [heapRemove_of_not_has]
  rintro ⟨j, hj, -⟩
  omega

theorem unlink_empty (h0 : HeapEmpty s) (idx : Fin mod) (l : List Addr) (a : Addr) :
    HeapEmpty (unlink s idx l a) := by
  unfold unlink
  dsimp only
  split
  · exact (congrArg TtlHeap.size (heapRemove_empty (h := s.toTtlHeap) h0 a)).trans h0
  · exact h0

theorem hashInsert_empty (hi : s.Inv) (h0 : HeapEmpty s) (k v : Str) (ok : Bool) :
    HeapEmpty (hashInsert s k v ok).1 := by
  cases ok with
  | false => exact h0
  | true =>
    rcases hashInsert_cases hi k v maxAllowed with
      ⟨a, pre, post, -, heq⟩ | ⟨-, -, heq⟩ | ⟨-, -, heq⟩ <;> rw [heq] <;> exact h0

theorem loadExpiry_empty (h0 : HeapEmpty s) (key exp : Str) :
    HeapEmpty (loadExpiry env s key exp) := by
  unfold loadExpiry
  dsimp only
  split
  · rcases hashDelete_cases s key with ⟨-, heq⟩ | ⟨a, pre, post, -, heq⟩ <;> rw [heq]
    · exact h0
    · exact unlink_empty h0 _ _ a
  · rcases hashGetKv_cases s key env.now with ⟨-, heq⟩ | ⟨a, pre, post, -, ⟨-, heq⟩ | ⟨-, heq⟩⟩ <;>
      rw [heq]
    · exact h0
    · refine unlink_empty ?_ _ _ a
      exact (congrArg TtlHeap.size (heapRemove_empty (h := s.toTtlHeap) h0 a)).trans h0
    · exact h0

theorem loadRecord_empty {kv : Str} (hi : s.Inv) (h0 : HeapEmpty s)
    (h : loadRecord env s kv = .ok s') : HeapEmpty s' := by
  rcases loadRecord_cases h with rfl | ⟨key, val, -, -, rfl | ⟨exp, rfl⟩⟩
  · exact h0
  · exact hashInsert_empty hi h0 key val _
  · exact loadExpiry_empty (hashInsert_empty hi h0 key val _) key exp

end Record

/-! ### Start-up -/

/-- A store the program starts to serve from. -/
inductive Started : Db → Prop
  | empty : Started htInit
  | rebuilt {env : ℕ → LoadEnv} {disk : Option Str} {code : Err} {l : Loader} :
    rebuildFromSavefile env disk (Loader.start htInit) = .ok (code, l) → Started l.db

/-- Loading a file is loading the records in it one after another. -/
theorem rebuild_eq (env : ℕ → LoadEnv) (l : Loader) (file : Str) :
    rebuildFromSavefile env (some file) l =
      ((records l.processSave (readLines file)).foldlM (loadNext env) l).map fun l' =>
        (dbErrOk, { l' with processSave := switched l.processSave (readLines file) }) := by
  simp only [rebuildFromSavefile, loadLines_eq]
  cases (records l.processSave (readLines file)).foldlM (loadNext env) l <;> rfl

theorem rebuild_of_load {env : ℕ → LoadEnv} {file : Str} {l : Loader}
    (h : (records false (readLines file)).foldlM (loadNext env) (Loader.start htInit) = .ok l) :
    rebuildFromSavefile env (some file) (Loader.start htInit) =
      .ok (dbErrOk, { l with processSave := switched false (readLines file) }) := by
  have hrun := rebuild_eq env (Loader.start htInit) file
  rw [show (Loader.start htInit).processSave = false from rfl, h] at hrun
  exact hrun

/-- A load keeps what each record of the file keeps. -/
theorem rebuild_invariant {P : Db → Prop} {env : ℕ → LoadEnv} {disk : Option Str} {l l' : Loader}
    (hstep : ∀ file, disk = some file → ∀ kv ∈ records l.processSave (readLines file),
      ∀ env s s', P s → loadRecord env s kv = .ok s' → P s')
    {code : Err} (h : P l.db) (hrun : rebuildFromSavefile env disk l = .ok (code, l')) :
    P l'.db := by
  cases disk with
  | none => cases hrun; exact h
  | some file =>
    rw [rebuild_eq] at hrun
    cases hf : (records l.processSave (readLines file)).foldlM (loadNext env) l with
    | error e => rw [hf] at hrun; cases hrun
    | ok l1 =>
      rw [hf] at hrun
      cases hrun
      refine foldlM_invariant (P := fun l => P l.db) (fun l0 kv hkv l2 h0 h2 => ?_) h hf
      simp only [loadNext] at h2
      cases hr : loadRecord (env l0.records) l0.db kv with
      | error e => rw [hr] at h2; cases h2
      | ok s => rw [hr] at h2; cases h2; exact hstep file rfl kv hkv _ _ _ h0 hr

theorem Started.inv_empty {s : Db} (h : Started s) : s.Inv ∧ HeapEmpty s := by
  cases h with
  | empty => exact ⟨htInit_inv, rfl⟩
  | rebuilt hrun =>
    have h0 : htInit.Inv ∧ HeapEmpty htInit := ⟨htInit_inv, rfl⟩
    refine rebuild_invariant (P := fun s => s.Inv ∧ HeapEmpty s)
      (fun _ _ kv _ env s s' hs h => ?_) (l := Loader.start htInit) h0 hrun
    exact ⟨loadRecord_inv hs.1 h, loadRecord_empty hs.1 hs.2 h⟩

/-- The store after some calls, from a start. -/
abbrev Db.after (s : Db) (calls : List Call) : Db := Mealy.exec (Db.step maxAllowed) s calls

theorem Started.inv {s : Db} (h : Started s) (calls : List Call) : (s.after calls).Inv :=
  Mealy.exec_invariant (fun _ c hs => hs.step_inv maxAllowed c) h.inv_empty.1 calls

end SahDB
