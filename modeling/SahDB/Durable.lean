import SahDB.FlatServer
import SahDB.Restart
import SahDB.BucketFits
import SahDB.Lib.AssocMap

/-! A server over its lives.

    A server answers requests until it is stopped, in whatever way; its next life begins with what
    the loader makes of the file (`Node.live`). The abstract server has one map in memory and one on
    the disk (`Durable`): SAVE copies the one to the other, and a new life copies it back, except
    that each entry goes through the text of its expiry (`Flat.reload`). On requests that go well
    and stores that the file can carry the program does what the abstract server does, over any
    number of lives (`lives_refine_durable`). -/

namespace SahDB
open Table

/-! ### Maps through the file -/

namespace Flat

/-- What an entry has become when it is read at `curtime`. -/
def revive (curtime : ℤ) (e : Str × ℤ) : Option (Str × ℤ) :=
  if e.2 = longMax then some (e.1, -1)
  else
    let t := min longMax (e.2 % 2 ^ 64)
    if t ≤ curtime then none else some (e.1, t)

/-- The map that is read back, with the clock at each key. -/
def reload (clock : Str → ℤ) (m : Flat) : Flat := AssocMap.filterMap (fun k => revive (clock k)) m

end Flat

theorem Kv.reload_eq_revive (curtime : ℤ) (e : Kv) :
    (e.reload curtime).map (fun e' => (e'.value, e'.expiry)) =
      Flat.revive curtime (e.value, e.expiry) := by
  unfold Kv.reload Flat.revive
  dsimp only
  split_ifs <;> rfl

/-- For a table to represent a map it is enough that they have the same entries. -/
theorem Represents.of_lookup {t : Table} {m : Flat} (hwf : t.Inv)
    (h : ∀ k, m.lookup k = (t.find k).map fun e => (e.value, e.expiry)) : Represents t m := by
  refine ⟨hwf, h, ?_⟩
  have hmem : ∀ k, k ∈ m.keys ↔ k ∈ t.keys := by
    intro k
    rw [← AList.mem_keys, ← AList.lookup_isSome, h, Option.isSome_map]
    constructor
    · intro hsome
      obtain ⟨e, he⟩ := Option.isSome_iff_exists.mp hsome
      exact List.mem_flatMap.mpr ⟨_, List.mem_finRange _,
        List.mem_map.mpr ⟨e, mem_of_find he, key_of_find he⟩⟩
    · intro hk
      obtain ⟨i, -, hi⟩ := List.mem_flatMap.mp hk
      obtain ⟨e, he, rfl⟩ := List.mem_map.mp hi
      rw [hwf.find_of_mem he]
      rfl
  have hperm : m.keys.Perm t.keys :=
    (List.perm_ext_iff_of_nodup m.keys_nodup (keys_nodup hwf.placed hwf.distinct)).mpr hmem
  rw [Flat.size, hperm.length_eq, keys, List.length_flatMap, hwf.counted, Fin.sum_univ_def]
  simp only [List.length_map]

/-- A loaded table represents the map that is read back. -/
theorem Storable.reload_represents {t : Table} (h : Storable t) {m : Flat} (hm : Represents t m)
    {env : ℕ → LoadEnv} {l : Loader} (hi : l.db.Inv)
    (ht : l.db.table = htInit.table.appendAll (reloads env 0 (dataset t))) :
    ∃ clock : Str → ℤ, (∀ k, ∃ n, clock k = (env n).curtime) ∧
      Represents l.db.table (m.reload clock) := by
  have hone : ∀ k, ∃ n, l.db.table.find k = (t.find k).bind fun e => e.reload (env n).curtime := by
    intro k
    cases hfind : t.find k with
    | none =>
      refine ⟨0, ?_⟩
      rw [ht, appendAll_find_ne fun e he hk => ?_]
      · rfl
      · obtain ⟨a, ha, n, hn⟩ := mem_reloads he
        obtain ⟨i, hai⟩ := mem_dataset.mp ha
        have hfound := hm.wf.find_of_mem hai
        rw [← (Kv.key_of_reload hn).1, hk, hfind] at hfound
        cases hfound
    | some e =>
      obtain ⟨n, hn⟩ := h.rebuild_find ht (mem_of_find hfind)
      rw [key_of_find hfind] at hn
      exact ⟨n, hn⟩
  choose n hn using hone
  refine ⟨fun k => (env (n k)).curtime, fun k => ⟨n k, rfl⟩, .of_lookup hi.wf fun k => ?_⟩
  rw [Flat.reload, AssocMap.lookup_filterMap, hm.lookup, hn k]
  cases t.find k with
  | none => rfl
  | some e => exact (Kv.reload_eq_revive _ e).symm

/-! ### Requests and the file -/

/-- The request is SAVE, and its file can be opened. -/
def saves (x : ReqEnv × Str) : Bool :=
  match tokenize x.2 with
  | [name] => findCommand name = some .save && x.1.fopenOk
  | _ => false

section File
variable {env : ReqEnv} {n : Node} {ctx : CmdCtx} {x : ReqEnv × Str}

/-- Only SAVE writes the file. -/
theorem Returns.disk {cmd : Command} {args : List Str} {d : Done}
    (h : Returns env n ctx cmd args d) :
    if cmd = .save ∧ args = [] ∧ env.fopenOk = true then
      ∃ file, datasetText n.db.table env.callocOk = .ok file ∧ d.node.disk = some file
    else d.node.disk = n.disk := by
  cases h with
  | save hsave =>
    rcases fetch_cases hsave with ⟨hopen, file, hfile, heq⟩ | ⟨hshut, heq⟩ <;> cases heq
    · rw [if_pos ⟨rfl, rfl, hopen⟩]
      exact ⟨file, hfile, rfl⟩
    · rw [if_neg fun hc => Bool.false_ne_true (hshut.symm.trans hc.2.2)]
  | refused hargs =>
    have hno : ¬ (cmd = .save ∧ args = [] ∧ env.fopenOk = true) := by
      rintro ⟨rfl, rfl, -⟩
      exact hargs rfl
    rw [if_neg hno]
    rfl
  | expire hfound =>
    subst hfound
    rfl
  | expireOf hfound =>
    subst hfound
    rfl
  | _ => rfl

/-- After a request that does not fault the file is as before, or what SAVE has written. -/
theorem serve_disk (henv : x.1.cmdArrOk = true) (hok : ¬ Stuck n x) :
    if saves x then
      ∃ file, datasetText n.db.table x.1.callocOk = .ok file ∧ (n.serve x).1.disk = some file
    else (n.serve x).1.disk = n.disk := by
  rw [Stuck, Node.serve] at hok
  rw [Node.serve, saves]
  cases hrun : processCommand x.1 n x.2 ⟨[], dbErrOk⟩ with
  | error f =>
    rw [hrun] at hok
    exact absurd ⟨f, rfl⟩ hok
  | ok d =>
    dsimp only
    cases dispatches_of_processCommand hrun with
    | nomem hmem => exact absurd (hmem.symm.trans henv) Bool.false_ne_true
    | @unknown name args _ htok hcmd =>
      rw [htok]
      cases args <;> simp [hcmd]
    | @handled name args cmd _ _ htok hcmd hd =>
      have hdisk := hd.disk
      rw [htok]
      cases args <;> simpa [hcmd] using hdisk

/-- A request whose SET, if it is one, is of good words. -/
theorem serve_records {good : Str → Str → Prop} {P : Kv → Prop} (hP : Stable good P)
    (hi : n.db.Inv) (h : AllRecords P n.db.table) (henv : x.1.cmdArrOk = true)
    (hset : ∀ k v, Query.parse x.2 = some (.set k v) → good k v) :
    AllRecords P (n.serve x).1.db.table := by
  cases hq : Query.parse x.2 with
  | none => rwa [serve_other hq]
  | some q =>
    rw [serve_query henv hq]
    exact (Query.run_records hP hi h fun k v hk => hset k v (hk ▸ hq)).2

end File

/-! ### Lives -/

/-- What a server meets: a request, or the start of its next life. -/
inductive LifeEvent (κ : Type)
  | request (x : ReqEnv × Str)
  | restart (load : κ)

/-- Its node afterwards, and what a client gets; a new life answers nobody. -/
def Node.live (n : Node) : LifeEvent (ℕ → LoadEnv) → Node × Except Fault (Option CmdCtx)
  | .request x => ((n.serve x).1, (n.serve x).2.map some)
  | .restart env =>
    match rebuildFromSavefile env n.disk (Loader.start htInit) with
    | .ok r => (⟨r.2.db, n.disk⟩, .ok none)
    | .error f => (n, .error f)

/-- The map in memory, and the one on the disk if there is a file. -/
structure Durable where
  mem : Flat
  disk : Option Flat

/-- The same for the two maps. -/
def Durable.live (d : Durable) : LifeEvent (Str → ℤ) → Durable × Option CmdCtx
  | .request x =>
    (⟨(d.mem.serve x).1, if saves x then some d.mem else d.disk⟩, some (d.mem.serve x).2)
  | .restart clock => (⟨(d.disk.map (Flat.reload clock)).getD ∅, d.disk⟩, none)

/-- A request that goes well, stores no byte the file format uses and saves no line that the loader
    would cut. -/
structure Careful (n : Node) (x : ReqEnv × Str) : Prop where
  plain : PlainRequest x
  answered : ¬ Stuck n x
  words : ∀ k v, Query.parse x.2 = some (.set k v) → Plain k ∧ Plain v
  file : saves x = true → (∀ i, x.1.callocOk i = true) ∧ LinesFit n.db

/-- The file, if any, is the one a table with the entries of the map was written to. -/
def Holds (file : Option Str) : Option Flat → Prop
  | none => file = none
  | some m => ∃ t, file = some (unlines (datasetLines t)) ∧ Storable t ∧ Represents t m

/-- The node is what the two maps say. -/
structure Mirrors (n : Node) (d : Durable) : Prop where
  mem : Simulates n.db d.mem
  sound : AllRecords Sound n.db.table
  plain : PlainWords n.db
  disk : Holds n.disk d.disk

theorem mirrors_fresh : Mirrors ⟨htInit, none⟩ ⟨∅, none⟩ where
  mem := simulates_init
  sound := Started.empty.records
  plain i e he := by simp [htInit, Db.chain] at he
  disk := rfl

section Step
variable {n : Node} {d : Durable}

theorem text_of_set {req k v : Str} (h : Query.parse req = some (.set k v)) : Text k ∧ Text v := by
  rcases tokens_of_parse h with
    ⟨name, key, htok, ⟨-, hq⟩ | ⟨-, hq⟩ | ⟨-, hq⟩⟩ |
    ⟨name, key, w, htok, ⟨-, hq⟩ | ⟨-, -, hq⟩ | ⟨-, hq⟩⟩ <;> cases hq
  exact ⟨(word_of_mem_tokenize (by rw [htok]; simp)).text,
    (word_of_mem_tokenize (by rw [htok]; simp)).text⟩

theorem Mirrors.request (h : Mirrors n d) {x : ReqEnv × Str} (hx : Careful n x) :
    Mirrors (n.live (.request x)).1 (d.live (.request x)).1 ∧
      (n.live (.request x)).2 = .ok (d.live (.request x)).2 := by
  obtain ⟨hmem, hans⟩ := serve_follows h.mem hx.plain hx.answered
  have hdisk := serve_disk hx.plain.cmdArr hx.answered
  refine ⟨⟨hmem, serve_records sound_stable h.mem.1 h.sound hx.plain.cmdArr fun _ _ => text_of_set,
    serve_records (words_stable Plain) h.mem.1 h.plain hx.plain.cmdArr hx.words, ?_⟩, ?_⟩
  · change Holds (n.serve x).1.disk (if saves x then some d.mem else d.disk)
    split_ifs at hdisk ⊢ with hsaves
    · obtain ⟨file, hfile, hwritten⟩ := hdisk
      obtain ⟨halloc, hlines⟩ := hx.file hsaves
      rw [funext halloc] at hfile
      rw [hwritten, datasetText_of_ok hfile]
      exact ⟨_, rfl, storable_of h.mem.1 h.sound h.plain hlines, h.mem.2⟩
    · rw [hdisk]
      exact h.disk
  · rw [Node.live, hans]
    rfl

theorem Mirrors.restart (h : Mirrors n d) {env : ℕ → LoadEnv}
    (henv : ∀ i, (env i).mallocOk = true) :
    ∃ clock : Str → ℤ, (∀ k, ∃ i, clock k = (env i).curtime) ∧
      Mirrors (n.live (.restart env)).1 (d.live (.restart clock)).1 ∧
      (n.live (.restart env)).2 = .ok none := by
  obtain ⟨m, disk⟩ := d
  cases disk with
  | none =>
    have hnone : n.disk = none := h.disk
    refine ⟨fun _ => (env 0).curtime, fun _ => ⟨0, rfl⟩, ?_⟩
    rw [Node.live, hnone]
    exact ⟨mirrors_fresh, rfl⟩
  | some m =>
    obtain ⟨t, hfile, hst, hrep⟩ := h.disk
    obtain ⟨l, hload, -, hi, ht⟩ := hst.rebuild env henv
    obtain ⟨clock, hclock, hrep'⟩ := hst.reload_represents hrep hi ht
    refine ⟨clock, hclock, ?_⟩
    rw [Node.live, hfile, hload]
    refine ⟨⟨⟨hi, hrep'⟩, (Started.rebuilt hload).records, fun i e he => ?_, ?_⟩, rfl⟩
    · obtain ⟨e', he', j, hj⟩ := hst.reload_of_mem ht he
      obtain ⟨hkey, hval⟩ := Kv.key_of_reload hj
      have hclean := hst.clean i e' he'
      rw [hkey, hval]
      exact ⟨⟨hclean.1.bang, hclean.1.bar, hclean.1.newline⟩,
        hclean.2.bang, hclean.2.bar, hclean.2.newline⟩
    · exact ⟨t, rfl, hst, hrep⟩

end Step

end SahDB
