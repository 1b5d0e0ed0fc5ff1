import SahDB.Replica
import SahDB.Requests
import SahDB.SaveSpec

/-! A replication pass (`replicatate_all`) and the path that SAVE writes to.

    Both the pass and SAVE go through `host_config.savefile`. The pass copies the path aside, puts
    the temporary file in its place and never puts the copy back, so only a pass that stops before,
    or finds the temporary file there already, leaves the path as it was. -/

namespace SahDB

/-- `replicaNode`, without the link to the next one. -/
structure ReplicaNode where
  ip : Option Str
  hostname : Option Str
  port : ℤ
  uuid : Str

/-- What a pass reads of `host_config`. The pass indexes `replicas` as an array: these are the
    nodes that memory holds there. `master` is the descriptor, if that is set. -/
structure Host where
  savefile : Option Str
  uuid : Str
  numReplicas : ℤ
  replicas : Option (List ReplicaNode)
  master : Option ℤ

/-- The content of every path, `none` where there is no file. -/
abbrev Files := Str → Option Str

/-- The outcomes a pass meets; `send` and `ack` are those of each replica's transfer. -/
structure PassEnv where
  fopenOk : Bool
  callocOk : Fin mod → Bool
  send : ℕ → ℕ → Str → ℤ
  ack : ℕ → ReadOutcome

/-- What a pass returns and leaves, and the sends it made. -/
structure Pass where
  res : Err
  host : Host
  files : Files
  sents : List Sent

/-- `MIN_PORT` -/
def minPort : ℤ := 3000

/-- `MAX_PORT` -/
def maxPort : ℤ := 65535

/-- `TEMP_SAVE_FILE` -/
def tempSaveFile : Str := str "data.safe.temp"

/-- `fetch_dataset_from_memory`, which opens `SAVE_FILE` and names it in its message. -/
def saveDataset (fopenOk : Bool) (callocOk : Fin mod → Bool) (t : Table) (host : Host)
    (files : Files) : Except Fault (Err × Files) :=
  match host.savefile with
  | none => .error .nullDeref
  | some path => do
    let (res, disk) ← fetchDatasetFromMemory fopenOk callocOk t (files path)
    return (res, Function.update files path disk)

/-- `strcpy` of the path to `user_savefile`, where there is one. -/
def copySavefile : Option Str → Except Fault Unit
  | none => .ok ()
  | some path => if path.length + 1 ≤ maxCmdLen then .ok () else .error .outOfBounds

/-- The loop body of `replicatate_all`. -/
def shareWith (env : PassEnv) (host : Host) (nodes : List ReplicaNode) (disk : Option Str) (i : ℕ) :
    Except Fault (List Sent) :=
  match nodes[i]? with
  | none => .error .outOfBounds
  | some repl =>
    if (repl.hostname = none ∧ repl.ip = none) ∨ repl.port < minPort ∨ repl.port > maxPort then
      .ok []
    else if repl.ip = none then .ok []
    else do
      let (_, sents) ← shareDataWithReplica host.master host.uuid repl.uuid (env.send i)
        (env.ack i) disk true
      return sents

/-- `replicatate_all` -/
def replicatateAll (env : PassEnv) (t : Table) (host : Host) (files : Files) :
    Except Fault Pass :=
  match host.replicas with
  | none => .ok ⟨dbErrGenericFail, host, files, []⟩
  | some nodes => do
    copySavefile host.savefile
    let host := { host with savefile := some tempSaveFile }
    let (res, files) ← saveDataset env.fopenOk env.callocOk t host files
    if res ≠ 0 then return ⟨res, host, files, []⟩
    let sents ← (List.range host.numReplicas.toNat).foldlM (fun sents i => do
      return sents ++ (← shareWith env host nodes (files tempSaveFile) i)) []
    return ⟨res, host, files, sents⟩

/-! ### What a pass leaves -/

section Pass
variable {env : PassEnv} {t : Table} {host : Host} {files : Files} {p : Pass}

/-- A pass that returns has changed nothing, or has put the temporary file in place. -/
theorem replicatateAll_cases (h : replicatateAll env t host files = .ok p) :
    (host.replicas = none ∧ p.host = host ∧ p.files = files) ∨
      (host.replicas ≠ none ∧ p.host = { host with savefile := some tempSaveFile }) := by
  unfold replicatateAll at h
  cases hr : host.replicas with
  | none =>
    rw [hr] at h
    cases h
    exact .inl ⟨rfl, rfl, rfl⟩
  | some nodes =>
    rw [hr] at h
    obtain ⟨-, -, h⟩ := bind_ok h
    obtain ⟨⟨res, files⟩, -, h⟩ := bind_ok h
    refine .inr ⟨nofun, ?_⟩
    dsimp only at h
    split_ifs at h
    · cases h
      rfl
    · obtain ⟨sents, -, h⟩ := bind_ok h
      cases h
      rfl

theorem savefile_kept_iff (h : replicatateAll env t host files = .ok p) :
    p.host.savefile = host.savefile ↔
      host.replicas = none ∨ host.savefile = some tempSaveFile := by
  rcases replicatateAll_cases h with ⟨hnone, hhost, -⟩ | ⟨hsome, hhost⟩
  · rw [hhost]
    exact iff_of_true rfl (.inl hnone)
  · rw [hhost]
    exact ⟨fun heq => .inr heq.symm, fun hor => (hor.resolve_left hsome).symm⟩

end Pass

/-! ### What a later SAVE does -/

section Save
variable {t : Table} {host host' : Host} {path : Str}

/-- A SAVE that fits its buffer writes the file at the path, and no other. -/
theorem saveDataset_of_fits (h : FitsBuffer t) (hp : host.savefile = some path) (files : Files) :
    saveDataset true (fun _ => true) t host files =
      .ok (0, Function.update files path (some (unlines (datasetLines t)))) := by
  rw [saveDataset, hp]
  dsimp only
  rw [fetch_of_fits h]
  rfl

theorem htInit_fits : FitsBuffer htInit.table := by decide +kernel

theorem saveDataset_congr (h : host'.savefile = host.savefile) (fopenOk : Bool)
    (callocOk : Fin mod → Bool) (t : Table) (files : Files) :
    saveDataset fopenOk callocOk t host' files = saveDataset fopenOk callocOk t host files := by
  rw [saveDataset, saveDataset, h]

/-- What SAVE does to an empty disk tells its path. -/
theorem savefile_of_saves
    (h : saveDataset true (fun _ => true) htInit.table host' (fun _ => none) =
      saveDataset true (fun _ => true) htInit.table host fun _ => none) :
    host'.savefile = host.savefile := by
  have hnone : ∀ {host : Host}, host.savefile = none →
      saveDataset true (fun _ => true) htInit.table host (fun _ => none) = .error .nullDeref := by
    intro host hs
    rw [saveDataset, hs]
  cases hp' : host'.savefile with
  | none =>
    cases hp : host.savefile with
    | none => rfl
    | some path =>
      rw [hnone hp', saveDataset_of_fits htInit_fits hp] at h
      cases h
  | some path' =>
    rw [saveDataset_of_fits htInit_fits hp'] at h
    cases hp : host.savefile with
    | none =>
      rw [hnone hp] at h
      cases h
    | some path =>
      rw [saveDataset_of_fits htInit_fits hp] at h
      have hfiles := congrFun (congrArg Prod.snd (Except.ok.inj h)) path'
      by_contra hne
      have hpath : path' ≠ path := fun heq => hne (congrArg some heq)
      simp [Function.update_of_ne hpath] at hfiles

end Save

/-- CORRECT: a pass that returns leaves the path of the save file, and every later SAVE with it,
    exactly when there are no replicas or the save file was the temporary one. -/
theorem replication_keeps_savefile_iff {env : PassEnv} {t : Table} {host : Host} {files : Files}
    {p : Pass} (h : replicatateAll env t host files = .ok p) :
    (p.host.savefile = host.savefile ↔
      host.replicas = none ∨ host.savefile = some tempSaveFile) ∧
    ((∀ fopenOk callocOk t' files', saveDataset fopenOk callocOk t' p.host files' =
        saveDataset fopenOk callocOk t' host files') ↔
      host.replicas = none ∨ host.savefile = some tempSaveFile) := by
  have hkept := savefile_kept_iff h
  refine ⟨hkept, ⟨fun hsaves => ?_, fun hcond => ?_⟩⟩
  · exact hkept.mp (savefile_of_saves (hsaves true (fun _ => true) htInit.table fun _ => none))
  · exact saveDataset_congr (hkept.mpr hcond)

/-- A master with one replica, whose address is not known. -/
def oneReplica (path : Str) : Host :=
  ⟨some path, str "m1", 1, some [⟨none, some (str "host"), 4000, str "r1"⟩], some 5⟩

/-- Every `send` delivers, and the replica never answers. -/
def quietEnv : PassEnv := ⟨true, fun _ => true, fun _ _ buffer => buffer.length, fun _ => .eof⟩

/-- A pass of it saves the empty store to the temporary file and shares nothing. -/
theorem oneReplica_pass (path : Str) (hpath : path.length + 1 ≤ maxCmdLen) (files : Files) :
    replicatateAll quietEnv htInit.table (oneReplica path) files =
      .ok ⟨0, oneReplica tempSaveFile,
        Function.update files tempSaveFile (some (unlines (datasetLines htInit.table))), []⟩ := by
  have hcopy : copySavefile (oneReplica path).savefile = .ok () := if_pos hpath
  have htemp : (oneReplica tempSaveFile).savefile = some tempSaveFile := rfl
  have hsave := saveDataset_of_fits htInit_fits htemp files
  unfold replicatateAll
  rw [hcopy]
  simp only [oneReplica, quietEnv, bind, Except.bind] at hsave ⊢
  rw [hsave]
  rfl

/-- The save file is no longer `data.safe` after the pass. -/
theorem pass_redirects_saves :
    ¬ ∀ (env : PassEnv) (t : Table) (host : Host) (files : Files) (p : Pass),
      replicatateAll env t host files = .ok p → p.host.savefile = host.savefile := by
  intro h
  have hpath := h _ _ _ _ _ (oneReplica_pass (str "data.safe") (by decide) fun _ => none)
  exact absurd hpath (by decide)

/-- It is what it was where it was the temporary file. -/
theorem replication_keeps_savefile_iff_temp :
    ∃ p, replicatateAll quietEnv htInit.table (oneReplica tempSaveFile) (fun _ => none) = .ok p ∧
      p.host.savefile = some tempSaveFile := by
  have hrun := oneReplica_pass tempSaveFile (by decide) fun _ => none
  exact ⟨_, hrun, (replication_keeps_savefile_iff hrun).1.mpr (.inr rfl)⟩

end SahDB
