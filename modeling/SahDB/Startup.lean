import SahDB.ConfigFile
import SahDB.Load

/-! The start of the program (`init_server_config` in `config.c` and `main` in `network.c`).

    The arguments are looked at one after another, and a configuration file is loaded where it is
    named; so a setting is that of the last argument that says something about it, and the last line
    of its file if it is a file. What `main` does then depends on the port, the master and
    `daemonize`. The path of the save file is the one setting that a file cannot give: its bytes are
    in an array of `load_server_config`, which has returned when the path is used. -/

namespace SahDB
open CStr LastWrite

/-- `CONFIG_PREFIX` -/
def configPrefix : Str := str "--configfile="

/-- What one argument meets: the configuration file it names, with the outcomes of its lines, what
    the array for them holds before and whether the message `load_server_config` prints, which it
    may not have written, ends within its array; and the outcome of the `fopen` of a save file. -/
structure ArgEnv where
  file : Option Str
  lines : ℕ → LineEnv
  array : Str
  messageEnds : Bool
  fopenOk : Bool

/-- An argument and the one after it. `aliased` says that `host_config.savefile` points to it. -/
structure Arg where
  word : Str
  next : Option Str
  env : ArgEnv
  aliased : Bool

/-- The arguments from number `i` on. The save file is the next argument of a `--savefile` whose
    file can be opened. -/
def argsFrom (env : ℕ → ArgEnv) : ℕ → Bool → List Str → List Arg
  | _, _, [] => []
  | i, aliased, w :: ws => ⟨w, ws.head?, env i, aliased⟩ ::
      argsFrom env (i + 1) (w = str "--savefile" && (env i).fopenOk) ws

/-- `argv` -/
def args (env : ℕ → ArgEnv) (argv : List Str) : List Arg := argsFrom env 0 false argv

/-- `strtok` ends a `--configfile=` argument before its `=`, also for a pointer to it. -/
def cutWord (s : ServerConfig) (a : Arg) : ServerConfig :=
  { s with savefile := if a.aliased then .path (str "--configfile") else s.savefile }

/-- The configuration file. Behind a `=` without a name `strtok` finds NULL, which no `fopen` can
    open. -/
def Arg.file (a : Arg) : Option Str :=
  if a.word.drop configPrefix.length = [] then none else a.env.file

/-- A `--configfile=` argument: `strtok` finds the name behind the `=`, and the message with it has
    100 bytes. -/
def loadArg (s : ServerConfig) (a : Arg) : Except Fault ServerConfig :=
  let fname := a.word.drop configPrefix.length
  let s := cutWord s a
  let s := (loadServerConfig a.env.lines s a.env.array a.file).toServerConfig
  if a.env.messageEnds = true ∧ 7 + fname.length + 11 < 100 then .ok s else .error .outOfBounds

/-- `--savefile`: the path, or the default one and a message of 100 bytes. -/
def setSavefile (s : ServerConfig) (env : ArgEnv) (next : Str) : Except Fault ServerConfig :=
  if env.fopenOk then .ok { s with savefile := .path next, rebuild := true }
  else if 24 + next.length + 3 < 100 then .ok { s with savefile := .path defaultSaveFile }
  else .error .outOfBounds

/-- The loop body of `init_server_config`. -/
def argStep (s : ServerConfig) (a : Arg) : Except Fault ServerConfig := do
  let s ← if configPrefix.isPrefixOf a.word then loadArg s a else pure s
  match a.next with
  | none => return if a.word = str "--ismaster" then { s with isMasterNode := true } else s
  | some next =>
    let s := if a.word = str "--port" then { s with serverPort := atoi next } else s
    let s ← if a.word = str "--savefile" then setSavefile s a.env next else pure s
    let s := if a.word = str "--ismaster" then { s with isMasterNode := true } else s
    return if a.word = str "--daemonize" ∧ next = str "yes" then { s with daemonize := 1 } else s

/-- `init_server_config` -/
def initServerConfig (env : ℕ → ArgEnv) (argv : List Str) : Except Fault ServerConfig :=
  (args env argv).foldlM argStep initialConfig

/-- How `main` goes on: it returns a code, or runs as a server that listens on a port, or the local
    loop. -/
inductive Mode where
  | returns (code : Err)
  | server (port : ℤ)
  | loop
  deriving DecidableEq, Repr

/-- `run_as_server` or `eventLoop`; `htons` keeps 16 bits of the port. -/
def runMode (port : ℤ) : Mode := if 0 < port then .server (port % 65536) else .loop

/-- `main`: how it goes on, and the pointer through which it has opened the save file, if it has.
    `load` is what `rebuild_from_savefile` comes to and `conn` what `initialise_conn_with_master`
    returns. -/
def main (env : ℕ → ArgEnv) (load : SavePtr → Except Fault Unit) (conn : Err) (argv : List Str) :
    Except Fault (Mode × Option SavePtr) := do
  let s ← initServerConfig env argv
  if s.daemonize ≠ 0 ∧ s.serverPort = 0 then return (.returns dbErrInvalidArgs, none)
  else
    let loads := if s.rebuild then some s.savefile else none
    if s.rebuild then load s.savefile
    match s.master with
    | some m =>
      if m.isConn = false then
        if conn ≠ dbErrOk then return (.returns conn, loads)
        else return (runMode (if s.serverPort = 0 then 5050 else s.serverPort), loads)
      else return (runMode s.serverPort, loads)
    | none => return (runMode s.serverPort, loads)

/-! ### What an argument says -/

/-- A line that daemonizes. -/
def daemonPut (x : Str × ℕ) : Option ℤ :=
  match directive (upToNewline x.1) with
  | .daemonize => some 1
  | _ => none

/-- A line that gives a save file which can be opened. -/
def rebuildPut (env : ℕ → LineEnv) (x : Str × ℕ) : Option Bool :=
  match directive (upToNewline x.1) with
  | .savefile _ _ => if (env x.2).fopenOk then some true else none
  | _ => none

namespace Arg

/-- The argument names a configuration file. -/
def isConfig (a : Arg) : Bool := configPrefix.isPrefixOf a.word

/-- What `fgets` reads from it. -/
def lines (a : Arg) : List (Str × ℕ) :=
  match a.file with
  | none => []
  | some file => (pieces (maxCmdLen - 1) file).zipIdx

def port (a : Arg) : Option ℤ :=
  if a.isConfig then last portPut a.lines
  else if a.word = str "--port" then a.next.map atoi else none

def master (a : Arg) : Option MasterInfo :=
  if a.isConfig then last (masterPut a.env.lines) a.lines else none

def daemonize (a : Arg) : Option ℤ :=
  if a.isConfig then last daemonPut a.lines
  else if a.word = str "--daemonize" ∧ a.next = some (str "yes") then some 1 else none

def rebuild (a : Arg) : Option Bool :=
  if a.isConfig then last (rebuildPut a.env.lines) a.lines
  else if a.word = str "--savefile" ∧ a.next.isSome ∧ a.env.fopenOk then some true else none

/-- The pointer it leaves in `host_config.savefile`. A file that cannot be opened gives the default
    path, and the name of a file is cut off where a `--savefile` before points to it. -/
def savefile (a : Arg) : Option SavePtr :=
  if a.isConfig then
    if a.file = none then some (.path defaultSaveFile)
    else (last (ptrPut a.env.lines) a.lines).or
      (if a.aliased then some (.path (str "--configfile")) else none)
  else if a.word = str "--savefile" then
    a.next.map fun path => .path (if a.env.fopenOk then path else defaultSaveFile)
  else none

/-- A message about the file the argument names leaves its array. -/
def Overflows (a : Arg) : Prop :=
  a.isConfig ∧ (a.env.messageEnds = false ∨ 82 ≤ (a.word.drop configPrefix.length).length) ∨
    a.word = str "--savefile" ∧ a.env.fopenOk = false ∧ ∃ path ∈ a.next, 73 ≤ path.length

instance (a : Arg) : Decidable a.Overflows := inferInstanceAs (Decidable (_ ∨ _))

end Arg

section Loop
variable {env : ℕ → LineEnv} {s : Loading} {xs : List (Str × ℕ)}

theorem configLine_flags (env : ℕ → LineEnv) (s : Loading) (x : Str × ℕ) :
    let s' := configLine (env x.2) s x.1
    s'.daemonize = (daemonPut x).getD s.daemonize ∧
      s'.rebuild = (rebuildPut env x).getD s.rebuild := by
  intro s'
  have hs' : s' = _ := configLine_eq (env x.2) s x.1
  rw [hs']
  unfold daemonPut rebuildPut
  cases directive (upToNewline x.1) with
  | savefile path pos => dsimp only [Directive.apply]; split_ifs <;> exact ⟨rfl, rfl⟩
  | master name port => dsimp only [Directive.apply]; split_ifs <;> exact ⟨rfl, rfl⟩
  | badMaster => dsimp only [Directive.apply]; split_ifs <;> exact ⟨rfl, rfl⟩
  | port n => exact ⟨rfl, rfl⟩
  | daemonize => exact ⟨rfl, rfl⟩
  | isMaster => exact ⟨rfl, rfl⟩
  | other => exact ⟨rfl, rfl⟩

theorem loadLoop_daemonize :
    (loadLoop env s xs).daemonize = (last daemonPut xs).getD s.daemonize :=
  foldl_get (fun s : Loading => s.daemonize) (fun s x => (configLine_flags env s x).1) s xs

theorem loadLoop_rebuild :
    (loadLoop env s xs).rebuild = (last (rebuildPut env) xs).getD s.rebuild :=
  foldl_get (fun s : Loading => s.rebuild) (fun s x => (configLine_flags env s x).2) s xs

end Loop

/-- `s'` is `s` with what the argument says. -/
structure Heeded (a : Arg) (s s' : ServerConfig) : Prop where
  port : s'.serverPort = a.port.getD s.serverPort
  master : s'.master = a.master.or s.master
  daemonize : s'.daemonize = a.daemonize.getD s.daemonize
  rebuild : s'.rebuild = a.rebuild.getD s.rebuild
  savefile : s'.savefile = a.savefile.getD s.savefile

section Step
variable {s s' : ServerConfig} {a : Arg}

theorem loadArg_heeded (ha : a.isConfig = true) (h : loadArg s a = .ok s') : Heeded a s s' := by
  have hload : s' = (loadServerConfig a.env.lines (cutWord s a) a.env.array
      a.file).toServerConfig := by
    unfold loadArg at h
    dsimp only at h
    split_ifs at h
    cases h
    rfl
  rw [hload]
  cases hfile : a.file with
  | none =>
    have hlines : a.lines = [] := by rw [Arg.lines, hfile]
    constructor
    · rw [Arg.port, if_pos ha, hlines]
      rfl
    · rw [Arg.master, if_pos ha, hlines]
      rfl
    · rw [Arg.daemonize, if_pos ha, hlines]
      rfl
    · rw [Arg.rebuild, if_pos ha, hlines]
      rfl
    · rw [Arg.savefile, if_pos ha, hfile, if_pos rfl]
      rfl
  | some file =>
    have hrun : loadServerConfig a.env.lines (cutWord s a) a.env.array (some file) =
        loadLoop a.env.lines ⟨cutWord s a, a.env.array, dbErrOk⟩ a.lines := by
      rw [Arg.lines, hfile]
      rfl
    rw [hrun]
    constructor
    · rw [loadLoop_port, Arg.port, if_pos ha]
      rfl
    · rw [loadLoop_master, Arg.master, if_pos ha]
      rfl
    · rw [loadLoop_daemonize, Arg.daemonize, if_pos ha]
      rfl
    · rw [loadLoop_rebuild, Arg.rebuild, if_pos ha]
      rfl
    · rw [loadLoop_savefile, Arg.savefile, if_pos ha, hfile, if_neg (by simp)]
      cases last (ptrPut a.env.lines) a.lines with
      | some ptr => rfl
      | none =>
        rw [Option.none_or, Option.getD_none, cutWord]
        dsimp only
        split_ifs <;> rfl

theorem loadArg_ok_iff (s : ServerConfig) (a : Arg) :
    (∃ s', loadArg s a = .ok s') ↔ ¬ (a.env.messageEnds = false ∨
      82 ≤ (a.word.drop configPrefix.length).length) := by
  unfold loadArg
  dsimp only
  split_ifs with hfits
  · exact iff_of_true ⟨_, rfl⟩ (by simp only [hfits.1, Bool.true_eq_false, false_or]; omega)
  · refine iff_of_false (by simp) (not_not.mpr ?_)
    by_cases hends : a.env.messageEnds = true
    · exact Or.inr (by have hlong := not_and.mp hfits hends; omega)
    · exact Or.inl (by simpa using hends)

theorem setSavefile_ok_iff (s : ServerConfig) (env : ArgEnv) (next : Str) :
    (∃ s', setSavefile s env next = .ok s') ↔ ¬ (env.fopenOk = false ∧ 73 ≤ next.length) := by
  unfold setSavefile
  split_ifs with hopen hshort
  · exact iff_of_true ⟨_, rfl⟩ (by simp [hopen])
  · exact iff_of_true ⟨_, rfl⟩ (by omega)
  · exact iff_of_false (by simp) (not_not.mpr ⟨by simpa using hopen, by omega⟩)

theorem word_ne_of_config {w : Str} (ha : a.isConfig = true)
    (hw : configPrefix.isPrefixOf w = false) : a.word ≠ w := by
  rintro rfl
  exact absurd (ha.symm.trans hw) (by decide)

/-- An argument that names a configuration file does nothing else. -/
theorem argStep_config (ha : a.isConfig = true) : argStep s a = loadArg s a := by
  have hport := word_ne_of_config ha (show configPrefix.isPrefixOf (str "--port") = false by decide)
  have hsave := word_ne_of_config ha
    (show configPrefix.isPrefixOf (str "--savefile") = false by decide)
  have hmaster := word_ne_of_config ha
    (show configPrefix.isPrefixOf (str "--ismaster") = false by decide)
  have hdaemon := word_ne_of_config ha
    (show configPrefix.isPrefixOf (str "--daemonize") = false by decide)
  rw [argStep, if_pos (show configPrefix.isPrefixOf a.word = true from ha)]
  cases loadArg s a with
  | error f => rfl
  | ok s' =>
    cases a.next with
    | none => simp [bind, Except.bind, pure, Except.pure, hmaster]
    | some next =>
      simp [bind, Except.bind, pure, Except.pure, hport, hsave, hmaster, hdaemon]

/-- Any other argument at the end. -/
theorem argStep_last (ha : a.isConfig = false) (hnext : a.next = none) : argStep s a =
    .ok (if a.word = str "--ismaster" then { s with isMasterNode := true } else s) := by
  have hpre : configPrefix.isPrefixOf a.word = false := ha
  rw [argStep, hpre, hnext]
  rfl

/-- Any other argument before the end. -/
theorem argStep_word {next : Str} (ha : a.isConfig = false) (hnext : a.next = some next) :
    argStep s a =
      if a.word = str "--savefile" then setSavefile s a.env next
      else .ok (if a.word = str "--port" then { s with serverPort := atoi next }
        else if a.word = str "--ismaster" then { s with isMasterNode := true }
        else if a.word = str "--daemonize" ∧ next = str "yes" then { s with daemonize := 1 }
        else s) := by
  have hpre : configPrefix.isPrefixOf a.word = false := ha
  rw [argStep, hpre, hnext]
  dsimp only [bind, Except.bind, pure, Except.pure]
  rw [if_neg (by decide)]
  by_cases hsave : a.word = str "--savefile"
  · rw [hsave, if_pos rfl, if_pos rfl, if_neg (by decide)]
    cases setSavefile s a.env next <;> rfl
  · rw [if_neg hsave, if_neg hsave]
    by_cases hport : a.word = str "--port"
    · rw [hport]
      rfl
    · rw [if_neg hport, if_neg hport]
      by_cases hmaster : a.word = str "--ismaster"
      · rw [hmaster]
        rfl
      · rw [if_neg hmaster, if_neg hmaster]

/-- What an argument says that names no configuration file. -/
theorem said_of_word (ha : a.isConfig = false) : a.master = none ∧
    (a.port = if a.word = str "--port" then a.next.map atoi else none) ∧
    (a.daemonize =
      if a.word = str "--daemonize" ∧ a.next = some (str "yes") then some 1 else none) ∧
    (a.rebuild =
      if a.word = str "--savefile" ∧ a.next.isSome ∧ a.env.fopenOk then some true else none) ∧
    (a.savefile = if a.word = str "--savefile" then
      a.next.map fun path => .path (if a.env.fopenOk then path else defaultSaveFile)
      else none) := by
  rw [Arg.master, Arg.port, Arg.daemonize, Arg.rebuild, Arg.savefile, ha]
  exact ⟨rfl, rfl, rfl, rfl, rfl⟩

theorem heeded_last (ha : a.isConfig = false) (hnext : a.next = none)
    (h : argStep s a = .ok s') : Heeded a s s' := by
  obtain ⟨hmaster, hport, hdaemon, hrebuild, hsavefile⟩ := said_of_word ha
  rw [argStep_last ha hnext] at h
  rw [hnext] at hport hdaemon hrebuild hsavefile
  cases h
  constructor
  · rw [hport]
    split_ifs <;> rfl
  · rw [hmaster]
    split_ifs <;> rfl
  · have hnone : ¬ (a.word = str "--daemonize" ∧ none = some (str "yes")) := by
      rintro ⟨-, hc⟩
      cases hc
    rw [hdaemon, if_neg hnone]
    split_ifs <;> rfl
  · have hnone : ¬ (a.word = str "--savefile" ∧ (none : Option Str).isSome = true ∧
        a.env.fopenOk = true) := by
      rintro ⟨-, hc, -⟩
      cases hc
    rw [hrebuild, if_neg hnone]
    split_ifs <;> rfl
  · rw [hsavefile]
    split_ifs <;> rfl

theorem heeded_savefile {next : Str} (ha : a.isConfig = false) (hnext : a.next = some next)
    (hsave : a.word = str "--savefile") (h : argStep s a = .ok s') : Heeded a s s' := by
  obtain ⟨hmaster, hport, hdaemon, hrebuild, hsavefile⟩ := said_of_word ha
  rw [argStep_word ha hnext, if_pos hsave] at h
  rw [hnext, hsave] at hport hdaemon hrebuild hsavefile
  cases hopen : a.env.fopenOk with
  | true =>
    rw [setSavefile, if_pos hopen] at h
    cases h
    rw [hopen] at hrebuild hsavefile
    exact ⟨by rw [hport]; rfl, by rw [hmaster]; rfl, by rw [hdaemon]; rfl,
      by rw [hrebuild]; rfl, by rw [hsavefile]; rfl⟩
  | false =>
    rw [setSavefile, if_neg (by simp [hopen])] at h
    split_ifs at h
    cases h
    rw [hopen] at hrebuild hsavefile
    exact ⟨by rw [hport]; rfl, by rw [hmaster]; rfl, by rw [hdaemon]; rfl,
      by rw [hrebuild]; rfl, by rw [hsavefile]; rfl⟩

theorem heeded_word {next : Str} (ha : a.isConfig = false) (hnext : a.next = some next)
    (hsave : a.word ≠ str "--savefile") (h : argStep s a = .ok s') : Heeded a s s' := by
  obtain ⟨hmaster, hport, hdaemon, hrebuild, hsavefile⟩ := said_of_word ha
  rw [argStep_word ha hnext, if_neg hsave] at h
  rw [hnext] at hport hdaemon
  rw [if_neg fun hc => hsave hc.1] at hrebuild
  rw [if_neg hsave] at hsavefile
  cases h
  constructor
  · rw [hport]
    split_ifs <;> rfl
  · rw [hmaster]
    split_ifs <;> rfl
  · rw [hdaemon]
    by_cases hp : a.word = str "--port"
    · rw [hp]
      rfl
    · rw [if_neg hp]
      by_cases hm : a.word = str "--ismaster"
      · rw [hm]
        rfl
      · rw [if_neg hm]
        simp only [Option.some.injEq]
        split_ifs <;> rfl
  · rw [hrebuild]
    split_ifs <;> rfl
  · rw [hsavefile]
    split_ifs <;> rfl

theorem argStep_heeded (h : argStep s a = .ok s') : Heeded a s s' := by
  cases ha : a.isConfig with
  | true => exact loadArg_heeded ha (argStep_config ha ▸ h)
  | false =>
    cases hnext : a.next with
    | none => exact heeded_last ha hnext h
    | some next =>
      by_cases hsave : a.word = str "--savefile"
      · exact heeded_savefile ha hnext hsave h
      · exact heeded_word ha hnext hsave h

/-- Whether an argument overflows depends on nothing before it. -/
theorem argStep_ok_iff : (∃ s', argStep s a = .ok s') ↔ ¬ a.Overflows := by
  rw [Arg.Overflows]
  cases ha : a.isConfig with
  | true =>
    have hsave : a.word ≠ str "--savefile" := word_ne_of_config ha (by decide)
    rw [argStep_config ha, loadArg_ok_iff]
    simp [hsave]
  | false =>
    cases hnext : a.next with
    | none =>
      rw [argStep_last ha hnext]
      exact iff_of_true ⟨_, rfl⟩ (by simp)
    | some next =>
      rw [argStep_word ha hnext]
      by_cases hsave : a.word = str "--savefile"
      · rw [if_pos hsave, setSavefile_ok_iff]
        simp [hsave]
      · rw [if_neg hsave]
        exact iff_of_true ⟨_, rfl⟩ (by simp [hsave])

end Step

/-! ### All arguments -/

section Args
variable {env : ℕ → ArgEnv} {argv : List Str} {s : ServerConfig}

theorem initServerConfig_ok_iff :
    (∃ s, initServerConfig env argv = .ok s) ↔ ∀ a ∈ args env argv, ¬ a.Overflows :=
  @foldlM_ok_iff _ _ _ argStep (fun a => ¬ a.Overflows) (fun _ _ => argStep_ok_iff) _ _

theorem init_get {β : Type} {put : Arg → Option β} (get : ServerConfig → β)
    (hstep : ∀ s a s', argStep s a = .ok s' → get s' = (put a).getD (get s))
    (h : initServerConfig env argv = .ok s) :
    get s = (last put (args env argv)).getD (get initialConfig) := foldlM_get get hstep h

/-- Every setting is that of the last argument that says something about it. -/
structure LastSaid (as : List Arg) (s : ServerConfig) : Prop where
  port : s.serverPort = (last Arg.port as).getD 0
  master : s.master = last Arg.master as
  daemonize : s.daemonize = (last Arg.daemonize as).getD 0
  rebuild : s.rebuild = (last Arg.rebuild as).getD false
  savefile : s.savefile = (last Arg.savefile as).getD (.path defaultSaveFile)

theorem initServerConfig_said (h : initServerConfig env argv = .ok s) :
    LastSaid (args env argv) s where
  port := init_get ServerConfig.serverPort (fun _ _ _ h => (argStep_heeded h).port) h
  master := by
    have hget : s.master = (last (fun a => (Arg.master a).map some) (args env argv)).getD none :=
      init_get ServerConfig.master (fun s a s' h => by
        rw [(argStep_heeded h).master]
        cases a.master <;> rfl) h
    rw [hget, last_map]
    cases last Arg.master (args env argv) <;> rfl
  daemonize := init_get ServerConfig.daemonize (fun _ _ _ h => (argStep_heeded h).daemonize) h
  rebuild := init_get ServerConfig.rebuild (fun _ _ _ h => (argStep_heeded h).rebuild) h
  savefile := init_get ServerConfig.savefile (fun _ _ _ h => (argStep_heeded h).savefile) h

/-! ### What main does -/

theorem isConn_of_last {m : MasterInfo} {as : List Arg} (h : last Arg.master as = some m) :
    m.isConn = false := by
  obtain ⟨a, -, ha⟩ := exists_of_last h
  rw [Arg.master] at ha
  split_ifs at ha
  obtain ⟨x, -, hx⟩ := exists_of_last ha
  unfold masterPut at hx
  split at hx
  · split_ifs at hx
    cases hx
    rfl
  · cases hx

theorem daemonize_eq_one {a : Arg} {x : ℤ} (h : a.daemonize = some x) : x = 1 := by
  rw [Arg.daemonize] at h
  split_ifs at h
  · obtain ⟨y, -, hy⟩ := exists_of_last h
    unfold daemonPut at hy
    split at hy <;> cases hy
    rfl
  · cases h
    rfl

/-- No argument daemonizes. -/
theorem daemonize_eq_zero_iff {as : List Arg} :
    (last Arg.daemonize as).getD 0 = 0 ↔ ∀ a ∈ as, a.daemonize = none := by
  rw [← last_eq_none_iff]
  cases hl : last Arg.daemonize as with
  | none => exact iff_of_true rfl rfl
  | some x =>
    obtain ⟨a, -, ha⟩ := exists_of_last hl
    rw [daemonize_eq_one ha]
    exact iff_of_false (by decide) (by simp)

theorem rebuild_eq_true {a : Arg} {x : Bool} (h : a.rebuild = some x) : x = true := by
  rw [Arg.rebuild] at h
  split_ifs at h
  · obtain ⟨y, -, hy⟩ := exists_of_last h
    unfold rebuildPut at hy
    split at hy
    · split_ifs at hy
      cases hy
      rfl
    · cases hy
  · cases h
    rfl

/-- Only a line of a file leaves a pointer into the array. -/
theorem savefile_line_iff {a : Arg} {pos : ℕ} : a.savefile = some (.line pos) ↔
    a.isConfig = true ∧ last (ptrPut a.env.lines) a.lines = some (.line pos) := by
  rw [Arg.savefile]
  cases ha : a.isConfig with
  | true =>
    rw [if_pos rfl, and_iff_right rfl]
    split_ifs with hfile halias
    · rw [Arg.lines, hfile]
      exact iff_of_false (by simp) (by simp [last])
    · rw [Option.or_eq_some_iff]
      exact ⟨fun h => h.resolve_right (by simp), Or.inl⟩
    · rw [Option.or_none]
  | false =>
    refine iff_of_false ?_ (by simp)
    cases a.next <;> simp

/-- A pointer into the array goes with the order to load the file. -/
theorem rebuild_of_line {as : List Arg} {pos : ℕ} (h : last Arg.savefile as = some (.line pos)) :
    (last Arg.rebuild as).getD false = true := by
  obtain ⟨a, hmem, ha⟩ := exists_of_last h
  obtain ⟨hconfig, hline⟩ := savefile_line_iff.mp ha
  obtain ⟨x, hx, hptr⟩ := exists_of_last hline
  have hput : rebuildPut a.env.lines x = some true := by
    unfold ptrPut at hptr
    unfold rebuildPut
    generalize directive (upToNewline x.1) = d at hptr ⊢
    cases d with
    | savefile path pos' =>
      dsimp only at hptr ⊢
      split_ifs at hptr ⊢ with hopen
      · rfl
      · cases hptr
    | _ => cases hptr
  have hsaid : a.rebuild ≠ none := by
    rw [Arg.rebuild, if_pos hconfig]
    intro hnone
    cases (last_eq_none_iff.mp hnone x hx).symm.trans hput
  cases hl : last Arg.rebuild as with
  | none => exact absurd (last_eq_none_iff.mp hl a hmem) hsaid
  | some x =>
    obtain ⟨a', -, ha'⟩ := exists_of_last hl
    exact rebuild_eq_true ha'

/-- How `main` goes on from the settings. -/
def modeOf (conn : Err) (s : ServerConfig) : Mode :=
  if s.daemonize ≠ 0 ∧ s.serverPort = 0 then .returns dbErrInvalidArgs
  else if s.master ≠ none ∧ conn ≠ dbErrOk then .returns conn
  else runMode (if s.serverPort = 0 ∧ s.master ≠ none then 5050 else s.serverPort)

/-- The pointer through which it opens the save file. -/
def loadsOf (s : ServerConfig) : Option SavePtr :=
  if s.daemonize ≠ 0 ∧ s.serverPort = 0 then none
  else if s.rebuild then some s.savefile else none

/-- The load of the save file returns, if there is one. -/
def LoadReturns (env : ℕ → ArgEnv) (load : SavePtr → Except Fault Unit) (argv : List Str) : Prop :=
  ∀ s, initServerConfig env argv = .ok s → ∀ ptr ∈ loadsOf s, load ptr = .ok ()

theorem runMode_server_iff {q p : ℤ} : runMode q = .server p ↔ 0 < q ∧ q % 65536 = p := by
  rw [runMode]
  split_ifs with hq <;> simp [hq]

theorem runMode_loop_iff {q : ℤ} : runMode q = .loop ↔ q ≤ 0 := by
  rw [runMode]
  split_ifs with hq <;> simp <;> omega

/-- The port a server listens on. -/
theorem runs_server_iff (conn : Err) (s : ServerConfig) (p : ℤ) : modeOf conn s = .server p ↔
    (s.master = none ∨ conn = dbErrOk) ∧ ∃ q, 0 < q ∧ q % 65536 = p ∧ (s.serverPort = q ∨
      q = 5050 ∧ s.serverPort = 0 ∧ s.master ≠ none ∧ s.daemonize = 0) := by
  rw [modeOf]
  split_ifs with hdaemon hconn hport
  · refine iff_of_false (by simp) ?_
    rintro ⟨-, q, hq, -, rfl | ⟨-, -, -, hno⟩⟩
    · omega
    · exact hdaemon.1 hno
  · exact iff_of_false (by simp) fun h => h.1.elim hconn.1 hconn.2
  · have hok : s.master = none ∨ conn = dbErrOk := by tauto
    have hno : s.daemonize = 0 := by tauto
    rw [and_iff_right hok]
    constructor
    · intro h
      obtain ⟨hq, hp⟩ := runMode_server_iff.mp h
      exact ⟨5050, hq, hp, Or.inr ⟨rfl, hport.1, hport.2, hno⟩⟩
    · rintro ⟨q, hq, hp, rfl | ⟨rfl, -⟩⟩
      · omega
      · exact runMode_server_iff.mpr ⟨hq, hp⟩
  · have hok : s.master = none ∨ conn = dbErrOk := by tauto
    rw [and_iff_right hok]
    constructor
    · intro h
      obtain ⟨hq, hp⟩ := runMode_server_iff.mp h
      exact ⟨_, hq, hp, Or.inl rfl⟩
    · rintro ⟨q, hq, hp, rfl | ⟨-, hzero, hmaster, -⟩⟩
      · exact runMode_server_iff.mpr ⟨hq, hp⟩
      · exact absurd ⟨hzero, hmaster⟩ hport

theorem runs_loop_iff (conn : Err) (s : ServerConfig) : modeOf conn s = .loop ↔
    (s.master = none ∨ conn = dbErrOk) ∧
      (s.serverPort < 0 ∨ s.serverPort = 0 ∧ s.master = none ∧ s.daemonize = 0) := by
  rw [modeOf]
  split_ifs with hdaemon hconn hport
  · exact iff_of_false (by simp) fun ⟨_, h⟩ => by omega
  · exact iff_of_false (by simp) fun h => h.1.elim hconn.1 hconn.2
  · refine iff_of_false (by simp [runMode]) ?_
    rintro ⟨-, hneg | ⟨-, hmaster, -⟩⟩
    · omega
    · exact hport.2 hmaster
  · have hok : s.master = none ∨ conn = dbErrOk := by tauto
    rw [and_iff_right hok]
    refine runMode_loop_iff.trans ?_
    constructor
    · intro hle
      rcases hle.lt_or_eq with hneg | hzero
      · exact Or.inl hneg
      · exact Or.inr ⟨hzero, by tauto, by tauto⟩
    · rintro (hneg | ⟨hzero, -⟩) <;> omega

/-- `main` after `init_server_config`, for a master that is not connected yet. -/
theorem main_of_init {load : SavePtr → Except Fault Unit} {conn : Err}
    (h : initServerConfig env argv = .ok s) (hload : ∀ ptr ∈ loadsOf s, load ptr = .ok ())
    (hconn : ∀ m, s.master = some m → m.isConn = false) :
    main env load conn argv = .ok (modeOf conn s, loadsOf s) := by
  rw [main, h, modeOf, loadsOf]
  dsimp only [bind, Except.bind, pure, Except.pure]
  by_cases hdaemon : s.daemonize ≠ 0 ∧ s.serverPort = 0
  · rw [if_pos hdaemon, if_pos hdaemon, if_pos hdaemon]
  · have hloaded : s.rebuild = true → load s.savefile = .ok () := fun hrebuild =>
      hload _ ((if_neg hdaemon).trans (if_pos hrebuild))
    rw [if_neg hdaemon, if_neg hdaemon, if_neg hdaemon]
    cases hmaster : s.master with
    | none => by_cases hrebuild : s.rebuild = true <;> simp [hrebuild, hloaded]
    | some m =>
      simp only [hconn m hmaster]
      by_cases hrebuild : s.rebuild = true <;> by_cases hok : conn = dbErrOk <;>
        by_cases hport : s.serverPort = 0 <;> simp [hrebuild, hloaded, hok, hport]

/-- `main` returns unless an argument overflows. -/
theorem main_returns {load : SavePtr → Except Fault Unit} (conn : Err)
    (hfits : ∀ a ∈ args env argv, ¬ a.Overflows) (hload : LoadReturns env load argv) :
    ∃ s, LastSaid (args env argv) s ∧ main env load conn argv = .ok (modeOf conn s, loadsOf s) := by
  obtain ⟨s, hinit⟩ := initServerConfig_ok_iff.mpr hfits
  have hsaid := initServerConfig_said hinit
  exact ⟨s, hsaid, main_of_init hinit (hload s hinit) fun m hm =>
    isConn_of_last (hsaid.master ▸ hm)⟩

/-- CORRECT: where no message about a file overflows and the load of the save file returns, the
    program becomes a server that listens on `p` exactly when the connection to the master, if one
    is named, has worked, and `p` is 16 bits of a positive port, which the last argument that gives
    one gives (or 5050, where that is 0, a master is named and nothing daemonizes). It runs its
    local loop exactly when the connection has worked, and that port is negative, or 0 with no
    master and nothing that daemonizes. -/
theorem main_runs_iff {load : SavePtr → Except Fault Unit} (conn : Err)
    (hfits : ∀ a ∈ args env argv, ¬ a.Overflows) (hload : LoadReturns env load argv) :
    let as := args env argv
    let port := (last Arg.port as).getD 0
    let connected := last Arg.master as = none ∨ conn = dbErrOk
    (∀ p, (∃ loads, main env load conn argv = .ok (.server p, loads)) ↔
      connected ∧ ∃ q, 0 < q ∧ q % 65536 = p ∧ (port = q ∨
        q = 5050 ∧ port = 0 ∧ last Arg.master as ≠ none ∧ ∀ a ∈ as, a.daemonize = none)) ∧
    ((∃ loads, main env load conn argv = .ok (.loop, loads)) ↔
      connected ∧ (port < 0 ∨
        port = 0 ∧ last Arg.master as = none ∧ ∀ a ∈ as, a.daemonize = none)) := by
  intro as port connected
  obtain ⟨s, hsaid, hrun⟩ := main_returns conn hfits hload
  have hport : s.serverPort = port := hsaid.port
  have hmaster : s.master = last Arg.master as := hsaid.master
  have hdaemon : s.daemonize = 0 ↔ ∀ a ∈ as, a.daemonize = none := by
    rw [hsaid.daemonize]
    exact daemonize_eq_zero_iff
  have hconn : connected ↔ s.master = none ∨ conn = dbErrOk := by rw [hmaster]
  have hfst : ∀ {m : Mode}, (∃ loads, main env load conn argv = .ok (m, loads)) ↔
      modeOf conn s = m := by
    intro m
    rw [hrun]
    constructor
    · rintro ⟨loads, h⟩
      exact congrArg Prod.fst (Except.ok.inj h)
    · rintro rfl
      exact ⟨loadsOf s, rfl⟩
  rw [hconn, ← hmaster, ← hport, ← hdaemon]
  exact ⟨fun p => hfst.trans (runs_server_iff conn s p), hfst.trans (runs_loop_iff conn s)⟩

/-- The last port wins, and it is listened on without its bits above the 16th. -/
theorem main_runs_iff_truncated : ∃ loads,
    main (fun _ => ⟨some (str "port=70000\n"), fun _ => ⟨true, true⟩, [], true, true⟩)
      (fun _ => .ok ()) dbErrOk [str "sahdb", str "--port", str "4000", str "--configfile=a"] =
        .ok (.server 4464, loads) := by
  refine ((main_runs_iff dbErrOk ?_ fun _ _ _ _ => rfl).1 4464).mpr
    ⟨Or.inr rfl, 70000, by decide, by decide, Or.inl ?_⟩
  · decide +kernel
  · decide +kernel

/-- CORRECT: where no message about a file overflows and the load of the save file returns, the
    program opens the save file at its start through a pointer into an array that is gone exactly
    when the last argument that says anything about the save file names a configuration file whose
    last savefile line could be opened, and `main` does not refuse to daemonize before. -/
theorem load_dangles_iff {load : SavePtr → Except Fault Unit} (conn : Err)
    (hfits : ∀ a ∈ args env argv, ¬ a.Overflows) (hload : LoadReturns env load argv) :
    let as := args env argv
    (∃ mode pos, main env load conn argv = .ok (mode, some (.line pos))) ↔
      ((last Arg.port as).getD 0 ≠ 0 ∨ ∀ a ∈ as, a.daemonize = none) ∧
      ∃ pre a post, as = pre ++ a :: post ∧ (∀ b ∈ post, b.savefile = none) ∧
        a.isConfig = true ∧ ∃ pos, last (ptrPut a.env.lines) a.lines = some (.line pos) := by
  intro as
  have hlast : (∃ pos, last Arg.savefile as = some (.line pos)) ↔
      ∃ pre a post, as = pre ++ a :: post ∧ (∀ b ∈ post, b.savefile = none) ∧
        a.isConfig = true ∧ ∃ pos, last (ptrPut a.env.lines) a.lines = some (.line pos) := by
    constructor
    · rintro ⟨pos, hpos⟩
      obtain ⟨pre, a, post, has, ha, hpost⟩ := exists_split_of_last hpos
      obtain ⟨hconfig, hline⟩ := savefile_line_iff.mp ha
      exact ⟨pre, a, post, has, hpost, hconfig, pos, hline⟩
    · rintro ⟨pre, a, post, has, hpost, hconfig, pos, hline⟩
      exact ⟨pos, has ▸ last_of_split (savefile_line_iff.mpr ⟨hconfig, hline⟩) hpost⟩
  obtain ⟨s, hsaid, hrun⟩ := main_returns conn hfits hload
  rw [← hlast, hrun, ← daemonize_eq_zero_iff, ← hsaid.daemonize, ← hsaid.port, loadsOf]
  by_cases hdaemon : s.daemonize ≠ 0 ∧ s.serverPort = 0
  · rw [if_pos hdaemon]
    exact iff_of_false (by simp) fun h => h.1.elim (absurd hdaemon.2) (absurd · hdaemon.1)
  · have hgo : s.serverPort ≠ 0 ∨ s.daemonize = 0 := by
      by_contra hno
      push Not at hno
      exact hdaemon ⟨hno.2, hno.1⟩
    rw [if_neg hdaemon, and_iff_right hgo]
    constructor
    · rintro ⟨mode, pos, h⟩
      have hptr := congrArg Prod.snd (Except.ok.inj h)
      dsimp only at hptr
      split_ifs at hptr
      have hsave := (Option.some.inj hptr).symm.trans hsaid.savefile
      cases hl : last Arg.savefile as with
      | none =>
        rw [hl] at hsave
        cases hsave
      | some ptr =>
        rw [hl] at hsave
        exact ⟨pos, congrArg some hsave.symm⟩
    · rintro ⟨pos, hpos⟩
      have hsave : s.savefile = .line pos := by rw [hsaid.savefile, hpos]; rfl
      have hrebuild : s.rebuild = true := by rw [hsaid.rebuild, rebuild_of_line hpos]
      rw [if_pos hrebuild, hsave]
      exact ⟨_, pos, rfl⟩

/-- The path of a save file that a configuration file gives. -/
theorem load_dangles_iff_line : ∃ mode pos,
    main (fun _ => ⟨some (str "savefile=data.safe\n"), fun _ => ⟨true, true⟩, [], true, true⟩)
      (fun _ => .ok ()) dbErrOk [str "sahdb", str "--configfile=a"] =
        .ok (mode, some (.line pos)) := by
  refine (load_dangles_iff dbErrOk ?_ fun _ _ _ _ => rfl).mpr
    ⟨Or.inr (by decide +kernel), [_], _, [], rfl, by simp, rfl, 9, ?_⟩
  · decide +kernel
  · decide +kernel

end Args

end SahDB
