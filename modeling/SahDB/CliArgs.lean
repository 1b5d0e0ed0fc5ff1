import SahDB.Config
import SahDB.Network
import SahDB.Lib.LastWrite

/-! The arguments of the command line client and its handshake (`cli.c`).

    The client takes pairs from the left: a flag for the port or the host and the argument behind
    it, whatever that looks like. `is_port` looks at the digits and at what `atoi` makes of them, so
    that it also accepts numbers which have a port in their low 32 bits (`isPort_iff`); the host has
    to be the numbers of an address. Which argument lists lead to a connection, and to where, is
    `client_connects_iff`. -/

namespace SahDB
open LastWrite

/-! ### `cli.c` -/

/-- The part of `cli_s` that the arguments set. -/
structure CliConf where
  isLocal : Bool
  ip : Option Str
  port : ℤ
  deriving DecidableEq, Repr

/-- `cli` when `main` begins to read the arguments. -/
def CliConf.init : CliConf := ⟨true, none, 0⟩

/-- `is_port`; the code 1 comes with the message that is shown. -/
def isPort (st : Str) (cli : CliConf) : Err × CliConf :=
  if st.all fun c => decide (Decimal.IsDigit c) then
    let port := atoi st
    if port < 1000 ∨ port > 65535 then (1, cli)
    else (dbErrOk, { cli with port := port })
  else (1, cli)

/-- `--port` or `-p` -/
def isPortFlag (w : Str) : Bool := strcaseEq w (str "--port") || strcaseEq w (str "-p")

/-- `--host` or `-h` -/
def isHostFlag (w : Str) : Bool := strcaseEq w (str "--host") || strcaseEq w (str "-h")

/-- `init_cli_config` -/
def initCliConfig : List Str → CliConf → Err × CliConf
  | [], cli => (dbErrOk, cli)
  | [_], cli => (dbErrOk, cli)
  | w :: st :: rest, cli =>
    if isPortFlag w then
      let (res, cli) := isPort st cli
      if res ≠ dbErrOk then (dbErrInvalidArgs, cli)
      else initCliConfig rest { cli with port := atoi st }
    else if isHostFlag w then initCliConfig rest { cli with ip := some st, isLocal := false }
    else initCliConfig (st :: rest) cli

/-- What `inet_pton` takes for one of the four numbers: digits, the first of several not zero, of a
    number that fits a byte. -/
def OctetText (w : Str) : Prop :=
  w ≠ [] ∧ (∀ c ∈ w, Decimal.IsDigit c) ∧ (w.head? = some 48 → w.length = 1) ∧
    Decimal.value w ≤ 255

instance (w : Str) : Decidable (OctetText w) := inferInstanceAs (Decidable (_ ∧ _))

/-- `inet_pton` for `AF_INET`: the four numbers between the dots of an address, if it is one. -/
def inetPton (src : Str) : Option (List ℕ) :=
  let parts := src.splitOn (46 : UInt8)
  if parts.length = 4 ∧ ∀ w ∈ parts, OctetText w then some (parts.map Decimal.value) else none

/-- What the calls of `handshake_with_server` return. -/
structure DialEnv where
  sock : ℤ
  connect : ℤ
  sent : ℤ

/-- The address and the port `connect` is called with. -/
abbrev Dialled := List ℕ × ℤ

/-- `handshake_with_server`: its code, and what it hands to `connect` if it comes to it. -/
def handshakeWithServer (env : DialEnv) (cli : CliConf) : Except Fault (Err × Option Dialled) :=
  if env.sock < 0 then .ok (dbErrGenericFail, none)
  else
    match cli.ip with
    | none => .error .nullDeref
    | some ip =>
      match inetPton ip with
      | none => .ok (dbErrInvalidArgs, none)
      | some addr =>
        let dialled := some (addr, cli.port % 65536)
        if env.connect < 0 then .ok (dbErrGenericFail, dialled)
        else if env.sent ≠ userJoin.length then .ok (dbErrGenericFail, dialled)
        else .ok (dbErrOk, dialled)

/-- How `main` of the client begins: it returns, or comes to its loop with the code of the
    handshake. -/
inductive CliStart where
  | returns (code : Err)
  | loops (code : Err) (dialled : Option Dialled)
  deriving DecidableEq, Repr

/-- `main`, up to its loop. -/
def cliMain (env : DialEnv) (argv : List Str) : Except Fault CliStart :=
  if argv.length < 2 then .ok (.returns dbErrInvalidArgs)
  else
    let (code, cli) := initCliConfig argv .init
    if code ≠ dbErrOk then .ok (.returns code)
    else if cli.port = 0 then .ok (.returns dbErrInvalidArgs)
    else do
      let ip := if cli.isLocal then some (str "127.0.0.1") else cli.ip
      let (code, dialled) ← handshakeWithServer env { cli with ip := ip }
      return .loops code dialled

/-! ### What the arguments say -/

/-- A flag with the argument behind it. -/
inductive CliOption where
  | port (st : Str)
  | host (st : Str)
  deriving DecidableEq, Repr

/-- The options of an argument list, read in pairs from the left. -/
def cliOptions : List Str → List CliOption
  | [] => []
  | [_] => []
  | w :: st :: rest =>
    if isPortFlag w then .port st :: cliOptions rest
    else if isHostFlag w then .host st :: cliOptions rest
    else cliOptions (st :: rest)

/-- The text of a port option. -/
def CliOption.portText : CliOption → Option Str
  | port st => some st
  | host _ => none

/-- The text of a host option. -/
def CliOption.hostText : CliOption → Option Str
  | port _ => none
  | host st => some st

/-- A text that `is_port` accepts: the digits of a number that fits a `long` and whose low 32 bits
    are a port. -/
def PortText (st : Str) : Prop :=
  (∀ c ∈ st, Decimal.IsDigit c) ∧ Decimal.value st < 2 ^ 63 ∧
    1000 ≤ Decimal.value st % 2 ^ 32 ∧ Decimal.value st % 2 ^ 32 ≤ 65535

instance (st : Str) : Decidable (PortText st) := inferInstanceAs (Decidable (_ ∧ _))

/-- The port of such a text. -/
def portOf (st : Str) : ℤ := (Decimal.value st % 2 ^ 32 : ℕ)

/-! ### Ports -/

/-- What `atoi` makes of digits is a port if they fit a `long` and its low 32 bits are. -/
theorem bmod_port_iff (n : ℕ) :
    (1000 ≤ Int.bmod (min (2 ^ 63 - 1) (n : ℤ)) (2 ^ 32) ∧
      Int.bmod (min (2 ^ 63 - 1) (n : ℤ)) (2 ^ 32) ≤ 65535 ↔
        n < 2 ^ 63 ∧ 1000 ≤ n % 2 ^ 32 ∧ n % 2 ^ 32 ≤ 65535) ∧
      (n < 2 ^ 63 → n % 2 ^ 32 ≤ 65535 →
        Int.bmod (min (2 ^ 63 - 1) (n : ℤ)) (2 ^ 32) = (n % 2 ^ 32 : ℕ)) := by
  rw [Int.bmod_def]
  split_ifs <;> omega

theorem atoi_of_portText {st : Str} (h : PortText st) : atoi st = portOf st := by
  obtain ⟨hdigits, hlong, -, hmax⟩ := h
  rw [atoi, CStr.atol_digits hdigits]
  exact (bmod_port_iff _).2 hlong hmax

/-- `is_port` on every text. -/
theorem isPort_iff (st : Str) (cli : CliConf) : isPort st cli =
    if PortText st then (dbErrOk, { cli with port := portOf st }) else (1, cli) := by
  rw [isPort]
  by_cases hdigits : ∀ c ∈ st, Decimal.IsDigit c
  · rw [if_pos (by simpa using hdigits)]
    have hrange : (1000 ≤ atoi st ∧ atoi st ≤ 65535) ↔ PortText st := by
      rw [atoi, CStr.atol_digits hdigits, (bmod_port_iff _).1]
      exact (and_iff_right hdigits).symm
    dsimp only
    split_ifs with hout hport hport
    · exact absurd (hrange.mpr hport) (by omega)
    · rfl
    · rw [atoi_of_portText hport]
    · exact absurd (hrange.mp (by omega)) hport
  · rw [if_neg (by simpa using hdigits), if_neg fun hc => hdigits hc.1]

/-! ### The loop over the arguments -/

/-- Every port option gives a port. -/
def PortsOk (os : List CliOption) : Prop := ∀ o ∈ os, ∀ st ∈ o.portText, PortText st

/-- The configuration some options leave. -/
def CliConf.after (os : List CliOption) (cli : CliConf) : CliConf where
  isLocal := cli.isLocal && (last CliOption.hostText os).isNone
  ip := (last CliOption.hostText os).or cli.ip
  port := ((last CliOption.portText os).map portOf).getD cli.port

section Loop
variable {st : Str} {os : List CliOption} {cli : CliConf}

theorem portsOk_port : PortsOk (.port st :: os) ↔ PortText st ∧ PortsOk os := by
  simp [PortsOk, CliOption.portText]

theorem portsOk_host : PortsOk (.host st :: os) ↔ PortsOk os := by
  simp [PortsOk, CliOption.portText]

theorem after_port : cli.after (.port st :: os) = { cli with port := portOf st }.after os := by
  rw [CliConf.after, CliConf.after, last_cons, last_cons]
  cases last CliOption.portText os <;> simp [CliOption.portText, CliOption.hostText]

theorem after_host :
    cli.after (.host st :: os) = { cli with ip := some st, isLocal := false }.after os := by
  rw [CliConf.after, CliConf.after, last_cons, last_cons]
  cases last CliOption.hostText os <;> simp [CliOption.portText, CliOption.hostText]

/-- The loop takes the options one after another, up to one that gives no port. -/
theorem initCliConfig_options (argv : List Str) (cli : CliConf) :
    (PortsOk (cliOptions argv) →
      initCliConfig argv cli = (dbErrOk, cli.after (cliOptions argv))) ∧
    (¬ PortsOk (cliOptions argv) → (initCliConfig argv cli).1 = dbErrInvalidArgs) := by
  induction argv using cliOptions.induct generalizing cli with
  | case1 =>
    rw [cliOptions, initCliConfig]
    refine ⟨fun _ => ?_, fun hbad => absurd (fun o ho => absurd ho List.not_mem_nil) hbad⟩
    simp [CliConf.after, last]
  | case2 w =>
    rw [cliOptions, initCliConfig]
    refine ⟨fun _ => ?_, fun hbad => absurd (fun o ho => absurd ho List.not_mem_nil) hbad⟩
    simp [CliConf.after, last]
  | case3 w st rest hport ih =>
    rw [cliOptions, if_pos hport, initCliConfig, if_pos hport, isPort_iff, portsOk_port, after_port]
    by_cases htext : PortText st
    · rw [if_pos htext, and_iff_right htext]
      dsimp only
      rw [if_neg (not_not.mpr rfl), atoi_of_portText htext]
      exact ih _
    · rw [if_neg htext]
      exact ⟨fun h => absurd h.1 htext, fun _ => rfl⟩
  | case4 w st rest hport hhost ih =>
    rw [cliOptions, if_neg hport, if_pos hhost, initCliConfig, if_neg hport, if_pos hhost,
      portsOk_host, after_host]
    exact ih _
  | case5 w st rest hport hhost ih =>
    rw [cliOptions, if_neg hport, if_neg hhost, initCliConfig, if_neg hport, if_neg hhost]
    exact ih _

end Loop

/-! ### The connection -/

/-- The address the client takes. -/
def hostOf (os : List CliOption) : Str := (last CliOption.hostText os).getD (str "127.0.0.1")

theorem portOf_bounds {st : Str} (h : PortText st) : 1000 ≤ portOf st ∧ portOf st ≤ 65535 := by
  obtain ⟨-, -, hmin, hmax⟩ := h
  rw [portOf]
  omega

/-- Arguments without a port, or with one that is none, end the client. -/
theorem cliMain_returns (env : DialEnv) {argv : List Str} (h : ¬ (PortsOk (cliOptions argv) ∧
    (last CliOption.portText (cliOptions argv)).isSome)) :
    ∃ code, cliMain env argv = .ok (.returns code) := by
  obtain ⟨hgood, hbad⟩ := initCliConfig_options argv .init
  rw [cliMain]
  split_ifs with hlen
  · exact ⟨_, rfl⟩
  · by_cases hok : PortsOk (cliOptions argv)
    · have hnone : last CliOption.portText (cliOptions argv) = none := by
        simpa [hok] using h
      have hzero : (CliConf.init.after (cliOptions argv)).port = 0 := by
        rw [CliConf.after, hnone]
        rfl
      rw [hgood hok]
      dsimp only
      rw [if_neg (not_not.mpr rfl), if_pos hzero]
      exact ⟨_, rfl⟩
    · have hcode := hbad hok
      generalize initCliConfig argv .init = r at hcode
      obtain ⟨code, cli⟩ := r
      dsimp only at hcode ⊢
      rw [hcode, if_pos (by decide)]
      exact ⟨_, rfl⟩

/-- With a port they lead to the handshake. -/
theorem cliMain_dials (env : DialEnv) {argv : List Str} (hok : PortsOk (cliOptions argv)) {st : Str}
    (hport : last CliOption.portText (cliOptions argv) = some st) :
    cliMain env argv = (do
      let (code, dialled) ← handshakeWithServer env
        ⟨(last CliOption.hostText (cliOptions argv)).isNone, some (hostOf (cliOptions argv)),
          portOf st⟩
      return .loops code dialled) := by
  obtain ⟨o, ho, hst⟩ := exists_of_last hport
  have hpos : portOf st ≠ 0 := by
    have hbounds := portOf_bounds (hok o ho st hst)
    omega
  have hlen : ¬ argv.length < 2 := by
    intro hshort
    rcases argv with _ | ⟨w, _ | ⟨w', argv⟩⟩
    · cases ho
    · cases ho
    · simp at hshort
  have hconf : (CliConf.init.after (cliOptions argv)).port = portOf st := by
    rw [CliConf.after, hport]
    rfl
  have hip : (if (CliConf.init.after (cliOptions argv)).isLocal then some (str "127.0.0.1")
      else (CliConf.init.after (cliOptions argv)).ip) = some (hostOf (cliOptions argv)) := by
    rw [CliConf.after, hostOf]
    cases last CliOption.hostText (cliOptions argv) <;> rfl
  have hlocal : (CliConf.init.after (cliOptions argv)).isLocal =
      (last CliOption.hostText (cliOptions argv)).isNone := rfl
  rw [cliMain, if_neg hlen, (initCliConfig_options argv .init).1 hok]
  dsimp only
  rw [if_neg (not_not.mpr rfl), hconf, if_neg hpos, hip, hlocal]

/-- The code of a handshake that comes to `connect`. -/
def DialEnv.code (env : DialEnv) : Err :=
  if 0 ≤ env.connect ∧ env.sent = userJoin.length then dbErrOk else dbErrGenericFail

/-- The handshake with an address. -/
theorem handshake_dials {env : DialEnv} (isLocal : Bool) {ip : Str} {addr : List ℕ} (port : ℤ)
    (hsock : 0 ≤ env.sock) (hip : inetPton ip = some addr) :
    handshakeWithServer env ⟨isLocal, some ip, port⟩ =
      .ok (env.code, some (addr, port % 65536)) := by
  rw [handshakeWithServer, if_neg hsock.not_gt, DialEnv.code]
  dsimp only
  rw [hip]
  dsimp only
  by_cases hconnect : env.connect < 0
  · rw [if_pos hconnect, if_neg fun h => absurd h.1 hconnect.not_ge]
  · rw [if_neg hconnect]
    by_cases hsent : env.sent = userJoin.length
    · rw [if_neg (not_not.mpr hsent), if_pos ⟨not_lt.mp hconnect, hsent⟩]
    · rw [if_pos hsent, if_neg fun h => hsent h.2]

/-- Without a socket or an address it does not come to `connect`. -/
theorem handshake_fails {env : DialEnv} (isLocal : Bool) {ip : Str} (port : ℤ)
    (h : ¬ (0 ≤ env.sock ∧ (inetPton ip).isSome)) :
    ∃ code, handshakeWithServer env ⟨isLocal, some ip, port⟩ = .ok (code, none) := by
  rw [handshakeWithServer]
  by_cases hsock : env.sock < 0
  · exact ⟨_, if_pos hsock⟩
  · have hnone : inetPton ip = none := by simpa [not_lt.mp hsock] using h
    rw [if_neg hsock]
    dsimp only
    rw [hnone]
    exact ⟨_, rfl⟩

/-- The handshake with a host and a port. -/
theorem handshake_iff (env : DialEnv) (isLocal : Bool) (ip : Str) {port : ℤ} (h0 : 0 ≤ port)
    (h1 : port ≤ 65535) (code : Err) (dialled : Dialled) :
    handshakeWithServer env ⟨isLocal, some ip, port⟩ = .ok (code, some dialled) ↔
      0 ≤ env.sock ∧ (inetPton ip = some dialled.1 ∧ port = dialled.2) ∧ code = env.code := by
  obtain ⟨addr, p⟩ := dialled
  by_cases h : 0 ≤ env.sock ∧ (inetPton ip).isSome
  · obtain ⟨addr', hip⟩ := Option.isSome_iff_exists.mp h.2
    rw [handshake_dials isLocal port h.1 hip, Int.emod_eq_of_lt h0 (by omega), hip,
      and_iff_right h.1]
    simp only [Except.ok.injEq, Prod.mk.injEq, Option.some.injEq]
    exact ⟨fun ⟨hc, hd⟩ => ⟨hd, hc.symm⟩, fun ⟨hd, hc⟩ => ⟨hc.symm, hd⟩⟩
  · obtain ⟨code', hfail⟩ := handshake_fails isLocal port h
    rw [hfail]
    refine iff_of_false (by simp) fun hc => h ⟨hc.1, ?_⟩
    rw [hc.2.1.1]
    rfl

/-- CORRECT: for every argument list, the client calls `connect` for an address and a port exactly
    if it has a socket, every port option is the digits of a number below `2 ^ 63` that is a port
    modulo `2 ^ 32`, there is one and the port is that of the last one, and the last host option,
    or `127.0.0.1` if there is none, is that address in the form `inet_pton` takes. And the code it
    then comes to its loop with is that of success exactly if `connect` has worked and
    `USER_JOIN` was sent as a whole. -/
theorem client_connects_iff (env : DialEnv) (argv : List Str) (code : Err) (addr : List ℕ)
    (port : ℤ) :
    cliMain env argv = .ok (.loops code (some (addr, port))) ↔
      0 ≤ env.sock ∧ PortsOk (cliOptions argv) ∧
      (last CliOption.portText (cliOptions argv)).map portOf = some port ∧
      inetPton (hostOf (cliOptions argv)) = some addr ∧ code = env.code := by
  by_cases hgood : PortsOk (cliOptions argv) ∧ (last CliOption.portText (cliOptions argv)).isSome
  · obtain ⟨hok, hsome⟩ := hgood
    obtain ⟨st, hport⟩ := Option.isSome_iff_exists.mp hsome
    obtain ⟨o, ho, hst⟩ := exists_of_last hport
    obtain ⟨hmin, hmax⟩ := portOf_bounds (hok o ho st hst)
    have hshake := handshake_iff env (last CliOption.hostText (cliOptions argv)).isNone
      (hostOf (cliOptions argv)) (by omega) hmax code (addr, port)
    rw [cliMain_dials env hok hport, hport, and_iff_right hok, Option.map_some,
      Option.some.injEq]
    have hcode : (do
        let (code, dialled) ← handshakeWithServer env
          ⟨(last CliOption.hostText (cliOptions argv)).isNone, some (hostOf (cliOptions argv)),
            portOf st⟩
        return .loops code dialled : Except Fault CliStart) =
          .ok (.loops code (some (addr, port))) ↔
        handshakeWithServer env ⟨(last CliOption.hostText (cliOptions argv)).isNone,
          some (hostOf (cliOptions argv)), portOf st⟩ = .ok (code, some (addr, port)) := by
      cases handshakeWithServer env ⟨(last CliOption.hostText (cliOptions argv)).isNone,
        some (hostOf (cliOptions argv)), portOf st⟩ with
      | error f => simp [bind, Except.bind]
      | ok r => simp [bind, Except.bind, pure, Except.pure, Prod.ext_iff]
    rw [hcode, hshake]
    tauto
  · obtain ⟨code', hret⟩ := cliMain_returns env hgood
    rw [hret]
    refine iff_of_false (by simp) fun h => hgood ⟨h.2.1, ?_⟩
    obtain ⟨st, hst, -⟩ := Option.map_eq_some_iff.mp h.2.2.1
    rw [hst]
    rfl

/-- A number above `2 ^ 32` is a port; a name is no address. -/
example : cliMain ⟨3, 0, 9⟩ [str "cli", str "-p", str "4294968296", str "-h", str "10.0.0.7"] =
      .ok (.loops dbErrOk (some ([10, 0, 0, 7], 1000))) ∧
    cliMain ⟨3, 0, 9⟩ [str "cli", str "-p", str "5050", str "-h", str "localhost"] =
      .ok (.loops dbErrInvalidArgs none) := by decide +kernel

end SahDB
