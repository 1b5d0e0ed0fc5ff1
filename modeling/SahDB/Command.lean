import SahDB.DbSave

/-! Requests: `tokenize`, the command handlers (`command.c`) and their dispatch (`db.c`).

    A handler gets the tokens of the request as `cmd_arr` and reads one with `arg`; only the entries
    that `tokenize` stored exist. It works on the store and the save file (`Node`) and on the
    context of the connection, which is never NULL here, and returns its code. What the handlers
    send to the server's own terminal is left out. -/

namespace SahDB

/-- The store and the save file. -/
structure Node where
  db : Db
  disk : Option Str

/-- What `processCommand` fills in of `cmd_ctx`. -/
structure CmdCtx where
  resp : Str
  status : Err
  deriving DecidableEq, Repr

/-- The clock readings of one request in order, and the outcomes of what can fail in it. -/
structure ReqEnv where
  time₁ : ℤ
  time₂ : ℤ
  time₃ : ℤ
  cmdArrOk : Bool
  mallocOk : Bool
  reallocOk : Bool
  fopenOk : Bool
  callocOk : Fin mod → Bool

/-- What a handler leaves behind. -/
structure Done where
  node : Node
  ctx : CmdCtx
  res : Err

/-- `fill_cmd_ctx` -/
def fillCmdCtx (ctx : CmdCtx) (res : Err) (resp : Str) : CmdCtx :=
  if resp = [] then ctx else ⟨resp, res⟩

/-- `cmd_arr[i]` -/
def arg (cmdArr : List Str) (i : ℕ) : Except Fault Str :=
  match cmdArr[i]? with
  | some a => .ok a
  | none => .error .uninitRead

/-- `tolower` in the C locale. -/
def toLower (c : UInt8) : UInt8 := if 65 ≤ c ∧ c ≤ 90 then c + 32 else c

/-- `strcasecmp(a, b) == 0` -/
def strcaseEq (a b : Str) : Bool := a.map toLower = b.map toLower

/-- The delimiters of `tokenize`. -/
def isDelim (c : UInt8) : Bool := c = 32 || c = 9 || c = 10

/-- `tokenize` -/
def tokenize (req : Str) : List Str := (CStr.tokens isDelim (CStr.cut req)).take maxCmdParams

/-! ### Handlers -/

/-- A handler's answer to a wrong number of arguments. -/
def refuse (n : Node) (ctx : CmdCtx) (resp : Str) : Done :=
  ⟨n, fillCmdCtx ctx dbErrInvalidArgs resp, dbErrInvalidArgs⟩

/-- The store function has filled the context; the handler returns its code. -/
def reply (n : Node) (ctx : CmdCtx) (r : Db × Reply) : Done :=
  ⟨{ n with db := r.1 }, fillCmdCtx ctx r.2.code r.2.text, r.2.code⟩

/-- `exit_helper` and `shutdown_helper`: their text and their code. -/
def leaveHelper (text : Str) (code : Err) (cmdArr : List Str) (n : Node) (ctx : CmdCtx) : Done :=
  if cmdArr.length ≠ 1 then refuse n ctx (red ++ str "ERR" ++ reset)
  else ⟨n, fillCmdCtx ctx code (red ++ bold ++ text ++ reset), code⟩

/-- `exit_helper` -/
def exitHelper : List Str → Node → CmdCtx → Done := leaveHelper (str "Bye...") dbErrExit

/-- `shutdown_helper` -/
def shutdownHelper : List Str → Node → CmdCtx → Done :=
  leaveHelper (str "Goodbye...") dbErrShutdown

/-- `set_key_val_helper` -/
def setKeyValHelper (env : ReqEnv) (cmdArr : List Str) (n : Node) (ctx : CmdCtx) :
    Except Fault Done :=
  if cmdArr.length ≠ 3 then return refuse n ctx (red ++ str "ERR" ++ reset)
  else do
    let key ← arg cmdArr 1
    let val ← arg cmdArr 2
    return reply n ctx (hashInsert n.db key val env.mallocOk)

/-- `get_val_from_key_helper` -/
def getValFromKeyHelper (env : ReqEnv) (cmdArr : List Str) (n : Node) (ctx : CmdCtx) :
    Except Fault Done :=
  if cmdArr.length < 2 then
    return refuse n ctx (red ++ str "Incorrect number of args passed, run HELP GET" ++ reset)
  else if cmdArr.length = 2 then do
    let key ← arg cmdArr 1
    return reply n ctx (← hashGet n.db key env.time₁)
  else if cmdArr.length = 3 then do
    let option ← arg cmdArr 2
    if strcaseEq option (str "ex") then
      let key ← arg cmdArr 1
      return reply n ctx (hashGetExpiry n.db key env.time₁)
    else return ⟨n, ctx, 0⟩
  else return ⟨n, ctx, 0⟩

/-- `exists_helper` -/
def existsHelper (env : ReqEnv) (cmdArr : List Str) (n : Node) (ctx : CmdCtx) :
    Except Fault Done :=
  if cmdArr.length ≠ 2 then
    return refuse n ctx (red ++ str "Incorrect number of args passed, run HELP EXISTS" ++ reset)
  else do
    let key ← arg cmdArr 1
    return reply n ctx (hashExists n.db key env.time₁)

/-- `delete_key_value_helper` -/
def deleteKeyValueHelper (cmdArr : List Str) (n : Node) (ctx : CmdCtx) : Except Fault Done :=
  if cmdArr.length ≠ 2 then return refuse n ctx (str "ERR")
  else do
    let key ← arg cmdArr 1
    return reply n ctx (hashDelete n.db key)

/-- `expire_key_val`: `hash_exists` answers into the same context first. -/
def expireKeyVal (env : ReqEnv) (cmdArr : List Str) (n : Node) (ctx : CmdCtx) :
    Except Fault Done :=
  if cmdArr.length ≠ 3 then return refuse n ctx (str "ERR")
  else do
    let key ← arg cmdArr 1
    let expiry := CStr.atol (← arg cmdArr 2)
    let found := reply n ctx (hashExists n.db key env.time₁)
    if found.res = 0 then
      return reply found.node found.ctx
        (hashUpdateExpiry found.node.db key expiry env.time₂ env.time₃ env.reallocOk)
    else return { found with res := 0 }

/-- `save_helper` -/
def saveHelper (env : ReqEnv) (cmdArr : List Str) (n : Node) (ctx : CmdCtx) : Except Fault Done :=
  if cmdArr.length ≠ 1 then return refuse n ctx (str "OK")
  else do
    let (res, disk) ← fetchDatasetFromMemory env.fopenOk env.callocOk n.db.table n.disk
    return ⟨{ n with disk := disk }, fillCmdCtx ctx res (str "OK"), res⟩

/-- The commands of the table `commands`. -/
inductive Command where
  | help | set | exists_ | get | delete | expire | save | exit | shutdown
  deriving DecidableEq, Repr

/-- The names and usage texts of `commands`, in its order. -/
def commands : List (Command × Str × Str) :=
  [(.help, str "HELP", str "Display the help menu                      : " ++
      bold ++ green ++ str "HELP" ++ reset),
    (.set, str "SET", str "Add/Update Key-Value pair in the dataset   : " ++
      bold ++ green ++ str "SET key val" ++ reset),
    (.exists_, str "EXISTS", str "Check if a key exits in dataset            : " ++
      bold ++ green ++ str "EXISTS key" ++ reset),
    (.get, str "GET", str "Print the value corresponding to a key     : " ++
      bold ++ green ++ str "GET key" ++ reset),
    (.delete, str "DELETE", str "Remove Key-Value pair from the dataset     : " ++
      bold ++ red ++ str "DELETE key" ++ reset),
    (.expire, str "EXPIRE", str "Add/Update expuration time of KV pair      : " ++
      bold ++ red ++ str "EXPIRE key time_in_sec" ++ reset),
    (.save, str "SAVE", str "Save the data from dataset to file         : " ++
      bold ++ green ++ str "SAVE" ++ reset),
    (.exit, str "EXIT", str "Exit out of the User|Replica connection    : " ++
      bold ++ red ++ str "EXIT" ++ reset),
    (.shutdown, str "SHUTDOWN", str "SHUTDOWN the DB server                     : " ++
      bold ++ red ++ str "SHUTDOWN" ++ reset)]

/-- `%-*s` -/
def padRight (width : ℕ) (s : Str) : Str := s ++ List.replicate (width - s.length) 32

/-- The part of a usage text before its first colon, and the part after it. -/
def splitUsage (usage : Str) : Str × Str :=
  (usage.takeWhile (· ≠ 58), (usage.dropWhile (· ≠ 58)).tail)

/-- The text `help` formats: two columns and the syntax. It is shorter than `MAX_RESP_LEN`, so the
    bound of `snprintf` never cuts it. -/
def helpText : Str :=
  let cmdLen := (commands.map fun c => c.2.1.length).foldl max 0
  let descLen := (commands.map fun c => (splitUsage c.2.2).1.length).foldl max 0
  (commands.flatMap fun c =>
    padRight cmdLen c.2.1 ++ str "\t" ++ padRight descLen (splitUsage c.2.2).1 ++ str " :" ++
      (splitUsage c.2.2).2 ++ str "\n").dropLast

/-- `printSubCommands`, which formats into 50 bytes. -/
def printSubCommands (subcmd : Str) : Except Fault Unit :=
  if (red ++ str "Not support subcmd print for " ++ subcmd ++ str " yet" ++ reset).length < 50 then
    .ok ()
  else .error .outOfBounds

/-- `help_helper` -/
def helpHelper (cmdArr : List Str) (n : Node) (ctx : CmdCtx) : Except Fault Done :=
  if cmdArr.length = 1 then return ⟨n, fillCmdCtx ctx dbErrHelp helpText, 0⟩
  else if cmdArr.length = 2 then do
    let subcmd ← arg cmdArr 1
    if subcmd ≠ [] then
      printSubCommands subcmd
      return ⟨n, ctx, dbErrInvalidArgs⟩
    else return ⟨n, ctx, 0⟩
  else return ⟨n, ctx, 0⟩

/-! ### Dispatch -/

/-- The handler of a command. -/
def handler (env : ReqEnv) (cmdArr : List Str) (n : Node) (ctx : CmdCtx) :
    Command → Except Fault Done
  | .help => helpHelper cmdArr n ctx
  | .set => setKeyValHelper env cmdArr n ctx
  | .exists_ => existsHelper env cmdArr n ctx
  | .get => getValFromKeyHelper env cmdArr n ctx
  | .delete => deleteKeyValueHelper cmdArr n ctx
  | .expire => expireKeyVal env cmdArr n ctx
  | .save => saveHelper env cmdArr n ctx
  | .exit => return exitHelper cmdArr n ctx
  | .shutdown => return shutdownHelper cmdArr n ctx

/-- The loop over `commands`. -/
def findCommand (name : Str) : Option Command :=
  (commands.find? fun c => strcaseEq c.2.1 name).map Prod.fst

/-- `processCommand`; a request without tokens compares memory nothing has written. -/
def processCommand (env : ReqEnv) (n : Node) (req : Str) (ctx : CmdCtx) : Except Fault Done :=
  if env.cmdArrOk = false then return ⟨n, ctx, dbErrNomem⟩
  else do
    let cmdArr := tokenize req
    let name ← arg cmdArr 0
    match findCommand name with
    | none => return ⟨n, fillCmdCtx ctx dbErrCmdNotexist (str "ERR"), dbErrCmdNotexist⟩
    | some cmd => handler env cmdArr n ctx cmd

/-- `USER_PROMPT` -/
def userPrompt : Str := str "sahDB> "

/-- `handle_request`: the node, the bytes sent to the client and the status it returns. -/
def handleRequest (env : ReqEnv) (n : Node) (req : Str) : Except Fault (Node × Str × Err) := do
  let done ← processCommand env n req ⟨[], dbErrOk⟩
  return (done.node, (done.ctx.resp ++ str "\n" ++ userPrompt).take (maxRespLen - 1),
    done.ctx.status)

end SahDB
