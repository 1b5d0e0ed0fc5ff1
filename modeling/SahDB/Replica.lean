import SahDB.Network

/-! Sharing the save file with a replica (`replication.c`) and the sends of `common.c`.

    The master announces the size of the file, waits for an acknowledgement and streams the file.
    What a run shows is its sends: each buffer passed to `send` with what that `send` returns. The
    messages for the terminal are left out. -/

namespace SahDB

/-! ### Sending -/

/-- One `send`: its buffer and its return value. -/
structure Sent where
  buffer : Str
  ret : ℤ
  deriving DecidableEq, Repr

/-- `socket_send_data` with the text its format stands for: `vsnprintf` keeps as much as fits a
    buffer of `MAX_RESP_LEN` bytes, and `strlen` measures it. -/
def socketSendData (send : Str → ℤ) (text : Str) : Err × Sent :=
  let buffer := CStr.cut (text.take (maxRespLen - 1))
  (if send buffer < 1 then dbErrGenericFail else dbErrOk, ⟨buffer, send buffer⟩)

/-- The loop of `send_save_file_to_repl` over what `fread` returns, `k` sends after the start of
    the run. The format `%.*s` ends at a NUL. -/
def sendBlocks (send : ℕ → Str → ℤ) (k : ℕ) : List Str → Err × List Sent
  | [] => (dbErrOk, [])
  | block :: blocks =>
    let (res, sent) := socketSendData (send k) (CStr.cut block)
    if res ≠ dbErrOk then (dbErrGenericFail, [sent])
    else
      let (res, sents) := sendBlocks send (k + 1) blocks
      (res, sent :: sents)

/-- `send_save_file_to_repl`; `disk` is `none` if the file cannot be opened, and `fseek` fails at a
    negative position only. -/
def sendSaveFileToRepl (send : ℕ → Str → ℤ) (k : ℕ) (disk : Option Str) (start : ℤ) :
    Err × List Sent :=
  match disk with
  | none => (dbErrFileInaccessible, [])
  | some file =>
    if start < 0 then (dbErrFileInaccessible, [])
    else sendBlocks send k (CStr.blocks maxRespLen (file.drop start.toNat))

/-! ### The acknowledgement -/

def semicolon : UInt8 := 59

def equals : UInt8 := 61

/-- `t3` and `uuid_val` of `replica_handshake_ack`: seven calls of `strtok` with one hidden
    cursor. -/
def ackTokens (data : Str) : StateM Str (Option Str × Option Str) := do
  let t1 ← CStr.strtok (· = semicolon) (some data)
  let t2 ← CStr.strtok (· = semicolon) none
  let t3 ← CStr.strtok (· = semicolon) none
  let _ver_key ← CStr.strtok (· = equals) t1
  let _ver_val ← CStr.strtok (· = equals) none
  let _uuid_key ← CStr.strtok (· = equals) t2
  let uuid_val ← CStr.strtok (· = equals) none
  return (t3, uuid_val)

/-- Whether `strcmp` of a pointer that may be NULL and a string gives 0. -/
def strcmpEq (p : Option Str) (s : Str) : Except Fault Bool :=
  match p with
  | none => .error .nullDeref
  | some t => .ok (t = s)

/-- `replica_handshake_ack`, with memory for the data. A failed read leaves it uninitialised. -/
def replicaHandshakeAck (outcome : ReadOutcome) (uuid : Str) : Except Fault Err :=
  let (res, data) := socketReadData outcome
  if res ≠ dbErrOk then .error .uninitRead
  else do
    let (t3, uuid_val) := ((ackTokens data).run []).1
    if ¬ (← strcmpEq t3 (str "OK")) then return dbErrGenericFail
    if ¬ (← strcmpEq uuid_val uuid) then return dbErrGenericFail
    return res

/-! ### The exchange -/

/-- `get_file_size`; `fseek` gets NULL if the file cannot be opened. -/
def getFileSize : Option Str → Except Fault ℤ
  | none => .error .nullDeref
  | some file => .ok file.length

/-- `REPL_VERS` -/
def replVers : Str := str "0.0.1"

/-- The handshake line of the master. -/
def announcement (uuid : Str) (fileSize : ℤ) : Str :=
  str "REPL_VERS=" ++ replVers ++ str ";MASTER_ID=" ++ uuid ++ str ";DB_SIZE=" ++ showSizeT fileSize

/-- `share_data_with_replica`; `master` is the descriptor in `host_config.master`, if that is set,
    `uuid` the one of the master and `replUuid` the one of the replica. -/
def shareDataWithReplica (master : Option ℤ) (uuid replUuid : Str) (send : ℕ → Str → ℤ)
    (ack : ReadOutcome) (disk : Option Str) (sendAll : Bool) : Except Fault (Err × List Sent) :=
  match master with
  | none => .error .nullDeref
  | some sockfd =>
    if sockfd < 0 ∨ sockfd = 0 then .ok (dbErrOk, [])
    else do
      let fileSize ← getFileSize disk
      if fileSize < 1 then return (dbErrGenericFail, [])
      let (_, sent) := socketSendData (send 0) (announcement uuid fileSize)
      let res ← replicaHandshakeAck ack replUuid
      if res ≠ dbErrOk then return (dbErrGenericFail, [sent])
      if sendAll then
        let (res, sents) := sendSaveFileToRepl send 1 disk 0
        return (res, sent :: sents)
      return (dbErrOk, [sent])

end SahDB
