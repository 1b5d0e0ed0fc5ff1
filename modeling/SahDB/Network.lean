import SahDB.Command
import SahDB.Lib.Mealy

/-! The server loop (`run_as_server` in `network.c`) with the connection table (`config.c`) and the
    reads of `common.c`.

    One turn of the loop is one step: what `select`, `accept`, each read and each handshake return
    is the input (`Tick`), the slots stored and the requests passed on are the output. Nothing keeps
    the program from storing a connection past `cap`; the model ends there, as at every other access
    out of bounds. -/

namespace SahDB

/-- `conn_type_t` -/
inductive ConnType where | unkn | user | repl
  deriving DecidableEq, Repr

/-- `conn_state_t` -/
inductive ConnState where | inactive | handshake | active
  deriving DecidableEq, Repr

/-- `conn_t` -/
structure Conn where
  fd : ℤ
  connType : ConnType
  connState : ConnState
  deriving DecidableEq, Repr

/-- `connection_table` -/
structure ConnTable where
  conns : ℕ → Conn
  len : ℕ
  cap : ℕ

/-- `DEF_CONN_TABLE_SIZE` -/
def defConnTableSize : ℕ := 32

/-- `init_conn_table`; `calloc` leaves the slots zero. -/
def initConnTable : ConnTable := ⟨fun _ => ⟨0, .user, .handshake⟩, 0, defConnTableSize⟩

/-! ### Reading -/

/-- What the last `read` of `socket_read_data` returns: bytes, the end of the stream or an error. -/
inductive ReadOutcome where
  | data (bytes : Str)
  | eof
  | error
  deriving DecidableEq, Repr

/-- The string a read leaves in the buffer: up to the first newline or NUL. -/
def upToNewline (bytes : Str) : Str := (CStr.cut bytes).takeWhile (· ≠ CStr.newline)

/-- `socket_read_data`: its code and the string in `buf`. -/
def socketReadData : ReadOutcome → Err × Str
  | .data bytes => (dbErrOk, upToNewline bytes)
  | .eof => (dbErrClientClosed, [])
  | .error => (dbErrClientFatal, [])

/-! ### One slot -/

/-- `USER_JOIN` -/
def userJoin : Str := str "USER_JOIN"

/-- `REPL_JOIN` -/
def replJoin : Str := str "REPL_JOIN_REQ"

/-- How `master_init_handshake_with_repl` goes: no buffer, a failed send or receive, or through. Its
    `recv` waits for the replica, and nothing is said of one that never returns. -/
inductive ReplOutcome where | nomem | sendFail | recvFail | ok
  deriving DecidableEq, Repr

/-- `master_init_handshake_with_repl`: whether it closes the descriptor. After a failure it also
    writes to `host_config.master`, which may be NULL. -/
def masterInitHandshakeWithRepl (master : Bool) : ReplOutcome → Except Fault Bool
  | .nomem | .ok => .ok false
  | .sendFail | .recvFail => if master then .ok true else .error .nullDeref

/-- Whether the loop goes on. A `crash` is an access out of bounds or through NULL. -/
inductive Flow where
  | next
  | shutdown
  | crash (f : Fault)
  deriving DecidableEq, Repr

/-- What a slot meets when `select` reports it: the read, the environment of the request it may
    carry and of the handshake it may start, and the node at that time. -/
structure Visit where
  outcome : ReadOutcome
  env : ReqEnv
  repl : ReplOutcome
  node : Node

/-- What the loop body does to a slot. -/
structure SlotDone where
  conn : Conn
  node : Node
  request : Option Str
  closed : Bool
  flow : Flow

/-- The part of the loop body for a slot in `STATE_HANDSHAKE`. -/
def serveHandshake (master : Bool) (v : Visit) (buf : Str) (c : Conn) : SlotDone :=
  if buf = userJoin then
    ⟨{ c with connType := .user, connState := .active }, v.node, none, false, .next⟩
  else if buf = replJoin then
    match masterInitHandshakeWithRepl master v.repl with
    | .ok closed =>
      ⟨{ c with connType := .repl, connState := .active }, v.node, none, closed, .next⟩
    | .error f =>
      ⟨{ c with connType := .repl, connState := .active }, v.node, none, true, .crash f⟩
  else ⟨{ c with fd := -1 }, v.node, none, true, .next⟩

/-- The part of the loop body for a slot that has joined as a user. -/
def serveUser (v : Visit) (buf : Str) (c : Conn) : SlotDone :=
  if buf = [] then ⟨c, v.node, none, false, .next⟩
  else
    match handleRequest v.env v.node buf with
    | .error f => ⟨c, v.node, some buf, false, .crash f⟩
    | .ok (node, _, res) =>
      if res = dbErrExit then ⟨{ c with fd := -1 }, node, some buf, true, .next⟩
      else if res = dbErrShutdown then ⟨c, node, some buf, false, .shutdown⟩
      else ⟨c, node, some buf, false, .next⟩

/-- The loop body for a slot that is set in `readfds`. -/
def serveSlot (master : Bool) (v : Visit) (c : Conn) : SlotDone :=
  let (ret, buf) := socketReadData v.outcome
  if ret = dbErrClientClosed ∨ ret = dbErrClientFatal then
    ⟨{ c with fd := -1 }, v.node, none, true, .next⟩
  else if c.connState = .handshake then serveHandshake master v buf c
  else if c.connType = .user ∧ c.fd > 0 then serveUser v buf c
  else ⟨c, v.node, none, false, .next⟩

/-! ### One turn of the loop -/

/-- What one turn meets that comes to its end: each of its calls returns, and no `send` meets a peer
    that has closed, which would be the end of the process by SIGPIPE. -/
structure Tick where
  selectOk : Bool
  serverReady : Bool
  ready : ℤ → Bool
  accepted : ℤ
  read : ℕ → ReadOutcome
  repl : ℕ → ReplOutcome
  env : ℕ → ReqEnv

/-- What a turn shows: a slot stored for an accepted connection, a request passed to
    `handle_request` for a slot. -/
inductive Event where
  | stored (idx : ℕ)
  | request (slot : ℕ) (req : Str)
  deriving DecidableEq, Repr

/-- The server: its table, the store, the client descriptors that are open, whether
    `host_config.master` is set, and whether it still runs. -/
structure Server where
  table : ConnTable
  node : Node
  openFds : Finset ℤ
  master : Bool
  flow : Flow

def Server.start (node : Node) (master : Bool) : Server := ⟨initConnTable, node, ∅, master, .next⟩

/-- `CONN(i) = c` -/
def ConnTable.set (t : ConnTable) (i : ℕ) (c : Conn) : ConnTable :=
  { t with conns := Function.update t.conns i c }

@[simp] theorem ConnTable.set_self (t : ConnTable) (i : ℕ) (c : Conn) :
    (t.set i c).conns i = c := Function.update_self ..

theorem ConnTable.set_of_ne (t : ConnTable) (c : Conn) {i j : ℕ} (h : j ≠ i) :
    (t.set i c).conns j = t.conns j := Function.update_of_ne h _ _

/-- A new connection is stored behind the last slot, also when `accept` has failed, and when there
    is no slot left in the array. -/
def Server.accept (s : Server) (fd : ℤ) : Server × List Event :=
  let table := s.table.set s.table.len ⟨fd, .unkn, .handshake⟩
  ({ s with
      table := { table with len := s.table.len + 1 }
      openFds := if fd = -1 then s.openFds else insert fd s.openFds
      flow := if s.table.len < s.table.cap then s.flow else .crash .outOfBounds },
    [.stored s.table.len])

/-- One turn of the loop over the slots. -/
def Server.visit (t : Tick) (isSet : ℤ → Bool) (st : Server × List Event) (i : ℕ) :
    Server × List Event :=
  let (s, evs) := st
  let c := s.table.conns i
  if s.flow ≠ .next ∨ c.fd = -1 ∨ isSet c.fd = false then st
  else
    let d := serveSlot s.master ⟨t.read i, t.env i, t.repl i, s.node⟩ c
    ({ s with
        table := s.table.set i d.conn
        node := d.node
        openFds := if d.closed then s.openFds.erase c.fd else s.openFds
        flow := d.flow },
      evs ++ (d.request.map (Event.request i)).toList)

/-- The descriptors in `readfds` after `select`: watched and ready. -/
def Server.isSet (s : Server) (t : Tick) (fd : ℤ) : Bool :=
  t.ready fd && (List.range s.table.len).any fun i => (s.table.conns i).fd = fd

/-- One turn of the loop of `run_as_server`. -/
def Server.step (s : Server) (t : Tick) : Server × List Event :=
  if s.flow ≠ .next then (s, [])
  else if t.selectOk = false then ({ s with flow := .shutdown }, [])
  else
    let isSet := s.isSet t
    let st := if t.serverReady then s.accept t.accepted else (s, [])
    (List.range st.1.table.len).foldl (Server.visit t isSet) st

section Step
variable {s : Server} {t : Tick}

theorem step_stopped (h : s.flow ≠ .next) : s.step t = (s, []) := by
  rw [Server.step, if_pos h]

theorem step_selectFail (h : s.flow = .next) (h' : t.selectOk = false) :
    s.step t = ({ s with flow := .shutdown }, []) := by
  rw [Server.step, if_neg (not_not.mpr h), if_pos h']

theorem step_serve (h : s.flow = .next) (h' : t.selectOk = true) :
    s.step t =
      let st := if t.serverReady then s.accept t.accepted else (s, [])
      (List.range st.1.table.len).foldl (Server.visit t (s.isSet t)) st := by
  rw [Server.step, if_neg (not_not.mpr h), if_neg (by simp [h'])]

end Step

end SahDB
