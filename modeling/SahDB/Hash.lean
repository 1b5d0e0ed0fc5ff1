import SahDB.Ttl
import SahDB.Lib.Decimal

/-! The hash table (`hash.c`) with its TTL heap.

    A chain is the list of the addresses its `next` links visit. `malloc` returns a cell no entry
    was ever in, so `free` leaves the cell as it is and only the links to it matter. Each function
    returns the store and what it hands to `fill_cmd_ctx`; a reading of the clock and the outcome of
    an allocation are arguments. -/

namespace SahDB

/-- `MOD` -/
abbrev mod : ℕ := 101

/-- `MAX_ALLOWED`, compared as a `size_t`. -/
def maxAllowed : UInt64 := 9223372036854775807

/-- `string_folding_hash`; `char` is signed, so a byte is sign-extended. -/
def stringFoldingHash (k : Str) : Fin mod :=
  let hash := k.foldl
    (fun (hash : UInt64) c => ((hash <<< 5) + hash) + c.toInt8.toInt64.toUInt64) 5381
  Fin.ofNat mod (hash % 101).toNat

/-- The globals `ht` and `ttl`, with the cells of all entries. -/
structure Db extends TtlHeap where
  brk : Addr
  buckets : Fin mod → List Addr
  count : ℕ

namespace Db

def setValue (s : Db) (e : Addr) (v : Str) : Db :=
  { s with mem := Function.update s.mem e { s.mem e with value := v } }

def setExpiry (s : Db) (e : Addr) (t : ℤ) : Db :=
  { s with mem := Function.update s.mem e { s.mem e with expiry := t } }

def setChain (s : Db) (idx : Fin mod) (chain : List Addr) : Db :=
  { s with buckets := Function.update s.buckets idx chain }

def setCount (s : Db) (n : ℕ) : Db := { s with count := n }

/-- A new entry in a cell of its own, linked nowhere. -/
def alloc (s : Db) (k v : Str) : Db :=
  { s with mem := Function.update s.mem s.brk ⟨k, v, -1, sizeMax⟩, brk := s.brk + 1 }

/-- The store after an operation on its heap. -/
def setTtl (s : Db) (h : TtlHeap) : Db := { s with toTtlHeap := h }

end Db

/-- `ht_init` and `ttl_init` -/
def htInit : Db :=
  { toTtlHeap := ttlInit fun _ => ⟨[], [], 0, 0⟩, brk := 0, buckets := fun _ => [], count := 0 }

/-- `sprintf("%zu")` of a `time_t`. -/
def showSizeT (t : ℤ) : Str := Decimal.print (t % 2 ^ 64).toNat

/-! ### `hash.c` -/

/-- `while (temp!=NULL && strcmp(temp->key, k)!=0) temp = temp->next;` -/
def walk (s : Db) (k : Str) : List Addr → Option Addr
  | [] => none
  | temp :: next => if (s.mem temp).key ≠ k then walk s k next else some temp

/-- `while (temp->next!=NULL && strcmp(temp->key, e->key)!=0) temp = temp->next;` with the nodes
    passed, the node it stops at and the nodes after it. -/
def walkLast (s : Db) (k : Str) : List Addr → Addr → List Addr → List Addr × Addr × List Addr
  | pre, temp, [] => (pre, temp, [])
  | pre, temp, n :: next =>
    if (s.mem temp).key ≠ k then walkLast s k (pre ++ [temp]) n next else (pre, temp, n :: next)

/-- `add_kv_in_arr`, with `bound` for `MAX_ALLOWED`. -/
def addKvInArr (bound : UInt64) (s : Db) (idx : Fin mod) (e : Addr) : Err × Db :=
  if sizeT (s.count + 1) ≥ bound.toNat then
    -- full: still an update if the key is there
    match walk s (s.mem e).key (s.buckets idx) with
    | some temp => (dbErrKeyExists, s.setValue temp (s.mem e).value)
    | none => (errFull, s)
  else
    match s.buckets idx with
    | [] => (0, (s.setChain idx [e]).setCount (sizeT (s.count + 1)))
    | head :: next =>
      let (pre, temp, _) := walkLast s (s.mem e).key [] head next
      if (s.mem temp).key = (s.mem e).key then (dbErrKeyExists, s.setValue temp (s.mem e).value)
      else
        -- `temp->next = e` ends the chain at `e`
        (0, (s.setChain idx (pre ++ [temp, e])).setCount (sizeT (s.count + 1)))

/-- The walk of `hash_delete`: the nodes before `cur`, then `cur` and the nodes after it. -/
def deleteWalk (s : Db) (k : Str) : List Addr → List Addr → List Addr × List Addr
  | prev, [] => (prev, [])
  | prev, cur :: next =>
    if (s.mem cur).key ≠ k then deleteWalk s k (prev ++ [cur]) next else (prev, cur :: next)

/-- The part of `hash_delete` after the walk: `cur` leaves chain `idx`, which becomes `chain`, and
    leaves the heap if it seems to be in it. -/
def unlink (s : Db) (idx : Fin mod) (chain : List Addr) (cur : Addr) : Db :=
  let s := (s.setChain idx chain).setCount (sizeT (s.count + 2 ^ 64 - 1))
  if (s.mem cur).heapIndex ≠ sizeMax ∧ (s.mem cur).expiry ≠ longMax then
    s.setTtl (heapRemove s.toTtlHeap cur).2
  else s

/-- `hash_delete` -/
def hashDelete (s : Db) (k : Str) : Db × Reply :=
  let idx := stringFoldingHash k
  match deleteWalk s k [] (s.buckets idx) with
  | (_, []) => (s, ⟨dbErrKeyNotexist, str "ERR"⟩)
  | (prev, cur :: next) => (unlink s idx (prev ++ next) cur, ⟨0, str "OK"⟩)

/-- `lazy_expire_and_delete` -/
def lazyExpireAndDelete (s : Db) (e : Addr) (now : ℤ) : Err × Db :=
  if (s.mem e).expiry > now ∨ (s.mem e).expiry = -1 then (dbErrKeyNotExpired, s)
  else
    let s := s.setTtl (heapRemove s.toTtlHeap e).2
    (dbErrKeyExpired, (hashDelete s (s.mem e).key).1)

/-- The common body of the reads: the text for a key that is missing or has just expired, and the
    text for an entry found. -/
def hashRead (missing : Str) (found : Entry → Str) (s : Db) (k : Str) (now : ℤ) : Db × Reply :=
  match walk s k (s.buckets (stringFoldingHash k)) with
  | none => (s, ⟨dbErrKeyNotexist, missing⟩)
  | some temp =>
    let (res, s') := lazyExpireAndDelete s temp now
    if res = dbErrKeyExpired then (s', ⟨dbErrKeyNotexist, missing⟩)
    else (s', ⟨0, found (s'.mem temp)⟩)

/-- `hash_get_expiry` -/
def hashGetExpiry : Db → Str → ℤ → Db × Reply :=
  hashRead (red ++ str "ERR" ++ reset) fun e =>
    if e.expiry ≠ -1 then showSizeT e.expiry else red ++ str "NULL" ++ reset

/-- What `hash_get` formats. -/
def lookupValue : Db → Str → ℤ → Db × Reply := hashRead (str "ERR") Entry.value

/-- `hash_get`; the value is formatted into `char resp[MAX_RESP_LEN]`. -/
def hashGet (s : Db) (k : Str) (now : ℤ) : Except Fault (Db × Reply) :=
  let r := lookupValue s k now
  if r.2.text.length < maxRespLen then .ok r else .error .outOfBounds

/-- `hash_exists` -/
def hashExists : Db → Str → ℤ → Db × Reply :=
  hashRead (bold ++ red ++ str "FALSE" ++ reset) fun _ => bold ++ green ++ str "TRUE" ++ reset

/-- `hash_insert`; `mallocOk` is the outcome of the allocation of the entry. -/
def hashInsert (s : Db) (k v : Str) (mallocOk : Bool) (bound : UInt64 := maxAllowed) :
    Db × Reply :=
  if mallocOk then
    let kv := s.brk
    let (res, s) := addKvInArr bound (s.alloc k v) (stringFoldingHash k) kv
    if res = 0 then (s, ⟨res, str "OK"⟩)
    else if res = dbErrKeyExists then (s, ⟨0, str "OK"⟩)
    else (s, ⟨res, str "ERR"⟩)
  else (s, ⟨dbErrNomem, []⟩)

/-- `hash_get_kv` -/
def hashGetKv (s : Db) (key : Str) (now : ℤ) : Db × Option Addr :=
  match walk s key (s.buckets (stringFoldingHash key)) with
  | none => (s, none)
  | some kv =>
    let (res, s') := lazyExpireAndDelete s kv now
    if res = dbErrKeyExpired then (s', none) else (s', some kv)

/-- The part of `hash_update_expiry` for a live entry: out of the heap if it is in it, a new expiry,
    and back in. -/
def renewExpiry (s : Db) (kv : Addr) (duration now : ℤ) (reallocOk : Bool) : Db × Reply :=
  let s := if (s.mem kv).heapIndex ≠ sizeMax then s.setTtl (heapRemove s.toTtlHeap kv).2 else s
  let s := s.setExpiry kv (timeT (now + duration))
  let (res, h) := heapInsert reallocOk s.toTtlHeap kv
  (s.setTtl h, ⟨res, if res ≠ dbErrOk then str "ERR" else str "OK"⟩)

/-- `hash_update_expiry`; the clock is read for the lazy expiry (`now`) and for the sum (`now'`). -/
def hashUpdateExpiry (s : Db) (key : Str) (duration now now' : ℤ) (reallocOk : Bool) :
    Db × Reply :=
  match walk s key (s.buckets (stringFoldingHash key)) with
  | none => (s, ⟨dbErrKeyNotexist, str "NULL"⟩)
  | some kv =>
    let (res, s') := lazyExpireAndDelete s kv now
    if res = dbErrKeyExpired then (s', ⟨dbErrKeyNotexist, str "NULL"⟩)
    else renewExpiry s' kv duration now' reallocOk

end SahDB
