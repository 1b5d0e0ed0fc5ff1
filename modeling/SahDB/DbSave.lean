import SahDB.Table
import SahDB.Lib.CStr

/-! Saving the dataset and loading it at start-up (`dbsave.c`).

    The file is a header line and, for each bucket that is not empty, a line `$`, a line with the
    records of the bucket, and a line `$`. A record is `key!value!expiry`, and `|` separates
    records. The loader reads with `fgets`, so what it calls a line is at most `MAX_RESP_LEN - 1`
    bytes. -/

namespace SahDB

/-- `KV_LEN` -/
def kvLen : ℕ := 1024

/-- `FILE_HEADER_VER` -/
def fileHeaderVer : Str := str "SahDB001"

/-- The byte between the fields of a record. -/
def bang : UInt8 := 33

/-- The byte between records. -/
def bar : UInt8 := 124

/-- The line around the records of a bucket. -/
def dollar : Str := str "$"

/-! ### Saving -/

/-- The text of an expiry, whole even where the scratch array it is printed into is too short. -/
def expiryText (t : ℤ) : Str := if t ≠ longMax then showSizeT t else str "-1"

/-- The bytes `get_kv_from_bucket` stores for one entry. -/
def recordText (e : Kv) : Str :=
  e.key ++ bang :: (e.value ++ bang :: (expiryText e.expiry ++ [bar]))

/-- Everything `get_kv_from_bucket` stores for a chain; the last byte is then overwritten by NUL. -/
def bucketText (chain : List Kv) : Str := chain.flatMap recordText

/-- `get_kv_from_bucket`; `data_idx` is an `int`. -/
def getKvFromBucket (count : ℕ) (chain : List Kv) (callocOk : Bool) : Except Fault (Option Str) :=
  if chain = [] ∨ callocOk = false then .ok none
  else
    let data := bucketText chain
    if data.length ≤ sizeT (kvLen * (count + 1)) ∧ data.length < 2 ^ 31 then
      .ok (some data.dropLast)
    else .error .outOfBounds

/-- What `fetch_dataset_from_memory` prints for one bucket. -/
def bucketBlock : Option Str → Str
  | none => []
  | some data =>
    if 0 < data.length then
      dollar ++ CStr.newline :: (data ++ CStr.newline :: (dollar ++ [CStr.newline]))
    else []

/-- The bytes `fetch_dataset_from_memory` writes. -/
def datasetText (t : Table) (callocOk : Fin mod → Bool) : Except Fault Str :=
  (List.finRange mod).foldlM (fun file i => do
    let data ← getKvFromBucket t.count (t.chains i) (callocOk i)
    return file ++ bucketBlock data) (fileHeaderVer ++ [CStr.newline])

/-- `fetch_dataset_from_memory`: its code and the file afterwards. -/
def fetchDatasetFromMemory (fopenOk : Bool) (callocOk : Fin mod → Bool) (t : Table)
    (disk : Option Str) : Except Fault (Err × Option Str) :=
  if fopenOk then do
    let file ← datasetText t callocOk
    return (0, some file)
  else return (dbErrFileInaccessible, disk)

/-! ### Loading -/

/-- The clock readings and the outcome of the allocation that one record of the file meets. -/
structure LoadEnv where
  curtime : ℤ
  now : ℤ
  mallocOk : Bool

/-- The store, `process_save` and the number of records read, which the environment goes by. -/
structure Loader where
  db : Db
  processSave : Bool
  records : ℕ

def Loader.start (s : Db) : Loader := ⟨s, false, 0⟩

/-- The expiry of a record whose key has just been inserted. -/
def loadExpiry (env : LoadEnv) (s : Db) (key exp : Str) : Db :=
  let expiryTime := CStr.atol exp
  if expiryTime ≤ env.curtime then (hashDelete s key).1
  else
    match hashGetKv s key env.now with
    | (s, none) => s
    | (s, some e) => s.setExpiry e expiryTime

/-- One turn of the loop of `process_save_data`. A missing key reaches `string_folding_hash` as
    NULL, a missing value reaches `strdup`. -/
def loadRecord (env : LoadEnv) (s : Db) (kv : Str) : Except Fault Db :=
  match CStr.strtokR (· = bang) kv with
  | (none, _) => .error .nullDeref
  | (some key, rest) =>
    match CStr.strtokR (· = bang) rest with
    | (none, _) => if env.mallocOk then .error .nullDeref else .ok s
    | (some val, rest) =>
      let s := (hashInsert s key val env.mallocOk).1
      match (CStr.strtokR (· = bang) rest).1 with
      | none => .ok s
      | some exp => .ok (if exp ≠ str "-1" then loadExpiry env s key exp else s)

/-- `loadRecord` in the loader's state. -/
def loadNext (env : ℕ → LoadEnv) (l : Loader) (kv : Str) : Except Fault Loader := do
  let s ← loadRecord (env l.records) l.db kv
  return { l with db := s, records := l.records + 1 }

/-- `process_save_data` -/
def processSaveData (env : ℕ → LoadEnv) (l : Loader) (line : Str) : Except Fault Loader :=
  if line = dollar then .ok { l with processSave := !l.processSave }
  else if l.processSave then (CStr.tokens (· = bar) line).foldlM (loadNext env) l
  else .ok l

/-- `process_save_data` on one line after another. -/
def loadLines (env : ℕ → LoadEnv) (l : Loader) (lines : List Str) : Except Fault Loader :=
  lines.foldlM (processSaveData env) l

/-- The strings `rebuild_from_savefile` makes of what `fgets` reads. -/
def readLines (file : Str) : List Str :=
  (CStr.pieces (maxRespLen - 1) file).map fun piece => CStr.chomp (CStr.cut piece)

/-- `rebuild_from_savefile`; `disk` is `none` if the file cannot be opened. -/
def rebuildFromSavefile (env : ℕ → LoadEnv) (disk : Option Str) (l : Loader) :
    Except Fault (Err × Loader) :=
  match disk with
  | none => .ok (dbErrGenericFail, l)
  | some file => do
    let l ← loadLines env l (readLines file)
    return (dbErrOk, l)

end SahDB
