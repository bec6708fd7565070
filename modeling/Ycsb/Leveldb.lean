import Ycsb.Rocksdb
import Ycsb.Workload

/-!
# The LevelDB binding, single-entry and row-major formats

The single-entry format is RocksDB's. The row-major format has one entry for each
field, under the key, a colon and the field name.
-/

namespace Ycsb

open Lib

namespace LeveldbDB

open DB

def serializeRow (values : Row) (data : Bytes) : Bytes := RocksdbDB.serializeRow values data

def deserializeRowFilter (values : Row) (data : Bytes) (fields : List Bytes) : Except Fault Row :=
  RocksdbDB.deserializeRowFilter values data fields

/-- Here the assertion on the number of fields is in `DeserializeRow`. -/
def deserializeRow (fieldcount : ℕ) (values : Row) (data : Bytes) : Except Fault Row :=
  RocksdbDB.deserializeFull fieldcount values data

/-! ## Composite keys -/

def colon : Byte := 58

/-- `kRowMajor` -/
def buildCompKey (key fieldName : Bytes) : Bytes := key ++ colon :: fieldName

def keyFromCompKey (compKey : Bytes) : Except Fault Bytes :=
  match compKey.idxOf? colon with
  | none => .error .assertion
  | some idx => .ok (compKey.take idx)

def fieldFromCompKey (compKey : Bytes) : Except Fault Bytes :=
  match compKey.idxOf? colon with
  | none => .error .assertion
  | some idx => .ok (compKey.drop (idx + 1))

variable (S : KVStore Bytes Bytes)

/-! ## Single entries -/

section
variable (fieldcount : ℕ)

def readSingleEntry (db : S.State) (key : Bytes) (fields : Option (List Bytes)) (result : Row) :
    Except Fault (Status × Row) :=
  match S.get db key with
  | none => return (.kNotFound, result)
  | some data => do
    let result ← match fields with
      | some fields => deserializeRowFilter result data fields
      | none => deserializeRow fieldcount result data
    return (.kOK, result)

def scanSingleEntry (db : S.State) (key : Bytes) (len : ℤ) (fields : Option (List Bytes)) (result : List Row) :
    Except Fault (Status × List Row) := do
  let result ← S.forEach (fun (result : List Row) entry => do
    let values ← match fields with
      | some fields => deserializeRowFilter [] entry.2 fields
      | none => deserializeRow fieldcount [] entry.2
    return result ++ [values]) len.toNat (S.seek db key) result
  return (.kOK, result)

/-- What `UpdateSingleEntry` does between its `Get` and its `Put`. -/
def updateEntry (values : Row) (data : Bytes) : Except Fault Bytes := do
  let current ← deserializeRow fieldcount [] data
  let current ← values.foldlM RocksdbDB.updateField current
  return serializeRow current []

def updateSingleEntry (db : S.State) (key : Bytes) (values : Row) : Except Fault (Status × S.State) :=
  match S.get db key with
  | none => return (.kNotFound, db)
  | some data => do
    let data ← updateEntry fieldcount values data
    return (.kOK, S.put db key data)

def insertSingleEntry (db : S.State) (key : Bytes) (values : Row) : Status × S.State :=
  (.kOK, S.put db key (serializeRow values []))

def deleteSingleEntry (db : S.State) (key : Bytes) : Status × S.State := (.kOK, S.delete db key)

end

/-! ## Row-major -/

/-- The write batch puts the fields one after the other. -/
def insertCompKey (db : S.State) (key : Bytes) (values : Row) : Status × S.State :=
  (.kOK, values.foldl (fun db field => S.put db (buildCompKey key field.1) field.2) db)

/-- What a turn of the loops of `ReadCompKeyRM` reads and asserts. -/
def readCompEntry (fieldPrefix key : Bytes) (i : ℕ) (entry : Bytes × Bytes) : Except Fault Field := do
  let curKey ← keyFromCompKey entry.1
  let curField ← fieldFromCompKey entry.1
  if curKey ≠ key then throw .assertion
  if curField ≠ fieldPrefix ++ decimal i then throw .assertion
  return (curField, entry.2)

/-- `for (; i < fieldcount_ && more && db_iter->Valid(); i++)`, with `count` turns left. -/
def forFields {σ : Type} (fieldPrefix key : Bytes) (more : σ → Bool) (body : σ → Field → σ) :
    ℕ → ℕ → S.Iter → σ → Except Fault σ
  | 0, _, _, s => .ok s
  | count + 1, i, it, s =>
    if more s then
      match S.entry it with
      | none => .ok s
      | some entry => do
        let field ← readCompEntry fieldPrefix key i entry
        forFields fieldPrefix key more body count (i + 1) (S.next it) (body s field)
    else .ok s

def readCompKeyRM (wl : CoreWorkload) (db : S.State) (key : Bytes) (fields : Option (List Bytes)) (result : Row) :
    Except Fault (Status × Row) := do
  let it := S.seek db key
  match S.entry it with
  | none => return (.kNotFound, result)
  | some entry =>
    let found ← keyFromCompKey entry.1
    if found ≠ key then return (.kNotFound, result)
    match fields with
    | some fields =>
      let (result, _) ← forFields S wl.fieldPrefix key (fun s => !s.2.isEmpty) RocksdbDB.filterStep wl.fieldCount 0 it
        (result, fields)
      if result.length = fields.length then return (.kOK, result) else throw .assertion
    | none =>
      let result ← forFields S wl.fieldPrefix key (fun _ => true) (fun result field => result ++ [field]) wl.fieldCount
        0 it result
      if result.length = wl.fieldCount then return (.kOK, result) else throw .assertion

/-- What a turn of the inner loops of `ScanCompKeyRM` reads and asserts: not the key. -/
def scanCompEntry (fieldPrefix : Bytes) (j : ℕ) (entry : Bytes × Bytes) : Except Fault Field := do
  let _ ← keyFromCompKey entry.1
  let curField ← fieldFromCompKey entry.1
  if curField ≠ fieldPrefix ++ decimal j then throw .assertion
  return (curField, entry.2)

/-- `for (; j < fieldcount_ && more && db_iter->Valid(); j++)`, with `count` turns left, and
where the iterator stands behind it. -/
def scanFields {σ : Type} (fieldPrefix : Bytes) (more : σ → Bool) (body : σ → Field → σ) :
    ℕ → ℕ → S.Iter → σ → Except Fault (σ × S.Iter)
  | 0, _, it, s => .ok (s, it)
  | count + 1, j, it, s =>
    if more s then
      match S.entry it with
      | none => .ok (s, it)
      | some entry => do
        let field ← scanCompEntry fieldPrefix j entry
        scanFields fieldPrefix more body count (j + 1) (S.next it) (body s field)
    else .ok (s, it)

/-- A turn of the outer loop. -/
def scanRow (wl : CoreWorkload) (fields : Option (List Bytes)) (it : S.Iter) : Except Fault (Row × S.Iter) :=
  match fields with
  | some fields => do
    let ((values, _), it) ← scanFields S wl.fieldPrefix (fun s => !s.2.isEmpty) RocksdbDB.filterStep wl.fieldCount 0 it
      ([], fields)
    if values.length = fields.length then return (values, it) else throw .assertion
  | none => do
    let (values, it) ← scanFields S wl.fieldPrefix (fun _ => true) (fun values field => values ++ [field]) wl.fieldCount
      0 it []
    if values.length = wl.fieldCount then return (values, it) else throw .assertion

def scanRows (wl : CoreWorkload) (fields : Option (List Bytes)) :
    ℕ → S.Iter → List Row → Except Fault (List Row)
  | 0, _, result => .ok result
  | len + 1, it, result =>
    match S.entry it with
    | none => .ok result
    | some _ => do
      let (values, it) ← scanRow S wl fields it
      scanRows wl fields len it (result ++ [values])

def scanCompKeyRM (wl : CoreWorkload) (db : S.State) (key : Bytes) (len : ℤ) (fields : Option (List Bytes))
    (result : List Row) : Except Fault (Status × List Row) := do
  let it := S.seek db key
  match S.entry it with
  | none => throw .assertion
  | some entry =>
    let found ← keyFromCompKey entry.1
    if found ≠ key then throw .assertion
    let result ← scanRows S wl fields len.toNat it result
    return (.kOK, result)

/-- The write batch deletes one field after the other. -/
def deleteCompKey (wl : CoreWorkload) (db : S.State) (key : Bytes) : Status × S.State :=
  (.kOK, (List.range wl.fieldCount).foldl (fun db i => S.delete db (buildCompKey key (wl.fieldPrefix ++ decimal i))) db)

/-! ## The methods that `Init` chooses -/

inductive Format where
  | singleEntry
  | rowMajor

def read (format : Format) (wl : CoreWorkload) (db : S.State) (key : Bytes) (fields : Option (List Bytes))
    (result : Row) : Except Fault (Status × Row) :=
  match format with
  | .singleEntry => readSingleEntry S wl.fieldCount db key fields result
  | .rowMajor => readCompKeyRM S wl db key fields result

def scan (format : Format) (wl : CoreWorkload) (db : S.State) (key : Bytes) (len : ℤ) (fields : Option (List Bytes))
    (result : List Row) : Except Fault (Status × List Row) :=
  match format with
  | .singleEntry => scanSingleEntry S wl.fieldCount db key len fields result
  | .rowMajor => scanCompKeyRM S wl db key len fields result

/-- In the row-major format an update is an insert. -/
def update (format : Format) (wl : CoreWorkload) (db : S.State) (key : Bytes) (values : Row) :
    Except Fault (Status × S.State) :=
  match format with
  | .singleEntry => updateSingleEntry S wl.fieldCount db key values
  | .rowMajor => return insertCompKey S db key values

def insert (format : Format) (db : S.State) (key : Bytes) (values : Row) : Status × S.State :=
  match format with
  | .singleEntry => insertSingleEntry S db key values
  | .rowMajor => insertCompKey S db key values

def delete (format : Format) (wl : CoreWorkload) (db : S.State) (key : Bytes) : Status × S.State :=
  match format with
  | .singleEntry => deleteSingleEntry S db key
  | .rowMajor => deleteCompKey S wl db key

def call (format : Format) (wl : CoreWorkload) (db : S.State) : Call → Except Fault (S.State × Reply)
  | .read key fields => do
    let (s, result) ← read S format wl db key fields []
    return (db, .row s result)
  | .scan key len fields => do
    let (s, result) ← scan S format wl db key len fields []
    return (db, .rows s result)
  | .update key values => do
    let (s, db) ← update S format wl db key values
    return (db, .status s)
  | .insert key values =>
    let (s, db) := insert S format db key values
    return (db, .status s)
  | .delete key =>
    let (s, db) := delete S format wl db key
    return (db, .status s)

end LeveldbDB

end Ycsb
