import FlowDb.JsonTransaction

/-! The rest of db.rs: deleting stores and indexes, which writes range deletes, and the
reads of a store by key, by scan and by index. -/
namespace FlowDb.JsonStores
open ByteString OrderedMap Records JsonValue JsonEncoding JsonDb JsonTransaction

def rangeRecord (pfx : Bytes) : InternalRecord := InternalRecord.deleteRange pfx (incrementPrefixBytes pfx) 0

section
variable (S : Serde)

def deleteStoreRecords (d : StoreDef) (name : String) : List InternalRecord :=
  d.indexes.map (fun index => rangeRecord (idxPrefix name index.name)) ++
    [rangeRecord (docPrefix name), deleteRecord (schemaKey name), deleteRecord (counterKey name)]

def deleteObjectStore (db : JsonDB) (name : String) : Except FlowError Unit × JsonDB :=
  match getStore db name with
  | .ok d => (.ok (), ⟨writeInternal db.engine (deleteStoreRecords d name), db.schema.erase name⟩)
  | .error e => (.error e, db)

def requireIndex (d : StoreDef) (store name : String) : Except FlowError Nat :=
  match d.indexes.findIdx? fun i => i.name == name with
  | some pos => .ok pos
  | none => .error (.jsonDb s!"index '{name}' not found on store '{store}'")

def deleteIndexRecords (d : StoreDef) (store name : String) : Except FlowError (List InternalRecord) := do
  let record ← schemaRecord S d
  .ok [rangeRecord (idxPrefix store name), record]

def deleteIndex (db : JsonDB) (store name : String) : Except FlowError Unit × JsonDB :=
  let attempt : Except FlowError JsonDB := do
    let d ← getStore db store
    let pos ← requireIndex d store name
    let d := { d with indexes := d.indexes.eraseIdx pos }
    let records ← deleteIndexRecords S d store name
    .ok ⟨writeInternal db.engine records, db.schema.insert d.name d⟩
  match attempt with
  | .ok after => (.ok (), after)
  | .error e => (.error e, db)

/-- What `apply_store` writes itself, for a new store that is to count its keys. -/
def markAutoIncrement (db : JsonDB) (store : String) : Except FlowError Unit × JsonDB :=
  let attempt : Except FlowError JsonDB := do
    let d ← getStore db store
    let d := { d with autoIncrement := true }
    let record ← schemaRecord S d
    .ok ⟨writeInternal db.engine [record], db.schema.insert d.name d⟩
  match attempt with
  | .ok after => (.ok (), after)
  | .error e => (.error e, db)

def docRange (store : String) : ScanRange := prefixRange (docPrefix store)

def valueRange (store index : String) (value : Bytes) : ScanRange := prefixRange (idxValuePrefix store index value)

def indexRange (store index : String) (start stop : Bytes) : ScanRange :=
  ⟨.included (idxPrefix store index ++ start), .excluded (idxPrefix store index ++ stop), .unbounded, .unbounded⟩

def get (db : JsonDB) (store : String) (key : Value) : Except FlowError (Option Value) := do
  let _ ← getStore db store
  let keyBytes ← encodePrimaryKey S key
  match getBytes db (docKey store keyBytes) with
  | some bytes => do
      let doc ← decodeDoc S bytes
      .ok (some doc)
  | none => .ok none

def count (db : JsonDB) (store : String) : Except FlowError Nat := do
  let _ ← getStore db store
  .ok (JsonDb.scan db.engine (docRange store)).length

def scanStore (db : JsonDB) (store : String) : Except FlowError (List Value) := do
  let _ ← getStore db store
  (JsonDb.scan db.engine (docRange store)).mapM fun e => decodeDoc S e.2

def findIndex (d : StoreDef) (store index : String) : Except FlowError IndexDef :=
  match d.indexes.find? fun i => i.name == index with
  | some idx => .ok idx
  | none => .error (.jsonDb s!"index '{index}' not found on '{store}'")

/-- A composite index takes an array as the whole tuple, any other value as the first field. -/
def encodeLookup (idx : IndexDef) (value : Value) : Bytes :=
  match decide (idx.keyPaths.length > 1), value with
  | true, .array items => encodeCompositeValue S items
  | _, value => encodeIndexValue S value

/-- Reads the document each entry names; a missing one is passed over. -/
def fetch (db : JsonDB) (store : String) : List (Bytes × Bytes) → Except FlowError (List Value)
  | [] => .ok []
  | entry :: rest => do
      let found ← match getBytes db (docKey store entry.2) with
        | some bytes => do
            let doc ← decodeDoc S bytes
            .ok [doc]
        | none => .ok []
      let docs ← fetch db store rest
      .ok (found ++ docs)

def getByIndex (db : JsonDB) (store index : String) (value : Value) : Except FlowError (List Value) := do
  let d ← getStore db store
  let idx ← findIndex d store index
  fetch S db store (JsonDb.scan db.engine (valueRange store index (encodeLookup S idx value)))

def rangeByIndex (db : JsonDB) (store index : String) (start stop : Value) : Except FlowError (List Value) := do
  let d ← getStore db store
  let idx ← findIndex d store index
  fetch S db store
    (JsonDb.scan db.engine (indexRange store index (encodeLookup S idx start) (encodeLookup S idx stop)))

end
end FlowDb.JsonStores
