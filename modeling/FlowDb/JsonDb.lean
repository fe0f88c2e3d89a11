import FlowDb.JsonEncoding

/-! JsonDB over an engine taken as an atomic ordered map: reads and scans see
every earlier batch, and the records of a batch apply in order. All records of
the JSON layer are written at time 0 and never expire, so the key alone names
one. An operation returns its result with the state it leaves. -/
namespace FlowDb.JsonDb
open ByteString OrderedMap Records JsonValue JsonEncoding

abbrev Engine := OMap Bytes Bytes

def applyRecord (engine : Engine) (r : InternalRecord) : Engine :=
  match r.op with
  | .put => engine.insert r.key r.value
  | .delete => engine.erase r.key
  | .deleteRange => engine.filter fun key _ =>
      !(decide (r.key ≤ key) && decide (key < r.rangeEnd.getD []))

def writeInternal (engine : Engine) (records : List InternalRecord) : Engine :=
  records.foldl applyRecord engine

def scan (engine : Engine) (range : ScanRange) : List (Bytes × Bytes) :=
  engine.entries.filter fun e => range.toQueryParams.1.matchesKey e.1

structure IndexDef where
  keyPaths : List String
  name : String
  unique : Bool
  multiEntry : Bool
  deriving DecidableEq, Repr

structure StoreDef where
  name : String
  keyPath : String
  autoIncrement : Bool
  indexes : List IndexDef
  nextAutoId : UInt64
  deriving DecidableEq, Repr

/-- The fields in the order the derived serializer writes them. -/
def IndexDef.toValue (idx : IndexDef) : Value :=
  .object [("key_paths", .array (idx.keyPaths.map .string)), ("name", .string idx.name),
    ("unique", .bool idx.unique), ("multi_entry", .bool idx.multiEntry)]

def StoreDef.toValue (d : StoreDef) : Value :=
  .object [("name", .string d.name), ("key_path", .string d.keyPath),
    ("auto_increment", .bool d.autoIncrement), ("indexes", .array (d.indexes.map IndexDef.toValue)),
    ("next_auto_id", .number (.posInt d.nextAutoId))]

structure JsonDB where
  engine : Engine
  schema : OMap String StoreDef

def getBytes (db : JsonDB) (key : Bytes) : Option Bytes := db.engine.get? key

def getStore (db : JsonDB) (store : String) : Except FlowError StoreDef :=
  match db.schema.get? store with
  | some d => .ok d
  | none => .error (.jsonDb s!"store '{store}' not found")

section
variable (S : Serde)

def putRecord (key value : Bytes) : InternalRecord :=
  InternalRecord.fromRecord (Record.new key 0 value) 0

def deleteRecord (key : Bytes) : InternalRecord := InternalRecord.delete key 0 0

def schemaRecord (d : StoreDef) : Except FlowError InternalRecord :=
  match S.toVec d.toValue with
  | some text => .ok (putRecord (schemaKey d.name) text)
  | none => .error .json

def validateStoreDef (name keyPath : String) : Except FlowError Unit := do
  validateName name
  if keyPath.isEmpty then .error (.jsonDb "key_path cannot be empty") else .ok ()

def validateIndexDef (store : StoreDef) (name : String) (keyPaths : List String) :
    Except FlowError Unit := do
  validateName name
  if keyPaths.isEmpty || keyPaths.any String.isEmpty then
    .error (.jsonDb "index key_paths cannot be empty")
  else if store.indexes.any fun i => i.name == name then
    .error (.jsonDb s!"index '{name}' already exists in store '{store.name}'")
  else .ok ()

def createObjectStore (db : JsonDB) (name keyPath : String) : Except FlowError Unit × JsonDB :=
  let attempt : Except FlowError JsonDB := do
    validateStoreDef name keyPath
    match db.schema.get? name with
    | some d =>
      if d.keyPath != keyPath then
        .error (.jsonDb s!"store '{name}' already exists with a different key_path")
      else .ok db
    | none =>
      let entry : StoreDef := ⟨name, keyPath, false, [], 0⟩
      let record ← schemaRecord S entry
      .ok ⟨writeInternal db.engine [record], db.schema.insert name entry⟩
  match attempt with
  | .ok after => (.ok (), after)
  | .error e => (.error e, db)

def collectFields (doc : Value) : List String → Option (List Value)
  | [] => some []
  | path :: rest =>
      match extractField doc path, collectFields doc rest with
      | some v, some vs => some (v :: vs)
      | _, _ => none

def extractIndexValues (doc : Value) (idx : IndexDef) : List (List Value) :=
  match collectFields doc idx.keyPaths with
  | none => []
  | some raw =>
      match idx.multiEntry, raw with
      | true, [.array items] => items.map fun v => [v]
      | _, _ => [raw]

def indexKeys (store : String) (idx : IndexDef) (doc : Value) (key : Bytes) : List Bytes :=
  (extractIndexValues doc idx).map fun vals =>
    idxKey store idx.name (encodeCompositeValue S vals) key

/-- The loop over an old document's index entries, shared by put, delete and commit. -/
def deleteIndexEntries (d : StoreDef) (store : String) (key : Bytes) :
    Option Value → List InternalRecord
  | none => []
  | some oldDoc => d.indexes.flatMap fun idx =>
      (indexKeys S store idx oldDoc key).map deleteRecord

def indexEntries (idx : IndexDef) (store : String) (key : Bytes) (doc : Value) :
    List InternalRecord :=
  (indexKeys S store idx doc key).map fun k => putRecord k key

/-- The scan for entries of this value: one of another document refuses the write. -/
def checkEngine (db : JsonDB) (store : String) (idx : IndexDef) (key : Bytes)
    (vals : List Value) : Except FlowError Unit :=
  let pfx := idxValuePrefix store idx.name (encodeCompositeValue S vals)
  if (scan db.engine (prefixRange pfx)).any fun e => e.2 != key then
    .error (.jsonDb <| "unique constraint violation: index '" ++ idx.name ++ "' value '" ++
      S.debugValues vals ++ "' already exists")
  else .ok ()

def readOldDoc (db : JsonDB) (store : String) (key : Bytes) : Except FlowError (Option Value) :=
  match getBytes db (docKey store key) with
  | none => .ok none
  | some bytes =>
      match decodeDoc S bytes with
      | .ok doc => .ok (some doc)
      | .error _ => .error (.jsonDb <|
          "corrupted document at key " ++ S.debugLossy key ++ ": " ++ S.errorText bytes)

def checkUnique (db : JsonDB) (store : String) (idx : IndexDef) (key : Bytes) (doc : Value) :
    Except FlowError Unit :=
  if idx.unique then (extractIndexValues doc idx).forM (checkEngine S db store idx key)
  else .ok ()

/-- The loop over the indexes: check, then push the new entries. -/
def pushIndexes (check : IndexDef → Except FlowError Unit) (store : String) (key : Bytes)
    (doc : Value) : List IndexDef → List InternalRecord → Except FlowError (List InternalRecord)
  | [], records => .ok records
  | idx :: rest, records => do
      check idx
      pushIndexes check store key doc rest (records ++ indexEntries S idx store key doc)

def buildPutBatch (db : JsonDB) (d : StoreDef) (store : String) (key docBytes : Bytes)
    (doc : Value) : Except FlowError (List InternalRecord) := do
  let oldDoc ← readOldDoc S db store key
  let records := deleteIndexEntries S d store key oldDoc
  let records := records ++ [putRecord (docKey store key) docBytes]
  pushIndexes S (fun idx => checkUnique S db store idx key doc) store key doc d.indexes records

def buildDeleteBatch (db : JsonDB) (d : StoreDef) (store : String) (key : Bytes) :
    Except FlowError (List InternalRecord) := do
  let oldDoc ← readOldDoc S db store key
  .ok (deleteIndexEntries S d store key oldDoc ++ [deleteRecord (docKey store key)])

def readCounter (db : JsonDB) (store : String) : Except FlowError UInt64 :=
  match getBytes db (counterKey store) with
  | some value =>
      if value.length = 8 then .ok (UInt64.ofNat (ofBe value))
      else .error (.jsonDb s!"corrupted auto-increment counter for store '{store}'")
  | none => .ok 0

def prepareCounter (db : JsonDB) (store : String) : Except FlowError (UInt64 × InternalRecord) := do
  let current ← readCounter db store
  let next := current + 1
  .ok (next, putRecord (counterKey store) (toBe 8 next.toNat))

def backfill (d : StoreDef) (store name : String) (index : IndexDef) :
    List (Bytes × Bytes) → List InternalRecord → Except FlowError (List InternalRecord)
  | [], records => .ok records
  | (_, bytes) :: rest, records => do
      let doc ← decodeDoc S bytes
      let entries ← (extractIndexValues doc index).mapM fun vals => do
        let key ← encodePrimaryKey S ((extractField doc d.keyPath).getD .null)
        .ok (putRecord (idxKey store name (encodeCompositeValue S vals) key) key)
      backfill d store name index rest (records ++ entries)

def createIndex (db : JsonDB) (store name : String) (keyPaths : List String) (unique : Bool) :
    Except FlowError Unit × JsonDB :=
  let attempt : Except FlowError JsonDB := do
    let d ← getStore db store
    validateIndexDef d name keyPaths
    let index : IndexDef := ⟨keyPaths, name, unique, false⟩
    let d := { d with indexes := d.indexes ++ [index] }
    let record ← schemaRecord S d
    let docs := scan db.engine (prefixRange (docPrefix store))
    let records ← backfill S d store name index docs [record]
    .ok ⟨writeInternal db.engine records, db.schema.insert d.name d⟩
  match attempt with
  | .ok after => (.ok (), after)
  | .error e => (.error e, db)

/-- Runs the part of an operation that may fail, then writes its batch. -/
def commitBatch {α : Type} (db : JsonDB) (attempt : Except FlowError (α × List InternalRecord)) :
    Except FlowError α × JsonDB :=
  match attempt with
  | .ok (result, records) => (.ok result, { db with engine := writeInternal db.engine records })
  | .error e => (.error e, db)

def keyOf (d : StoreDef) (store : String) (doc : Value) : Except FlowError Value :=
  match extractField doc d.keyPath with
  | some v => .ok v
  | none => .error (.jsonDb <|
      "document missing key_path '" ++ d.keyPath ++ "' for store '" ++ store ++ "'")

def put (db : JsonDB) (store : String) (doc : Value) : Except FlowError Value × JsonDB :=
  commitBatch db do
    let d ← getStore db store
    let keyVal ← keyOf d store doc
    let key ← encodePrimaryKey S keyVal
    let docBytes ← encodeDoc S doc
    let batch ← buildPutBatch S db d store key docBytes doc
    .ok (keyVal, batch)

def delete (db : JsonDB) (store : String) (keyVal : Value) : Except FlowError Unit × JsonDB :=
  commitBatch db do
    let d ← getStore db store
    let key ← encodePrimaryKey S keyVal
    let batch ← buildDeleteBatch S db d store key
    .ok ((), batch)

def requireAutoIncrement (d : StoreDef) (store : String) : Except FlowError Unit :=
  if d.autoIncrement then .ok ()
  else .error (.jsonDb s!"store '{store}' is not auto-increment")

def putAuto (db : JsonDB) (store : String) (doc : Value) : Except FlowError Value × JsonDB :=
  commitBatch db do
    let d ← getStore db store
    requireAutoIncrement d store
    let (nextId, counterRec) ← prepareCounter db store
    let keyVal := Value.number (.posInt nextId)
    let key := decimal nextId.toNat
    let doc := doc.insertMember d.keyPath keyVal
    let docBytes ← encodeDoc S doc
    let batch ← buildPutBatch S db d store key docBytes doc
    .ok (keyVal, batch ++ [counterRec])

end
end FlowDb.JsonDb
