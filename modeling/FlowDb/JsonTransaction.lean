import FlowDb.JsonDb

/-! Transactions of transaction.rs and the calls a client makes in sequence. A
commit visits the buffered writes in the order the hash map yields them, which is
an argument: any permutation of the buffer. -/
namespace FlowDb.JsonTransaction
open ByteString OrderedMap Records JsonValue JsonEncoding JsonDb

inductive TransactionMode where
  | readOnly
  | readWrite
  deriving DecidableEq, Repr

abbrev Write := (String ×ₗ Bytes) × Option Bytes

structure Transaction where
  mode : TransactionMode
  writes : OMap (String ×ₗ Bytes) (Option Bytes)
  counterUpdates : List InternalRecord
  nextIds : OMap String UInt64
  committed : Bool

def transaction (db : JsonDB) (stores : List String) (mode : TransactionMode) :
    Except FlowError Transaction := do
  stores.forM fun name => do
    let _ ← getStore db name
    .ok ()
  .ok ⟨mode, ∅, [], ∅, false⟩

def requireReadWrite (tx : Transaction) : Except FlowError Unit :=
  if tx.mode = .readOnly then
    .error (.jsonDb "cannot write in a read-only transaction")
  else .ok ()

def Transaction.buffer (tx : Transaction) (store : String) (key : Bytes) (doc : Option Bytes) :
    Transaction :=
  { tx with writes := tx.writes.insert (toLex (store, key)) doc }

section
variable (S : Serde)

def Transaction.put (db : JsonDB) (tx : Transaction) (store : String) (doc : Value) :
    Except FlowError Transaction := do
  requireReadWrite tx
  let d ← getStore db store
  let keyVal ← keyOf d store doc
  let key ← encodePrimaryKey S keyVal
  let docBytes ← encodeDoc S doc
  .ok (tx.buffer store key (some docBytes))

def Transaction.delete (db : JsonDB) (tx : Transaction) (store : String) (keyVal : Value) :
    Except FlowError Transaction := do
  requireReadWrite tx
  let _ ← getStore db store
  let key ← encodePrimaryKey S keyVal
  .ok (tx.buffer store key none)

/-- Only the first call on a store reads the engine's counter. -/
def nextId (db : JsonDB) (tx : Transaction) (store : String) :
    Except FlowError (UInt64 × Transaction) :=
  match tx.nextIds.get? store with
  | some existing => .ok (existing + 1, { tx with nextIds := tx.nextIds.insert store (existing + 1) })
  | none => do
      let (id, counterRec) ← prepareCounter db store
      .ok (id, { tx with
        counterUpdates := tx.counterUpdates ++ [counterRec]
        nextIds := tx.nextIds.insert store id })

/-- The identifier is taken before the document is encoded, so a document that
cannot be written still uses one up. -/
def Transaction.putAuto (db : JsonDB) (tx : Transaction) (store : String) (doc : Value) :
    Except FlowError Value × Transaction :=
  let start : Except FlowError (StoreDef × UInt64 × Transaction) := do
    requireReadWrite tx
    let d ← getStore db store
    requireAutoIncrement d store
    let (id, tx) ← nextId db tx store
    .ok (d, id, tx)
  match start with
  | .error e => (.error e, tx)
  | .ok (d, id, tx) =>
      let keyVal := Value.number (.posInt id)
      match encodeDoc S (doc.insertMember d.keyPath keyVal) with
      | .ok docBytes => (.ok keyVal, tx.buffer store (decimal id.toNat) (some docBytes))
      | .error e => (.error e, tx)

def checkBuffered (order : List Write) (store : String) (idx : IndexDef) (key : Bytes)
    (vals : List Value) : Except FlowError Unit :=
  order.forM fun w =>
    match w with
    | (other, some otherBytes) =>
      if (ofLex other).1 ≠ store ∨ (ofLex other).2 = key then .ok ()
      else do
        let otherDoc ← decodeDoc S otherBytes
        if (extractIndexValues otherDoc idx).any fun ov =>
            encodeCompositeValue S ov == encodeCompositeValue S vals then
          .error (.jsonDb <| "unique constraint violation in transaction: index '" ++ idx.name ++
            "' value '" ++ S.debugValues vals ++ "'")
        else .ok ()
    | (_, none) => .ok ()

def checkUniqueBuffered (db : JsonDB) (order : List Write) (store : String) (idx : IndexDef)
    (key : Bytes) (doc : Value) : Except FlowError Unit :=
  if idx.unique then
    (extractIndexValues doc idx).forM fun vals => do
      checkEngine S db store idx key vals
      checkBuffered S order store idx key vals
  else .ok ()

def commitWrite (db : JsonDB) (order : List Write) (w : Write) (records : List InternalRecord) :
    Except FlowError (List InternalRecord) := do
  let (store, key) := ofLex w.1
  let d ← getStore db store
  let oldDoc := (getBytes db (docKey store key)).bind fun bytes => (decodeDoc S bytes).toOption
  let records := records ++ deleteIndexEntries S d store key oldDoc
  match w.2 with
  | some docBytes =>
    let records := records ++ [putRecord (docKey store key) docBytes]
    let newDoc ← decodeDoc S docBytes
    pushIndexes S (fun idx => checkUniqueBuffered S db order store idx key newDoc)
      store key newDoc d.indexes records
  | none => .ok (records ++ [deleteRecord (docKey store key)])

def commitWrites (db : JsonDB) (order : List Write) :
    List Write → List InternalRecord → Except FlowError (List InternalRecord)
  | [], records => .ok records
  | w :: rest, records => do
      let records ← commitWrite S db order w records
      commitWrites db order rest records

def Transaction.commit (db : JsonDB) (tx : Transaction) (order : List Write) :
    Except FlowError Unit × JsonDB :=
  if tx.committed then (.ok (), db)
  else commitBatch db do
    let records ← commitWrites S db order order tx.counterUpdates
    .ok ((), records)

/-- The database and the transactions begun on it and not yet ended. -/
structure Session where
  db : JsonDB
  txs : List Transaction

inductive Call where
  | createObjectStore (name keyPath : String)
  | createIndex (store name : String) (keyPaths : List String) (unique : Bool)
  | put (store : String) (doc : Value)
  | delete (store : String) (key : Value)
  | putAuto (store : String) (doc : Value)
  | openTx (stores : List String) (mode : TransactionMode)
  | txPut (i : Nat) (store : String) (doc : Value)
  | txDelete (i : Nat) (store : String) (key : Value)
  | txPutAuto (i : Nat) (store : String) (doc : Value)
  | commit (i : Nat) (order : List Write)
  | abort (i : Nat)

def onDb {α : Type} (s : Session) (r : Except FlowError α × JsonDB) :
    Except FlowError Unit × Session :=
  (r.1.map fun _ => (), { s with db := r.2 })

def onTx (s : Session) (i : Nat) (run : Transaction → Except FlowError Unit × Transaction) :
    Except FlowError Unit × Session :=
  match s.txs[i]? with
  | some tx => ((run tx).1, { s with txs := s.txs.set i (run tx).2 })
  | none => (.ok (), s)

def keepOnError (tx : Transaction) (r : Except FlowError Transaction) :
    Except FlowError Unit × Transaction :=
  match r with
  | .ok after => (.ok (), after)
  | .error e => (.error e, tx)

def perform (s : Session) : Call → Except FlowError Unit × Session
  | .createObjectStore name keyPath => onDb s (createObjectStore S s.db name keyPath)
  | .createIndex store name keyPaths unique =>
      onDb s (createIndex S s.db store name keyPaths unique)
  | .put store doc => onDb s (put S s.db store doc)
  | .delete store key => onDb s (delete S s.db store key)
  | .putAuto store doc => onDb s (putAuto S s.db store doc)
  | .openTx stores mode =>
      match transaction s.db stores mode with
      | .ok tx => (.ok (), { s with txs := s.txs ++ [tx] })
      | .error e => (.error e, s)
  | .txPut i store doc => onTx s i fun tx => keepOnError tx (tx.put S s.db store doc)
  | .txDelete i store key => onTx s i fun tx => keepOnError tx (tx.delete S s.db store key)
  | .txPutAuto i store doc => onTx s i fun tx =>
      ((tx.putAuto S s.db store doc).1.map fun _ => (), (tx.putAuto S s.db store doc).2)
  | .commit i order =>
      match s.txs[i]? with
      | some tx => ((tx.commit S s.db order).1, ⟨(tx.commit S s.db order).2, s.txs.eraseIdx i⟩)
      | none => (.ok (), s)
  | .abort i => (.ok (), { s with txs := s.txs.eraseIdx i })

end

def KeyNotNull (db : JsonDB) (store : String) (doc : Value) : Prop :=
  ∀ d, db.schema.get? store = some d → extractField doc d.keyPath ≠ some .null

def StoreEmpty (db : JsonDB) (store : String) : Prop :=
  ∀ k v, db.engine.get? k = some v → ¬ docPrefix store <+: k

/-- Indexes are created on empty stores, primary keys are not null, and a commit
visits each buffered write once. -/
def Admissible (s : Session) : Call → Prop
  | .createIndex store _ _ _ => StoreEmpty s.db store
  | .put store doc => doc.wellFormed = true ∧ KeyNotNull s.db store doc
  | .putAuto _ doc => doc.wellFormed = true
  | .txPut _ store doc => doc.wellFormed = true ∧ KeyNotNull s.db store doc
  | .txPutAuto _ _ doc => doc.wellFormed = true
  | .commit i order => ∀ tx, s.txs[i]? = some tx → order.Perm tx.writes.entries
  | _ => True

/-- A database holding schemas and counters but no document and no index entry. -/
structure Fresh (db : JsonDB) : Prop where
  noEntry : ∀ k v, db.engine.get? k = some v → k.head? ≠ some docTag ∧ k.head? ≠ some idxTag
  named : ∀ store d, db.schema.get? store = some d → d.name = store ∧ sep ∉ utf8 store
  indexNamed : ∀ store d, db.schema.get? store = some d → ∀ idx ∈ d.indexes, sep ∉ utf8 idx.name
  distinct : ∀ store d, db.schema.get? store = some d → (d.indexes.map IndexDef.name).Nodup

inductive Reachable (S : Serde) : Session → Prop where
  | start (db : JsonDB) (fresh : Fresh db) : Reachable S ⟨db, []⟩
  | call (s : Session) (c : Call) (before : Reachable S s) (allowed : Admissible s c) :
      Reachable S (perform S s c).2

end FlowDb.JsonTransaction
