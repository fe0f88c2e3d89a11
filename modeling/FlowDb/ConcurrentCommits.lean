import FlowDb.JsonSessions
import FlowDb.OptimisticRuns

/-! Put, delete and commit on one database at the same time. Each asks for schemas,
documents and index entries and ends in one write of its batch; put and delete hold
the write lock throughout, commit takes none. -/
namespace FlowDb.ConcurrentCommits
open ByteString OrderedMap Records JsonValue JsonEncoding JsonDb JsonTransaction JsonIndexes JsonSessions
open Interleaving OptimisticRuns

inductive Query where
  | schema (store : String)
  | getBytes (key : Bytes)
  | scan (range : ScanRange)

abbrev Answer : Query → Type
  | .schema _ => Option StoreDef
  | .getBytes _ => Option Bytes
  | .scan _ => List (Bytes × Bytes)

def answer (db : JsonDB) : ∀ q, Answer q
  | .schema store => db.schema.get? store
  | .getBytes key => getBytes db key
  | .scan range => JsonDb.scan db.engine range

instance : ∀ q, DecidableEq (Answer q)
  | .schema _ => inferInstanceAs (DecidableEq (Option StoreDef))
  | .getBytes _ => inferInstanceAs (DecidableEq (Option Bytes))
  | .scan _ => inferInstanceAs (DecidableEq (List (Bytes × Bytes)))

abbrev Steps := Program FlowError Query Answer

def question (q : Query) : Steps (Answer q) := .question q

def schemaSteps (store : String) : Steps (Option StoreDef) := question (.schema store)

def getBytesSteps (key : Bytes) : Steps (Option Bytes) := question (.getBytes key)

def scanSteps (range : ScanRange) : Steps (List (Bytes × Bytes)) := question (.scan range)

def getStoreSteps (store : String) : Steps StoreDef := do
  match ← schemaSteps store with
  | some d => pure d
  | none => .fail (.jsonDb s!"store '{store}' not found")

section
variable (S : Serde)

def checkEngineSteps (store : String) (idx : IndexDef) (key : Bytes) (vals : List Value) : Steps Unit := do
  let found ← scanSteps (prefixRange (idxValuePrefix store idx.name (encodeCompositeValue S vals)))
  if found.any fun e => e.2 != key then
    .fail (.jsonDb <| "unique constraint violation: index '" ++ idx.name ++ "' value '" ++
      S.debugValues vals ++ "' already exists")
  else pure ()

def readOldDocSteps (store : String) (key : Bytes) : Steps (Option Value) := do
  match ← getBytesSteps (docKey store key) with
  | none => pure none
  | some bytes =>
      match decodeDoc S bytes with
      | .ok doc => pure (some doc)
      | .error _ => .fail (.jsonDb <|
          "corrupted document at key " ++ S.debugLossy key ++ ": " ++ S.errorText bytes)

def checkUniqueSteps (store : String) (idx : IndexDef) (key : Bytes) (doc : Value) : Steps Unit :=
  if idx.unique then (extractIndexValues doc idx).forM (checkEngineSteps S store idx key)
  else pure ()

def pushIndexesSteps (check : IndexDef → Steps Unit) (store : String) (key : Bytes) (doc : Value) :
    List IndexDef → List InternalRecord → Steps (List InternalRecord)
  | [], records => pure records
  | idx :: rest, records => do
      check idx
      pushIndexesSteps check store key doc rest (records ++ indexEntries S idx store key doc)

def buildPutBatchSteps (d : StoreDef) (store : String) (key docBytes : Bytes) (doc : Value) :
    Steps (List InternalRecord) := do
  let oldDoc ← readOldDocSteps S store key
  let records := deleteIndexEntries S d store key oldDoc
  let records := records ++ [putRecord (docKey store key) docBytes]
  pushIndexesSteps S (fun idx => checkUniqueSteps S store idx key doc) store key doc d.indexes records

def buildDeleteBatchSteps (d : StoreDef) (store : String) (key : Bytes) :
    Steps (List InternalRecord) := do
  let oldDoc ← readOldDocSteps S store key
  pure (deleteIndexEntries S d store key oldDoc ++ [deleteRecord (docKey store key)])

/-- A call ends with what it returns, a key only for a put, and the batch it writes. -/
def putSteps (store : String) (doc : Value) : Steps (Option Value × List InternalRecord) := do
  let d ← getStoreSteps store
  let keyVal ← .ofExcept (keyOf d store doc)
  let key ← .ofExcept (encodePrimaryKey S keyVal)
  let docBytes ← .ofExcept (encodeDoc S doc)
  let batch ← buildPutBatchSteps S d store key docBytes doc
  pure (some keyVal, batch)

def deleteSteps (store : String) (keyVal : Value) : Steps (Option Value × List InternalRecord) := do
  let d ← getStoreSteps store
  let key ← .ofExcept (encodePrimaryKey S keyVal)
  let batch ← buildDeleteBatchSteps S d store key
  pure (none, batch)

def checkUniqueBufferedSteps (order : List Write) (store : String) (idx : IndexDef) (key : Bytes)
    (doc : Value) : Steps Unit :=
  if idx.unique then
    (extractIndexValues doc idx).forM fun vals => do
      checkEngineSteps S store idx key vals
      .ofExcept (checkBuffered S order store idx key vals)
  else pure ()

def commitWriteSteps (order : List Write) (w : Write) (records : List InternalRecord) :
    Steps (List InternalRecord) := do
  let (store, key) := ofLex w.1
  let d ← getStoreSteps store
  let old ← getBytesSteps (docKey store key)
  let oldDoc := old.bind fun bytes => (decodeDoc S bytes).toOption
  let records := records ++ deleteIndexEntries S d store key oldDoc
  match w.2 with
  | some docBytes =>
    let records := records ++ [putRecord (docKey store key) docBytes]
    let newDoc ← .ofExcept (decodeDoc S docBytes)
    pushIndexesSteps S (fun idx => checkUniqueBufferedSteps S order store idx key newDoc)
      store key newDoc d.indexes records
  | none => pure (records ++ [deleteRecord (docKey store key)])

def commitWritesSteps (order : List Write) :
    List Write → List InternalRecord → Steps (List InternalRecord)
  | [], records => pure records
  | w :: rest, records => do
      let records ← commitWriteSteps S order w records
      commitWritesSteps order rest records

def commitSteps (tx : Transaction) (order : List Write) :
    Steps (Option Value × List InternalRecord) :=
  if tx.committed then pure (none, [])
  else do
    let records ← commitWritesSteps S order order tx.counterUpdates
    pure (none, records)

inductive Operation where
  | put (store : String) (doc : Value)
  | delete (store : String) (key : Value)
  | commit (tx : Transaction) (order : List Write)

def Operation.call : Operation → Call FlowError Query Answer (Option Value) (List InternalRecord)
  | .put store doc => ⟨true, putSteps S store doc⟩
  | .delete store key => ⟨true, deleteSteps S store key⟩
  | .commit tx order => ⟨false, commitSteps S tx order⟩

/-- The operation with no other in between. -/
def Operation.perform (db : JsonDB) : Operation → Except FlowError (Option Value) × JsonDB
  | .put store doc => ((JsonDb.put S db store doc).1.map some, (JsonDb.put S db store doc).2)
  | .delete store key =>
      ((JsonDb.delete S db store key).1.map fun _ => none, (JsonDb.delete S db store key).2)
  | .commit tx order => ((tx.commit S db order).1.map fun _ => none, (tx.commit S db order).2)

def Operation.Admissible (db : JsonDB) : Operation → Prop
  | .put store doc => doc.wellFormed = true ∧ KeyNotNull db store doc
  | .delete _ _ => True
  | .commit tx order => order.Perm tx.writes.entries ∧ Buffered S tx

/-! Run alone, the steps of a call are the call. -/

variable (db : JsonDB)

@[simp] theorem schemaSteps_run (store : String) :
    (schemaSteps store).run (answer db) = .ok (db.schema.get? store) := rfl

@[simp] theorem getBytesSteps_run (key : Bytes) :
    (getBytesSteps key).run (answer db) = .ok (getBytes db key) := rfl

@[simp] theorem scanSteps_run (range : ScanRange) :
    (scanSteps range).run (answer db) = .ok (scan db.engine range) := rfl

@[simp] theorem getStoreSteps_run (store : String) : (getStoreSteps store).run (answer db) = getStore db store := by
  rw [getStoreSteps, Program.run_bind, schemaSteps_run, getStore]
  dsimp only [bind, Except.bind]
  cases db.schema.get? store <;> rfl

@[simp] theorem checkEngineSteps_run (store : String) (idx : IndexDef) (key : Bytes) (vals : List Value) :
    (checkEngineSteps S store idx key vals).run (answer db) = checkEngine S db store idx key vals := by
  rw [checkEngineSteps, Program.run_bind, scanSteps_run, checkEngine]
  dsimp only [bind, Except.bind]
  split_ifs <;> rfl

@[simp] theorem readOldDocSteps_run (store : String) (key : Bytes) :
    (readOldDocSteps S store key).run (answer db) = readOldDoc S db store key := by
  rw [readOldDocSteps, Program.run_bind, getBytesSteps_run, readOldDoc]
  dsimp only [bind, Except.bind]
  cases getBytes db (docKey store key) with
  | none => rfl
  | some bytes =>
    dsimp only
    cases decodeDoc S bytes <;> rfl

@[simp] theorem checkUniqueSteps_run (store : String) (idx : IndexDef) (key : Bytes) (doc : Value) :
    (checkUniqueSteps S store idx key doc).run (answer db) = checkUnique S db store idx key doc := by
  unfold checkUniqueSteps checkUnique
  split_ifs
  · simp only [Program.run_forM, checkEngineSteps_run]
  · rfl

@[simp] theorem pushIndexesSteps_run (check : IndexDef → Steps Unit) (store : String) (key : Bytes) (doc : Value)
    (indexes : List IndexDef) (records : List InternalRecord) :
    (pushIndexesSteps S check store key doc indexes records).run (answer db) =
      pushIndexes S (fun idx => (check idx).run (answer db)) store key doc indexes records := by
  induction indexes generalizing records with
  | nil => rfl
  | cons idx rest ih =>
    simp only [pushIndexesSteps, pushIndexes, Program.run_bind]
    exact congrArg _ (funext fun _ => ih _)

@[simp] theorem buildPutBatchSteps_run (d : StoreDef) (store : String) (key docBytes : Bytes) (doc : Value) :
    (buildPutBatchSteps S d store key docBytes doc).run (answer db) =
      buildPutBatch S db d store key docBytes doc := by
  simp only [buildPutBatchSteps, buildPutBatch, Program.run_bind, readOldDocSteps_run, pushIndexesSteps_run,
    checkUniqueSteps_run]

@[simp] theorem buildDeleteBatchSteps_run (d : StoreDef) (store : String) (key : Bytes) :
    (buildDeleteBatchSteps S d store key).run (answer db) = buildDeleteBatch S db d store key := by
  simp only [buildDeleteBatchSteps, buildDeleteBatch, Program.run_bind, readOldDocSteps_run, Program.run_pure]

@[simp] theorem checkUniqueBufferedSteps_run (order : List Write) (store : String) (idx : IndexDef) (key : Bytes)
    (doc : Value) : (checkUniqueBufferedSteps S order store idx key doc).run (answer db) =
      checkUniqueBuffered S db order store idx key doc := by
  unfold checkUniqueBufferedSteps checkUniqueBuffered
  split_ifs
  · simp only [Program.run_forM, Program.run_bind, checkEngineSteps_run, Program.run_ofExcept]
  · rfl

@[simp] theorem commitWriteSteps_run (order : List Write) (w : Write) (records : List InternalRecord) :
    (commitWriteSteps S order w records).run (answer db) = commitWrite S db order w records := by
  obtain ⟨slot, content⟩ := w
  cases content <;>
    simp only [commitWriteSteps, commitWrite, Program.run_bind, getStoreSteps_run, getBytesSteps_run,
      Program.run_ofExcept, pushIndexesSteps_run, checkUniqueBufferedSteps_run,
      Program.run_pure] <;>
    rfl

@[simp] theorem commitWritesSteps_run (order ws : List Write) (records : List InternalRecord) :
    (commitWritesSteps S order ws records).run (answer db) = commitWrites S db order ws records := by
  induction ws generalizing records with
  | nil => rfl
  | cons w rest ih =>
    simp only [commitWritesSteps, commitWrites, Program.run_bind, commitWriteSteps_run]
    exact congrArg _ (funext fun _ => ih _)

theorem alone_eq_commitBatch (exclusive : Bool) (steps : Steps (Option Value × List InternalRecord)) :
    alone answer JsonDB.write ⟨exclusive, steps⟩ db = commitBatch db (steps.run (answer db)) := by
  unfold alone commitBatch
  dsimp only
  cases steps.run (answer db) <;> rfl

theorem commitBatch_map {α β : Type} (f : α → β) (attempt : Except FlowError (α × List InternalRecord)) :
    ((commitBatch db attempt).1.map f, (commitBatch db attempt).2) =
      commitBatch db (attempt.map fun p => (f p.1, p.2)) := by
  cases attempt <;> rfl

/-- A call run alone is the operation. -/
theorem alone_call (op : Operation) : alone answer JsonDB.write (op.call S) db = op.perform S db := by
  cases op with
  | put store doc =>
    rw [Operation.call, alone_eq_commitBatch, Operation.perform, JsonDb.put, commitBatch_map]
    simp only [putSteps, Program.run_bind, getStoreSteps_run, Program.run_ofExcept, buildPutBatchSteps_run,
      Program.run_pure, map_bind_except]
    rfl
  | delete store key =>
    rw [Operation.call, alone_eq_commitBatch, Operation.perform, JsonDb.delete, commitBatch_map]
    simp only [deleteSteps, Program.run_bind, getStoreSteps_run, Program.run_ofExcept,
      buildDeleteBatchSteps_run, Program.run_pure, map_bind_except]
    rfl
  | commit tx order =>
    rw [Operation.call, alone_eq_commitBatch, Operation.perform, Transaction.commit, commitSteps]
    split_ifs
    · rfl
    · rw [commitBatch_map]
      simp only [Program.run_bind, commitWritesSteps_run, Program.run_pure, map_bind_except]
      rfl

theorem perform_outcome (op : Operation) (admissible : op.Admissible S db) :
    Outcome S db (op.perform S db).2 := by
  cases op with
  | put store doc => exact put_outcome db store doc admissible.1 admissible.2
  | delete store key => exact delete_outcome db store key
  | commit tx order => exact commit_outcome db tx order admissible.1 admissible.2

variable {S db}

theorem outcome_schema {after : JsonDB} (outcome : Outcome S db after) : after.schema = db.schema := by
  rcases outcome with rfl | ⟨ws, applied⟩
  · rfl
  · obtain ⟨_, _, _, rfl⟩ := applied.written
    rfl

-- What makes an operation admissible does not change while schemas stay.
theorem admissible_congr {after : JsonDB} {op : Operation} (schema : after.schema = db.schema)
    (admissible : op.Admissible S db) : op.Admissible S after := by
  cases op with
  | put store doc => exact ⟨admissible.1, fun d defined => admissible.2 d (schema ▸ defined)⟩
  | delete store key => trivial
  | commit tx order => exact admissible

/-- What every operation keeps. -/
structure Kept (S : Serde) (db after : JsonDB) : Prop where
  schema : after.schema = db.schema
  mirrored : Mirrored S after
  unique : UniqueKept S after

theorem perform_kept {before : JsonDB} {op : Operation} (admissible : op.Admissible S db)
    (kept : Kept S db before) : Kept S db (op.perform S before).2 := by
  have outcome := perform_outcome S before op (admissible_congr kept.schema admissible)
  obtain ⟨mirrored, unique⟩ := outcome_keeps kept.mirrored kept.unique outcome
  exact ⟨(outcome_schema outcome).trans kept.schema, mirrored, unique⟩

theorem serial_kept {Id : Type} {operations : Id → Operation} {after : JsonDB}
    {order : List (Id × Option Value)} (mirrored : Mirrored S db) (unique : UniqueKept S db)
    (admissible : ∀ k, (operations k).Admissible S db)
    (ran : Serial (fun k db => (operations k).perform S db) db order after) : Kept S db after :=
  Serial.keeps ⟨rfl, mirrored, unique⟩ (fun k _ kept => perform_kept (admissible k) kept) ran

/-- The interleavings of operations on one database. -/
def interleave {Id : Type} [DecidableEq Id] (S : Serde) (operations : Id → Operation) :=
  next answer JsonDB.write fun k => (operations k).call S

theorem reachable_serial {Id : Type} [DecidableEq Id] {operations : Id → Operation}
    {s : Shared Id JsonDB FlowError Query Answer (Option Value) (List InternalRecord)}
    (reached : Reachable (interleave S operations) (Current answer) (· = initial db) s) :
    Serial (fun k db => (operations k).perform S db) db s.order s.state ∧
      (s.order.map Prod.fst).Nodup ∧
      ∀ k r, (k, r) ∈ s.order ↔ s.threads k = .returned (.ok r) := by
  have sound := reachable_sound reached
  refine ⟨?_, sound.once, sound.succeeded⟩
  have same : (fun k => alone answer JsonDB.write ((operations k).call S)) =
      fun k db => (operations k).perform S db := by
    funext k db
    exact alone_call S db (operations k)
  exact same ▸ sound.serial

/-- Puts and deletes alone need no such condition: the write lock keeps them apart. -/
theorem puts_serialize {Id : Type} [DecidableEq Id] (S : Serde) (operations : Id → Operation) (db : JsonDB)
    (noCommit : ∀ k tx order, operations k ≠ .commit tx order)
    (s : Shared Id JsonDB FlowError Query Answer (Option Value) (List InternalRecord))
    (reached : Reachable (interleave S operations) anyStep (· = initial db) s) :
    ∃ order, Serial (fun k db => (operations k).perform S db) db order s.state ∧
      ∀ k r, (k, r) ∈ order ↔ s.threads k = .returned (.ok r) := by
  have exclusive : ∀ k, ((operations k).call S).exclusive = true := by
    intro k
    cases same : operations k with
    | put store doc => rfl
    | delete store key => rfl
    | commit tx order => exact absurd same (noCommit k tx order)
  have serial := reachable_serial (current_of_exclusive exclusive reached)
  exact ⟨s.order, serial.1, serial.2.2⟩

/-- In every run in which an operation that writes would still be given the answers it
worked from, the database is that of the successful operations in some order one after
the other; its index entries are those of its documents and unique values are held once. -/
theorem commits_serialize {Id : Type} [DecidableEq Id] (S : Serde) (operations : Id → Operation) (db : JsonDB)
    (mirrored : Mirrored S db) (unique : UniqueKept S db)
    (admissible : ∀ k, (operations k).Admissible S db)
    (s : Shared Id JsonDB FlowError Query Answer (Option Value) (List InternalRecord))
    (reached : Reachable (interleave S operations) (Current answer) (· = initial db) s) :
    (∃ order, Serial (fun k db => (operations k).perform S db) db order s.state ∧
      (order.map Prod.fst).Nodup ∧ ∀ k r, (k, r) ∈ order ↔ s.threads k = .returned (.ok r)) ∧
    Mirrored S s.state ∧ UniqueKept S s.state := by
  have serial := reachable_serial reached
  have kept := serial_kept mirrored unique admissible serial.1
  exact ⟨⟨s.order, serial⟩, kept.mirrored, kept.unique⟩

end

/-! Two transactions that put documents with the same unique value. -/

def begun : Transaction := ⟨.readWrite, ∅, [], ∅, false⟩

def sampleTransaction : Transaction := begun.buffer "users" (utf8 "u1") (some sampleText)

def clashTransaction : Transaction := begun.buffer "users" (utf8 "u2") (some clashText)

def bothCommit (first : Bool) : Operation :=
  if first then .commit sampleTransaction sampleTransaction.writes.entries
  else .commit clashTransaction clashTransaction.writes.entries

theorem bothCommit_admissible (k : Bool) : (bothCommit k).Admissible sampleSerde sampleDb := by
  have empty : Buffered sampleSerde begun := ⟨by simp [begun], by simp [begun]⟩
  have clash : decodeDoc sampleSerde clashText = .ok clashDoc := rfl
  have sample : decodeDoc sampleSerde sampleText = .ok sampleDoc := rfl
  cases k with
  | false =>
    refine ⟨List.Perm.refl _, buffer_buffered empty "users" (utf8 "u2") (some clashText) ?_⟩
    rw [newDoc_some rfl clash]
    exact ⟨by decide, clash⟩
  | true =>
    refine ⟨List.Perm.refl _, buffer_buffered empty "users" (utf8 "u1") (some sampleText) ?_⟩
    rw [newDoc_some rfl sample]
    exact ⟨by decide, sample⟩

/-- Both begin; the one that scans after the other has written is refused. -/
theorem commits_serialize_refused :
    ∃ s, Reachable (interleave sampleSerde bothCommit) (Current answer) (· = initial sampleDb) s ∧
      s.order.map Prod.fst = [true] ∧
      (∃ order, Serial (fun k db => (bothCommit k).perform sampleSerde db) sampleDb order s.state ∧
        (order.map Prod.fst).Nodup ∧ ∀ k r, (k, r) ∈ order ↔ s.threads k = .returned (.ok r)) ∧
      Mirrored sampleSerde s.state ∧ UniqueKept sampleSerde s.state := by
  have ran : ∃ s, Reachable (interleave sampleSerde bothCommit) (Current answer) (· = initial sampleDb) s ∧
      decide (s.order.map Prod.fst = [true]) = true :=
    reachable_of_follow (initial sampleDb)
      ([.start true, .start false] ++ List.replicate 4 (.step true) ++ List.replicate 4 (.step false))
      (fun s => s.order.map Prod.fst = [true]) rfl (by decide +kernel)
  obtain ⟨s, reached, passed⟩ := ran
  obtain ⟨mirrored, unique⟩ := fresh_keeps sampleDb_fresh
  exact ⟨s, reached, of_decide_eq_true passed,
    commits_serialize sampleSerde bothCommit sampleDb mirrored unique bothCommit_admissible s reached⟩

/-- Both scan before either writes: both succeed and two documents hold the value. -/
theorem commits_break_uniqueness :
    ∃ s, Reachable (interleave sampleSerde bothCommit) anyStep (· = initial sampleDb) s ∧
      s.order.map Prod.fst = [false, true] ∧
      storedDoc sampleSerde s.state "users" (utf8 "u1") = some sampleDoc ∧
      storedDoc sampleSerde s.state "users" (utf8 "u2") = some clashDoc ∧
      ¬ UniqueKept sampleSerde s.state ∧
      ¬ ∃ order, Serial (fun k db => (bothCommit k).perform sampleSerde db) sampleDb order s.state := by
  have ran : ∃ s, Reachable (interleave sampleSerde bothCommit) anyStep (· = initial sampleDb) s ∧
      decide (s.order.map Prod.fst = [false, true] ∧
        s.state.schema.get? "users" = some sampleStore ∧
        getBytes s.state (docKey "users" (utf8 "u1")) = some sampleText ∧
        getBytes s.state (docKey "users" (utf8 "u2")) = some clashText) = true :=
    reachable_of_follow (initial sampleDb)
      ([.start true, .start false] ++ List.replicate 3 (.step true) ++ List.replicate 4 (.step false) ++
        [.step true])
      (fun s => s.order.map Prod.fst = [false, true] ∧
        s.state.schema.get? "users" = some sampleStore ∧
        getBytes s.state (docKey "users" (utf8 "u1")) = some sampleText ∧
        getBytes s.state (docKey "users" (utf8 "u2")) = some clashText) rfl (by decide +kernel)
  obtain ⟨s, reached, passed⟩ := ran
  obtain ⟨order, defined, first, second⟩ := of_decide_eq_true passed
  have sample : storedDoc sampleSerde s.state "users" (utf8 "u1") = some sampleDoc := by
    rw [storedDoc, first]
    rfl
  have clash : storedDoc sampleSerde s.state "users" (utf8 "u2") = some clashDoc := by
    rw [storedDoc, second]
    rfl
  have broken : ¬ UniqueKept sampleSerde s.state := fun unique =>
    absurd (unique "users" sampleStore defined ⟨["email"], "by_email", true, false⟩
      (List.mem_singleton.mpr rfl) rfl (utf8 "u1") (utf8 "u2") sampleDoc clashDoc sample clash
      [.string "a"] (List.mem_singleton.mpr rfl) [.string "a"] (List.mem_singleton.mpr rfl) rfl)
      (by decide)
  obtain ⟨mirrored, unique⟩ := fresh_keeps sampleDb_fresh
  refine ⟨s, reached, order, sample, clash, broken, ?_⟩
  rintro ⟨_, ran⟩
  exact broken (serial_kept mirrored unique bothCommit_admissible ran).unique

end FlowDb.ConcurrentCommits
