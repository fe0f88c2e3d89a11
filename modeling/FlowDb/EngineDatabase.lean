import FlowDb.ConcurrentCommits
import FlowDb.JsonStores
import FlowDb.LastingRecords

/-! JsonDB on the engine it runs on. A call asks for schemas, documents and ranges and
ends in one batch and one change of the schema; here a document is a point read at
time 0, a range a merging scan, and the batch goes through the write worker. Answered
by an atomic map the same calls are those of the map. -/
namespace FlowDb.EngineDatabase
open ByteString OrderedMap Records WalLog Sstable MemoryTables Reads JsonValue JsonEncoding JsonDb JsonIndexes JsonStores
open ConcurrentCommits OptimisticRuns Scans EngineRuns LastingRecords

/-! ### The calls -/

/-- What a call makes of the schemas in memory. -/
inductive SchemaChange where
  | keep
  | insert (d : StoreDef)
  | remove (name : String)

def SchemaChange.apply (schema : OMap String StoreDef) : SchemaChange → OMap String StoreDef
  | .keep => schema
  | .insert d => schema.insert d.name d
  | .remove name => schema.erase name

structure Effect where
  records : List InternalRecord
  schema : SchemaChange

section
variable (S : Serde)

def createObjectStoreSteps (name keyPath : String) : Steps Effect := do
  .ofExcept (validateStoreDef name keyPath)
  match ← schemaSteps name with
  | some d =>
    if d.keyPath != keyPath then
      .fail (.jsonDb s!"store '{name}' already exists with a different key_path")
    else pure ⟨[], .keep⟩
  | none =>
    let entry : StoreDef := ⟨name, keyPath, false, [], 0⟩
    let record ← .ofExcept (schemaRecord S entry)
    pure ⟨[record], .insert entry⟩

def deleteObjectStoreSteps (name : String) : Steps Effect := do
  let d ← getStoreSteps name
  pure ⟨deleteStoreRecords d name, .remove name⟩

def createIndexSteps (store name : String) (keyPaths : List String) (unique : Bool) : Steps Effect := do
  let d ← getStoreSteps store
  .ofExcept (validateIndexDef d name keyPaths)
  let index : IndexDef := ⟨keyPaths, name, unique, false⟩
  let d := { d with indexes := d.indexes ++ [index] }
  let record ← .ofExcept (schemaRecord S d)
  let docs ← scanSteps (docRange store)
  let records ← .ofExcept (backfill S d store name index docs [record])
  pure ⟨records, .insert d⟩

def deleteIndexSteps (store name : String) : Steps Effect := do
  let d ← getStoreSteps store
  let pos ← .ofExcept (requireIndex d store name)
  let d := { d with indexes := d.indexes.eraseIdx pos }
  let records ← .ofExcept (deleteIndexRecords S d store name)
  pure ⟨records, .insert d⟩

inductive Request where
  | createObjectStore (name keyPath : String)
  | deleteObjectStore (name : String)
  | createIndex (store name : String) (keyPaths : List String) (unique : Bool)
  | deleteIndex (store name : String)
  | put (store : String) (doc : Value)
  | delete (store : String) (key : Value)

/-- A put returns its key. -/
def Request.steps : Request → Steps (Option Value × Effect)
  | .createObjectStore name keyPath => do
      let effect ← createObjectStoreSteps S name keyPath
      pure (none, effect)
  | .deleteObjectStore name => do
      let effect ← deleteObjectStoreSteps name
      pure (none, effect)
  | .createIndex store name keyPaths unique => do
      let effect ← createIndexSteps S store name keyPaths unique
      pure (none, effect)
  | .deleteIndex store name => do
      let effect ← deleteIndexSteps S store name
      pure (none, effect)
  | .put store doc => do
      let (returned, records) ← putSteps S store doc
      pure (returned, ⟨records, .keep⟩)
  | .delete store key => do
      let (returned, records) ← deleteSteps S store key
      pure (returned, ⟨records, .keep⟩)

inductive Read where
  | get (key : Value)
  | count
  | scan
  | getByIndex (index : String) (value : Value)

inductive Reply where
  | document (doc : Option Value)
  | number (n : Nat)
  | documents (docs : List Value)

def fetchSteps (store : String) : List (Bytes × Bytes) → Steps (List Value)
  | [] => pure []
  | entry :: rest => do
      let found ← match ← getBytesSteps (docKey store entry.2) with
        | some bytes => do
            let doc ← .ofExcept (decodeDoc S bytes)
            pure [doc]
        | none => pure []
      let docs ← fetchSteps store rest
      pure (found ++ docs)

def Read.steps (store : String) : Read → Steps Reply
  | .get key => do
      let _ ← getStoreSteps store
      let keyBytes ← .ofExcept (encodePrimaryKey S key)
      match ← getBytesSteps (docKey store keyBytes) with
      | some bytes =>
          let doc ← .ofExcept (decodeDoc S bytes)
          pure (.document (some doc))
      | none => pure (.document none)
  | .count => do
      let _ ← getStoreSteps store
      let entries ← scanSteps (docRange store)
      pure (.number entries.length)
  | .scan => do
      let _ ← getStoreSteps store
      let entries ← scanSteps (docRange store)
      let docs ← .ofExcept (entries.mapM fun e => decodeDoc S e.2)
      pure (.documents docs)
  | .getByIndex index value => do
      let d ← getStoreSteps store
      let idx ← .ofExcept (findIndex d store index)
      let entries ← scanSteps (valueRange store index (encodeLookup S idx value))
      let docs ← fetchSteps S store entries
      pure (.documents docs)

/-! ### Over an atomic map -/

def Effect.onMap (effect : Effect) (db : JsonDB) : JsonDB :=
  ⟨writeInternal db.engine effect.records, effect.schema.apply db.schema⟩

/-- A call whose questions an atomic map answers and that no other comes between. -/
def onMap {α : Type} (db : JsonDB) (steps : Steps (α × Effect)) : Except FlowError α × JsonDB :=
  match steps.run (answer db) with
  | .ok (result, effect) => (.ok result, effect.onMap db)
  | .error e => (.error e, db)

def nothing {α : Type} (done : Except FlowError α × JsonDB) : Except FlowError (Option Value) × JsonDB :=
  (done.1.map fun _ => none, done.2)

def Request.perform (db : JsonDB) : Request → Except FlowError (Option Value) × JsonDB
  | .createObjectStore name keyPath => nothing (JsonDb.createObjectStore S db name keyPath)
  | .deleteObjectStore name => nothing (JsonStores.deleteObjectStore db name)
  | .createIndex store name keyPaths unique => nothing (JsonDb.createIndex S db store name keyPaths unique)
  | .deleteIndex store name => nothing (JsonStores.deleteIndex S db store name)
  | .put store doc => ((JsonDb.put S db store doc).1.map some, (JsonDb.put S db store doc).2)
  | .delete store key => nothing (JsonDb.delete S db store key)

def Read.ask (db : JsonDB) (store : String) : Read → Except FlowError Reply
  | .get key => (JsonStores.get S db store key).map .document
  | .count => (JsonStores.count db store).map .number
  | .scan => (JsonStores.scanStore S db store).map .documents
  | .getByIndex index value => (JsonStores.getByIndex S db store index value).map .documents

@[simp] theorem fetchSteps_run (db : JsonDB) (store : String) (entries : List (Bytes × Bytes)) :
    (fetchSteps S store entries).run (answer db) = fetch S db store entries := by
  induction entries with
  | nil => rfl
  | cons entry rest ih =>
    rw [fetchSteps, fetch, Program.run_bind, getBytesSteps_run, ok_bind]
    cases getBytes db (docKey store entry.2) with
    | none => simp only [Program.run_bind, ih, Program.run_pure, ok_bind]
    | some bytes => simp only [Program.run_bind, Program.run_ofExcept, ih, Program.run_pure, ok_bind]

theorem read_refines (db : JsonDB) (store : String) (read : Read) :
    (read.steps S store).run (answer db) = read.ask S db store := by
  cases read with
  | get key =>
    simp only [Read.steps, Read.ask, JsonStores.get, Program.run_bind, getStoreSteps_run, Program.run_ofExcept,
      getBytesSteps_run, ok_bind, map_bind_except]
    refine congrArg _ (funext fun _ => congrArg _ (funext fun keyBytes => ?_))
    cases getBytes db (docKey store keyBytes) with
    | none => rfl
    | some bytes =>
      simp only [Program.run_bind, Program.run_ofExcept, Program.run_pure, map_bind_except]
      rfl
  | count =>
    simp only [Read.steps, Read.ask, JsonStores.count, Program.run_bind, getStoreSteps_run, scanSteps_run,
      Program.run_pure, ok_bind, map_bind_except, map_ok]
  | scan =>
    simp only [Read.steps, Read.ask, JsonStores.scanStore, Program.run_bind, getStoreSteps_run, scanSteps_run,
      Program.run_ofExcept, Program.run_pure, ok_bind, map_bind_except]
    refine congrArg _ (funext fun _ => ?_)
    cases (JsonDb.scan db.engine (docRange store)).mapM fun e => decodeDoc S e.2 <;> rfl
  | getByIndex index value =>
    simp only [Read.steps, Read.ask, JsonStores.getByIndex, Program.run_bind, getStoreSteps_run, Program.run_ofExcept,
      scanSteps_run, fetchSteps_run, Program.run_pure, ok_bind, map_bind_except]
    refine congrArg _ (funext fun _ => congrArg _ (funext fun _ => ?_))
    cases fetch S db store _ <;> rfl

theorem request_refines (db : JsonDB) (request : Request) :
    onMap db (request.steps S) = request.perform S db := by
  cases request with
  | createObjectStore name keyPath =>
    simp only [onMap, Request.steps, Request.perform, nothing, JsonDb.createObjectStore, createObjectStoreSteps,
      Program.run_bind, Program.run_ofExcept, schemaSteps_run, ok_bind]
    cases validateStoreDef name keyPath with
    | error e => rfl
    | ok _ =>
      simp only [ok_bind]
      cases db.schema.get? name with
      | some d =>
        dsimp only
        split_ifs <;> rfl
      | none =>
        simp only [Program.run_bind, Program.run_ofExcept]
        cases schemaRecord S ⟨name, keyPath, false, [], 0⟩ <;> rfl
  | deleteObjectStore name =>
    simp only [onMap, Request.steps, Request.perform, nothing, JsonStores.deleteObjectStore, deleteObjectStoreSteps,
      Program.run_bind, getStoreSteps_run]
    cases getStore db name <;> rfl
  | createIndex store name keyPaths unique =>
    simp only [onMap, Request.steps, Request.perform, nothing, JsonDb.createIndex, createIndexSteps,
      Program.run_bind, Program.run_ofExcept, getStoreSteps_run, scanSteps_run, ok_bind, docRange]
    cases getStore db store with
    | error e => rfl
    | ok d =>
      simp only [ok_bind]
      cases validateIndexDef d name keyPaths with
      | error e => rfl
      | ok _ =>
        simp only [ok_bind]
        cases schemaRecord S { d with indexes := d.indexes ++ [⟨keyPaths, name, unique, false⟩] } with
        | error e => rfl
        | ok record =>
          simp only [ok_bind]
          cases backfill S _ store name _ _ [record] <;> rfl
  | deleteIndex store name =>
    simp only [onMap, Request.steps, Request.perform, nothing, JsonStores.deleteIndex, deleteIndexSteps,
      Program.run_bind, Program.run_ofExcept, getStoreSteps_run]
    cases getStore db store with
    | error e => rfl
    | ok d =>
      simp only [ok_bind]
      cases requireIndex d store name with
      | error e => rfl
      | ok pos =>
        simp only [ok_bind]
        cases deleteIndexRecords S { d with indexes := d.indexes.eraseIdx pos } store name <;> rfl
  | put store doc =>
    have alone := alone_call S db (.put store doc)
    rw [Operation.call, alone_eq_commitBatch, Operation.perform] at alone
    rw [Request.perform, ← alone, onMap, Request.steps, Program.run_bind]
    cases (putSteps S store doc).run (answer db) <;> rfl
  | delete store key =>
    have alone := alone_call S db (.delete store key)
    rw [Operation.call, alone_eq_commitBatch, Operation.perform] at alone
    rw [Request.perform, nothing, ← alone, onMap, Request.steps, Program.run_bind]
    cases (deleteSteps S store key).run (answer db) <;> rfl

/-! ### The records of a call -/

/-- What a call can write: only a `delete` removes a key among those of the documents. -/
inductive Writes (request : Request) : InternalRecord → Prop where
  | put (key value : Bytes) : Writes request (putRecord key value)
  | range (pfx : Bytes) : Writes request (rangeRecord pfx)
  | beside (tag : UInt8) (rest : Bytes) (apart : tag ≠ docTag) : Writes request (deleteRecord (tag :: rest))
  | document (store : String) (keyVal : Value) (key : Bytes) (asked : request = .delete store keyVal) :
      Writes request (deleteRecord key)

section
variable {request : Request}

theorem Writes.timeless {r : InternalRecord} (wrote : Writes request r) : Timeless r := by
  cases wrote <;> exact ⟨rfl, rfl⟩

def WritesAll (request : Request) (records : List InternalRecord) : Prop := ∀ r ∈ records, Writes request r

theorem WritesAll.append {a b : List InternalRecord} (first : WritesAll request a) (second : WritesAll request b) :
    WritesAll request (a ++ b) := fun r member => (List.mem_append.mp member).elim (first r) (second r)

theorem writes_singleton {r : InternalRecord} (wrote : Writes request r) : WritesAll request [r] := fun _ member =>
  List.mem_singleton.mp member ▸ wrote

theorem writes_map {α : Type} {f : α → InternalRecord} {items : List α} (wrote : ∀ a ∈ items, Writes request (f a)) :
    WritesAll request (items.map f) := fun r member => by
  obtain ⟨a, inside, rfl⟩ := List.mem_map.mp member
  exact wrote a inside

theorem writes_schema (request : Request) (d : StoreDef) (record : InternalRecord)
    (written : schemaRecord S d = .ok record) : Writes request record := by
  obtain ⟨text, _, rfl⟩ := schemaRecord_printed written
  exact .put _ text

theorem writes_deleteIndexEntries (d : StoreDef) (store : String) (key : Bytes) (old : Option Value) :
    WritesAll request (deleteIndexEntries S d store key old) := by
  rw [deleteIndexEntries_eq]
  refine writes_map fun k inside => ?_
  obtain ⟨_, _, _, _, _, _, rfl⟩ := (mem_entryKeys S d store key old k).mp inside
  exact .beside idxTag _ (by decide)

theorem writes_backfill {d : StoreDef} {store name : String} {index : IndexDef} {docs : List (Bytes × Bytes)}
    {records out : List InternalRecord} (before : WritesAll request records)
    (done : backfill S d store name index docs records = .ok out) : WritesAll request out := fun r member => by
  obtain ⟨entries, rfl, each⟩ := backfill_appends done
  rcases List.mem_append.mp member with old | new
  · exact before r old
  · obtain ⟨_, key, rfl⟩ := each r new
    exact .put _ key

theorem pushIndexesSteps_adds (check : IndexDef → Steps Unit) (store : String) (key : Bytes) (doc : Value)
    (indexes : List IndexDef) (records : List InternalRecord) :
    (pushIndexesSteps S check store key doc indexes records).Ensures fun batch =>
      ∃ keys : List Bytes, batch = records ++ keys.map fun k => putRecord k key := by
  induction indexes generalizing records with
  | nil => exact Program.ensures_pure ⟨[], (List.append_nil records).symm⟩
  | cons idx rest ih =>
    refine Program.ensures_after _ fun _ => (ih _).mono fun batch added => ?_
    obtain ⟨keys, rfl⟩ := added
    exact ⟨indexKeys S store idx doc key ++ keys, by simp [indexEntries]⟩

/-- A put writes its document, under the key that it returns. -/
theorem putSteps_writes (store : String) (doc : Value) : (putSteps S store doc).Ensures fun done =>
    WritesAll (.put store doc) done.2 ∧ ∃ keyVal key bytes, done.1 = some keyVal ∧ encodePrimaryKey S keyVal = .ok key ∧
      putRecord (docKey store key) bytes ∈ done.2 := by
  refine Program.ensures_after _ fun d => Program.ensures_after _ fun keyVal => ?_
  refine (Program.ensures_ofExcept fun key encoded => encoded).bind fun key encoded => ?_
  refine Program.ensures_after _ fun bytes => ?_
  have built : (buildPutBatchSteps S d store key bytes doc).Ensures fun batch =>
      WritesAll (.put store doc) batch ∧ putRecord (docKey store key) bytes ∈ batch := by
    refine Program.ensures_after _ fun old => (pushIndexesSteps_adds S _ store key doc d.indexes _).mono fun batch added => ?_
    obtain ⟨keys, rfl⟩ := added
    exact ⟨((writes_deleteIndexEntries S d store key old).append (writes_singleton (.put _ _))).append
      (writes_map fun _ _ => .put _ _), by simp⟩
  exact built.bind fun batch fine => Program.ensures_pure ⟨fine.1, keyVal, key, bytes, rfl, encoded, fine.2⟩

theorem request_writes (request : Request) : (request.steps S).Ensures fun done => WritesAll request done.2.records := by
  have passed : ∀ {steps : Steps Effect}, (steps.Ensures fun effect => WritesAll request effect.records) →
      (do let effect ← steps; pure ((none : Option Value), effect) : Steps _).Ensures fun done =>
        WritesAll request done.2.records := fun holds =>
    holds.bind fun effect fine => Program.ensures_pure fine
  cases request with
  | createObjectStore name keyPath =>
    refine passed (Program.ensures_after _ fun _ => Program.ensures_after _ fun known => ?_)
    cases known with
    | some d =>
      dsimp only
      split_ifs
      · exact Program.ensures_fail _
      · exact Program.ensures_pure nofun
    | none =>
      refine (Program.ensures_ofExcept (writes_schema S (.createObjectStore name keyPath) _)).bind fun record fine => ?_
      exact Program.ensures_pure (writes_singleton fine)
  | deleteObjectStore name =>
    refine passed (Program.ensures_after _ fun d => Program.ensures_pure ?_)
    exact (writes_map fun _ _ => .range _).append ((writes_singleton (.range _)).append
      ((writes_singleton (.beside schTag _ (by decide))).append (writes_singleton (.beside ctrTag _ (by decide)))))
  | createIndex store name keyPaths unique =>
    refine passed (Program.ensures_after _ fun d => Program.ensures_after _ fun _ => ?_)
    refine (Program.ensures_ofExcept (writes_schema S (.createIndex store name keyPaths unique) _)).bind fun record fine => ?_
    refine Program.ensures_after _ fun docs => ?_
    refine (Program.ensures_ofExcept fun records done =>
      writes_backfill S (writes_singleton fine) done).bind fun records fine => ?_
    exact Program.ensures_pure fine
  | deleteIndex store name =>
    refine passed (Program.ensures_after _ fun d => Program.ensures_after _ fun pos => ?_)
    refine Program.Ensures.bind (Q := WritesAll _) (Program.ensures_ofExcept fun records done => ?_) fun records fine =>
      Program.ensures_pure fine
    obtain ⟨record, written, done⟩ := bind_ok done
    obtain rfl := Except.ok.inj done
    exact (writes_singleton (.range _)).append (writes_singleton (writes_schema S _ _ record written))
  | put store doc => exact (putSteps_writes S store doc).bind fun done fine => Program.ensures_pure fine.1
  | delete store keyVal =>
    have deleted : (deleteSteps S store keyVal).Ensures fun done => WritesAll (.delete store keyVal) done.2 := by
      refine Program.ensures_after _ fun d => Program.ensures_after _ fun key => ?_
      refine Program.Ensures.bind (Q := WritesAll _) (Program.ensures_after _ fun old => Program.ensures_pure ?_)
        fun batch fine => Program.ensures_pure fine
      exact (writes_deleteIndexEntries S d store key old).append (writes_singleton (.document store keyVal _ rfl))
    exact deleted.bind fun done fine => Program.ensures_pure fine

end

end

/-! ### Over the engine -/

structure Database where
  engine : EngineOps.Engine
  schema : OMap String StoreDef

/-- A database opened on an empty directory. -/
def Database.empty (config : Config) : Database := ⟨fresh config, ∅⟩

def queryOf (range : ScanRange) : Records.Query := ⟨range.toQueryParams.1, range.toQueryParams.2⟩

/-- How the engine can answer the questions of a call: one answer to each point read, and to a scan
what its iterator can yield. -/
structure Answered (search : SlotSearch) (db : Database) (nowUs : Int) (answers : ∀ q, Answer q) : Prop where
  schema : ∀ store, answers (.schema store) = db.schema.get? store
  getBytes : ∀ key, answers (.getBytes key) =
    (getSync search db.engine.memtables db.engine.tables key 0 nowUs).map (·.value)
  scan : ∀ range : ScanRange, range.tsStart = .unbounded →
    ∃ out, Scans db.engine.memtables db.engine.tables (queryOf range) nowUs out ∧
      answers (.scan range) = out.map fun r => (r.key, r.value)

-- The answers that the scans leave no choice of.
def answersOf (search : SlotSearch) (db : Database) (nowUs : Int) (found : ScanRange → List (Bytes × Bytes)) :
    ∀ q, Answer q
  | .schema store => db.schema.get? store
  | .getBytes key => (getSync search db.engine.memtables db.engine.tables key 0 nowUs).map (·.value)
  | .scan range => found range

theorem exists_answered (search : SlotSearch) (db : Database) (nowUs : Int) :
    ∃ answers, Answered search db nowUs answers := by
  have scanned : ∀ range : ScanRange, ∃ found : List (Bytes × Bytes), range.tsStart = .unbounded →
      ∃ out, Scans db.engine.memtables db.engine.tables (queryOf range) nowUs out ∧
        found = out.map fun r => (r.key, r.value) := by
    intro range
    by_cases untimed : range.tsStart = .unbounded
    · have candidates : db.engine.tables.index.query (queryOf range).keyFilter (queryOf range).timeRange nowUs =
          some (db.engine.tables.index.collectByKey (queryOf range).keyFilter nowUs) := by
        simp [queryOf, ScanRange.toQueryParams, untimed, BlockIndex.BlockMetaIndex.query]
      obtain ⟨out, scan⟩ := exists_scan (m := db.engine.memtables) candidates
      exact ⟨_, fun _ => ⟨out, scan, rfl⟩⟩
    · exact ⟨[], fun other => absurd other untimed⟩
  choose found holds using scanned
  exact ⟨answersOf search db nowUs found, fun _ => rfl, fun _ => rfl, holds⟩

inductive Step where
  | request (r : Request) (nowUs : Int)
  | flush (nowUs : Int)

section
variable (S : Serde) (compressedLen : Bytes → Nat) (search : SlotSearch)

/-- `write_internal` and what follows it: an empty batch is not submitted. -/
def Database.write (db : Database) (effect : Effect) (nowUs : Int) : Database :=
  { engine := if effect.records = [] then db.engine else db.engine.submit compressedLen effect.records nowUs
    schema := effect.schema.apply db.schema }

/-- One step of a run. The clock has not come to its end, and what is written keeps to the widths
that tables have for it. -/
inductive Performs (db : Database) : Step → Except FlowError (Option Value) → Database → Prop where
  | done (r : Request) (nowUs : Int) (clock : nowUs < i64Max) (answers : ∀ q, Answer q)
      (answered : Answered search db nowUs answers) (result : Option Value) (effect : Effect)
      (ran : (r.steps S).run answers = .ok (result, effect)) (fits : ∀ x ∈ effect.records, TableFits x) :
      Performs db (.request r nowUs) (.ok result) (db.write compressedLen effect nowUs)
  | failed (r : Request) (nowUs : Int) (clock : nowUs < i64Max) (answers : ∀ q, Answer q)
      (answered : Answered search db nowUs answers) (e : FlowError) (ran : (r.steps S).run answers = .error e) :
      Performs db (.request r nowUs) (.error e) db
  | flush (nowUs : Int) (clock : nowUs < i64Max) :
      Performs db (.flush nowUs) (.ok none) { db with engine := db.engine.doFlush compressedLen nowUs }

/-- Steps, what they return, and the database they leave. -/
inductive Runs : Database → List Step → List (Except FlowError (Option Value)) → Database → Prop where
  | nil (db : Database) : Runs db [] [] db
  | cons {db next last : Database} {step : Step} {steps : List Step} {result : Except FlowError (Option Value)}
      {results : List (Except FlowError (Option Value))} (first : Performs S compressedLen search db step result next)
      (rest : Runs next steps results last) : Runs db (step :: steps) (result :: results) last

def Replies (db : Database) (nowUs : Int) (store : String) (read : Read) (reply : Except FlowError Reply) : Prop :=
  ∃ answers, Answered search db nowUs answers ∧ (read.steps S store).run answers = reply

variable {S compressedLen search} {db next : Database} {log : List InternalRecord}

theorem retained_empty (config : Config) : Retained [] (Database.empty config).engine := retained_fresh config

theorem write_retained (retained : Retained log db.engine) {nowUs : Int} (clock : nowUs < i64Max) {effect : Effect}
    (fits : ∀ x ∈ effect.records, TableFits x) (timeless : ∀ r ∈ effect.records, Timeless r) :
    Retained (log ++ assignSeqs db.engine.seqCounter effect.records) (db.write compressedLen effect nowUs).engine := by
  unfold Database.write
  dsimp only
  split_ifs with empty
  · rw [empty]
    exact (List.append_nil log).symm ▸ retained
  · exact retained_submit compressedLen retained clock fits timeless

/-- What a step leaves in the log: without a `delete` no document's key is removed, and a put leaves its document. -/
structure Adds (S : Serde) (step : Step) (result : Except FlowError (Option Value)) (more : List InternalRecord) : Prop where
  kept : (∀ store key nowUs, step ≠ .request (.delete store key) nowUs) → ∀ r ∈ more, r.op = .delete →
    r.key.head? ≠ some docTag
  written : ∀ store doc nowUs keyVal, step = .request (.put store doc) nowUs → result = .ok (some keyVal) →
    ∃ key r, encodePrimaryKey S keyVal = .ok key ∧ r ∈ more ∧ r.key = docKey store key

theorem performs_adds {step : Step} {result : Except FlowError (Option Value)} (retained : Retained log db.engine)
    (performed : Performs S compressedLen search db step result next) :
    ∃ more, Retained (log ++ more) next.engine ∧ Adds S step result more := by
  have same : Retained (log ++ []) db.engine := (List.append_nil log).symm ▸ retained
  cases performed with
  | done request nowUs clock answers answered result effect ran fits =>
    have wrote := request_writes S request answers _ ran
    refine ⟨_, write_retained retained clock fits fun r member => (wrote r member).timeless, ?_, ?_⟩
    · intro undeleted r member op
      obtain ⟨_, _, x, there, shape⟩ := mem_assignSeqs _ _ r member
      rw [shape] at op ⊢
      cases wrote x there with
      | put | range => cases op
      | beside tag rest apart => exact fun same => apart (Option.some.inj same)
      | document store keyVal _ asked => exact absurd (asked ▸ rfl) (undeleted store keyVal nowUs)
    · intro store doc _ keyVal asked returned
      obtain ⟨rfl, rfl⟩ := Step.request.inj asked
      obtain rfl := Except.ok.inj returned
      obtain ⟨⟨given, batch⟩, put, shape⟩ := bind_ok ((Program.run_bind _ _ _).symm.trans ran)
      obtain ⟨rfl, rfl⟩ := Prod.mk.inj (Except.ok.inj shape)
      obtain ⟨_, found, key, bytes, shown, encoded, inside⟩ :=
        putSteps_writes S store doc answers _ put
      obtain rfl := Option.some.inj shown
      obtain ⟨number, there⟩ := assigned db.engine.seqCounter inside
      exact ⟨key, _, encoded, there, rfl⟩
  | failed => exact ⟨[], same, fun _ => nofun, nofun⟩
  | flush nowUs clock => exact ⟨[], retained_doFlush compressedLen same clock, fun _ => nofun, nofun⟩

/-- Nothing that was written before a run, or during it, is lost. -/
theorem runs_retained {steps : List Step} {results : List (Except FlowError (Option Value))}
    (retained : Retained log db.engine) (ran : Runs S compressedLen search db steps results next) :
    ∃ more, Retained (log ++ more) next.engine := by
  induction ran generalizing log with
  | nil db => exact ⟨[], (List.append_nil log).symm ▸ retained⟩
  | cons first rest ih =>
    obtain ⟨here, middle, _⟩ := performs_adds retained first
    obtain ⟨later, whole⟩ := ih middle
    exact ⟨here ++ later, List.append_assoc log here later ▸ whole⟩

def NoDelete (steps : List Step) : Prop := ∀ store key nowUs, .request (.delete store key) nowUs ∉ steps

/-- In a run without a `delete` the records of every document that was put stay, and nothing removes their keys. -/
theorem runs_keep {steps : List Step} {results : List (Except FlowError (Option Value))} (undeleted : NoDelete steps)
    (retained : Retained log db.engine) (kept : ∀ r ∈ log, r.op = .delete → r.key.head? ≠ some docTag)
    (ran : Runs S compressedLen search db steps results next) : ∃ more, Retained (log ++ more) next.engine ∧
      (∀ r ∈ log ++ more, r.op = .delete → r.key.head? ≠ some docTag) ∧
      ∀ store doc nowUs keyVal, (Step.request (.put store doc) nowUs, Except.ok (some keyVal)) ∈ steps.zip results →
        ∃ key r, encodePrimaryKey S keyVal = .ok key ∧ r ∈ more ∧ r.key = docKey store key := by
  induction ran generalizing log with
  | nil db =>
    refine ⟨[], (List.append_nil log).symm ▸ retained, ?_, nofun⟩
    rwa [List.append_nil]
  | @cons _ _ _ step _ _ _ first rest ih =>
    obtain ⟨here, middle, adds⟩ := performs_adds retained first
    have apart : ∀ store key nowUs, step ≠ .request (.delete store key) nowUs := fun store key nowUs same =>
      undeleted store key nowUs (same ▸ List.mem_cons_self)
    obtain ⟨later, whole, keptLater, written⟩ := ih (fun store key nowUs member =>
      undeleted store key nowUs (List.mem_cons_of_mem _ member)) middle
      fun r member => (List.mem_append.mp member).elim (kept r) (adds.kept apart r)
    refine ⟨here ++ later, List.append_assoc log here later ▸ whole, List.append_assoc log here later ▸ keptLater, ?_⟩
    intro store doc nowUs keyVal member
    rcases List.mem_cons.mp member with now | behind
    · obtain ⟨asked, returned⟩ := Prod.mk.inj now
      obtain ⟨key, r, encoded, there, shape⟩ := adds.written store doc nowUs keyVal asked.symm returned.symm
      exact ⟨key, r, encoded, List.mem_append_left _ there, shape⟩
    · obtain ⟨key, r, encoded, there, shape⟩ := written store doc nowUs keyVal behind
      exact ⟨key, r, encoded, List.mem_append_right _ there, shape⟩

/-- A point read finds every document that was put, as long as no `delete` is called. -/
theorem put_document_read {config : Config} {steps : List Step} {results : List (Except FlowError (Option Value))}
    (reached : Runs S compressedLen search (.empty config) steps results db) (undeleted : NoDelete steps) {store : String}
    {doc keyVal : Value} {putUs readUs : Int} (clock : readUs < i64Max)
    (done : (Step.request (.put store doc) putUs, Except.ok (some keyVal)) ∈ steps.zip results) :
    ¬ Replies S search db readUs store (.get keyVal) (.ok (.document none)) := by
  rintro ⟨answers, answered, ran⟩
  obtain ⟨log, retained, kept, written⟩ := runs_keep undeleted (retained_empty config) nofun reached
  obtain ⟨key, y, encoded, member, there⟩ := written store doc putUs keyVal done
  obtain ⟨_, _, ran⟩ := bind_ok ((Program.run_bind _ _ _).symm.trans ran)
  obtain ⟨key', encoded', ran⟩ := bind_ok ((Program.run_bind _ _ _).symm.trans ran)
  obtain rfl := Except.ok.inj (encoded.symm.trans ((Program.run_ofExcept _ _).symm.trans encoded'))
  obtain ⟨r, _, _, found⟩ := getSync_written retained search clock member fun x inside same delete =>
    kept x inside delete (by rw [same, there]; rfl)
  have asked : (getBytesSteps (docKey store key)).run answers = .ok (some r.toRecord.value) := by
    refine congrArg Except.ok ((answered.getBytes _).trans ?_)
    rw [← there, found]
    rfl
  rw [Program.run_bind, asked, ok_bind] at ran
  obtain ⟨_, _, ran⟩ := bind_ok ((Program.run_bind _ _ _).symm.trans ran)
  cases ran

/-- A call that comes to the same whatever the answers. -/
theorem performs_iff {r : Request} {nowUs : Int} {returned : Option Value} {effect : Effect}
    {result : Except FlowError (Option Value)} (clock : nowUs < i64Max) (fits : ∀ x ∈ effect.records, TableFits x)
    (determined : ∀ answers, Answered search db nowUs answers → (r.steps S).run answers = .ok (returned, effect)) :
    Performs S compressedLen search db (.request r nowUs) result next ↔
      result = .ok returned ∧ next = db.write compressedLen effect nowUs := by
  constructor
  · intro performed
    cases performed with
    | done _ _ _ answers answered found wrote ran _ =>
      obtain ⟨rfl, rfl⟩ := Prod.mk.inj (Except.ok.inj (ran.symm.trans (determined answers answered)))
      exact ⟨rfl, rfl⟩
    | failed _ _ _ answers answered e ran => exact absurd (ran.symm.trans (determined answers answered)) nofun
  · rintro ⟨rfl, rfl⟩
    obtain ⟨answers, answered⟩ := exists_answered search db nowUs
    exact .done r nowUs clock answers answered returned effect (determined answers answered) fits

theorem replies_iff {nowUs : Int} {store : String} {read : Read} {expected reply : Except FlowError Reply}
    (determined : ∀ answers, Answered search db nowUs answers → (read.steps S store).run answers = expected) :
    Replies S search db nowUs store read reply ↔ reply = expected := by
  constructor
  · rintro ⟨answers, answered, rfl⟩
    exact determined answers answered
  · rintro rfl
    obtain ⟨answers, answered⟩ := exists_answered search db nowUs
    exact ⟨answers, answered, determined answers answered⟩

theorem runs_cons_iff {step : Step} {steps : List Step} {result : Except FlowError (Option Value)}
    {results : List (Except FlowError (Option Value))} {last : Database} :
    Runs S compressedLen search db (step :: steps) (result :: results) last ↔
      ∃ next, Performs S compressedLen search db step result next ∧ Runs S compressedLen search next steps results last := by
  constructor
  · rintro (_ | ⟨first, rest⟩)
    exact ⟨_, first, rest⟩
  · rintro ⟨next, first, rest⟩
    exact .cons first rest

theorem runs_flush_iff {nowUs : Int} {result : Except FlowError (Option Value)} :
    Runs S compressedLen search db [.flush nowUs] [result] next ↔
      nowUs < i64Max ∧ result = .ok none ∧ next = { db with engine := db.engine.doFlush compressedLen nowUs } := by
  constructor
  · intro ran
    obtain ⟨_, first, rest⟩ := runs_cons_iff.mp ran
    cases first with
    | flush _ clock =>
      cases rest
      exact ⟨clock, rfl, rfl⟩
  · rintro ⟨clock, rfl, rfl⟩
    exact .cons (.flush nowUs clock) (.nil _)

theorem Runs.lengths {steps : List Step} {results : List (Except FlowError (Option Value))}
    (ran : Runs S compressedLen search db steps results next) : steps.length = results.length := by
  induction ran with
  | nil => rfl
  | cons _ _ ih => exact congrArg Nat.succ ih

theorem Runs.append {steps later : List Step} {results laterResults : List (Except FlowError (Option Value))}
    {last : Database} (first : Runs S compressedLen search db steps results next)
    (second : Runs S compressedLen search next later laterResults last) :
    Runs S compressedLen search db (steps ++ later) (results ++ laterResults) last := by
  induction first with
  | nil => exact second
  | cons step _ ih => exact .cons step (ih second)

end

/-! ### The calls, answered -/

section
variable {S : Serde} {answers : ∀ q, Answer q} {store : String} {d : StoreDef}

theorem getStoreSteps_known (known : answers (.schema store) = some d) : (getStoreSteps store).run answers = .ok d := by
  rw [getStoreSteps, Program.run_bind]
  change (Except.ok (answers (.schema store)) >>= _) = _
  rw [known, ok_bind]
  rfl

theorem createObjectStore_run {keyPath : String} {record : InternalRecord} (valid : validateStoreDef store keyPath = .ok ())
    (unknown : answers (.schema store) = none) (written : schemaRecord S ⟨store, keyPath, false, [], 0⟩ = .ok record) :
    ((Request.createObjectStore store keyPath).steps S).run answers =
      .ok (none, ⟨[record], .insert ⟨store, keyPath, false, [], 0⟩⟩) := by
  have asked : (schemaSteps store).run answers = .ok none := congrArg Except.ok unknown
  simp only [Request.steps, createObjectStoreSteps, Program.run_bind, Program.run_ofExcept, valid, asked, written,
    ok_bind, Program.run_pure]

theorem deleteObjectStore_run (known : answers (.schema store) = some d) :
    ((Request.deleteObjectStore store).steps S).run answers = .ok (none, ⟨deleteStoreRecords d store, .remove store⟩) := by
  simp only [Request.steps, deleteObjectStoreSteps, Program.run_bind, getStoreSteps_known known, ok_bind, Program.run_pure]

/-- On a store without documents an index has nothing to fill in. -/
theorem createIndex_run {name : String} {keyPaths : List String} {unique : Bool} {record : InternalRecord}
    (known : answers (.schema store) = some d) (valid : validateIndexDef d name keyPaths = .ok ())
    (written : schemaRecord S { d with indexes := d.indexes ++ [⟨keyPaths, name, unique, false⟩] } = .ok record)
    (empty : answers (.scan (docRange store)) = []) :
    ((Request.createIndex store name keyPaths unique).steps S).run answers =
      .ok (none, ⟨[record], .insert { d with indexes := d.indexes ++ [⟨keyPaths, name, unique, false⟩] }⟩) := by
  have asked : (scanSteps (docRange store)).run answers = .ok [] := congrArg Except.ok empty
  simp only [Request.steps, createIndexSteps, Program.run_bind, Program.run_ofExcept, getStoreSteps_known known, valid,
    written, asked, ok_bind, backfill, Program.run_pure]

theorem deleteIndex_run {name : String} {pos : Nat} {record : InternalRecord} (known : answers (.schema store) = some d)
    (there : requireIndex d store name = .ok pos)
    (written : schemaRecord S { d with indexes := d.indexes.eraseIdx pos } = .ok record) :
    ((Request.deleteIndex store name).steps S).run answers =
      .ok (none, ⟨[rangeRecord (idxPrefix store name), record], .insert { d with indexes := d.indexes.eraseIdx pos }⟩) := by
  simp only [Request.steps, deleteIndexSteps, Program.run_bind, Program.run_ofExcept, getStoreSteps_known known, there,
    deleteIndexRecords, written, ok_bind, Program.run_pure]

theorem pushIndexesSteps_passed {check : IndexDef → Steps Unit} {key : Bytes} {doc : Value} {indexes : List IndexDef}
    (passed : ∀ idx ∈ indexes, (check idx).run answers = .ok ()) (records : List InternalRecord) :
    (pushIndexesSteps S check store key doc indexes records).run answers =
      .ok (records ++ indexes.flatMap fun idx => indexEntries S idx store key doc) := by
  induction indexes generalizing records with
  | nil => simp [pushIndexesSteps]
  | cons idx rest ih =>
    rw [pushIndexesSteps, Program.run_bind, passed idx List.mem_cons_self, ok_bind,
      ih fun other member => passed other (List.mem_cons_of_mem _ member)]
    simp

/-- A document under a new key, in a store without unique indexes. -/
theorem put_run {doc keyVal : Value} {key bytes : Bytes} (known : answers (.schema store) = some d)
    (keyed : extractField doc d.keyPath = some keyVal) (encoded : encodePrimaryKey S keyVal = .ok key)
    (text : encodeDoc S doc = .ok bytes) (absent : answers (.getBytes (docKey store key)) = none)
    (plain : ∀ idx ∈ d.indexes, idx.unique = false) :
    ((Request.put store doc).steps S).run answers = .ok (some keyVal,
      ⟨putRecord (docKey store key) bytes :: d.indexes.flatMap fun idx => indexEntries S idx store key doc, .keep⟩) := by
  have asked : (getBytesSteps (docKey store key)).run answers = .ok none := congrArg Except.ok absent
  have old : (readOldDocSteps S store key).run answers = .ok none := by
    rw [readOldDocSteps, Program.run_bind, asked, ok_bind, Program.run_pure]
  have passed : ∀ idx ∈ d.indexes, (checkUniqueSteps S store idx key doc).run answers = .ok () := fun idx member => by
    rw [checkUniqueSteps, plain idx member]
    rfl
  have keyOk : keyOf d store doc = .ok keyVal := by rw [keyOf, keyed]
  simp only [Request.steps, putSteps, buildPutBatchSteps, Program.run_bind, Program.run_ofExcept,
    getStoreSteps_known known, keyOk, encoded, text, old, pushIndexesSteps_passed passed, deleteIndexEntries, ok_bind,
    Program.run_pure, List.nil_append, List.singleton_append]

theorem count_run (known : answers (.schema store) = some d) :
    (Read.count.steps S store).run answers = .ok (.number (answers (.scan (docRange store))).length) := by
  have asked : (scanSteps (docRange store)).run answers = .ok (answers (.scan (docRange store))) := rfl
  simp only [Read.steps, Program.run_bind, getStoreSteps_known known, asked, ok_bind, Program.run_pure]

theorem get_absent {keyVal : Value} {key : Bytes} (known : answers (.schema store) = some d)
    (encoded : encodePrimaryKey S keyVal = .ok key) (absent : answers (.getBytes (docKey store key)) = none) :
    ((Read.get keyVal).steps S store).run answers = .ok (.document none) := by
  have asked : (getBytesSteps (docKey store key)).run answers = .ok none := congrArg Except.ok absent
  simp only [Read.steps, Program.run_bind, Program.run_ofExcept, getStoreSteps_known known, encoded, asked, ok_bind,
    Program.run_pure]

theorem getByIndex_run {index : String} {idx : IndexDef} {value : Value} {entries : List (Bytes × Bytes)}
    (known : answers (.schema store) = some d) (named : findIndex d store index = .ok idx)
    (listed : answers (.scan (valueRange store index (encodeLookup S idx value))) = entries) :
    ((Read.getByIndex index value).steps S store).run answers = ((fetchSteps S store entries).run answers).map .documents := by
  have asked : (scanSteps (valueRange store index (encodeLookup S idx value))).run answers = .ok entries :=
    congrArg Except.ok listed
  simp only [Read.steps, Program.run_bind, Program.run_ofExcept, getStoreSteps_known known, named, asked, ok_bind]
  cases (fetchSteps S store entries).run answers <;> rfl

theorem fetchSteps_found {entry : Bytes × Bytes} {rest : List (Bytes × Bytes)} {bytes : Bytes} {docs : List Value}
    (there : answers (.getBytes (docKey store entry.2)) = some bytes)
    (ran : (fetchSteps S store (entry :: rest)).run answers = .ok docs) : docs ≠ [] := by
  have asked : (getBytesSteps (docKey store entry.2)).run answers = .ok (some bytes) := congrArg Except.ok there
  rw [fetchSteps, Program.run_bind, asked, ok_bind, Program.run_bind] at ran
  obtain ⟨doc, _, ran⟩ := bind_ok ran
  rw [Program.run_bind, Program.run_pure, ok_bind, Program.run_bind] at ran
  obtain ⟨_, _, shape⟩ := bind_ok ran
  obtain rfl := Except.ok.inj shape
  exact List.cons_ne_nil _ _

end
end FlowDb.EngineDatabase
