import FlowDb.ConcurrentCommits
import FlowDb.IndexMaintenance
import FlowDb.StagedRuns

/-! Creating and deleting indexes of a store while other calls create and delete indexes of it, put
documents and delete them. A schema change reads the definition, writes its batch and publishes the
new definition in steps of its own and takes no lock; put and delete hold the write lock. -/
namespace FlowDb.SchemaChanges
open ByteString OrderedMap JsonValue JsonEncoding JsonDb JsonIndexes JsonSessions JsonStores KeySpace StoreIsolation
open IndexMaintenance ConcurrentCommits Interleaving OptimisticRuns StagedRuns
open Records hiding Query

inductive Effect where
  | write (records : List InternalRecord)
  | publish (d : StoreDef)

def Effect.apply (db : JsonDB) : Effect → JsonDB
  | .write records => JsonDB.write db records
  | .publish d => { db with schema := db.schema.insert d.name d }

section
variable (S : Serde) (store : String)

def createIndexSteps (name : String) (keyPaths : List String) (unique : Bool) : Steps (Option Value × List Effect) := do
  let d ← getStoreSteps store
  .ofExcept (validateIndexDef d name keyPaths)
  let index : IndexDef := ⟨keyPaths, name, unique, false⟩
  let d := { d with indexes := d.indexes ++ [index] }
  let record ← .ofExcept (schemaRecord S d)
  let docs ← scanSteps (prefixRange (docPrefix store))
  let records ← .ofExcept (backfill S d store name index docs [record])
  pure (none, [.write records, .publish d])

def deleteIndexSteps (name : String) : Steps (Option Value × List Effect) := do
  let d ← getStoreSteps store
  let pos ← .ofExcept (requireIndex d store name)
  let d := { d with indexes := d.indexes.eraseIdx pos }
  let records ← .ofExcept (deleteIndexRecords S d store name)
  pure (none, [.write records, .publish d])

/-- The calls on the store. -/
inductive StoreCall where
  | createIndex (name : String) (keyPaths : List String) (unique : Bool)
  | deleteIndex (name : String)
  | put (doc : Value)
  | delete (key : Value)

def written (steps : Steps (Option Value × List InternalRecord)) : Steps (Option Value × List Effect) := do
  let (result, records) ← steps
  pure (result, [.write records])

def StoreCall.call : StoreCall → StagedRuns.Call FlowError Query Answer (Option Value) Effect
  | .createIndex name keyPaths unique => ⟨false, createIndexSteps S store name keyPaths unique⟩
  | .deleteIndex name => ⟨false, deleteIndexSteps S store name⟩
  | .put doc => ⟨true, written (putSteps S store doc)⟩
  | .delete key => ⟨true, written (deleteSteps S store key)⟩

/-- The call with no other in between. -/
def StoreCall.perform (db : JsonDB) : StoreCall → Except FlowError (Option Value) × JsonDB
  | .createIndex name keyPaths unique =>
      ((JsonDb.createIndex S db store name keyPaths unique).1.map fun _ => none,
        (JsonDb.createIndex S db store name keyPaths unique).2)
  | .deleteIndex name =>
      ((JsonStores.deleteIndex S db store name).1.map fun _ => none, (JsonStores.deleteIndex S db store name).2)
  | .put doc => (Operation.put store doc).perform S db
  | .delete key => (Operation.delete store key).perform S db

theorem alone_written (steps : Steps (Option Value × List InternalRecord)) (db : JsonDB) :
    StagedRuns.alone answer Effect.apply ⟨true, written steps⟩ db = OptimisticRuns.alone answer JsonDB.write ⟨true, steps⟩ db := by
  unfold StagedRuns.alone OptimisticRuns.alone
  dsimp only
  rw [written, Program.run_bind]
  cases steps.run (answer db) <;> rfl

/-- Run alone, the steps of a call are the call. -/
theorem alone_call (c : StoreCall) (db : JsonDB) :
    StagedRuns.alone answer Effect.apply (c.call S store) db = c.perform S store db := by
  cases c with
  | createIndex name keyPaths unique =>
    unfold StagedRuns.alone
    simp only [StoreCall.call, StoreCall.perform, createIndexSteps, Program.run_bind, getStoreSteps_run,
      Program.run_ofExcept, scanSteps_run, Program.run_pure, JsonDb.createIndex]
    cases getStore db store with
    | error e => rfl
    | ok d =>
      simp only [ok_bind]
      cases validateIndexDef d name keyPaths with
      | error e => rfl
      | ok _ =>
        simp only [ok_bind]
        cases schemaRecord S { d with indexes := d.indexes ++ [⟨keyPaths, name, unique, false⟩] } with
        | error e => rfl
        | ok record =>
          simp only [ok_bind]
          cases backfill S { d with indexes := d.indexes ++ [⟨keyPaths, name, unique, false⟩] } store name
            ⟨keyPaths, name, unique, false⟩ (scan db.engine (prefixRange (docPrefix store))) [record] <;> rfl
  | deleteIndex name =>
    unfold StagedRuns.alone
    simp only [StoreCall.call, StoreCall.perform, deleteIndexSteps, Program.run_bind, getStoreSteps_run,
      Program.run_ofExcept, Program.run_pure, JsonStores.deleteIndex]
    cases getStore db store with
    | error e => rfl
    | ok d =>
      simp only [ok_bind]
      cases requireIndex d store name with
      | error e => rfl
      | ok pos =>
        simp only [ok_bind]
        cases deleteIndexRecords S { d with indexes := d.indexes.eraseIdx pos } store name <;> rfl
  | put doc => exact (alone_written _ db).trans (ConcurrentCommits.alone_call S db (.put store doc))
  | delete key => exact (alone_written _ db).trans (ConcurrentCommits.alone_call S db (.delete store key))

end

/-! ### What a call has been told when it makes its updates -/

abbrev Told := List (Σ q, Answer q)

section
variable {S : Serde} {store : String}

theorem told_getStore {α : Type} {f : StoreDef → Steps α} {seen : Told} {result : α}
    (follows : Follows (getStoreSteps store >>= f) seen (.done result)) :
    ∃ d back, seen = ⟨.schema store, some d⟩ :: back ∧ Follows (f d) back (.done result) := by
  obtain ⟨front, back, d, rfl, got, later⟩ := follows_bind follows
  obtain ⟨found, rest, rfl, given⟩ := follows_bind_question got
  cases found with
  | none => exact (follows_fail given).elim
  | some d' =>
    obtain ⟨rfl, same⟩ := follows_pure given
    cases same
    exact ⟨d, back, rfl, later⟩

theorem told_oldDoc {α : Type} {f : Option Value → Steps α} {seen : Told} {key : Bytes} {result : α}
    (follows : Follows (readOldDocSteps S store key >>= f) seen (.done result)) :
    ∃ a back, seen = ⟨.getBytes (docKey store key), a⟩ :: back ∧
      Follows (f (a.bind fun bytes => (decodeDoc S bytes).toOption)) back (.done result) := by
  obtain ⟨front, back, old, rfl, read, later⟩ := follows_bind follows
  obtain ⟨found, rest, rfl, given⟩ := follows_bind_question read
  refine ⟨found, back, ?_⟩
  cases found with
  | none =>
    obtain ⟨rfl, same⟩ := follows_pure given
    cases same
    exact ⟨rfl, later⟩
  | some bytes =>
    dsimp only at given
    cases decoded : decodeDoc S bytes with
    | error e =>
      rw [decoded] at given
      exact (follows_fail given).elim
    | ok doc =>
      rw [decoded] at given
      obtain ⟨rfl, same⟩ := follows_pure given
      cases same
      refine ⟨rfl, ?_⟩
      rw [Option.bind_some, decoded]
      exact later

theorem told_pushIndexes {check : IndexDef → Steps Unit} {key : Bytes} {doc : Value} {indexes : List IndexDef}
    {records out : List InternalRecord} {seen : Told}
    (follows : Follows (pushIndexesSteps S check store key doc indexes records) seen (.done out)) :
    out = records ++ indexes.flatMap fun idx => indexEntries S idx store key doc := by
  induction indexes generalizing records seen with
  | nil =>
    obtain ⟨_, same⟩ := follows_pure follows
    cases same
    simp
  | cons idx rest ih =>
    obtain ⟨_, back, _, _, _, later⟩ := follows_bind follows
    rw [ih later]
    simp

theorem told_written {steps : Steps (Option Value × List InternalRecord)} {seen : Told} {r : Option Value}
    {updates : List Effect} (follows : Follows (written steps) seen (.done (r, updates))) :
    ∃ records, Follows steps seen (.done (r, records)) ∧ updates = [.write records] := by
  obtain ⟨front, back, ⟨result, records⟩, rfl, first, last⟩ := follows_bind follows
  obtain ⟨rfl, same⟩ := follows_pure last
  cases same
  rw [List.append_nil]
  exact ⟨records, first, rfl⟩

/-- The definition and the old document that a put or a delete works from, and its batch. -/
structure ToldWrite (S : Serde) (store : String) (seen : Told) (updates : List Effect) (d : StoreDef) (key : Bytes)
    (new : Option (Bytes × Value)) : Prop where
  definition : ⟨.schema store, some d⟩ ∈ seen
  old : ∃ a, (⟨.getBytes (docKey store key), a⟩ : Σ q, Answer q) ∈ seen ∧
    ∀ db, getBytes db (docKey store key) = a → updates = [.write (changeRecords S db d store key new)]

theorem told_put {seen : Told} {doc : Value} {r : Option Value} {updates : List Effect}
    (follows : Follows (written (putSteps S store doc)) seen (.done (r, updates))) :
    ∃ d keyVal key docBytes, keyOf d store doc = .ok keyVal ∧ encodePrimaryKey S keyVal = .ok key ∧
      encodeDoc S doc = .ok docBytes ∧ ToldWrite S store seen updates d key (some (docBytes, doc)) := by
  obtain ⟨records, later₁, rfl⟩ := told_written follows
  obtain ⟨d, seen, rfl, later₂⟩ := told_getStore later₁
  obtain ⟨keyVal, keyed, later₃⟩ := follows_bind_ofExcept later₂
  obtain ⟨key, encodedKey, later₄⟩ := follows_bind_ofExcept later₃
  obtain ⟨docBytes, encoded, later₅⟩ := follows_bind_ofExcept later₄
  obtain ⟨front, back, batch, rfl, built, last⟩ := follows_bind later₅
  obtain ⟨rfl, same⟩ := follows_pure last
  cases same
  obtain ⟨a, seen, rfl, pushed⟩ := told_oldDoc built
  have batch_eq := told_pushIndexes pushed
  refine ⟨d, keyVal, key, docBytes, keyed, encodedKey, encoded, List.mem_cons_self, a, by simp, fun db here => ?_⟩
  rw [batch_eq, changeRecords, storedDoc, here]
  simp

theorem told_delete {seen : Told} {keyVal : Value} {r : Option Value} {updates : List Effect}
    (follows : Follows (written (deleteSteps S store keyVal)) seen (.done (r, updates))) :
    ∃ d key, encodePrimaryKey S keyVal = .ok key ∧ ToldWrite S store seen updates d key none := by
  obtain ⟨records, later₁, rfl⟩ := told_written follows
  obtain ⟨d, seen, rfl, later₂⟩ := told_getStore later₁
  obtain ⟨key, encodedKey, later₃⟩ := follows_bind_ofExcept later₂
  obtain ⟨front, back, batch, rfl, built, last⟩ := follows_bind later₃
  obtain ⟨rfl, same⟩ := follows_pure last
  cases same
  obtain ⟨a, seen, rfl, pushed⟩ := told_oldDoc built
  obtain ⟨rfl, same⟩ := follows_pure pushed
  cases same
  refine ⟨d, key, encodedKey, List.mem_cons_self, a, by simp, fun db here => ?_⟩
  rw [changeRecords, storedDoc, here]

theorem told_createIndex {seen : Told} {name : String} {keyPaths : List String} {unique : Bool} {r : Option Value}
    {updates : List Effect}
    (follows : Follows (createIndexSteps S store name keyPaths unique) seen (.done (r, updates))) :
    ∃ d docs record records, seen = [⟨.schema store, some d⟩, ⟨.scan (prefixRange (docPrefix store)), docs⟩] ∧
      prepareIndex S d ⟨keyPaths, name, unique, false⟩ = .ok record ∧
      backfill S (StoreDef.withIndex d ⟨keyPaths, name, unique, false⟩) store name ⟨keyPaths, name, unique, false⟩ docs
        [record] = .ok records ∧
      updates = [.write records, .publish (StoreDef.withIndex d ⟨keyPaths, name, unique, false⟩)] := by
  obtain ⟨d, seen, rfl, later₁⟩ := told_getStore follows
  obtain ⟨_, validated, later₂⟩ := follows_bind_ofExcept later₁
  obtain ⟨record, printed, later₃⟩ := follows_bind_ofExcept later₂
  obtain ⟨docs, seen, rfl, later₄⟩ := follows_bind_question later₃
  obtain ⟨records, filled, later₅⟩ := follows_bind_ofExcept later₄
  obtain ⟨rfl, same⟩ := follows_pure later₅
  cases same
  refine ⟨d, docs, record, records, rfl, ?_, filled, rfl⟩
  rw [prepareIndex, validated, ok_bind]
  exact printed

theorem told_deleteIndex {seen : Told} {name : String} {r : Option Value} {updates : List Effect}
    (follows : Follows (deleteIndexSteps S store name) seen (.done (r, updates))) :
    ∃ d pos record, seen = [⟨.schema store, some d⟩] ∧ requireIndex d store name = .ok pos ∧
      schemaRecord S { d with indexes := d.indexes.eraseIdx pos } = .ok record ∧
      updates = [.write [rangeRecord (idxPrefix store name), record],
        .publish { d with indexes := d.indexes.eraseIdx pos }] := by
  obtain ⟨d, seen, rfl, later₁⟩ := told_getStore follows
  obtain ⟨pos, required, later₂⟩ := follows_bind_ofExcept later₁
  obtain ⟨records, made, later₃⟩ := follows_bind_ofExcept later₂
  obtain ⟨rfl, same⟩ := follows_pure later₃
  cases same
  obtain ⟨record, printed, made⟩ := bind_ok made
  obtain rfl := Except.ok.inj made
  exact ⟨d, pos, record, rfl, required, printed, rfl⟩

end
end FlowDb.SchemaChanges
