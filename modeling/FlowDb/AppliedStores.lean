import FlowDb.IndexMaintenance
import FlowDb.SchemaRecords

/-! What `apply_store` makes of a definition. It is a series of changes, each a write of its own: each
takes effect whole or not at all, the series as a whole does not. -/
namespace FlowDb.AppliedStores
open ByteString OrderedMap Records JsonValue JsonEncoding JsonDb JsonIndexes JsonSessions JsonStores KeySpace StoreIsolation
open IndexMaintenance
open SchemaRecords (andThen forEach createIndexOf deleteIndexOf checkConflicts applyStore usersSerde usersDef)

/-- The changes that `apply_store` makes to a store that is there. -/
inductive Change where
  | mark
  | create (idx : IndexDef)
  | delete (idx : IndexDef)

/-- The index that `create_index` makes of a requested one. -/
def plain (idx : IndexDef) : IndexDef := { idx with multiEntry := false }

def Change.next (d : StoreDef) : Change → StoreDef
  | .mark => { d with autoIncrement := true }
  | .create idx => StoreDef.withIndex d (plain idx)
  | .delete idx => { d with indexes := d.indexes.filter fun i => i.name != idx.name }

/-- The changes that lead from an existing definition to the requested one. -/
def changes (existing d : StoreDef) : List Change :=
  (d.indexes.filter fun idx => !existing.indexes.any fun i => i.name == idx.name).map .create ++
    (existing.indexes.filter fun ex => !d.indexes.any fun i => i.name == ex.name).map .delete

def opened (d : StoreDef) : StoreDef := ⟨d.name, d.keyPath, false, [], 0⟩

def newChanges (d : StoreDef) : List Change := (if d.autoIncrement then [.mark] else []) ++ changes (opened d) d

section
variable (S : Serde) (debugPaths : List String → String)

def Change.perform (store : String) : Change → JsonDB → Except FlowError Unit × JsonDB
  | .mark, db => markAutoIncrement S db store
  | .create idx, db => createIndexOf S store idx db
  | .delete idx, db => deleteIndexOf S store idx db

/-- The definition can be written down. -/
def Printed (d : StoreDef) : Prop := ∃ text, S.toVec d.toValue = some text

/-- The documents of the store can be read, and those with values for the index have a key. -/
def Fillable (db : JsonDB) (store keyPath : String) (idx : IndexDef) : Prop :=
  ∀ key bytes, db.engine.get? (docKey store key) = some bytes → ∃ doc, decodeDoc S bytes = .ok doc ∧
    (extractIndexValues doc idx ≠ [] → ∃ key, encodePrimaryKey S ((extractField doc keyPath).getD .null) = .ok key)

/-- A definition can take a change. -/
def Change.Takes (db : JsonDB) (d : StoreDef) : Change → Prop
  | .create idx => validateIndexDef d idx.name idx.keyPaths = .ok () ∧ Printed S (Change.next d (.create idx)) ∧
      Fillable S db d.name d.keyPath (plain idx)
  | .delete idx => (∃ own ∈ d.indexes, own.name = idx.name) ∧ Printed S (Change.next d (.delete idx))
  | .mark => Printed S (Change.next d .mark)

def TakesAll (db : JsonDB) : StoreDef → List Change → Prop
  | _, [] => True
  | d, c :: rest => c.Takes S db d ∧ TakesAll db (c.next d) rest

/-- A store can be opened under the requested name and key path. -/
def Opens (d : StoreDef) : Prop := validateStoreDef d.name d.keyPath = .ok () ∧ Printed S (opened d)

/-- An index that is there under a requested name, with other key paths or another uniqueness. -/
def Conflicts (existing d : StoreDef) : Prop :=
  ∃ idx ∈ d.indexes, ∃ ex, existing.indexes.find? (fun i => i.name == idx.name) = some ex ∧
    (ex.keyPaths ≠ idx.keyPaths ∨ ex.unique ≠ idx.unique)

/-- What `apply_store` leaves as it finds it is as requested: the counting of keys, and whether the
indexes have several entries. -/
structure Carried (existing d : StoreDef) : Prop where
  autoIncrement : existing.autoIncrement = d.autoIncrement
  multiEntry : ∀ idx ∈ d.indexes,
    idx.multiEntry = ((existing.indexes.find? fun i => i.name == idx.name).map IndexDef.multiEntry).getD false

/-- The request is refused before anything is done, or all of it can be done. -/
def Applicable (db : JsonDB) (d : StoreDef) : Prop :=
  match db.schema.get? d.name with
  | none => Opens S d → TakesAll S db (opened d) (newChanges d) ∧ ∀ idx ∈ d.indexes, idx.multiEntry = false
  | some existing => existing.keyPath = d.keyPath → ¬Conflicts existing d →
      (∀ c ∈ (changes existing d).head?, c.Takes S db existing) →
        TakesAll S db existing (changes existing d) ∧ Carried existing d

structure Converged (found d : StoreDef) : Prop where
  keyPath : found.keyPath = d.keyPath
  autoIncrement : found.autoIncrement = d.autoIncrement
  indexes : ∀ idx, idx ∈ found.indexes ↔ idx ∈ d.indexes

/-- `apply_store` succeeds with the store as requested, to which applying the request again does
nothing, or it fails and leaves the schema as it was. -/
def ConvergesOrNothing (db : JsonDB) (d : StoreDef) : Prop :=
  match (applyStore S debugPaths db d).1 with
  | .ok _ => (∃ found, (applyStore S debugPaths db d).2.schema.get? d.name = some found ∧ Converged found d) ∧
      applyStore S debugPaths (applyStore S debugPaths db d).2 d = (.ok (), (applyStore S debugPaths db d).2)
  | .error _ => (applyStore S debugPaths db d).2.schema = db.schema

end

/-! ### The indexes after a list of changes -/

theorem changes_mem_create {existing d : StoreDef} {idx : IndexDef} :
    .create idx ∈ changes existing d ↔ idx ∈ d.indexes ∧ ∀ own ∈ existing.indexes, own.name ≠ idx.name := by
  simp [changes]

theorem changes_mem_delete {existing d : StoreDef} {idx : IndexDef} :
    .delete idx ∈ changes existing d ↔ idx ∈ existing.indexes ∧ ∀ own ∈ d.indexes, own.name ≠ idx.name := by
  simp [changes]

/-- No name is both created and deleted. -/
def Apart (cs : List Change) : Prop := ∀ i j, .create i ∈ cs → .delete j ∈ cs → i.name ≠ j.name

theorem changes_apart (existing d : StoreDef) : Apart (changes existing d) := fun i _ creates deletes =>
  (changes_mem_delete.mp deletes).2 i (changes_mem_create.mp creates).1

theorem mem_after {cs : List Change} (apart : Apart cs) (d : StoreDef) (idx : IndexDef) :
    idx ∈ (cs.foldl Change.next d).indexes ↔
      (idx ∈ d.indexes ∨ ∃ i, .create i ∈ cs ∧ idx = plain i) ∧ ∀ j, .delete j ∈ cs → idx.name ≠ j.name := by
  induction cs generalizing d with
  | nil => simp
  | cons c rest ih =>
    have later : Apart rest := fun i j creates deletes => apart i j (List.mem_cons_of_mem c creates) (List.mem_cons_of_mem c deletes)
    rw [List.foldl_cons, ih later]
    cases c with
    | mark => simp [Change.next]
    | create i => simp [Change.next, StoreDef.withIndex, or_assoc]
    | delete j =>
      have kept : ∀ i, .create i ∈ rest → (plain i).name ≠ j.name := fun i creates =>
        apart i j (List.mem_cons_of_mem _ creates) List.mem_cons_self
      simp only [Change.next, List.mem_filter, bne_iff_ne, List.mem_cons, Change.delete.injEq, reduceCtorEq, false_or,
        forall_eq_or_imp]
      constructor
      · rintro ⟨⟨old, other⟩ | ⟨i, creates, rfl⟩, deleted⟩
        · exact ⟨.inl old, other, deleted⟩
        · exact ⟨.inr ⟨i, creates, rfl⟩, kept i creates, deleted⟩
      · rintro ⟨old | made, other, deleted⟩
        · exact ⟨.inl ⟨old, other⟩, deleted⟩
        · exact ⟨.inr made, deleted⟩

theorem keyPath_after (cs : List Change) (d : StoreDef) : (cs.foldl Change.next d).keyPath = d.keyPath := by
  induction cs generalizing d with
  | nil => rfl
  | cons c rest ih =>
    rw [List.foldl_cons, ih]
    cases c <;> rfl

theorem autoIncrement_after (cs : List Change) (d : StoreDef) :
    (cs.foldl Change.next d).autoIncrement = true ↔ d.autoIncrement = true ∨ .mark ∈ cs := by
  induction cs generalizing d with
  | nil => simp
  | cons c rest ih =>
    rw [List.foldl_cons, ih]
    cases c <;> simp [Change.next, StoreDef.withIndex]

/-- The changes of a definition change it from the first on. -/
theorem changed {existing d : StoreDef} {c : Change} {rest : List Change}
    (begins : ∃ later, changes existing d = c :: rest ++ later) : (c :: rest).foldl Change.next existing ≠ existing := by
  obtain ⟨later, whole⟩ := begins
  have inside : ∀ x ∈ c :: rest, x ∈ changes existing d := fun x member => whole ▸ List.mem_append_left later member
  have apart : Apart (c :: rest) := fun i j creates deletes =>
    changes_apart existing d i j (inside (.create i) creates) (inside (.delete j) deletes)
  intro same
  cases c with
  | mark =>
    have marked := inside .mark List.mem_cons_self
    simp [changes] at marked
  | create i =>
    have missing := changes_mem_create.mp (inside (.create i) List.mem_cons_self)
    have there : plain i ∈ existing.indexes := by
      rw [← same, mem_after apart]
      exact ⟨.inr ⟨i, List.mem_cons_self, rfl⟩, fun j => apart i j List.mem_cons_self⟩
    exact missing.2 (plain i) there rfl
  | delete j =>
    have extra := changes_mem_delete.mp (inside (.delete j) List.mem_cons_self)
    have there := extra.1
    rw [← same, mem_after apart] at there
    exact there.2 j List.mem_cons_self rfl

/-! ### One change -/

section
variable {S : Serde}

/-- A backfill succeeds if every document can be filed. -/
theorem backfill_ok {d : StoreDef} {store name : String} {index : IndexDef} {docs : List (Bytes × Bytes)}
    {records : List InternalRecord} : (∃ out, backfill S d store name index docs records = .ok out) ↔
      ∀ e ∈ docs, ∃ doc, decodeDoc S e.2 = .ok doc ∧ (extractIndexValues doc index ≠ [] →
        ∃ key, encodePrimaryKey S ((extractField doc d.keyPath).getD .null) = .ok key) := by
  induction docs generalizing records with
  | nil => simp [backfill]
  | cons e rest ih =>
    obtain ⟨key, bytes⟩ := e
    rw [List.forall_mem_cons]
    constructor
    · rintro ⟨out, done⟩
      obtain ⟨doc, decoded, done⟩ := bind_ok done
      obtain ⟨entries, mapped, done⟩ := bind_ok done
      -- The key is computed once for each value, so not at all for a document without values.
      refine ⟨⟨doc, decoded, fun some_values => ?_⟩, ih.mp ⟨out, done⟩⟩
      cases values : extractIndexValues doc index with
      | nil => exact absurd values some_values
      | cons vals more =>
        rw [values, List.mapM_cons] at mapped
        obtain ⟨_, first, _⟩ := bind_ok mapped
        obtain ⟨key, encoded, _⟩ := bind_ok first
        exact ⟨key, encoded⟩
    · rintro ⟨⟨doc, decoded, keyed⟩, each⟩
      have filed : ∃ entries, ((extractIndexValues doc index).mapM fun vals => do
          let key ← encodePrimaryKey S ((extractField doc d.keyPath).getD .null)
          .ok (putRecord (idxKey store name (encodeCompositeValue S vals) key) key)) = .ok entries := by
        cases values : extractIndexValues doc index with
        | nil => exact ⟨[], rfl⟩
        | cons vals more =>
          obtain ⟨key, encoded⟩ := keyed (by rw [values]; exact List.cons_ne_nil _ _)
          rw [encoded]
          exact ⟨_, mapM_map fun _ _ => rfl⟩
      obtain ⟨entries, filed⟩ := filed
      obtain ⟨out, done⟩ := ih.mpr each
      refine ⟨out, ?_⟩
      rw [backfill, decoded, ok_bind, filed, ok_bind]
      exact done

theorem schemaRecord_ok {d : StoreDef} : (∃ record, schemaRecord S d = .ok record) ↔ Printed S d := by
  unfold schemaRecord Printed
  cases S.toVec d.toValue with
  | none => simp
  | some text => simp

def attempted (db : JsonDB) : Except FlowError JsonDB → Except FlowError Unit × JsonDB
  | .ok after => (.ok (), after)
  | .error e => (.error e, db)

/-- A change takes effect whole or not at all. -/
theorem attempted_cases {db : JsonDB} {attempt : Except FlowError JsonDB} {P : Prop} {Q : JsonDB → Prop}
    (iff : (∃ after, attempt = .ok after) ↔ P) (kept : ∀ after, attempt = .ok after → Q after) :
    (P ∧ ∃ after, attempted db attempt = (.ok (), after) ∧ Q after) ∨ (¬P ∧ ∃ e, attempted db attempt = (.error e, db)) := by
  cases attempt with
  | ok after => exact .inl ⟨iff.mp ⟨after, rfl⟩, after, rfl, kept after rfl⟩
  | error e => exact .inr ⟨fun holds => (nomatch (iff.mpr holds).choose_spec), e, rfl⟩

/-- The store has the definition, and the documents it had at the start. -/
structure Standing (start db : JsonDB) (store : String) (d : StoreDef) : Prop where
  defined : db.schema.get? store = some d
  named : d.name = store
  distinct : (d.indexes.map IndexDef.name).Nodup
  docs : ∀ key, db.engine.get? (docKey store key) = start.engine.get? (docKey store key)

variable {start db : JsonDB} {store : String} {d : StoreDef} (standing : Standing start db store d)
include standing

theorem standing_getStore : getStore db store = .ok d := getStore_of standing.defined

theorem standing_fillable (idx : IndexDef) : (∀ e ∈ scan db.engine (prefixRange (docPrefix store)), ∃ doc, decodeDoc S e.2 = .ok doc ∧
    (extractIndexValues doc idx ≠ [] → ∃ key, encodePrimaryKey S ((extractField doc d.keyPath).getD .null) = .ok key)) ↔
      Fillable S start d.name d.keyPath idx := by
  rw [standing.named]
  constructor
  · intro each key bytes there
    rw [← standing.docs] at there
    exact each (docKey store key, bytes) ((mem_prefixScan ..).mpr ⟨there, docPrefix_isPrefix store key⟩)
  · intro fillable e member
    obtain ⟨present, starts⟩ := (mem_prefixScan ..).mp member
    obtain ⟨key, named⟩ := owns_docs starts
    rw [named, standing.docs] at present
    exact fillable key e.2 present

/-- A change after which the definition has a record of its own. -/
theorem standing_written {records : List InternalRecord} {d' : StoreDef} (named : d'.name = store)
    (distinct : (d'.indexes.map IndexDef.name).Nodup) (aside : ∀ r ∈ records, ∀ key, ¬Touches r (docKey store key)) :
    Standing start ⟨writeInternal db.engine records, db.schema.insert d'.name d'⟩ store d' := by
  refine ⟨?_, named, distinct, fun key => ?_⟩
  · rw [named]
    exact get?_insert_self ..
  · exact (writeInternal_untouched _ fun r member => aside r member key).trans (standing.docs key)

theorem createIndexOf_eq (idx : IndexDef) : createIndexOf S store idx db = attempted db (do
    validateIndexDef d idx.name idx.keyPaths
    let record ← schemaRecord S (StoreDef.withIndex d (plain idx))
    let records ← backfill S (StoreDef.withIndex d (plain idx)) store idx.name (plain idx)
      (scan db.engine (prefixRange (docPrefix store))) [record]
    .ok ⟨writeInternal db.engine records,
      db.schema.insert (StoreDef.withIndex d (plain idx)).name (StoreDef.withIndex d (plain idx))⟩) := by
  unfold createIndexOf createIndex
  rw [standing_getStore standing]
  rfl

theorem deleteIndexOf_eq (idx : IndexDef) : deleteIndexOf S store idx db = attempted db (do
    let pos ← requireIndex d store idx.name
    let records ← deleteIndexRecords S { d with indexes := d.indexes.eraseIdx pos } store idx.name
    .ok ⟨writeInternal db.engine records, db.schema.insert d.name { d with indexes := d.indexes.eraseIdx pos }⟩) := by
  unfold deleteIndexOf deleteIndex
  rw [standing_getStore standing]
  rfl

theorem markAutoIncrement_eq : markAutoIncrement S db store = attempted db (do
    let record ← schemaRecord S { d with autoIncrement := true }
    .ok ⟨writeInternal db.engine [record], db.schema.insert d.name { d with autoIncrement := true }⟩) := by
  unfold markAutoIncrement
  rw [standing_getStore standing]
  rfl

theorem create_cases (idx : IndexDef) : (Change.Takes S start d (.create idx) ∧
      ∃ after, createIndexOf S store idx db = (.ok (), after) ∧ Standing start after store (Change.next d (.create idx))) ∨
    (¬Change.Takes S start d (.create idx) ∧ ∃ e, createIndexOf S store idx db = (.error e, db)) := by
  rw [createIndexOf_eq standing]
  refine attempted_cases ⟨?_, ?_⟩ ?_
  · rintro ⟨after, done⟩
    obtain ⟨_, validated, done⟩ := bind_ok done
    obtain ⟨record, written, done⟩ := bind_ok done
    obtain ⟨records, filled, _⟩ := bind_ok done
    have each := backfill_ok.mp ⟨records, filled⟩
    exact ⟨validated, schemaRecord_ok.mp ⟨record, written⟩, (standing_fillable standing (plain idx)).mp each⟩
  · rintro ⟨validated, printed, fillable⟩
    obtain ⟨record, written⟩ := schemaRecord_ok.mpr printed
    change schemaRecord S (StoreDef.withIndex d (plain idx)) = _ at written
    obtain ⟨records, filled⟩ := (@backfill_ok S (StoreDef.withIndex d (plain idx)) store idx.name (plain idx) _ [record]).mpr
      ((standing_fillable standing (plain idx)).mpr fillable)
    rw [validated, ok_bind, written, ok_bind, filled]
    exact ⟨_, rfl⟩
  · intro after done
    obtain ⟨_, validated, done⟩ := bind_ok done
    obtain ⟨record, written, done⟩ := bind_ok done
    obtain ⟨records, filled, done⟩ := bind_ok done
    obtain rfl := Except.ok.inj done
    obtain ⟨text, _, rfl⟩ := schemaRecord_printed written
    obtain ⟨entries, rfl, each⟩ := backfill_appends filled
    obtain ⟨_, new⟩ := @prepareIndex_fresh S d (plain idx) _ (by
      unfold prepareIndex
      dsimp only [plain]
      rw [validated]
      exact written)
    refine standing_written standing standing.named ?_ fun r member key touched => ?_
    · change ((d.indexes ++ [plain idx]).map IndexDef.name).Nodup
      rw [List.map_append]
      refine List.nodup_append.mpr ⟨standing.distinct, List.nodup_singleton _, fun name inside name' inside' same => ?_⟩
      obtain ⟨own, there, rfl⟩ := List.mem_map.mp inside
      exact new own there (same.trans (List.mem_singleton.mp inside'))
    · rcases List.mem_append.mp member with first | entry
      · obtain rfl := List.mem_singleton.mp first
        exact absurd (List.cons.inj (show docKey store key = _ from touched)).1 (by decide)
      · obtain ⟨value, key', rfl⟩ := each r entry
        exact absurd (List.cons.inj (show docKey store key = _ from touched)).1 (by decide)

theorem delete_cases (idx : IndexDef) : (Change.Takes S start d (.delete idx) ∧
      ∃ after, deleteIndexOf S store idx db = (.ok (), after) ∧ Standing start after store (Change.next d (.delete idx))) ∨
    (¬Change.Takes S start d (.delete idx) ∧ ∃ e, deleteIndexOf S store idx db = (.error e, db)) := by
  have erased : ∀ pos, requireIndex d store idx.name = .ok pos →
      { d with indexes := d.indexes.eraseIdx pos } = Change.next d (.delete idx) := fun pos found => by
    rw [erased_eq standing.distinct found]
    rfl
  rw [deleteIndexOf_eq standing]
  refine attempted_cases ⟨?_, ?_⟩ ?_
  · rintro ⟨after, done⟩
    obtain ⟨pos, required, done⟩ := bind_ok done
    obtain ⟨records, made, _⟩ := bind_ok done
    obtain ⟨record, written, _⟩ := bind_ok made
    rw [erased pos required] at written
    exact ⟨requireIndex_ok required, schemaRecord_ok.mp ⟨record, written⟩⟩
  · rintro ⟨⟨own, inside, named⟩, printed⟩
    obtain ⟨record, written⟩ := schemaRecord_ok.mpr printed
    have there : (d.indexes.findIdx? fun i => i.name == idx.name) ≠ none := fun none_there => by
      have unnamed := List.findIdx?_eq_none_iff.mp none_there own inside
      simp [named] at unnamed
    obtain ⟨pos, there⟩ := Option.ne_none_iff_exists'.mp there
    have required : requireIndex d store idx.name = .ok pos := by rw [requireIndex, there]
    rw [required, ok_bind, erased pos required, deleteIndexRecords, written]
    exact ⟨_, rfl⟩
  · intro after done
    obtain ⟨pos, required, done⟩ := bind_ok done
    obtain ⟨records, made, done⟩ := bind_ok done
    obtain rfl := Except.ok.inj done
    obtain ⟨record, written, made⟩ := bind_ok made
    obtain rfl := Except.ok.inj made
    obtain ⟨text, _, rfl⟩ := schemaRecord_printed written
    rw [erased pos required]
    refine @standing_written start db store d standing _ (Change.next d (.delete idx)) standing.named
      (standing.distinct.sublist (List.filter_sublist.map _)) fun r member key touched => ?_
    rcases List.mem_cons.mp member with rfl | last
    · exact docKey_unowned store idx.name key ((between_increment (idxPrefix_tagged store idx.name)).mp touched)
    · obtain rfl := List.mem_singleton.mp last
      exact absurd (List.cons.inj (show docKey store key = _ from touched)).1 (by decide)

theorem mark_cases : (Change.Takes S start d .mark ∧
      ∃ after, markAutoIncrement S db store = (.ok (), after) ∧ Standing start after store (Change.next d .mark)) ∨
    (¬Change.Takes S start d .mark ∧ ∃ e, markAutoIncrement S db store = (.error e, db)) := by
  rw [markAutoIncrement_eq standing]
  refine attempted_cases ⟨?_, ?_⟩ ?_
  · rintro ⟨after, done⟩
    obtain ⟨record, written, _⟩ := bind_ok done
    exact schemaRecord_ok.mp ⟨record, written⟩
  · intro printed
    obtain ⟨record, written⟩ := schemaRecord_ok.mpr printed
    change schemaRecord S { d with autoIncrement := true } = _ at written
    rw [written]
    exact ⟨_, rfl⟩
  · intro after done
    obtain ⟨record, written, done⟩ := bind_ok done
    obtain rfl := Except.ok.inj done
    obtain ⟨text, _, rfl⟩ := schemaRecord_printed written
    refine @standing_written start db store d standing _ (Change.next d .mark) standing.named standing.distinct
      fun r member key touched => ?_
    obtain rfl := List.mem_singleton.mp member
    exact absurd (List.cons.inj (show docKey store key = _ from touched)).1 (by decide)

/-- A change is made if the definition takes it, else nothing is. -/
theorem perform_cases (c : Change) : (c.Takes S start d ∧
      ∃ after, c.perform S store db = (.ok (), after) ∧ Standing start after store (c.next d)) ∨
    (¬c.Takes S start d ∧ ∃ e, c.perform S store db = (.error e, db)) := by
  cases c with
  | mark => exact mark_cases standing
  | create idx => exact create_cases standing idx
  | delete idx => exact delete_cases standing idx

end

/-! ### All of them -/

section
variable {S : Serde} {start : JsonDB} {store : String}

/-- All changes are made, or those before the first that the definition does not take. -/
theorem forEach_cases {db : JsonDB} {d : StoreDef} (standing : Standing start db store d) (cs : List Change) :
    (TakesAll S start d cs ∧
      ∃ after, forEach (Change.perform S store) cs db = (.ok (), after) ∧ Standing start after store (cs.foldl Change.next d)) ∨
    (¬TakesAll S start d cs ∧ ∃ e after done c rest, cs = done ++ c :: rest ∧ TakesAll S start d done ∧
      forEach (Change.perform S store) cs db = (.error e, after) ∧ Standing start after store (done.foldl Change.next d) ∧
        (done = [] → after = db ∧ ¬c.Takes S start d)) := by
  induction cs generalizing db d with
  | nil => exact .inl ⟨trivial, db, rfl, standing⟩
  | cons c rest ih =>
    rw [forEach]
    obtain ⟨takes, after, performed, standing'⟩ | ⟨refuses, e, performed⟩ := perform_cases (S := S) standing c
    · rw [performed]
      obtain ⟨all, last, done, standing''⟩ | ⟨not_all, e, last, done, c', rest', rfl, before, failed, standing'', _⟩ := ih standing'
      · exact .inl ⟨⟨takes, all⟩, last, done, standing''⟩
      · exact .inr ⟨fun all => not_all all.2, e, last, c :: done, c', rest', rfl, ⟨takes, before⟩, failed, standing'', nofun⟩
    · rw [performed]
      exact .inr ⟨fun all => refuses all.1, e, db, [], c, rest, rfl, trivial, rfl, standing, fun _ => ⟨rfl, refuses⟩⟩

theorem forEach_append {α : Type} (call : α → JsonDB → Except FlowError Unit × JsonDB) (a b : List α) (db : JsonDB) :
    forEach call (a ++ b) db = andThen (forEach call a db) (forEach call b) := by
  induction a generalizing db with
  | nil => rfl
  | cons x rest ih =>
    rw [List.cons_append, forEach, forEach]
    obtain ⟨result, after⟩ := call x db
    cases result with
    | error e => rfl
    | ok _ => exact ih after

theorem forEach_map {α β : Type} (call : β → JsonDB → Except FlowError Unit × JsonDB) (f : α → β) (items : List α) (db : JsonDB) :
    forEach call (items.map f) db = forEach (fun x => call (f x)) items db := by
  induction items generalizing db with
  | nil => rfl
  | cons x rest ih =>
    rw [List.map_cons, forEach, forEach]
    exact congrArg _ (funext ih)

theorem andThen_done (done : Except FlowError Unit × JsonDB) : andThen done (fun db => (.ok (), db)) = done := by
  obtain ⟨result, after⟩ := done
  cases result <;> rfl

variable {debugPaths : List String → String}

theorem checkConflicts_ok {existing d : StoreDef} : checkConflicts debugPaths existing d = .ok () ↔ ¬Conflicts existing d := by
  unfold checkConflicts Conflicts
  push Not
  constructor
  · intro fine idx inside ex found
    have checked := forM_ok fine idx inside
    rw [found] at checked
    dsimp only at checked
    split_ifs at checked with differs
    push Not at differs
    exact differs
  · intro calm
    refine forM_of_ok fun idx inside => ?_
    split
    · next other found =>
      obtain ⟨paths, unique⟩ := calm idx inside other found
      rw [if_neg (by simp [paths, unique])]
    · rfl

theorem changes_opened (d : StoreDef) : changes (opened d) d = d.indexes.map .create := by simp [changes, opened]

theorem applyStore_new {db : JsonDB} {d : StoreDef} (absent : db.schema.get? d.name = none) :
    applyStore S debugPaths db d =
      andThen (createObjectStore S db d.name d.keyPath) (forEach (Change.perform S d.name) (newChanges d)) := by
  unfold applyStore
  rw [absent]
  refine congrArg (andThen _) (funext fun db => ?_)
  rw [newChanges, changes_opened, forEach_append]
  have creates : forEach (Change.perform S d.name) (d.indexes.map .create) = forEach (createIndexOf S d.name) d.indexes :=
    funext (forEach_map (Change.perform S d.name) .create d.indexes)
  rw [creates]
  split_ifs
  · exact congrArg (andThen · _) (andThen_done _).symm
  · rfl

theorem applyStore_existing {db : JsonDB} {d existing : StoreDef} (present : db.schema.get? d.name = some existing)
    (same : existing.keyPath = d.keyPath) (calm : ¬Conflicts existing d) :
    applyStore S debugPaths db d = forEach (Change.perform S d.name) (changes existing d) db := by
  unfold applyStore
  rw [present]
  dsimp only
  rw [if_neg (not_not.mpr same), checkConflicts_ok.mpr calm, changes, forEach_append]
  dsimp only
  rw [forEach_map]
  have deletes : forEach (Change.perform S d.name) (List.map .delete _) = forEach (deleteIndexOf S d.name) _ :=
    funext (forEach_map (Change.perform S d.name) .delete
      (existing.indexes.filter fun ex => !d.indexes.any fun i => i.name == ex.name))
  rw [deletes]
  rfl

theorem applyStore_refused {db : JsonDB} {d existing : StoreDef} (present : db.schema.get? d.name = some existing)
    (refused : existing.keyPath ≠ d.keyPath ∨ Conflicts existing d) : ∃ e, applyStore S debugPaths db d = (.error e, db) := by
  unfold applyStore
  rw [present]
  dsimp only
  split_ifs with differs
  · exact ⟨_, rfl⟩
  · cases checked : checkConflicts debugPaths existing d with
    | error e => exact ⟨e, rfl⟩
    | ok _ => exact absurd (refused.resolve_left differs) (checkConflicts_ok.mp checked)

/-- What creating a store does where there is none. -/
theorem open_cases {db : JsonDB} {d : StoreDef} (absent : db.schema.get? d.name = none) :
    (Opens S d ∧ ∃ after, createObjectStore S db d.name d.keyPath = (.ok (), after) ∧ Standing db after d.name (opened d)) ∨
    (¬Opens S d ∧ ∃ e, createObjectStore S db d.name d.keyPath = (.error e, db)) := by
  have shape : createObjectStore S db d.name d.keyPath = attempted db (do
      validateStoreDef d.name d.keyPath
      let record ← schemaRecord S (opened d)
      .ok ⟨writeInternal db.engine [record], db.schema.insert d.name (opened d)⟩) := by
    unfold createObjectStore
    rw [absent]
    rfl
  rw [shape]
  refine attempted_cases ⟨?_, ?_⟩ ?_
  · rintro ⟨after, done⟩
    obtain ⟨_, validated, done⟩ := bind_ok done
    obtain ⟨record, written, _⟩ := bind_ok done
    exact ⟨validated, schemaRecord_ok.mp ⟨record, written⟩⟩
  · rintro ⟨validated, printed⟩
    obtain ⟨record, written⟩ := schemaRecord_ok.mpr printed
    rw [validated, ok_bind, written]
    exact ⟨_, rfl⟩
  · intro after done
    obtain ⟨_, validated, done⟩ := bind_ok done
    obtain ⟨record, written, done⟩ := bind_ok done
    obtain rfl := Except.ok.inj done
    obtain ⟨text, _, rfl⟩ := schemaRecord_printed written
    refine ⟨get?_insert_self .., rfl, List.nodup_nil, fun key => ?_⟩
    refine (get?_put ..).trans (if_neg fun same => ?_)
    exact absurd (List.cons.inj same).1 (by decide)

/-! ### The definition that is reached -/

/-- Changes that create what is requested and missing, and delete what is there and not requested. -/
structure Leads (base d : StoreDef) (cs : List Change) : Prop where
  create : ∀ i, .create i ∈ cs ↔ i ∈ d.indexes ∧ ∀ own ∈ base.indexes, own.name ≠ i.name
  delete : ∀ j, .delete j ∈ cs ↔ j ∈ base.indexes ∧ ∀ own ∈ d.indexes, own.name ≠ j.name

theorem changes_lead (existing d : StoreDef) : Leads existing d (changes existing d) :=
  ⟨fun _ => changes_mem_create, fun _ => changes_mem_delete⟩

theorem newChanges_lead (d : StoreDef) : Leads (opened d) d (newChanges d) := by
  constructor <;> intro i <;> rw [newChanges, changes_opened] <;> simp [opened]

section
variable {base d : StoreDef} {cs : List Change} (leads : Leads base d cs)
include leads

theorem leads_apart : Apart cs := fun i j creates deletes =>
  ((leads.delete j).mp deletes).2 i ((leads.create i).mp creates).1

/-- Every requested index is found, with several entries if it had them before. -/
theorem requested_found (calm : ¬Conflicts base d) {idx : IndexDef} (inside : idx ∈ d.indexes) :
    { idx with multiEntry := ((base.indexes.find? fun i => i.name == idx.name).map IndexDef.multiEntry).getD false } ∈
      (cs.foldl Change.next base).indexes := by
  rw [mem_after (leads_apart leads)]
  have kept : ∀ j, .delete j ∈ cs → idx.name ≠ j.name := fun j deletes => ((leads.delete j).mp deletes).2 idx inside
  cases found : base.indexes.find? fun i => i.name == idx.name with
  | none =>
    refine ⟨.inr ⟨idx, (leads.create idx).mpr ⟨inside, fun own there same => ?_⟩, rfl⟩, kept⟩
    have unnamed := List.find?_eq_none.mp found own there
    simp [same] at unnamed
  | some ex =>
    have named : ex.name = idx.name := by simpa using List.find?_some found
    have agree : ex.keyPaths = idx.keyPaths ∧ ex.unique = idx.unique := by
      by_contra differs
      refine calm ⟨idx, inside, ex, found, ?_⟩
      rwa [not_and_or] at differs
    have same : { idx with multiEntry := ((some ex).map IndexDef.multiEntry).getD false } = ex := by
      rw [← named, ← agree.1, ← agree.2]
      rfl
    rw [same]
    exact ⟨.inl (List.mem_of_find?_eq_some found), fun j deletes => named.trans_ne (kept j deletes)⟩

/-- Every index that is found was requested. -/
theorem found_requested {g : IndexDef} (found : g ∈ (cs.foldl Change.next base).indexes) :
    ∃ idx ∈ d.indexes, idx.name = g.name := by
  obtain ⟨old | ⟨i, creates, rfl⟩, kept⟩ := (mem_after (leads_apart leads) base g).mp found
  · by_contra none_requested
    push Not at none_requested
    exact kept g ((leads.delete g).mpr ⟨old, none_requested⟩) rfl
  · exact ⟨i, ((leads.create i).mp creates).1, rfl⟩

variable (calm : ¬Conflicts base d) (distinct : ((cs.foldl Change.next base).indexes.map IndexDef.name).Nodup)
include calm distinct

theorem found_eq {g idx : IndexDef} (found : g ∈ (cs.foldl Change.next base).indexes) (inside : idx ∈ d.indexes)
    (same : idx.name = g.name) :
    g = { idx with multiEntry := ((base.indexes.find? fun i => i.name == idx.name).map IndexDef.multiEntry).getD false } :=
  List.inj_on_of_nodup_map distinct found (requested_found leads calm inside) same.symm

/-- The indexes are those requested exactly if each has several entries as requested. -/
theorem indexes_iff : (∀ idx, idx ∈ (cs.foldl Change.next base).indexes ↔ idx ∈ d.indexes) ↔
    ∀ idx ∈ d.indexes, idx.multiEntry = ((base.indexes.find? fun i => i.name == idx.name).map IndexDef.multiEntry).getD false := by
  constructor
  · intro same idx inside
    exact congrArg IndexDef.multiEntry (found_eq leads calm distinct ((same idx).mpr inside) inside rfl)
  · intro carried idx
    constructor
    · intro found
      obtain ⟨own, inside, named⟩ := found_requested leads found
      rw [found_eq leads calm distinct found inside named, ← carried own inside]
      exact inside
    · intro inside
      have there := requested_found leads calm inside
      rwa [← carried idx inside] at there

/-- Applied again, the request finds nothing to do. -/
theorem applied_again {after : JsonDB} (defined : after.schema.get? d.name = some (cs.foldl Change.next base))
    (keyPath : base.keyPath = d.keyPath) : applyStore S debugPaths after d = (.ok (), after) := by
  have calm' : ¬Conflicts (cs.foldl Change.next base) d := by
    rintro ⟨idx, inside, ex, found, differs⟩
    have named : ex.name = idx.name := by simpa using List.find?_some found
    rw [found_eq leads calm distinct (List.mem_of_find?_eq_some found) inside named.symm] at differs
    exact differs.elim (· rfl) (· rfl)
  have done : changes (cs.foldl Change.next base) d = [] := by
    refine List.eq_nil_iff_forall_not_mem.mpr fun c member => ?_
    cases c with
    | mark => simp [changes] at member
    | create i =>
      obtain ⟨inside, missing⟩ := changes_mem_create.mp member
      exact missing _ (requested_found leads calm inside) rfl
    | delete j =>
      obtain ⟨found, extra⟩ := changes_mem_delete.mp member
      obtain ⟨idx, inside, named⟩ := found_requested leads found
      exact extra idx inside named
  rw [applyStore_existing defined ((keyPath_after cs base).trans keyPath) calm', done]
  rfl

/-- When all changes are made, the store is as requested if what is left as it was is. -/
theorem converged_iff {after : JsonDB} {start : JsonDB} (standing : Standing start after d.name (cs.foldl Change.next base))
    (keyPath : base.keyPath = d.keyPath) :
    ((∃ found, after.schema.get? d.name = some found ∧ Converged found d) ∧ applyStore S debugPaths after d = (.ok (), after)) ↔
      (cs.foldl Change.next base).autoIncrement = d.autoIncrement ∧ ∀ idx ∈ d.indexes,
        idx.multiEntry = ((base.indexes.find? fun i => i.name == idx.name).map IndexDef.multiEntry).getD false := by
  rw [← indexes_iff leads calm distinct]
  constructor
  · rintro ⟨⟨found, defined, converged⟩, _⟩
    obtain rfl := Option.some.inj (standing.defined.symm.trans defined)
    exact ⟨converged.autoIncrement, converged.indexes⟩
  · rintro ⟨counts, same⟩
    exact ⟨⟨_, standing.defined, (keyPath_after cs base).trans keyPath, counts, same⟩,
      applied_again leads calm distinct standing.defined keyPath⟩

end

theorem opened_autoIncrement (d : StoreDef) : ((newChanges d).foldl Change.next (opened d)).autoIncrement = d.autoIncrement := by
  rw [Bool.eq_iff_iff, autoIncrement_after]
  simp [newChanges, changes, opened]

theorem existing_autoIncrement (existing d : StoreDef) :
    ((changes existing d).foldl Change.next existing).autoIncrement = existing.autoIncrement := by
  rw [Bool.eq_iff_iff, autoIncrement_after]
  simp [changes]

end

def usersDb : JsonDB := (createObjectStore usersSerde ⟨∅, ∅⟩ "users" "id").2

end FlowDb.AppliedStores
