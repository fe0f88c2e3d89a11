import FlowDb.StoreIsolation

/-! The schema and its records on disk. Every schema call writes the engine and the
in-memory schema separately; `load_schemas` reads the records back through a derived
reader for stores and a hand-written one for indexes. -/
namespace FlowDb.SchemaRecords
open ByteString OrderedMap Records JsonValue JsonEncoding JsonDb JsonTransaction JsonIndexes JsonStores JsonSessions
open KeySpace StoreIsolation

/-! ### Reading a definition -/

mutual
/-- The value that the parser makes of what is printed: members in key order, the last of several with one key. -/
def inOrder : Value → Value
  | .array items => .array (itemsInOrder items)
  | .object members => .object (membersInOrder members)
  | other => other

def itemsInOrder : List Value → List Value
  | [] => []
  | item :: rest => inOrder item :: itemsInOrder rest

def membersInOrder : List (String × Value) → List (String × Value)
  | [] => []
  | (name, value) :: rest =>
      if (membersInOrder rest).any fun m => m.1 == name then membersInOrder rest
      else insertSorted name (inOrder value) (membersInOrder rest)
end

/-- serde_json is faithful: what it prints it reads back, with the members of each object in key order. -/
def Faithful (S : Serde) : Prop :=
  ∀ v text, (inOrder v).wellFormed = true → S.toVec v = some text → S.fromSlice text = some (inOrder v)

/-- The fields of a struct as a derived reader takes them: by name from an object, by position from an array. A field
may go by several names, but a value has it under one of them only. -/
def structFields (names : List (List String)) : Value → Option (List (Option Value))
  | .object members => names.mapM fun aliases =>
      match members.filter fun m => aliases.contains m.1 with
      | [] => some none
      | [m] => some (some m.2)
      | _ => none
  | .array items => if items.length = names.length then some (items.map some) else none
  | _ => none

def readString : Option Value → Option String
  | some (.string s) => some s
  | _ => none

def readBool : Option Value → Option Bool
  | some (.bool b) => some b
  | _ => none

def readOptionalBool : Option Value → Option (Option Bool)
  | none => some none
  | some .null => some none
  | some (.bool b) => some (some b)
  | _ => none

def readU64 : Option Value → Option UInt64
  | some (.number (.posInt n)) => some n
  | _ => none

def stringOf : Value → Option String
  | .string s => some s
  | _ => none

/-- One path or an array of them; what is not a string is passed over. -/
def readKeyPaths : Option Value → Option (List String)
  | some (.string s) => some [s]
  | some (.array items) => if (items.filterMap stringOf).isEmpty then none else some (items.filterMap stringOf)
  | _ => none

/-- `IndexDef::deserialize` -/
def readIndexDef (v : Value) : Option IndexDef :=
  match structFields [["name"], ["key_path", "key_paths"], ["unique"], ["multi_entry"]] v with
  | some [name, keyPath, unique, multiEntry] => do
      let name ← readString name
      let unique ← readOptionalBool unique
      let multiEntry ← readOptionalBool multiEntry
      let keyPaths ← readKeyPaths keyPath
      some ⟨keyPaths, name, unique.getD false, multiEntry.getD false⟩
  | _ => none

def readIndexes : Option Value → Option (List IndexDef)
  | some (.array items) => items.mapM readIndexDef
  | _ => none

def readStoreDef (v : Value) : Option StoreDef :=
  match structFields [["name"], ["key_path"], ["auto_increment"], ["indexes"], ["next_auto_id"]] v with
  | some [name, keyPath, autoIncrement, indexes, nextAutoId] => do
      let name ← readString name
      let keyPath ← readString keyPath
      let autoIncrement ← readBool autoIncrement
      let indexes ← readIndexes indexes
      let nextAutoId ← readU64 nextAutoId
      some ⟨name, keyPath, autoIncrement, indexes, nextAutoId⟩
  | _ => none

section
variable (S : Serde)

def loadRecord (schema : OMap String StoreDef) (record : Bytes × Bytes) : Except FlowError (OMap String StoreDef) :=
  match (S.fromSlice record.2).bind readStoreDef with
  | some d => .ok (schema.insert d.name d)
  | none => .error .json

def schemaPrefix : Bytes := [schTag]

def loadSchemas (engine : JsonDb.Engine) : Except FlowError (OMap String StoreDef) :=
  (JsonDb.scan engine (prefixRange schemaPrefix)).foldlM (loadRecord S) ∅

end

/-! A value and what is read back of it have the same members. -/

theorem membersInOrder_sorted (members : List (String × Value)) :
    (membersInOrder members).Pairwise fun a b => a.1 < b.1 := by
  induction members with
  | nil => exact .nil
  | cons head rest ih =>
    obtain ⟨name, value⟩ := head
    rw [membersInOrder]
    split_ifs
    · exact ih
    · exact insertSorted_sorted name _ _ ih

theorem mem_membersInOrder {members : List (String × Value)} {m : String × Value} (member : m ∈ membersInOrder members) :
    ∃ value, (m.1, value) ∈ members ∧ m.2 = inOrder value := by
  induction members with
  | nil => cases member
  | cons head rest ih =>
    obtain ⟨name, value⟩ := head
    have later : m ∈ membersInOrder rest → ∃ value', (m.1, value') ∈ (name, value) :: rest ∧ m.2 = inOrder value' := by
      intro inside
      obtain ⟨value', there, same⟩ := ih inside
      exact ⟨value', List.mem_cons_of_mem _ there, same⟩
    rw [membersInOrder] at member
    split_ifs at member
    · exact later member
    · rcases (mem_insertSorted _ _ _ (membersInOrder_sorted rest) m).mp member with rfl | ⟨inside, _⟩
      · exact ⟨value, List.mem_cons_self, rfl⟩
      · exact later inside

theorem membersInOrder_perm {members : List (String × Value)} (distinct : (members.map Prod.fst).Nodup) :
    (membersInOrder members).Perm (members.map fun m => (m.1, inOrder m.2)) := by
  induction members with
  | nil => exact .nil
  | cons head rest ih =>
    obtain ⟨name, value⟩ := head
    obtain ⟨fresh, distinct⟩ := List.nodup_cons.mp distinct
    have absent : ∀ m ∈ membersInOrder rest, m.1 ≠ name := by
      rintro m member rfl
      obtain ⟨value', there, _⟩ := mem_membersInOrder member
      exact fresh (List.mem_map.mpr ⟨_, there, rfl⟩)
    have sorted := membersInOrder_sorted rest
    have nodup : ∀ l : List (String × Value), (l.Pairwise fun a b => a.1 < b.1) → l.Nodup := fun l ordered =>
      ordered.imp fun below same => ne_of_lt below (congrArg Prod.fst same)
    have unseen : ¬((membersInOrder rest).any fun m => m.1 == name) = true := by
      rw [List.any_eq_true]
      rintro ⟨m, member, same⟩
      exact absent m member (beq_iff_eq.mp same)
    rw [membersInOrder, if_neg unseen, List.map_cons]
    refine .trans ((List.perm_ext_iff_of_nodup (nodup _ (insertSorted_sorted name _ _ sorted)) ?_).mpr fun m => ?_)
      ((ih distinct).cons _)
    · exact List.nodup_cons.mpr ⟨fun inside => absent _ inside rfl, nodup _ sorted⟩
    · rw [mem_insertSorted _ _ _ sorted, List.mem_cons]
      exact or_congr_right ⟨fun old => old.1, fun old => ⟨old, absent m old⟩⟩

/-- The fields of a struct do not depend on the order of the members. -/
theorem structFields_perm (names : List (List String)) {members others : List (String × Value)}
    (perm : members.Perm others) : structFields names (.object members) = structFields names (.object others) := by
  have each : ∀ aliases : List String, (match members.filter fun m => aliases.contains m.1 with
      | [] => some none
      | [m] => some (some m.2)
      | _ => none) = (match others.filter fun m => aliases.contains m.1 with
      | [] => some (none : Option Value)
      | [m] => some (some m.2)
      | _ => none) := by
    intro aliases
    have same := perm.filter fun m => aliases.contains m.1
    cases one : members.filter fun m => aliases.contains m.1 with
    | nil => rw [one] at same; rw [List.nil_perm.mp same]
    | cons m rest =>
      cases rest with
      | nil => rw [one] at same; rw [List.singleton_perm.mp same]
      | cons m' rest =>
        cases other : others.filter fun m => aliases.contains m.1 with
        | nil => rw [one, other] at same; exact absurd same.length_eq (by simp)
        | cons o rest' =>
          cases rest' with
          | nil => rw [one, other] at same; exact absurd same.length_eq (by simp)
          | cons o' rest' => rfl
  simp only [structFields, each]

theorem structFields_inOrder (names : List (List String)) {members : List (String × Value)}
    (distinct : (members.map Prod.fst).Nodup) :
    structFields names (inOrder (.object members)) = structFields names (.object (members.map fun m => (m.1, inOrder m.2))) :=
  structFields_perm names (membersInOrder_perm distinct)

theorem inOrder_object_wellFormed {members : List (String × Value)} (each : ∀ m ∈ members, (inOrder m.2).wellFormed = true) :
    (inOrder (.object members)).wellFormed = true := by
  simp only [inOrder, Value.wellFormed, Bool.and_eq_true, decide_eq_true_eq, membersWellFormed_iff]
  refine ⟨membersInOrder_sorted members, fun m member => ?_⟩
  obtain ⟨value, there, same⟩ := mem_membersInOrder member
  exact same ▸ each _ there

theorem itemsInOrder_eq (items : List Value) : itemsInOrder items = items.map inOrder := by
  induction items with
  | nil => rfl
  | cons item rest ih => rw [itemsInOrder, ih, List.map_cons]

theorem itemsWellFormed_iff (items : List Value) : itemsWellFormed items = true ↔ ∀ v ∈ items, v.wellFormed = true := by
  induction items with
  | nil => simp [itemsWellFormed]
  | cons head rest ih => simp [itemsWellFormed, ih]

theorem inOrder_strings (paths : List String) : inOrder (.array (paths.map .string)) = .array (paths.map .string) := by
  rw [inOrder, itemsInOrder_eq, List.map_map]
  rfl

/-! ### A definition is read back as it was written -/

theorem index_wellFormed (idx : IndexDef) : (inOrder idx.toValue).wellFormed = true := by
  refine inOrder_object_wellFormed fun m member => ?_
  simp only [List.mem_cons, List.not_mem_nil, or_false] at member
  rcases member with rfl | rfl | rfl | rfl
  · rw [inOrder_strings, Value.wellFormed, itemsWellFormed_iff]
    intro v inside
    obtain ⟨path, _, rfl⟩ := List.mem_map.mp inside
    rfl
  all_goals rfl

theorem readIndexDef_written (idx : IndexDef) (paths : idx.keyPaths ≠ []) : readIndexDef (inOrder idx.toValue) = some idx := by
  have strings : (idx.keyPaths.map Value.string).filterMap stringOf = idx.keyPaths := by
    rw [List.filterMap_map]
    exact List.filterMap_some
  have keyPaths : readKeyPaths (some (.array (idx.keyPaths.map .string))) = some idx.keyPaths := by
    simp [readKeyPaths, strings, paths]
  have fields : structFields [["name"], ["key_path", "key_paths"], ["unique"], ["multi_entry"]] (inOrder idx.toValue) =
      some [some (.string idx.name), some (.array (idx.keyPaths.map .string)), some (.bool idx.unique),
        some (.bool idx.multiEntry)] := by
    have names : (["key_paths", "name", "unique", "multi_entry"] : List String).Nodup := by decide
    rw [IndexDef.toValue]
    refine (structFields_inOrder _ ?_).trans ?_
    · exact names
    · simp only [List.map_cons, List.map_nil, inOrder_strings]
      rfl
  rw [readIndexDef, fields]
  simp [readString, readOptionalBool, keyPaths]

theorem inOrder_indexes (indexes : List IndexDef) : inOrder (.array (indexes.map IndexDef.toValue)) =
    .array (indexes.map fun idx => inOrder idx.toValue) := by
  rw [inOrder, itemsInOrder_eq, List.map_map]
  rfl

theorem store_wellFormed (d : StoreDef) : (inOrder d.toValue).wellFormed = true := by
  refine inOrder_object_wellFormed fun m member => ?_
  simp only [List.mem_cons, List.not_mem_nil, or_false] at member
  rcases member with rfl | rfl | rfl | rfl | rfl
  rotate_left 3
  · rw [inOrder_indexes, Value.wellFormed, itemsWellFormed_iff]
    intro v inside
    obtain ⟨idx, _, rfl⟩ := List.mem_map.mp inside
    exact index_wellFormed idx
  all_goals rfl

theorem readIndexes_written {indexes : List IndexDef} (paths : ∀ idx ∈ indexes, idx.keyPaths ≠ []) :
    readIndexes (some (.array (indexes.map fun idx => inOrder idx.toValue))) = some indexes := by
  rw [readIndexes]
  induction indexes with
  | nil => rfl
  | cons first rest ih =>
    rw [List.map_cons, List.mapM_cons, readIndexDef_written first (paths first List.mem_cons_self),
      ih fun idx member => paths idx (List.mem_cons_of_mem _ member)]
    rfl

theorem readStoreDef_written (d : StoreDef) (paths : ∀ idx ∈ d.indexes, idx.keyPaths ≠ []) :
    readStoreDef (inOrder d.toValue) = some d := by
  have fields : structFields [["name"], ["key_path"], ["auto_increment"], ["indexes"], ["next_auto_id"]]
      (inOrder d.toValue) = some [some (.string d.name), some (.string d.keyPath), some (.bool d.autoIncrement),
        some (.array (d.indexes.map fun idx => inOrder idx.toValue)), some (.number (.posInt d.nextAutoId))] := by
    have names : (["name", "key_path", "auto_increment", "indexes", "next_auto_id"] : List String).Nodup := by decide
    rw [StoreDef.toValue]
    refine (structFields_inOrder _ ?_).trans ?_
    · exact names
    · simp only [List.map_cons, List.map_nil, inOrder_indexes]
      rfl
  rw [readStoreDef, fields]
  simp [readString, readBool, readU64, readIndexes_written paths]

/-! ### Applying a whole definition -/

section
variable (S : Serde) (debugPaths : List String → String)

/-- One call after another, up to the first that fails; what the earlier ones did stays. -/
def andThen (done : Except FlowError Unit × JsonDB) (next : JsonDB → Except FlowError Unit × JsonDB) :
    Except FlowError Unit × JsonDB :=
  match done with
  | (.ok _, db) => next db
  | (.error e, db) => (.error e, db)

def forEach {α : Type} (call : α → JsonDB → Except FlowError Unit × JsonDB) : List α → JsonDB → Except FlowError Unit × JsonDB
  | [], db => (.ok (), db)
  | x :: rest, db => andThen (call x db) (forEach call rest)

def createIndexOf (store : String) (idx : IndexDef) (db : JsonDB) : Except FlowError Unit × JsonDB :=
  createIndex S db store idx.name idx.keyPaths idx.unique

def deleteIndexOf (store : String) (idx : IndexDef) (db : JsonDB) : Except FlowError Unit × JsonDB :=
  deleteIndex S db store idx.name

/-- The loop over indexes of one name and different definitions. -/
def checkConflicts (existing d : StoreDef) : Except FlowError Unit :=
  d.indexes.forM fun idx =>
    match existing.indexes.find? fun i => i.name == idx.name with
    | some other =>
      if other.keyPaths ≠ idx.keyPaths ∨ other.unique ≠ idx.unique then
        .error (.jsonDb <| "index '" ++ idx.name ++ "' on store '" ++ d.name ++ "' already exists with different definition " ++
          "(key_paths=" ++ debugPaths other.keyPaths ++ ", unique=" ++ toString other.unique ++ ") vs requested " ++
          "(key_paths=" ++ debugPaths idx.keyPaths ++ ", unique=" ++ toString idx.unique ++ ")")
      else .ok ()
    | none => .ok ()

def applyStore (db : JsonDB) (d : StoreDef) : Except FlowError Unit × JsonDB :=
  match db.schema.get? d.name with
  | none =>
      andThen (createObjectStore S db d.name d.keyPath) fun db =>
        andThen (if d.autoIncrement then markAutoIncrement S db d.name else (.ok (), db)) fun db =>
          forEach (createIndexOf S d.name) d.indexes db
  | some existing =>
      if existing.keyPath ≠ d.keyPath then
        (.error (.jsonDb <| "store '" ++ d.name ++ "' already exists with a different key_path ('" ++ existing.keyPath ++
          "' vs '" ++ d.keyPath ++ "')"), db)
      else
        match checkConflicts debugPaths existing d with
        | .error e => (.error e, db)
        | .ok _ =>
            andThen (forEach (createIndexOf S d.name)
              (d.indexes.filter fun idx => !existing.indexes.any fun i => i.name == idx.name) db) fun db =>
              forEach (deleteIndexOf S d.name) (existing.indexes.filter fun ex => !d.indexes.any fun i => i.name == ex.name) db

inductive SchemaCall where
  | createObjectStore (name keyPath : String)
  | deleteObjectStore (name : String)
  | createIndex (store name : String) (keyPaths : List String) (unique : Bool)
  | deleteIndex (store name : String)
  | applyStore (d : StoreDef)

def SchemaCall.perform (db : JsonDB) : SchemaCall → Except FlowError Unit × JsonDB
  | .createObjectStore name keyPath => JsonDb.createObjectStore S db name keyPath
  | .deleteObjectStore name => JsonStores.deleteObjectStore db name
  | .createIndex store name keyPaths unique => JsonDb.createIndex S db store name keyPaths unique
  | .deleteIndex store name => JsonStores.deleteIndex S db store name
  | .applyStore d => SchemaRecords.applyStore S debugPaths db d

/-- Databases that schema calls lead to, from one without stores. In between, documents, entries and counters may change
in any way. -/
inductive SchemaRun : JsonDB → Prop where
  | opened (engine : JsonDb.Engine) (blank : ∀ k, k.head? = some schTag → engine.get? k = none) : SchemaRun ⟨engine, ∅⟩
  | call (db : JsonDB) (c : SchemaCall) (before : SchemaRun db) : SchemaRun (c.perform S debugPaths db).2
  | elsewhere (db : JsonDB) (engine : JsonDb.Engine) (before : SchemaRun db)
      (same : ∀ k, k.head? = some schTag → engine.get? k = db.engine.get? k) : SchemaRun ⟨engine, db.schema⟩

/-- Every store has its record under its own name, and no other record stands among them. -/
structure Persisted (db : JsonDB) : Prop where
  named : ∀ store d, db.schema.get? store = some d → d.name = store
  paths : ∀ store d, db.schema.get? store = some d → ∀ idx ∈ d.indexes, idx.keyPaths ≠ []
  written : ∀ store d, db.schema.get? store = some d →
    ∃ text, S.toVec d.toValue = some text ∧ db.engine.get? (schemaKey store) = some text
  only : ∀ k, k.head? = some schTag → db.engine.get? k ≠ none → ∃ store d, db.schema.get? store = some d ∧ k = schemaKey store

end

/-! A record that is not about schema keys leaves them alone. -/

def Outside (r : InternalRecord) : Prop := ∀ k, Touches r k → k.head? ≠ some schTag

theorem outside_owned {store : String} {kind : Kind} {r : InternalRecord} (other : kind.tag ≠ schTag)
    (owned : ∀ k, Touches r k → Owns store kind k) : Outside r := fun k touched same =>
  other (Option.some.inj ((owns_head (owned k touched)).symm.trans same))

theorem outside_docs (store : String) : Outside (rangeRecord (docPrefix store)) :=
  @outside_owned store .docs _ (by decide) fun _ touched => (between_increment (docPrefix_tagged store)).mp touched

theorem outside_index (store index : String) : Outside (rangeRecord (idxPrefix store index)) :=
  @outside_owned store (.index index) _ (by change idxTag ≠ schTag; decide) fun _ touched =>
    (between_increment (idxPrefix_tagged store index)).mp touched

theorem outside_entry (store index : String) (value key : Bytes) : Outside (putRecord (idxKey store index value key) key) :=
  @outside_owned store (.index index) _ (by change idxTag ≠ schTag; decide) fun k touched =>
    (show k = idxKey store index value key from touched) ▸ owns_idxKey store index value key

theorem outside_counter (store : String) : Outside (deleteRecord (counterKey store)) :=
  @outside_owned store .counter _ (by decide) fun _ touched => touched

section
variable (front back : List InternalRecord) (before : ∀ r ∈ front, Outside r) (behind : ∀ r ∈ back, Outside r)
  (engine : JsonDb.Engine) {k : Bytes} (tagged : k.head? = some schTag)
include before behind tagged

theorem get?_schema_put (key value : Bytes) : (writeInternal engine (front ++ putRecord key value :: back)).get? k =
    if k = key then some value else engine.get? k := by
  rw [writeInternal_append]
  change (writeInternal (applyRecord _ (putRecord key value)) back).get? k = _
  rw [writeInternal_untouched _ fun r member touched => behind r member k touched tagged, get?_put,
    writeInternal_untouched _ fun r member touched => before r member k touched tagged]

theorem get?_schema_delete (key : Bytes) : (writeInternal engine (front ++ deleteRecord key :: back)).get? k =
    if k = key then none else engine.get? k := by
  rw [writeInternal_append]
  change (writeInternal (applyRecord _ (deleteRecord key)) back).get? k = _
  rw [writeInternal_untouched _ fun r member touched => behind r member k touched tagged, get?_delete,
    writeInternal_untouched _ fun r member touched => before r member k touched tagged]

end

theorem schemaKey_inj {store other : String} (same : schemaKey store = schemaKey other) : store = other :=
  utf8_injective _ _ (List.cons.inj same).2

section
variable {S : Serde} {db : JsonDB} (persisted : Persisted S db)
include persisted

theorem Persisted.insert {d : StoreDef} {engine : JsonDb.Engine} {text : Bytes} (paths : ∀ idx ∈ d.indexes, idx.keyPaths ≠ [])
    (printed : S.toVec d.toValue = some text)
    (holds : ∀ k, k.head? = some schTag → engine.get? k = if k = schemaKey d.name then some text else db.engine.get? k) :
    Persisted S ⟨engine, db.schema.insert d.name d⟩ := by
  have entries : ∀ store e, (db.schema.insert d.name d).get? store = some e →
      (store = d.name ∧ e = d) ∨ (store ≠ d.name ∧ db.schema.get? store = some e) := by
    intro store e defined
    rw [get?_insert] at defined
    split_ifs at defined with same
    · exact Or.inl ⟨same, (Option.some.inj defined).symm⟩
    · exact Or.inr ⟨same, defined⟩
  refine ⟨fun store e defined => ?_, fun store e defined => ?_, fun store e defined => ?_, fun k tagged present => ?_⟩
  · rcases entries store e defined with ⟨rfl, rfl⟩ | ⟨_, old⟩
    · rfl
    · exact persisted.named store e old
  · rcases entries store e defined with ⟨rfl, rfl⟩ | ⟨_, old⟩
    · exact paths
    · exact persisted.paths store e old
  · rcases entries store e defined with ⟨rfl, rfl⟩ | ⟨other, old⟩
    · exact ⟨text, printed, (holds _ rfl).trans (if_pos rfl)⟩
    · obtain ⟨text', printed', there⟩ := persisted.written store e old
      exact ⟨text', printed', (holds _ rfl).trans ((if_neg fun same => other (schemaKey_inj same)).trans there)⟩
  · change engine.get? k ≠ none at present
    rw [holds k tagged] at present
    split_ifs at present with own
    · exact ⟨d.name, d, get?_insert_self _ _ _, own⟩
    · obtain ⟨store, e, old, rfl⟩ := persisted.only k tagged present
      refine ⟨store, e, (get?_insert _ _ _ _).trans ((if_neg fun same => own ?_).trans old), rfl⟩
      rw [same]

theorem Persisted.erase {name : String} {engine : JsonDb.Engine}
    (holds : ∀ k, k.head? = some schTag → engine.get? k = if k = schemaKey name then none else db.engine.get? k) :
    Persisted S ⟨engine, db.schema.erase name⟩ := by
  have entries : ∀ store e, (db.schema.erase name).get? store = some e → store ≠ name ∧ db.schema.get? store = some e := by
    intro store e defined
    rw [get?_erase] at defined
    split_ifs at defined with same
    exact ⟨same, defined⟩
  refine ⟨fun store e defined => ?_, fun store e defined => ?_, fun store e defined => ?_, fun k tagged present => ?_⟩
  · exact persisted.named store e (entries store e defined).2
  · exact persisted.paths store e (entries store e defined).2
  · obtain ⟨other, old⟩ := entries store e defined
    obtain ⟨text, printed, there⟩ := persisted.written store e old
    exact ⟨text, printed, (holds _ rfl).trans ((if_neg fun same => other (schemaKey_inj same)).trans there)⟩
  · change engine.get? k ≠ none at present
    rw [holds k tagged] at present
    split_ifs at present with own
    · exact absurd rfl present
    · obtain ⟨store, e, old, rfl⟩ := persisted.only k tagged present
      refine ⟨store, e, (get?_erase _ _ _).trans ((if_neg fun same => own ?_).trans old), rfl⟩
      rw [same]

/-! ### Each call keeps the records -/

theorem createObjectStore_persisted (name keyPath : String) :
    Persisted S (createObjectStore S db name keyPath).2 := by
  unfold createObjectStore
  dsimp only
  split
  · next after done =>
    obtain ⟨_, _, done⟩ := bind_ok done
    split at done
    · split_ifs at done
      exact Except.ok.inj done ▸ persisted
    · obtain ⟨record, written, done⟩ := bind_ok done
      obtain rfl := Except.ok.inj done
      obtain ⟨text, printed, rfl⟩ := schemaRecord_printed written
      exact persisted.insert (d := ⟨name, keyPath, false, [], 0⟩) nofun printed fun k tagged =>
        get?_schema_put [] [] nofun nofun db.engine tagged _ text
  · exact persisted

theorem deleteObjectStore_persisted (name : String) : Persisted S (deleteObjectStore db name).2 := by
  unfold deleteObjectStore
  split
  · next d found =>
    refine persisted.erase fun k tagged => ?_
    have shape : deleteStoreRecords d name = (d.indexes.map (fun index => rangeRecord (idxPrefix name index.name)) ++
        [rangeRecord (docPrefix name)]) ++ deleteRecord (schemaKey name) :: [deleteRecord (counterKey name)] := by
      simp [deleteStoreRecords]
    rw [shape]
    refine get?_schema_delete _ _ (fun r member => ?_) (fun r member => ?_) db.engine tagged _
    · rcases List.mem_append.mp member with indexes | docs
      · obtain ⟨idx, _, rfl⟩ := List.mem_map.mp indexes
        exact outside_index name idx.name
      · obtain rfl := List.mem_singleton.mp docs
        exact outside_docs name
    · obtain rfl := List.mem_singleton.mp member
      exact outside_counter name
  · exact persisted

theorem createIndex_persisted (store name : String) (keyPaths : List String) (unique : Bool) :
    Persisted S (createIndex S db store name keyPaths unique).2 := by
  unfold createIndex
  dsimp only
  split
  · next after done =>
    obtain ⟨d, found, done⟩ := bind_ok done
    obtain ⟨_, valid, done⟩ := bind_ok done
    obtain ⟨record, written, done⟩ := bind_ok done
    obtain ⟨records, filled, done⟩ := bind_ok done
    obtain rfl := Except.ok.inj done
    obtain ⟨text, printed, rfl⟩ := schemaRecord_printed written
    obtain ⟨entries, rfl, each⟩ := backfill_appends filled
    obtain ⟨_, _, valid⟩ := bind_ok valid
    split_ifs at valid with empty clash
    refine persisted.insert (fun idx member => ?_) printed fun k tagged => ?_
    · rcases List.mem_append.mp member with old | new
      · exact persisted.paths store d (getStore_ok found) idx old
      · obtain rfl := List.mem_singleton.mp new
        rintro rfl
        exact empty rfl
    · refine get?_schema_put [] _ nofun (fun r member => ?_) db.engine tagged _ text
      obtain ⟨value, key, rfl⟩ := each r member
      exact outside_entry store name value key
  · exact persisted

theorem deleteIndex_persisted (store name : String) : Persisted S (deleteIndex S db store name).2 := by
  unfold deleteIndex
  dsimp only
  split
  · next after done =>
    obtain ⟨d, found, done⟩ := bind_ok done
    obtain ⟨pos, _, done⟩ := bind_ok done
    obtain ⟨records, listed, done⟩ := bind_ok done
    obtain ⟨record, written, listed⟩ := bind_ok listed
    obtain rfl := Except.ok.inj listed
    obtain rfl := Except.ok.inj done
    obtain ⟨text, printed, rfl⟩ := schemaRecord_printed written
    refine persisted.insert (fun idx member => ?_) printed fun k tagged => ?_
    · exact persisted.paths store d (getStore_ok found) idx (List.mem_of_mem_eraseIdx member)
    · refine get?_schema_put [rangeRecord (idxPrefix store name)] [] (fun r member => ?_) nofun db.engine tagged _ text
      obtain rfl := List.mem_singleton.mp member
      exact outside_index store name
  · exact persisted

theorem markAutoIncrement_persisted (store : String) : Persisted S (markAutoIncrement S db store).2 := by
  unfold markAutoIncrement
  dsimp only
  split
  · next after done =>
    obtain ⟨d, found, done⟩ := bind_ok done
    obtain ⟨record, written, done⟩ := bind_ok done
    obtain rfl := Except.ok.inj done
    obtain ⟨text, printed, rfl⟩ := schemaRecord_printed written
    exact persisted.insert (d := { d with autoIncrement := true }) (persisted.paths store d (getStore_ok found)) printed fun k tagged =>
      get?_schema_put [] [] nofun nofun db.engine tagged _ text
  · exact persisted

end

/-! `apply_store` goes through the other calls and may stop at any of them. -/

section
variable {S : Serde} {debugPaths : List String → String} {db : JsonDB}

theorem andThen_persisted {done : Except FlowError Unit × JsonDB} {next : JsonDB → Except FlowError Unit × JsonDB}
    (first : Persisted S done.2) (later : ∀ db, Persisted S db → Persisted S (next db).2) :
    Persisted S (andThen done next).2 := by
  obtain ⟨_ | _, db⟩ := done
  · exact first
  · exact later db first

theorem forEach_persisted {α : Type} {call : α → JsonDB → Except FlowError Unit × JsonDB}
    (each : ∀ x db, Persisted S db → Persisted S (call x db).2) (items : List α) (persisted : Persisted S db) :
    Persisted S (forEach call items db).2 := by
  induction items generalizing db with
  | nil => exact persisted
  | cons x rest ih => exact andThen_persisted (each x db persisted) fun db persisted => ih persisted

theorem applyStore_persisted (persisted : Persisted S db) (d : StoreDef) :
    Persisted S (applyStore S debugPaths db d).2 := by
  have create : ∀ idx db, Persisted S db → Persisted S (createIndexOf S d.name idx db).2 := fun idx db persisted =>
    createIndex_persisted persisted d.name idx.name idx.keyPaths idx.unique
  have delete : ∀ idx db, Persisted S db → Persisted S (deleteIndexOf S d.name idx db).2 := fun idx db persisted =>
    deleteIndex_persisted persisted d.name idx.name
  unfold applyStore
  split
  · refine andThen_persisted (createObjectStore_persisted persisted _ _) fun db persisted => ?_
    refine andThen_persisted ?_ fun db persisted => forEach_persisted create _ persisted
    split_ifs
    · exact markAutoIncrement_persisted persisted d.name
    · exact persisted
  · split_ifs
    · exact persisted
    · split
      · exact persisted
      · exact andThen_persisted (forEach_persisted create _ persisted) fun db persisted =>
          forEach_persisted delete _ persisted

theorem perform_persisted (persisted : Persisted S db) (c : SchemaCall) : Persisted S (c.perform S debugPaths db).2 := by
  cases c with
  | createObjectStore name keyPath => exact createObjectStore_persisted persisted name keyPath
  | deleteObjectStore name => exact deleteObjectStore_persisted persisted name
  | createIndex store name keyPaths unique => exact createIndex_persisted persisted store name keyPaths unique
  | deleteIndex store name => exact deleteIndex_persisted persisted store name
  | applyStore d => exact applyStore_persisted persisted d

theorem run_persisted (run : SchemaRun S debugPaths db) : Persisted S db := by
  induction run with
  | opened engine blank => exact ⟨by simp, by simp, by simp, fun k tagged present => absurd (blank k tagged) present⟩
  | call db c before ih => exact perform_persisted ih c
  | elsewhere db engine before same ih =>
    refine ⟨ih.named, ih.paths, fun store d defined => ?_, fun k tagged present => ?_⟩
    · obtain ⟨text, printed, there⟩ := ih.written store d defined
      exact ⟨text, printed, (same _ rfl).trans there⟩
    · exact ih.only k tagged fun absent => present ((same k tagged).trans absent)

/-! ### Loading -/

/-- Loading goes through the records in key order; each puts its definition under its name. -/
theorem loadRecords_ok {records : List (Bytes × Bytes)} (distinct : (records.map Prod.fst).Nodup)
    (each : ∀ e ∈ records, ∃ d, (S.fromSlice e.2).bind readStoreDef = some d ∧ e.1 = schemaKey d.name)
    (schema : OMap String StoreDef) : ∃ loaded, records.foldlM (loadRecord S) schema = .ok loaded ∧
      (∀ e ∈ records, ∀ d, (S.fromSlice e.2).bind readStoreDef = some d → loaded.get? d.name = some d) ∧
      ∀ name, (∀ e ∈ records, e.1 ≠ schemaKey name) → loaded.get? name = schema.get? name := by
  induction records generalizing schema with
  | nil => exact ⟨schema, rfl, nofun, fun _ _ => rfl⟩
  | cons first rest ih =>
    obtain ⟨fresh, distinct⟩ := List.nodup_cons.mp distinct
    obtain ⟨d, read, key⟩ := each first List.mem_cons_self
    obtain ⟨loaded, done, found, kept⟩ := ih distinct (fun e member => each e (List.mem_cons_of_mem _ member))
      (schema.insert d.name d)
    refine ⟨loaded, ?_, fun e member d' read' => ?_, fun name other => ?_⟩
    · rw [List.foldlM_cons, loadRecord, read]
      exact done
    · rcases List.mem_cons.mp member with rfl | later
      · obtain rfl := Option.some.inj (read.symm.trans read')
        rw [kept d.name fun x inside same => fresh (key ▸ same ▸ List.mem_map_of_mem inside), get?_insert_self]
      · exact found e later d' read'
    · rw [kept name fun x inside => other x (List.mem_cons_of_mem _ inside), get?_insert, if_neg]
      rintro rfl
      exact other first List.mem_cons_self key

theorem load_persisted (faithful : Faithful S) (persisted : Persisted S db) : loadSchemas S db.engine = .ok db.schema := by
  have record : ∀ store d, db.schema.get? store = some d → ∃ text, db.engine.get? (schemaKey store) = some text ∧
      (S.fromSlice text).bind readStoreDef = some d := by
    intro store d defined
    obtain ⟨text, printed, there⟩ := persisted.written store d defined
    refine ⟨text, there, ?_⟩
    rw [faithful _ _ (store_wellFormed d) printed, Option.bind_some, readStoreDef_written d (persisted.paths store d defined)]
  have scanned : ∀ e ∈ JsonDb.scan db.engine (prefixRange schemaPrefix), ∃ store d, db.schema.get? store = some d ∧
      e.1 = schemaKey store ∧ (S.fromSlice e.2).bind readStoreDef = some d := by
    intro e member
    obtain ⟨present, rest, shape⟩ := (mem_prefixScan _ _ e).mp member
    obtain ⟨store, d, defined, key⟩ := persisted.only e.1 (by rw [← shape]; rfl) (by rw [present]; simp)
    obtain ⟨text, there, read⟩ := record store d defined
    rw [key] at present
    obtain rfl := Option.some.inj (present.symm.trans there)
    exact ⟨store, d, defined, key, read⟩
  have distinct : ((JsonDb.scan db.engine (prefixRange schemaPrefix)).map Prod.fst).Nodup :=
    List.pairwise_map.mpr ((db.engine.sorted.filter _).imp ne_of_lt)
  obtain ⟨loaded, done, found, kept⟩ := loadRecords_ok (S := S) distinct (fun e member => by
    obtain ⟨store, d, defined, key, read⟩ := scanned e member
    exact ⟨d, read, (persisted.named store d defined).symm ▸ key⟩) ∅
  rw [loadSchemas, done]
  refine congrArg Except.ok (ext_get? fun name => ?_)
  cases defined : db.schema.get? name with
  | some d =>
    obtain ⟨text, there, read⟩ := record name d defined
    have listed := (mem_prefixScan db.engine schemaPrefix (schemaKey name, text)).mpr ⟨there, utf8 name, rfl⟩
    have here := found _ listed d read
    rwa [persisted.named name d defined] at here
  | none =>
    rw [kept name, get?_empty]
    intro e member same
    obtain ⟨store, d, present, key, _⟩ := scanned e member
    obtain rfl := schemaKey_inj (key.symm.trans same)
    exact absurd (defined.symm.trans present) (by simp)

end
/-! A printer of one definition, and the store it can hold. -/

def usersDef : StoreDef := ⟨"users", "id", false, [], 0⟩

def usersSerde : Serde where
  toVec v := match v with
    | .object [("name", .string "users"), ("key_path", .string "id"), ("auto_increment", .bool false), ("indexes", .array []),
        ("next_auto_id", .number (.posInt 0))] => some [123, 125]
    | _ => none
  fromSlice b := if b = [123, 125] then some (inOrder usersDef.toValue) else none
  floatText _ := [48, 46, 48]
  debugValues _ := "[]"
  debugLossy _ := "\"\""
  errorText _ := "expected value at line 1 column 1"
  round_trip v b whole written := by
    split at written
    · exact absurd whole (by decide)
    · cases written
  text_nul_free v b written := by
    split at written
    · obtain rfl := Option.some.inj written
      decide
    · cases written
  float_nul_free := zeroPointZero_nul_free

theorem usersSerde_faithful : Faithful usersSerde := by
  intro v text _ written
  simp only [usersSerde] at written ⊢
  split at written
  · obtain rfl := Option.some.inj written
    exact if_pos rfl
  · cases written

example : (createObjectStore usersSerde ⟨∅, ∅⟩ "users" "id").2.schema.get? "users" = some usersDef := by decide

end FlowDb.SchemaRecords
