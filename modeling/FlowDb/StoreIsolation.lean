import FlowDb.JsonStores
import FlowDb.QueryResults

/-! Stores in the shared key space. Every record a mutation hands to the engine lies
within one store: it names a key of the store, or deletes the range of a prefix that
the store owns. Scans stay within what they were asked for, a query's index scan
only where its filters reach into the index. -/
namespace FlowDb.StoreIsolation
open ByteString OrderedMap Records JsonValue JsonEncoding JsonDb JsonTransaction JsonIndexes JsonStores JsonSessions
open JsonQuery KeySpace QueryPlans QueryResults

/-- The keys a record is about. -/
def Touches (r : InternalRecord) (k : Bytes) : Prop :=
  match r.op with
  | .deleteRange => r.key ≤ k ∧ k < r.rangeEnd.getD []
  | _ => k = r.key

/-- A record of a store: every key it touches is one of a kind the store has. -/
def Within (store : String) (r : InternalRecord) : Prop :=
  ∃ kind : Kind, kind.Named ∧ ∀ k, Touches r k → Owns store kind k

theorem untouched {r : InternalRecord} {k : Bytes} (engine : JsonDb.Engine) (apart : ¬Touches r k) :
    (applyRecord engine r).get? k = engine.get? k := by
  unfold Touches at apart
  unfold applyRecord
  cases kind : r.op with
  | put =>
    rw [kind] at apart
    exact (get?_insert engine r.key r.value k).trans (if_neg apart)
  | delete =>
    rw [kind] at apart
    exact (get?_erase engine r.key k).trans (if_neg apart)
  | deleteRange =>
    rw [kind] at apart
    have kept : (!(decide (r.key ≤ k) && decide (k < r.rangeEnd.getD []))) = true := by
      simpa only [Bool.not_eq_true', Bool.and_eq_false_iff, decide_eq_false_iff_not, not_and_or] using not_and_or.mp apart
    rw [get?_filter]
    cases engine.get? k <;> simp [Option.filter, kept]

/-- What no record touches stays as it was. -/
theorem writeInternal_untouched {records : List InternalRecord} {k : Bytes} (engine : JsonDb.Engine)
    (apart : ∀ r ∈ records, ¬Touches r k) : (writeInternal engine records).get? k = engine.get? k := by
  induction records generalizing engine with
  | nil => rfl
  | cons r rest ih =>
    rw [writeInternal, List.foldl_cons]
    exact (ih (applyRecord engine r) fun x member => apart x (List.mem_cons_of_mem _ member)).trans
      (untouched engine (apart r List.mem_cons_self))

/-! Which store a record belongs to. -/

theorem within_put {store : String} {kind : Kind} {key : Bytes} (value : Bytes) (named : kind.Named)
    (owns : Owns store kind key) : Within store (putRecord key value) :=
  ⟨kind, named, fun k touched => (show k = key from touched) ▸ owns⟩

theorem within_delete {store : String} {kind : Kind} {key : Bytes} (named : kind.Named) (owns : Owns store kind key) :
    Within store (deleteRecord key) :=
  ⟨kind, named, fun k touched => (show k = key from touched) ▸ owns⟩

theorem owns_docKey (store : String) (key : Bytes) : Owns store .docs (docKey store key) := docPrefix_isPrefix store key

theorem owns_idxKey (store index : String) (value key : Bytes) :
    Owns store (.index index) (idxKey store index value key) :=
  idxPrefix_isPrefix_idxKey store index value key

theorem within_range_docs (store : String) : Within store (rangeRecord (docPrefix store)) :=
  ⟨.docs, trivial, fun _ touched => (between_increment (docPrefix_tagged store)).mp touched⟩

theorem within_range_index {store index : String} (free : sep ∉ utf8 index) :
    Within store (rangeRecord (idxPrefix store index)) :=
  ⟨.index index, free, fun _ touched => (between_increment (idxPrefix_tagged store index)).mp touched⟩

theorem within_schema {S : Serde} {store : String} {d : StoreDef} {record : InternalRecord}
    (written : schemaRecord S d = .ok record) (named : d.name = store) : Within store record := by
  subst named
  obtain ⟨text, _, rfl⟩ := schemaRecord_printed written
  exact @within_put d.name .schema _ _ trivial rfl

-- Two stores share no key, so a record within one touches no key of another.
theorem within_apart {store other : String} {r : InternalRecord} (within : Within store r) (free : sep ∉ utf8 store)
    (free' : sep ∉ utf8 other) (apart : other ≠ store) {kind : Kind} (named : kind.Named) {k : Bytes}
    (owns : Owns other kind k) : ¬Touches r k := fun touched => by
  obtain ⟨own, ownNamed, all⟩ := within
  exact apart (owner_unique free' free named ownNamed owns (all k touched)).1

section
variable (S : Serde)

/-- The calls that write. `order` is the order in which a commit visits its writes. -/
inductive Mutation where
  | createObjectStore (name keyPath : String)
  | deleteObjectStore (name : String)
  | createIndex (store name : String) (keyPaths : List String) (unique : Bool)
  | deleteIndex (store name : String)
  | markAutoIncrement (store : String)
  | put (store : String) (doc : Value)
  | delete (store : String) (key : Value)
  | putAuto (store : String) (doc : Value)
  | commit (tx : Transaction) (order : List Write)

/-- The records a call hands to `write_internal`. -/
def Mutation.batch (db : JsonDB) : Mutation → Except FlowError (List InternalRecord)
  | .createObjectStore name keyPath => do
      validateStoreDef name keyPath
      match db.schema.get? name with
      | some d =>
        if d.keyPath != keyPath then
          .error (.jsonDb s!"store '{name}' already exists with a different key_path")
        else .ok []
      | none =>
        let record ← schemaRecord S ⟨name, keyPath, false, [], 0⟩
        .ok [record]
  | .deleteObjectStore name => do
      let d ← getStore db name
      .ok (deleteStoreRecords d name)
  | .createIndex store name keyPaths unique => do
      let d ← getStore db store
      validateIndexDef d name keyPaths
      let index : IndexDef := ⟨keyPaths, name, unique, false⟩
      let d := { d with indexes := d.indexes ++ [index] }
      let record ← schemaRecord S d
      backfill S d store name index (scan db.engine (prefixRange (docPrefix store))) [record]
  | .deleteIndex store name => do
      let d ← getStore db store
      let pos ← requireIndex d store name
      deleteIndexRecords S { d with indexes := d.indexes.eraseIdx pos } store name
  | .markAutoIncrement store => do
      let d ← getStore db store
      let record ← schemaRecord S { d with autoIncrement := true }
      .ok [record]
  | .put store doc => do
      let d ← getStore db store
      let keyVal ← keyOf d store doc
      let key ← encodePrimaryKey S keyVal
      let docBytes ← encodeDoc S doc
      buildPutBatch S db d store key docBytes doc
  | .delete store keyVal => do
      let d ← getStore db store
      let key ← encodePrimaryKey S keyVal
      buildDeleteBatch S db d store key
  | .putAuto store doc => do
      let d ← getStore db store
      requireAutoIncrement d store
      let (nextId, counterRec) ← prepareCounter db store
      let doc := doc.insertMember d.keyPath (.number (.posInt nextId))
      let docBytes ← encodeDoc S doc
      let batch ← buildPutBatch S db d store (decimal nextId.toNat) docBytes doc
      .ok (batch ++ [counterRec])
  | .commit tx order => if tx.committed then .ok [] else commitWrites S db order order tx.counterUpdates

def Mutation.perform (db : JsonDB) : Mutation → JsonDB
  | .createObjectStore name keyPath => (JsonDb.createObjectStore S db name keyPath).2
  | .deleteObjectStore name => (JsonStores.deleteObjectStore db name).2
  | .createIndex store name keyPaths unique => (JsonDb.createIndex S db store name keyPaths unique).2
  | .deleteIndex store name => (JsonStores.deleteIndex S db store name).2
  | .markAutoIncrement store => (JsonStores.markAutoIncrement S db store).2
  | .put store doc => (JsonDb.put S db store doc).2
  | .delete store key => (JsonDb.delete S db store key).2
  | .putAuto store doc => (JsonDb.putAuto S db store doc).2
  | .commit tx order => (tx.commit S db order).2

/-- The stores a call is about. -/
def Mutation.stores : Mutation → List String
  | .createObjectStore name _ | .deleteObjectStore name => [name]
  | .createIndex store _ _ _ | .deleteIndex store _ | .markAutoIncrement store => [store]
  | .put store _ | .delete store _ | .putAuto store _ => [store]
  | .commit tx order => order.map (fun w => (ofLex w.1).1) ++ tx.nextIds.keys

variable {S}

/-- What a batch makes of the engine, if there is one. -/
def after (engine : JsonDb.Engine) : Except FlowError (List InternalRecord) → JsonDb.Engine
  | .ok records => writeInternal engine records
  | .error _ => engine

theorem bind_ok_self {α : Type} (x : Except FlowError α) : (x >>= fun a => .ok a) = x := by
  cases x <;> rfl

theorem commitBatch_engine {α : Type} (db : JsonDB) (attempt : Except FlowError (α × List InternalRecord)) :
    (commitBatch db attempt).2.engine = after db.engine (attempt.map Prod.snd) := by
  cases attempt <;> rfl

/-- A call changes the engine by its batch, and not at all when it fails. -/
theorem perform_engine (db : JsonDB) (m : Mutation) : (m.perform S db).engine = after db.engine (m.batch S db) := by
  cases m with
  | createObjectStore name keyPath =>
    simp only [Mutation.perform, Mutation.batch, JsonDb.createObjectStore]
    cases validateStoreDef name keyPath with
    | error e => rfl
    | ok _ =>
      dsimp only [bind, Except.bind]
      cases db.schema.get? name with
      | some d =>
        dsimp only
        split_ifs <;> rfl
      | none =>
        dsimp only
        cases schemaRecord S ⟨name, keyPath, false, [], 0⟩ <;> rfl
  | deleteObjectStore name =>
    simp only [Mutation.perform, Mutation.batch, JsonStores.deleteObjectStore]
    cases getStore db name <;> rfl
  | createIndex store name keyPaths unique =>
    simp only [Mutation.perform, Mutation.batch, JsonDb.createIndex]
    cases getStore db store with
    | error e => rfl
    | ok d =>
      dsimp only [bind, Except.bind]
      cases validateIndexDef d name keyPaths with
      | error e => rfl
      | ok _ =>
        dsimp only
        cases schemaRecord S { d with indexes := d.indexes ++ [⟨keyPaths, name, unique, false⟩] } with
        | error e => rfl
        | ok record =>
          dsimp only
          cases backfill S { d with indexes := d.indexes ++ [⟨keyPaths, name, unique, false⟩] } store name
            ⟨keyPaths, name, unique, false⟩ (scan db.engine (prefixRange (docPrefix store))) [record] <;> rfl
  | deleteIndex store name =>
    simp only [Mutation.perform, Mutation.batch, JsonStores.deleteIndex]
    cases getStore db store with
    | error e => rfl
    | ok d =>
      dsimp only [bind, Except.bind]
      cases requireIndex d store name with
      | error e => rfl
      | ok pos =>
        dsimp only
        cases deleteIndexRecords S { d with indexes := d.indexes.eraseIdx pos } store name <;> rfl
  | markAutoIncrement store =>
    simp only [Mutation.perform, Mutation.batch, JsonStores.markAutoIncrement]
    cases getStore db store with
    | error e => rfl
    | ok d =>
      dsimp only [bind, Except.bind]
      cases schemaRecord S { d with autoIncrement := true } <;> rfl
  | put store doc =>
    rw [Mutation.perform, JsonDb.put, commitBatch_engine]
    simp only [map_bind_except, map_ok, Mutation.batch, bind_ok_self]
  | delete store key =>
    rw [Mutation.perform, JsonDb.delete, commitBatch_engine]
    simp only [map_bind_except, map_ok, Mutation.batch, bind_ok_self]
  | putAuto store doc =>
    rw [Mutation.perform, JsonDb.putAuto, commitBatch_engine]
    simp only [map_bind_except, map_ok, Mutation.batch]
  | commit tx order =>
    rw [Mutation.perform, Transaction.commit, Mutation.batch]
    split_ifs
    · rfl
    · rw [commitBatch_engine]
      simp only [map_bind_except, map_ok, bind_ok_self]

/-- Every store is defined under its own name, and all names are valid. -/
structure SchemaValid (db : JsonDB) : Prop where
  named : ∀ store d, db.schema.get? store = some d → d.name = store
  store : ∀ store d, db.schema.get? store = some d → validateName store = .ok ()
  index : ∀ store d, db.schema.get? store = some d → ∀ idx ∈ d.indexes, validateName idx.name = .ok ()

variable {db : JsonDB}

theorem SchemaValid.insert (valid : SchemaValid db) {engine : JsonDb.Engine} {name : String} {d : StoreDef}
    (named : d.name = name) (accepted : validateName name = .ok ())
    (indexes : ∀ idx ∈ d.indexes, validateName idx.name = .ok ()) : SchemaValid ⟨engine, db.schema.insert name d⟩ := by
  have entries : ∀ store e, (db.schema.insert name d).get? store = some e →
      (store = name ∧ e = d) ∨ db.schema.get? store = some e := by
    intro store e defined
    rw [get?_insert] at defined
    split_ifs at defined with same
    · exact Or.inl ⟨same, (Option.some.inj defined).symm⟩
    · exact Or.inr defined
  refine ⟨fun store e defined => ?_, fun store e defined => ?_, fun store e defined => ?_⟩
  all_goals rcases entries store e defined with ⟨rfl, rfl⟩ | old
  · exact named
  · exact valid.named store e old
  · exact accepted
  · exact valid.store store e old
  · exact indexes
  · exact valid.index store e old

theorem SchemaValid.erase (valid : SchemaValid db) {engine : JsonDb.Engine} (name : String) :
    SchemaValid ⟨engine, db.schema.erase name⟩ := by
  have old : ∀ store e, (db.schema.erase name).get? store = some e → db.schema.get? store = some e := by
    intro store e defined
    rw [get?_erase] at defined
    split_ifs at defined
    exact defined
  exact ⟨fun store e defined => valid.named store e (old store e defined),
    fun store e defined => valid.store store e (old store e defined),
    fun store e defined => valid.index store e (old store e defined)⟩

theorem commitBatch_valid {α : Type} (valid : SchemaValid db)
    (attempt : Except FlowError (α × List InternalRecord)) : SchemaValid (commitBatch db attempt).2 := by
  cases attempt with
  | error e => exact valid
  | ok p => exact ⟨valid.named, valid.store, valid.index⟩

theorem perform_valid (valid : SchemaValid db) (m : Mutation) : SchemaValid (m.perform S db) := by
  cases m with
  | createObjectStore name keyPath =>
    simp only [Mutation.perform, JsonDb.createObjectStore]
    split
    · next after done =>
      obtain ⟨_, validated, done⟩ := bind_ok done
      cases found : db.schema.get? name with
      | some d =>
        rw [found] at done
        dsimp only at done
        split_ifs at done
        exact Except.ok.inj done ▸ valid
      | none =>
        rw [found] at done
        obtain ⟨record, _, done⟩ := bind_ok done
        obtain ⟨_, named, _⟩ := bind_ok validated
        obtain rfl := Except.ok.inj done
        exact valid.insert rfl named fun idx member => absurd member List.not_mem_nil
    · exact valid
  | deleteObjectStore name =>
    simp only [Mutation.perform, JsonStores.deleteObjectStore]
    cases getStore db name with
    | error e => exact valid
    | ok d => exact valid.erase name
  | createIndex store name keyPaths unique =>
    simp only [Mutation.perform, JsonDb.createIndex]
    split
    · next after done =>
      obtain ⟨d, found, done⟩ := bind_ok done
      obtain ⟨_, validated, done⟩ := bind_ok done
      obtain ⟨record, _, done⟩ := bind_ok done
      obtain ⟨records, _, done⟩ := bind_ok done
      obtain ⟨_, named, _⟩ := bind_ok validated
      have defined := getStore_ok found
      obtain rfl := Except.ok.inj done
      refine valid.insert rfl ((valid.named store d defined).symm ▸ valid.store store d defined) fun idx member => ?_
      rcases List.mem_append.mp member with old | new
      · exact valid.index store d defined idx old
      · obtain rfl := List.mem_singleton.mp new
        exact named
    · exact valid
  | deleteIndex store name =>
    simp only [Mutation.perform, JsonStores.deleteIndex]
    split
    · next after done =>
      obtain ⟨d, found, done⟩ := bind_ok done
      obtain ⟨pos, _, done⟩ := bind_ok done
      obtain ⟨records, _, done⟩ := bind_ok done
      have defined := getStore_ok found
      obtain rfl := Except.ok.inj done
      exact valid.insert rfl ((valid.named store d defined).symm ▸ valid.store store d defined) fun idx member =>
        valid.index store d defined idx (List.mem_of_mem_eraseIdx member)
    · exact valid
  | markAutoIncrement store =>
    simp only [Mutation.perform, JsonStores.markAutoIncrement]
    split
    · next after done =>
      obtain ⟨d, found, done⟩ := bind_ok done
      obtain ⟨record, _, done⟩ := bind_ok done
      have defined := getStore_ok found
      obtain rfl := Except.ok.inj done
      exact valid.insert rfl ((valid.named store d defined).symm ▸ valid.store store d defined)
        (valid.index store d defined)
    · exact valid
  | put store doc => exact commitBatch_valid valid _
  | delete store key => exact commitBatch_valid valid _
  | putAuto store doc => exact commitBatch_valid valid _
  | commit tx order =>
    simp only [Mutation.perform, Transaction.commit]
    split_ifs
    · exact valid
    · exact commitBatch_valid valid _

/-! The records of a batch. -/

theorem entry_within (valid : SchemaValid db) {store : String} {d : StoreDef} (defined : db.schema.get? store = some d)
    {key k : Bytes} {doc : Option Value} (entry : k ∈ entryKeys S d store key doc) :
    ∃ idx : IndexDef, Kind.Named (.index idx.name) ∧ Owns store (.index idx.name) k := by
  obtain ⟨_, _, idx, member, vals, _, rfl⟩ := (mem_entryKeys S d store key doc k).mp entry
  exact ⟨idx, validateName_nul_free _ (valid.index store d defined idx member), owns_idxKey store idx.name _ key⟩

theorem change_within (valid : SchemaValid db) {store : String} {d : StoreDef} (defined : db.schema.get? store = some d)
    (key : Bytes) (new : Option (Bytes × Value)) :
    ∀ r ∈ changeRecords S db d store key new, Within store r := by
  intro r member
  unfold changeRecords at member
  rw [deleteIndexEntries_eq] at member
  rcases List.mem_append.mp member with old | fresh
  · obtain ⟨k, entry, rfl⟩ := List.mem_map.mp old
    obtain ⟨idx, named, owns⟩ := entry_within valid defined entry
    exact within_delete named owns
  · cases new with
    | none =>
      obtain rfl := List.mem_singleton.mp fresh
      exact @within_delete store .docs _ trivial (owns_docKey store key)
    | some p =>
      obtain ⟨bytes, doc⟩ := p
      dsimp only at fresh
      rw [indexEntries_eq] at fresh
      rcases List.mem_cons.mp fresh with rfl | entry
      · exact @within_put store .docs _ _ trivial (owns_docKey store key)
      · obtain ⟨k, inside, rfl⟩ := List.mem_map.mp entry
        obtain ⟨idx, named, owns⟩ := entry_within valid defined inside
        exact within_put key named owns

theorem backfill_within {d : StoreDef} {store name : String} {index : IndexDef} (free : sep ∉ utf8 name)
    {entries : List (Bytes × Bytes)} {records out : List InternalRecord}
    (done : backfill S d store name index entries records = .ok out) (before : ∀ r ∈ records, Within store r) :
    ∀ r ∈ out, Within store r := by
  intro r member
  obtain ⟨entries, rfl, each⟩ := backfill_appends done
  rcases List.mem_append.mp member with old | new
  · exact before r old
  · obtain ⟨value, key, rfl⟩ := each r new
    exact @within_put store (.index name) _ _ free (owns_idxKey store name _ key)

theorem deletion_within (valid : SchemaValid db) {store : String} {d : StoreDef} (defined : db.schema.get? store = some d) :
    ∀ r ∈ deleteStoreRecords d store, Within store r := by
  intro r member
  rcases List.mem_append.mp member with indexes | rest
  · obtain ⟨idx, inside, rfl⟩ := List.mem_map.mp indexes
    exact within_range_index (validateName_nul_free _ (valid.index store d defined idx inside))
  · simp only [List.mem_cons, List.not_mem_nil, or_false] at rest
    rcases rest with rfl | rfl | rfl
    · exact within_range_docs store
    · exact @within_delete store .schema _ trivial rfl
    · exact @within_delete store .counter _ trivial rfl

theorem prepareCounter_within {store : String} {next : UInt64} {r : InternalRecord}
    (prepared : prepareCounter db store = .ok (next, r)) : Within store r := by
  obtain ⟨current, _, done⟩ := bind_ok prepared
  obtain ⟨_, rfl⟩ := Prod.mk.inj (Except.ok.inj done)
  exact @within_put store .counter _ _ trivial rfl

theorem requireIndex_ok {d : StoreDef} {store name : String} {pos : Nat} (found : requireIndex d store name = .ok pos) :
    ∃ idx ∈ d.indexes, idx.name = name := by
  unfold requireIndex at found
  split at found
  · next pos there =>
    obtain ⟨bound, same, _⟩ := List.findIdx?_eq_some_iff_getElem.mp there
    exact ⟨_, List.getElem_mem bound, beq_iff_eq.mp same⟩
  · cases found

/-! Transactions. A counter record is that of a store the transaction counts keys of. -/

variable (S)

/-- The transactions a client can hold, whatever others do to the database in between. -/
inductive Begun : Transaction → Prop where
  | begin (db : JsonDB) (stores : List String) (mode : TransactionMode) (tx : Transaction)
      (done : transaction db stores mode = .ok tx) : Begun tx
  | put (db : JsonDB) (tx after : Transaction) (store : String) (doc : Value) (before : Begun tx)
      (done : tx.put S db store doc = .ok after) : Begun after
  | delete (db : JsonDB) (tx after : Transaction) (store : String) (key : Value) (before : Begun tx)
      (done : tx.delete S db store key = .ok after) : Begun after
  | putAuto (db : JsonDB) (tx : Transaction) (store : String) (doc : Value) (before : Begun tx)
      (valid : SchemaValid db) : Begun (tx.putAuto S db store doc).2

def Mutation.Begun : Mutation → Prop
  | .commit tx _ => StoreIsolation.Begun S tx
  | _ => True

variable {S}

/-- What buffering a write and taking a number keep holds of every transaction begun. -/
theorem begun_keeps {P : Transaction → Prop} (started : ∀ mode, P ⟨mode, ∅, [], ∅, false⟩)
    (buffered : ∀ (tx : Transaction) writes, P tx → P { tx with writes })
    (numbered : ∀ (db : JsonDB) (tx after : Transaction) store id, validateName store = .ok () →
      nextId db tx store = .ok (id, after) → P tx → P after) {tx : Transaction} (begun : Begun S tx) : P tx := by
  induction begun with
  | begin db stores mode tx done =>
    obtain ⟨_, _, done⟩ := bind_ok done
    obtain rfl := Except.ok.inj done
    exact started mode
  | put db tx after store doc before done ih =>
    obtain ⟨_, _, done⟩ := bind_ok done
    obtain ⟨d, _, done⟩ := bind_ok done
    obtain ⟨keyVal, _, done⟩ := bind_ok done
    obtain ⟨key, _, done⟩ := bind_ok done
    obtain ⟨docBytes, _, done⟩ := bind_ok done
    obtain rfl := Except.ok.inj done
    exact buffered tx _ ih
  | delete db tx after store key before done ih =>
    obtain ⟨_, _, done⟩ := bind_ok done
    obtain ⟨d, _, done⟩ := bind_ok done
    obtain ⟨keyBytes, _, done⟩ := bind_ok done
    obtain rfl := Except.ok.inj done
    exact buffered tx _ ih
  | putAuto db tx store doc before valid ih =>
    unfold Transaction.putAuto
    dsimp only
    split
    · exact ih
    · next d id tx' started =>
      obtain ⟨_, _, started⟩ := bind_ok started
      obtain ⟨d', found, started⟩ := bind_ok started
      obtain ⟨_, _, started⟩ := bind_ok started
      obtain ⟨⟨id', tx''⟩, taken, started⟩ := bind_ok started
      obtain ⟨rfl, rfl, rfl⟩ : d' = d ∧ id' = id ∧ tx'' = tx' := by simpa using Except.ok.inj started
      have after := numbered db _ _ store _ (valid.store store d' (getStore_ok found)) taken ih
      split
      · exact buffered _ _ after
      · exact after

def Counted (tx : Transaction) : Prop :=
  ∀ r ∈ tx.counterUpdates, ∃ store ∈ tx.nextIds.keys, validateName store = .ok () ∧ Within store r

theorem counted_insert {tx : Transaction} (counted : Counted tx) {store : String} {id : UInt64} :
    Counted { tx with nextIds := tx.nextIds.insert store id } := fun r member => by
  obtain ⟨other, inside, valid, within⟩ := counted r member
  refine ⟨other, (mem_keys_iff _ _).mpr ?_, valid, within⟩
  rw [get?_insert]
  split_ifs
  · rfl
  · exact (mem_keys_iff _ _).mp inside

theorem nextId_counted {tx after : Transaction} {store : String} {id : UInt64} (counted : Counted tx)
    (valid : validateName store = .ok ()) (done : nextId db tx store = .ok (id, after)) : Counted after := by
  unfold nextId at done
  split at done
  · obtain ⟨-, rfl⟩ := Prod.mk.inj (Except.ok.inj done)
    exact counted_insert counted
  · obtain ⟨⟨id', counterRec⟩, prepared, done⟩ := bind_ok done
    obtain ⟨-, rfl⟩ := Prod.mk.inj (Except.ok.inj done)
    intro r member
    rcases List.mem_append.mp member with old | new
    · exact counted_insert counted r old
    · obtain rfl := List.mem_singleton.mp new
      refine ⟨store, (mem_keys_iff _ _).mpr ?_, valid, prepareCounter_within prepared⟩
      rw [get?_insert_self]
      rfl

theorem begun_counted {tx : Transaction} (begun : Begun S tx) : Counted tx :=
  begun_keeps (fun _ _ member => absurd member List.not_mem_nil) (fun _ _ counted => counted)
    (fun _ _ _ _ _ valid done counted => nextId_counted counted valid done) begun

/-- Every record of a batch lies within one of the stores the call is about. -/
theorem batch_within (valid : SchemaValid db) {m : Mutation} (begun : m.Begun S) {records : List InternalRecord}
    (done : m.batch S db = .ok records) :
    ∀ r ∈ records, ∃ store ∈ m.stores, validateName store = .ok () ∧ Within store r := by
  have single : ∀ store, m.stores = [store] → validateName store = .ok () → (∀ r ∈ records, Within store r) →
      ∀ r ∈ records, ∃ store ∈ m.stores, validateName store = .ok () ∧ Within store r :=
    fun store only accepted within r member => ⟨store, only ▸ List.mem_singleton_self store, accepted, within r member⟩
  cases m with
  | createObjectStore name keyPath =>
    obtain ⟨_, validated, done⟩ := bind_ok done
    obtain ⟨_, accepted, _⟩ := bind_ok validated
    refine single name rfl accepted fun r member => ?_
    split at done
    · split_ifs at done
      obtain rfl := Except.ok.inj done
      exact absurd member List.not_mem_nil
    · obtain ⟨record, written, done⟩ := bind_ok done
      obtain rfl := Except.ok.inj done
      obtain rfl := List.mem_singleton.mp member
      exact within_schema written rfl
  | deleteObjectStore name =>
    obtain ⟨d, found, done⟩ := bind_ok done
    obtain rfl := Except.ok.inj done
    exact single name rfl (valid.store name d (getStore_ok found)) (deletion_within valid (getStore_ok found))
  | createIndex store name keyPaths unique =>
    obtain ⟨d, found, done⟩ := bind_ok done
    obtain ⟨_, validated, done⟩ := bind_ok done
    obtain ⟨record, written, done⟩ := bind_ok done
    obtain ⟨_, accepted, _⟩ := bind_ok validated
    have defined := getStore_ok found
    refine single store rfl (valid.store store d defined)
      (backfill_within (validateName_nul_free name accepted) done fun r member => ?_)
    obtain rfl := List.mem_singleton.mp member
    exact within_schema written (valid.named store d defined)
  | deleteIndex store name =>
    obtain ⟨d, found, done⟩ := bind_ok done
    obtain ⟨pos, there, done⟩ := bind_ok done
    obtain ⟨record, written, done⟩ := bind_ok done
    obtain rfl := Except.ok.inj done
    have defined := getStore_ok found
    refine single store rfl (valid.store store d defined) fun r member => ?_
    obtain ⟨idx, inside, rfl⟩ := requireIndex_ok there
    rcases List.mem_cons.mp member with rfl | schema
    · exact within_range_index (validateName_nul_free _ (valid.index store d defined idx inside))
    · obtain rfl := List.mem_singleton.mp schema
      exact within_schema written (valid.named store d defined)
  | markAutoIncrement store =>
    obtain ⟨d, found, done⟩ := bind_ok done
    obtain ⟨record, written, done⟩ := bind_ok done
    obtain rfl := Except.ok.inj done
    have defined := getStore_ok found
    refine single store rfl (valid.store store d defined) fun r member => ?_
    obtain rfl := List.mem_singleton.mp member
    exact within_schema written (valid.named store d defined)
  | put store doc =>
    obtain ⟨d, found, done⟩ := bind_ok done
    obtain ⟨keyVal, _, done⟩ := bind_ok done
    obtain ⟨key, _, done⟩ := bind_ok done
    obtain ⟨docBytes, _, done⟩ := bind_ok done
    obtain ⟨rfl, _⟩ := buildPutBatch_ok done
    have defined := getStore_ok found
    exact single store rfl (valid.store store d defined) (change_within valid defined key _)
  | delete store keyVal =>
    obtain ⟨d, found, done⟩ := bind_ok done
    obtain ⟨key, _, done⟩ := bind_ok done
    obtain rfl := buildDeleteBatch_ok done
    have defined := getStore_ok found
    exact single store rfl (valid.store store d defined) (change_within valid defined key none)
  | putAuto store doc =>
    obtain ⟨d, found, done⟩ := bind_ok done
    obtain ⟨_, _, done⟩ := bind_ok done
    obtain ⟨⟨nextId, counterRec⟩, prepared, done⟩ := bind_ok done
    obtain ⟨docBytes, _, done⟩ := bind_ok done
    obtain ⟨batch, built, done⟩ := bind_ok done
    obtain ⟨rfl, _⟩ := buildPutBatch_ok built
    obtain rfl := Except.ok.inj done
    have defined := getStore_ok found
    refine single store rfl (valid.store store d defined) fun r member => ?_
    rcases List.mem_append.mp member with changed | counter
    · exact change_within valid defined _ _ r changed
    · obtain rfl := List.mem_singleton.mp counter
      exact prepareCounter_within prepared
  | commit tx order =>
    rw [Mutation.batch] at done
    split_ifs at done
    · obtain rfl := Except.ok.inj done
      exact fun r member => absurd member List.not_mem_nil
    · obtain ⟨rfl, each⟩ := commitWrites_ok done
      intro r member
      rcases List.mem_append.mp member with counter | written
      · obtain ⟨store, inside, accepted, within⟩ := begun_counted begun r counter
        exact ⟨store, List.mem_append_right _ inside, accepted, within⟩
      · obtain ⟨w, inside, made⟩ := List.mem_flatMap.mp written
        obtain ⟨⟨d, defined⟩, _⟩ := each w inside
        have store : (ofLex w.1).1 ∈ (Mutation.commit tx order).stores :=
          List.mem_append_left _ (List.mem_map_of_mem inside)
        rw [writeRecords, defined] at made
        exact ⟨_, store, valid.store _ d defined, change_within valid defined _ _ r made⟩

/-- A key of a store is touched by no batch of a call about other stores only. -/
theorem perform_frame (valid : SchemaValid db) {m : Mutation} (begun : m.Begun S) {other : String}
    (accepted : validateName other = .ok ()) (apart : other ∉ m.stores) {kind : Kind} (named : kind.Named) {k : Bytes}
    (owns : Owns other kind k) : (m.perform S db).engine.get? k = db.engine.get? k := by
  rw [perform_engine]
  cases done : m.batch S db with
  | error e => rfl
  | ok records =>
    refine writeInternal_untouched db.engine fun r member => ?_
    obtain ⟨store, inside, fine, within⟩ := batch_within valid begun done r member
    exact within_apart within (validateName_nul_free _ fine) (validateName_nul_free _ accepted)
      (fun same => apart (same ▸ inside)) named owns

variable (S)

/-- The scans of a store: of its documents, of a value of an index, of a range of an
index, and of the index a query uses. -/
inductive ScanOf (store : String) (d : StoreDef) (filters : List QueryFilter) : Kind → ScanRange → Prop where
  | docs : ScanOf store d filters .docs (docRange store)
  | value (idx : IndexDef) (member : idx ∈ d.indexes) (value : Bytes) :
      ScanOf store d filters (.index idx.name) (valueRange store idx.name value)
  | range (idx : IndexDef) (member : idx ∈ d.indexes) (start stop : Bytes) :
      ScanOf store d filters (.index idx.name) (indexRange store idx.name start stop)
  | query (idx : IndexDef) (chosen : Chosen filters d.indexes idx) :
      ScanOf store d filters (.index idx.name) ((buildIndexScan S filters store idx).range store)

/-- Stores are isolated, as seen from one of them and one query on it. -/
structure Isolated (db : JsonDB) (store : String) (d : StoreDef) (filters : List QueryFilter) : Prop where
  writes : ∀ (m : Mutation) records, m.Begun S → m.batch S db = .ok records → ∀ r ∈ records,
    ∃ own ∈ m.stores, ∀ other, validateName other = .ok () → other ≠ own → ∀ kind : Kind, kind.Named →
      ∀ k, Owns other kind k → ¬Touches r k
  kinds : ∀ kind kind' : Kind, kind.Named → kind'.Named → kind ≠ kind' → ∀ k, Owns store kind k → ¬Owns store kind' k
  scans : ∀ kind range, ScanOf S store d filters kind range → ∀ e ∈ scan db.engine range, Owns store kind e.1

/-- A database a client works on: opened with a valid schema, then any calls. -/
inductive Reached : JsonDB → Prop where
  | opened (db : JsonDB) (valid : SchemaValid db) : Reached db
  | call (db : JsonDB) (m : Mutation) (before : Reached db) : Reached (m.perform S db)

variable {S}

theorem reached_valid (reached : Reached S db) : SchemaValid db := by
  induction reached with
  | opened db valid => exact valid
  | call db m before ih => exact perform_valid ih m

theorem query_scan_iff {store : String} {idx : IndexDef} {filters : List QueryFilter} {indexes : List IndexDef}
    (chosen : Chosen filters indexes idx) :
    (∀ e ∈ scan db.engine ((buildIndexScan S filters store idx).range store), Owns store (.index idx.name) e.1) ↔
      Opens filters idx ∨ ∀ k v, db.engine.get? k = some v → indexName store idx.name <+: k →
        idxPrefix store idx.name <+: k := by
  by_cases opens : Opens filters idx
  · refine iff_of_true (fun e member => ?_) (Or.inl opens)
    exact plan_owned opens (List.mem_filter.mp member).2
  · obtain ⟨field, values, named⟩ := (chosen_leading chosen).resolve_left opens
    rw [plan_named (by rw [named]) (by simp [named])]
    constructor
    · exact fun own => Or.inr fun k v present starts => own (k, v) ((mem_prefixScan _ _ _).mpr ⟨present, starts⟩)
    · intro condition e member
      obtain ⟨present, starts⟩ := (mem_prefixScan _ _ e).mp member
      exact condition.resolve_left opens e.1 e.2 present starts

/-- Stores are isolated exactly if the query's scan is: its filters reach into the
index, or no key goes on behind the index's name other than with the separator. -/
theorem stores_isolated_iff (reached : Reached S db) {store : String} {d : StoreDef}
    (defined : db.schema.get? store = some d) (filters : List QueryFilter) :
    Isolated S db store d filters ↔ ∀ idx, Chosen filters d.indexes idx →
      Opens filters idx ∨ ∀ k v, db.engine.get? k = some v → indexName store idx.name <+: k →
        idxPrefix store idx.name <+: k := by
  have valid := reached_valid reached
  constructor
  · intro isolated idx chosen
    exact (query_scan_iff chosen).mp (isolated.scans _ _ (.query idx chosen))
  · intro condition
    refine ⟨fun m records begun done r member => ?_, fun kind kind' named named' apart k owns owns' => ?_, ?_⟩
    · obtain ⟨own, inside, accepted, within⟩ := batch_within valid begun done r member
      exact ⟨own, inside, fun other fine apart kind named k owns =>
        within_apart within (validateName_nul_free _ accepted) (validateName_nul_free _ fine) apart named owns⟩
    · have free := validateName_nul_free _ (valid.store store d defined)
      exact apart (owner_unique free free named named' owns owns').2
    · intro kind range used e member
      cases used with
      | docs => exact ((mem_prefixScan _ _ e).mp member).2
      | value idx inside value =>
        have front : idxPrefix store idx.name <+: idxValuePrefix store idx.name value :=
          ⟨value ++ [sep], by simp [idxPrefix, idxValuePrefix]⟩
        exact front.trans ((mem_prefixScan _ _ e).mp member).2
      | range idx inside start stop =>
        exact matches_begins (List.prefix_append _ _) (List.prefix_append _ _) (List.mem_filter.mp member).2
      | query idx chosen => exact (query_scan_iff chosen).mpr (condition idx chosen) e member

end

theorem queriedDb_reached : Reached sampleSerde queriedDb := by
  have empty : SchemaValid ⟨∅, ∅⟩ := ⟨by simp, by simp, by simp⟩
  exact .call _ (.put "users" sampleDoc) (.opened _ (empty.insert rfl (by decide) (by decide)))

theorem stores_isolated_iff_eq : Isolated sampleSerde queriedDb "users" twoIndexes [.eq "email" (.string "a")] :=
  (stores_isolated_iff queriedDb_reached rfl _).mpr fun idx chosen => by
    obtain rfl : ⟨["email"], "by", false, false⟩ = idx := Option.some.inj ((by decide : _ = some _).symm.trans chosen.1)
    exact Or.inl (Or.inl (List.cons_ne_nil (Value.string "a") []))

/-- The scan for an index named `by` also returns the entries of `by_email`. -/
theorem in_query_leaves_index : Reached sampleSerde queriedDb ∧
    ¬Isolated sampleSerde queriedDb "users" twoIndexes [.isIn "email" [.string "a"]] := by
  refine ⟨queriedDb_reached, fun isolated => ?_⟩
  have chosen : Chosen [.isIn "email" [.string "a"]] twoIndexes.indexes ⟨["email"], "by", false, false⟩ := by decide
  have owned : idxPrefix "users" "by" <+: idxKey "users" "by_email" [7, 97] (utf8 "u1") :=
    isolated.scans _ _ (.query _ chosen) (idxKey "users" "by_email" [7, 97] (utf8 "u1"), utf8 "u1") (by decide)
  exact absurd owned (by decide)

end FlowDb.StoreIsolation
