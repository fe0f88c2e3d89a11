import Mathlib.Tactic.Convert
import FlowDb.JsonTransaction

/-! The indexes mirror the documents. A write changes one document and rewrites
its entries; entries of different documents never share a key, so the entries of
all others stay as they were. A commit is a list of such changes. -/
namespace FlowDb.JsonIndexes
open ByteString OrderedMap Records JsonValue JsonEncoding JsonDb JsonTransaction

theorem writeInternal_append (engine : Engine) (a b : List InternalRecord) :
    writeInternal engine (a ++ b) = writeInternal (writeInternal engine a) b :=
  List.foldl_append

theorem get?_put (engine : Engine) (key value k : Bytes) :
    (applyRecord engine (putRecord key value)).get? k =
      if k = key then some value else engine.get? k := by
  convert get?_insert engine key value k
  rfl

theorem get?_delete (engine : Engine) (key k : Bytes) :
    (applyRecord engine (deleteRecord key)).get? k = if k = key then none else engine.get? k := by
  convert get?_erase engine key k
  rfl

theorem get?_puts (engine : Engine) (keys : List Bytes) (value k : Bytes) :
    (writeInternal engine (keys.map fun key => putRecord key value)).get? k =
      if k ∈ keys then some value else engine.get? k := by
  induction keys generalizing engine with
  | nil => simp [writeInternal]
  | cons key rest ih =>
    change (writeInternal (applyRecord engine (putRecord key value)) _).get? k = _
    rw [ih, get?_put]
    by_cases later : k ∈ rest <;> simp [later]

theorem get?_deletes (engine : Engine) (keys : List Bytes) (k : Bytes) :
    (writeInternal engine (keys.map deleteRecord)).get? k =
      if k ∈ keys then none else engine.get? k := by
  induction keys generalizing engine with
  | nil => simp [writeInternal]
  | cons key rest ih =>
    change (writeInternal (applyRecord engine (deleteRecord key)) _).get? k = _
    rw [ih, get?_delete]
    by_cases later : k ∈ rest <;> simp [later]

/-- A put or a delete of one key. -/
def Point (r : InternalRecord) : Prop := r.op = .put ∨ r.op = .delete

theorem get?_point {engine other : Engine} {r : InternalRecord} (point : Point r) {k : Bytes}
    (same : engine.get? k = other.get? k) : (applyRecord engine r).get? k = (applyRecord other r).get? k := by
  rcases point with op | op <;> simp [applyRecord, op, get?_insert, get?_erase, same]

theorem get?_points {records : List InternalRecord} (points : ∀ r ∈ records, Point r) {engine other : Engine} {k : Bytes}
    (same : engine.get? k = other.get? k) : (writeInternal engine records).get? k = (writeInternal other records).get? k := by
  induction records generalizing engine other with
  | nil => exact same
  | cons r rest ih =>
    exact ih (fun x member => points x (List.mem_cons_of_mem r member)) (get?_point (points r List.mem_cons_self) same)

section
variable (S : Serde)

def storedDoc (db : JsonDB) (store : String) (key : Bytes) : Option Value :=
  (getBytes db (docKey store key)).bind fun bytes => (decodeDoc S bytes).toOption

/-- The index keys of one document of a store, over all its indexes. -/
def entryKeys (d : StoreDef) (store : String) (key : Bytes) (doc : Option Value) : List Bytes :=
  doc.toList.flatMap fun doc => d.indexes.flatMap fun idx => indexKeys S store idx doc key

theorem mem_entryKeys (d : StoreDef) (store : String) (key : Bytes) (doc : Option Value)
    (k : Bytes) : k ∈ entryKeys S d store key doc ↔
      ∃ stored, doc = some stored ∧ ∃ idx ∈ d.indexes, ∃ vals ∈ extractIndexValues stored idx,
        k = idxKey store idx.name (encodeCompositeValue S vals) key := by
  cases doc <;> simp [entryKeys, indexKeys, eq_comm]

theorem deleteIndexEntries_eq (d : StoreDef) (store : String) (key : Bytes) (old : Option Value) :
    deleteIndexEntries S d store key old = (entryKeys S d store key old).map deleteRecord := by
  cases old <;> simp [deleteIndexEntries, entryKeys, List.map_flatMap]

theorem indexEntries_eq (d : StoreDef) (store : String) (key : Bytes) (doc : Value) :
    (d.indexes.flatMap fun idx => indexEntries S idx store key doc) =
      (entryKeys S d store key (some doc)).map fun k => putRecord k key := by
  simp [indexEntries, entryKeys, List.map_flatMap]

structure SchemaNamed (db : JsonDB) : Prop where
  named : ∀ store d, db.schema.get? store = some d → d.name = store ∧ sep ∉ utf8 store
  indexNamed : ∀ store d, db.schema.get? store = some d → ∀ idx ∈ d.indexes, sep ∉ utf8 idx.name
  distinct : ∀ store d, db.schema.get? store = some d → (d.indexes.map IndexDef.name).Nodup

/-- Every document key decodes under its own store, and the index keys are those
of the stored documents, each holding its document's key. -/
structure Mirrored (db : JsonDB) : Prop extends SchemaNamed db where
  docs : ∀ k v, db.engine.get? k = some v → k.head? = some docTag →
    ∃ store d key doc, db.schema.get? store = some d ∧ sep ∉ key ∧ k = docKey store key ∧
      decodeDoc S v = .ok doc
  entries : ∀ k v, (db.engine.get? k = some v ∧ k.head? = some idxTag) ↔
    ∃ store d, db.schema.get? store = some d ∧ k ∈ entryKeys S d store v (storedDoc S db store v)

variable {S}

theorem stored_key_free {db : JsonDB} (mirrored : Mirrored S db) {store : String} {key : Bytes}
    {doc : Value} (name : sep ∉ utf8 store) (stored : storedDoc S db store key = some doc) :
    sep ∉ key := by
  obtain ⟨bytes, present, _⟩ := Option.bind_eq_some_iff.mp stored
  obtain ⟨store', d, key', _, defined, free, same, _⟩ := mirrored.docs _ _ present rfl
  obtain ⟨rfl, rfl⟩ := docKey_inj name (mirrored.named _ _ defined).2 same
  exact free

-- An index key belongs to one document.
theorem entryKeys_owner {db : JsonDB} (named : SchemaNamed db) {store store' : String}
    {d d' : StoreDef} {key key' k : Bytes} {doc doc' : Option Value}
    (defined : db.schema.get? store = some d) (defined' : db.schema.get? store' = some d')
    (free : sep ∉ key) (free' : sep ∉ key') (here : k ∈ entryKeys S d store key doc)
    (there : k ∈ entryKeys S d' store' key' doc') : store = store' ∧ key = key' := by
  obtain ⟨_, _, idx, member, vals, _, rfl⟩ := (mem_entryKeys S d store key doc k).mp here
  obtain ⟨_, _, idx', member', vals', _, same⟩ := (mem_entryKeys S d' store' key' doc' _).mp there
  obtain ⟨stores, _, _, keys⟩ := idxKey_inj (named.named _ _ defined).2
    (named.named _ _ defined').2 (named.indexNamed _ _ defined idx member)
    (named.indexNamed _ _ defined' idx' member') free free' same
  exact ⟨stores, keys⟩

theorem entryKeys_head {d : StoreDef} {store : String} {key k : Bytes} {doc : Option Value}
    (here : k ∈ entryKeys S d store key doc) : k.head? = some idxTag := by
  obtain ⟨_, _, _, _, _, _, rfl⟩ := (mem_entryKeys S d store key doc k).mp here
  rfl

theorem docKey_notMem_entryKeys {d : StoreDef} {store store' : String} {key key' : Bytes}
    {doc : Option Value} : docKey store' key' ∉ entryKeys S d store key doc := fun member =>
  absurd (Option.some.inj (entryKeys_head member)) (by decide : docTag ≠ idxTag)

variable (S)

/-- The records of one change: the old document's entries go, then the document
is written with its entries, or deleted. -/
def changeRecords (db : JsonDB) (d : StoreDef) (store : String) (key : Bytes)
    (new : Option (Bytes × Value)) : List InternalRecord :=
  deleteIndexEntries S d store key (storedDoc S db store key) ++
    match new with
    | some (bytes, doc) => putRecord (docKey store key) bytes ::
        d.indexes.flatMap fun idx => indexEntries S idx store key doc
    | none => [deleteRecord (docKey store key)]

def JsonDB.write (db : JsonDB) (records : List InternalRecord) : JsonDB :=
  { db with engine := writeInternal db.engine records }

theorem get?_change (db : JsonDB) (d : StoreDef) (store : String) (key : Bytes)
    (new : Option (Bytes × Value)) (k : Bytes) :
    (JsonDB.write db (changeRecords S db d store key new)).engine.get? k =
      if k ∈ entryKeys S d store key (new.map Prod.snd) then some key
      else if k = docKey store key then new.map Prod.fst
      else if k ∈ entryKeys S d store key (storedDoc S db store key) then none
      else db.engine.get? k := by
  unfold changeRecords JsonDB.write
  rw [deleteIndexEntries_eq, writeInternal_append]
  cases new with
  | none =>
    change (applyRecord _ (deleteRecord _)).get? k = _
    rw [get?_delete, get?_deletes]
    simp [entryKeys]
  | some p =>
    obtain ⟨bytes, doc⟩ := p
    dsimp only
    rw [indexEntries_eq]
    change (writeInternal (applyRecord _ (putRecord _ _)) _).get? k = _
    rw [get?_puts, get?_put, get?_deletes]
    rfl

/-- What a change writes can be read back, under a key without separators. -/
def NewDocOk (key : Bytes) : Option (Bytes × Value) → Prop
  | some (bytes, doc) => sep ∉ key ∧ decodeDoc S bytes = .ok doc
  | none => True

variable {S}

theorem storedDoc_change (db : JsonDB) {d : StoreDef} {store store' : String} {key key' : Bytes}
    {new : Option (Bytes × Value)} (named : SchemaNamed db)
    (defined : db.schema.get? store = some d) (name' : sep ∉ utf8 store')
    (newOk : NewDocOk S key new) :
    storedDoc S (JsonDB.write db (changeRecords S db d store key new)) store' key' =
      if store' = store ∧ key' = key then new.map Prod.snd else storedDoc S db store' key' := by
  rw [storedDoc, getBytes, get?_change, if_neg docKey_notMem_entryKeys,
    if_neg docKey_notMem_entryKeys]
  by_cases same : docKey store' key' = docKey store key
  · have owner := docKey_inj name' (named.named _ _ defined).2 same
    rw [if_pos same, if_pos owner]
    cases new with
    | none => rfl
    | some p =>
      obtain ⟨bytes, doc⟩ := p
      simp [newOk.2, Except.toOption]
  · have other : ¬(store' = store ∧ key' = key) := fun h => same (by rw [h.1, h.2])
    rw [if_neg same, if_neg other]
    rfl

theorem change_docs (db : JsonDB) {d : StoreDef} {store : String} {key : Bytes}
    {new : Option (Bytes × Value)} (mirrored : Mirrored S db)
    (defined : db.schema.get? store = some d) (newOk : NewDocOk S key new) (k v : Bytes)
    (present : (JsonDB.write db (changeRecords S db d store key new)).engine.get? k = some v)
    (tagged : k.head? = some docTag) :
    ∃ store d key doc, db.schema.get? store = some d ∧ sep ∉ key ∧ k = docKey store key ∧
      decodeDoc S v = .ok doc := by
  have notEntry : ∀ doc, k ∉ entryKeys S d store key doc := fun doc member =>
    absurd ((entryKeys_head member).symm.trans tagged) (by decide)
  rw [get?_change, if_neg (notEntry _), if_neg (notEntry _)] at present
  by_cases same : k = docKey store key
  · rw [if_pos same] at present
    cases new with
    | none => cases present
    | some p =>
      obtain ⟨bytes, doc⟩ := p
      obtain rfl := Option.some.inj present
      exact ⟨store, d, key, doc, defined, newOk.1, same, newOk.2⟩
  · rw [if_neg same] at present
    exact mirrored.docs k v present tagged

/-- One change keeps the mirror: at an index key of another document nothing is
written, and at one of this document the entries follow the new document. -/
theorem change_mirrored (db : JsonDB) {d : StoreDef} {store : String} {key : Bytes}
    {new : Option (Bytes × Value)} (mirrored : Mirrored S db)
    (defined : db.schema.get? store = some d) (newOk : NewDocOk S key new) :
    Mirrored S (JsonDB.write db (changeRecords S db d store key new)) := by
  refine { mirrored with docs := change_docs db mirrored defined newOk, entries := fun k v => ?_ }
  have stored (store' : String) (key' : Bytes) (name' : sep ∉ utf8 store') :
      storedDoc S (JsonDB.write db (changeRecords S db d store key new)) store' key' =
        if store' = store ∧ key' = key then new.map Prod.snd else storedDoc S db store' key' :=
    storedDoc_change db mirrored.toSchemaNamed defined name' newOk
  have freeOfEntry : ∀ {store' d' key' k}, db.schema.get? store' = some d' →
      k ∈ entryKeys S d' store' key' (storedDoc S db store' key') → sep ∉ key' := by
    intro store' d' key' k defined' member
    obtain ⟨doc, present, _⟩ := (mem_entryKeys S _ _ _ _ _).mp member
    exact stored_key_free mirrored (mirrored.named _ _ defined').2 present
  have freeOfNew : k ∈ entryKeys S d store key (new.map Prod.snd) → sep ∉ key := by
    intro member
    cases new with
    | none => cases member
    | some p => exact newOk.1
  constructor
  · rintro ⟨present, tagged⟩
    rw [get?_change] at present
    have notDoc : k ≠ docKey store key := fun h =>
      absurd (Option.some.inj ((congrArg List.head? h).symm.trans tagged))
        (by decide : docTag ≠ idxTag)
    split_ifs at present with fresh gone
    · obtain rfl := Option.some.inj present
      refine ⟨store, d, defined, ?_⟩
      rw [stored store key (mirrored.named _ _ defined).2, if_pos ⟨rfl, rfl⟩]
      exact fresh
    · obtain ⟨store', d', defined', member⟩ := (mirrored.entries k v).mp ⟨present, tagged⟩
      refine ⟨store', d', defined', ?_⟩
      have other : ¬(store' = store ∧ v = key) := by
        rintro ⟨rfl, rfl⟩
        obtain rfl := Option.some.inj (defined.symm.trans defined')
        exact gone member
      rw [stored store' v (mirrored.named _ _ defined').2, if_neg other]
      exact member
  · rintro ⟨store', d', defined', member⟩
    rw [stored store' v (mirrored.named _ _ defined').2] at member
    refine ⟨?_, entryKeys_head member⟩
    have notDoc : k ≠ docKey store key := fun h => docKey_notMem_entryKeys (h ▸ member)
    rw [get?_change, if_neg notDoc]
    split_ifs at member with same
    · obtain ⟨rfl, rfl⟩ := same
      obtain rfl := Option.some.inj (defined.symm.trans defined')
      rw [if_pos member]
    · have free' := freeOfEntry defined' member
      have notNew : k ∉ entryKeys S d store key (new.map Prod.snd) := fun fresh =>
        same (entryKeys_owner mirrored.toSchemaNamed defined' defined free' (freeOfNew fresh)
          member fresh)
      have notOld : k ∉ entryKeys S d store key (storedDoc S db store key) := fun gone =>
        same (entryKeys_owner mirrored.toSchemaNamed defined' defined free'
          (freeOfEntry defined gone) member gone)
      rw [if_neg notNew, if_neg notOld]
      exact ((mirrored.entries k v).mpr ⟨store', d', defined', member⟩).1

-- The mirror looks at document and index keys only.
theorem mirrored_congr {db after : JsonDB} (mirrored : Mirrored S db) (named : SchemaNamed after)
    (schema : ∀ store, after.schema.get? store = db.schema.get? store)
    (same : ∀ k, k.head? = some docTag ∨ k.head? = some idxTag →
      after.engine.get? k = db.engine.get? k) : Mirrored S after := by
  have stored : ∀ store key, storedDoc S after store key = storedDoc S db store key := by
    intro store key
    rw [storedDoc, getBytes, same _ (Or.inl rfl)]
    rfl
  refine { named with docs := fun k v present tagged => ?_, entries := fun k v => ?_ }
  · rw [same k (Or.inl tagged)] at present
    simpa only [schema] using mirrored.docs k v present tagged
  · simp only [schema, stored, ← mirrored.entries k v]
    constructor
    · rintro ⟨present, tagged⟩
      exact ⟨(same k (Or.inr tagged)) ▸ present, tagged⟩
    · rintro ⟨present, tagged⟩
      exact ⟨(same k (Or.inr tagged)).symm ▸ present, tagged⟩

/-- A put outside the documents and their entries: a counter or a schema. -/
def Aside (r : InternalRecord) : Prop :=
  r.op = .put ∧ r.key.head? ≠ some docTag ∧ r.key.head? ≠ some idxTag

theorem get?_aside (engine : Engine) (records : List InternalRecord)
    (aside : ∀ r ∈ records, Aside r) (k : Bytes)
    (tagged : k.head? = some docTag ∨ k.head? = some idxTag) :
    (writeInternal engine records).get? k = engine.get? k := by
  induction records generalizing engine with
  | nil => rfl
  | cons r rest ih =>
    change (writeInternal (applyRecord engine r) rest).get? k = _
    rw [ih _ fun x member => aside x (List.mem_cons_of_mem _ member)]
    obtain ⟨isPut, notDoc, notIdx⟩ := aside r List.mem_cons_self
    have other : k ≠ r.key := by
      rintro rfl
      exact tagged.elim notDoc notIdx
    simp [applyRecord, isPut, get?_insert, other]

theorem aside_mirrored {db : JsonDB} (mirrored : Mirrored S db) (records : List InternalRecord)
    (aside : ∀ r ∈ records, Aside r) : Mirrored S (JsonDB.write db records) :=
  mirrored_congr mirrored ⟨mirrored.named, mirrored.indexNamed, mirrored.distinct⟩ (fun _ => rfl)
    fun k => get?_aside db.engine records aside k

theorem aside_storedDoc (db : JsonDB) (records : List InternalRecord)
    (aside : ∀ r ∈ records, Aside r) (store : String) (key : Bytes) :
    storedDoc S (JsonDB.write db records) store key = storedDoc S db store key := by
  rw [storedDoc, getBytes, JsonDB.write, get?_aside _ _ aside _ (Or.inl rfl)]
  rfl

variable (S)

def newDoc (w : Write) : Option (Bytes × Value) :=
  w.2.bind fun bytes => (decodeDoc S bytes).toOption.map fun doc => (bytes, doc)

def writeRecords (db : JsonDB) (w : Write) : List InternalRecord :=
  match db.schema.get? (ofLex w.1).1 with
  | some d => changeRecords S db d (ofLex w.1).1 (ofLex w.1).2 (newDoc S w)
  | none => []

/-- A buffered write the commit can apply: its store exists and what it puts is a
document under a key without separators. -/
structure WriteOk (db : JsonDB) (w : Write) : Prop where
  defined : ∃ d, db.schema.get? (ofLex w.1).1 = some d
  doc : NewDocOk S (ofLex w.1).2 (newDoc S w)

/-- Each document is the one its change put, or what it was before. -/
def Changed (db after : JsonDB) (ws : List Write) : Prop :=
  ∀ store key, sep ∉ utf8 store →
    (∃ w ∈ ws, w.1 = toLex (store, key) ∧
      storedDoc S after store key = (newDoc S w).map Prod.snd) ∨
    ((∀ w ∈ ws, w.1 ≠ toLex (store, key)) ∧
      storedDoc S after store key = storedDoc S db store key)

variable {S}

theorem write_write (db : JsonDB) (a b : List InternalRecord) :
    JsonDB.write (JsonDB.write db a) b = JsonDB.write db (a ++ b) := by
  simp [JsonDB.write, writeInternal_append]

theorem writeRecords_congr {db after : JsonDB} (w : Write)
    (schema : after.schema = db.schema)
    (stored : storedDoc S after (ofLex w.1).1 (ofLex w.1).2 =
      storedDoc S db (ofLex w.1).1 (ofLex w.1).2) :
    writeRecords S after w = writeRecords S db w := by
  unfold writeRecords changeRecords
  rw [schema, stored]

-- A list of changes to different documents, one after the other.
theorem changes_mirrored (ws : List Write) (db : JsonDB) (mirrored : Mirrored S db)
    (once : (ws.map Prod.fst).Nodup) (ok : ∀ w ∈ ws, WriteOk S db w) :
    Mirrored S (JsonDB.write db (ws.flatMap (writeRecords S db))) ∧
      Changed S db (JsonDB.write db (ws.flatMap (writeRecords S db))) ws := by
  induction ws generalizing db with
  | nil => exact ⟨mirrored, fun store key _ => Or.inr ⟨by simp, rfl⟩⟩
  | cons w rest ih =>
    obtain ⟨notLater, restOnce⟩ := List.nodup_cons.mp (List.map_cons ▸ once)
    obtain ⟨⟨d, defined⟩, docOk⟩ := ok w List.mem_cons_self
    have first : writeRecords S db w =
        changeRecords S db d (ofLex w.1).1 (ofLex w.1).2 (newDoc S w) := by
      simp [writeRecords, defined]
    have step := change_mirrored db mirrored defined docOk
    rw [← first] at step
    have stored : ∀ store key, sep ∉ utf8 store →
        storedDoc S (JsonDB.write db (writeRecords S db w)) store key =
          if store = (ofLex w.1).1 ∧ key = (ofLex w.1).2 then (newDoc S w).map Prod.snd
          else storedDoc S db store key := by
      intro store key name
      rw [first]
      exact storedDoc_change db mirrored.toSchemaNamed defined name docOk
    have apart : ∀ w' ∈ rest, ¬((ofLex w'.1).1 = (ofLex w.1).1 ∧ (ofLex w'.1).2 = (ofLex w.1).2) :=
      fun w' member same => notLater (List.mem_map.mpr ⟨w', member, Prod.ext same.1 same.2⟩)
    have nameOf : ∀ w' ∈ w :: rest, sep ∉ utf8 (ofLex w'.1).1 := fun w' member =>
      (mirrored.named _ _ (ok w' member).defined.choose_spec).2
    have laterRecords : rest.flatMap (writeRecords S db) =
        rest.flatMap (writeRecords S (JsonDB.write db (writeRecords S db w))) := by
      refine List.flatMap_congr fun w' member => Eq.symm (writeRecords_congr w' ?_ ?_)
      · rfl
      · rw [stored _ _ (nameOf w' (List.mem_cons_of_mem _ member)), if_neg (apart w' member)]
    obtain ⟨whole, changed⟩ := ih (JsonDB.write db (writeRecords S db w)) step restOnce
      fun w' member => ⟨(ok w' (List.mem_cons_of_mem _ member)).defined,
        (ok w' (List.mem_cons_of_mem _ member)).doc⟩
    rw [← laterRecords, write_write, ← List.flatMap_cons] at whole changed
    refine ⟨whole, fun store key name => ?_⟩
    rcases changed store key name with ⟨w', member, same, value⟩ | ⟨absent, value⟩
    · exact Or.inl ⟨w', List.mem_cons_of_mem _ member, same, value⟩
    · rw [stored store key name] at value
      by_cases here : store = (ofLex w.1).1 ∧ key = (ofLex w.1).2
      · rw [if_pos here] at value
        obtain ⟨rfl, rfl⟩ := here
        exact Or.inl ⟨w, List.mem_cons_self, rfl, value⟩
      · rw [if_neg here] at value
        refine Or.inr ⟨fun w' member same => ?_, value⟩
        rcases List.mem_cons.mp member with rfl | later
        · exact here (by rw [same]; exact ⟨rfl, rfl⟩)
        · exact absent w' later same

/-! What a successful operation writes. -/

theorem bind_ok {α β : Type} {x : Except FlowError α} {f : α → Except FlowError β} {b : β}
    (done : (x >>= f) = .ok b) : ∃ a, x = .ok a ∧ f a = .ok b := by
  cases x with
  | error e => cases done
  | ok a => exact ⟨a, rfl, done⟩

theorem ok_bind {α β : Type} (a : α) (f : α → Except FlowError β) : (Except.ok a >>= f) = f a := rfl

theorem map_ok {α β : Type} (f : α → β) (a : α) : (Except.ok a : Except FlowError α).map f = .ok (f a) := rfl

theorem map_bind_except {α β γ : Type} (f : β → γ) (x : Except FlowError α) (g : α → Except FlowError β) :
    (x >>= g).map f = x >>= fun a => (g a).map f := by
  cases x <;> rfl

theorem forM_ok {α : Type} {f : α → Except FlowError Unit} {items : List α}
    (done : items.forM f = .ok ()) : ∀ x ∈ items, f x = .ok () := by
  induction items with
  | nil => simp
  | cons head rest ih =>
    obtain ⟨_, first, later⟩ := bind_ok (x := f head) (f := fun _ => rest.forM f) done
    intro x member
    rcases List.mem_cons.mp member with rfl | there
    · exact first
    · exact ih later x there

theorem forM_of_ok {α : Type} {f : α → Except FlowError Unit} {items : List α} (each : ∀ x ∈ items, f x = .ok ()) :
    items.forM f = .ok () := by
  induction items with
  | nil => rfl
  | cons head rest ih =>
    rw [List.forM, each head List.mem_cons_self]
    exact ih fun x member => each x (List.mem_cons_of_mem head member)

theorem mapM_ok {α β : Type} {f : α → Except FlowError β} {items : List α} {out : List β}
    (done : items.mapM f = .ok out) : ∀ y ∈ out, ∃ x ∈ items, f x = .ok y := by
  induction items generalizing out with
  | nil =>
    obtain rfl := Except.ok.inj done
    exact fun y member => absurd member List.not_mem_nil
  | cons head rest ih =>
    rw [List.mapM_cons] at done
    obtain ⟨first, here, done⟩ := bind_ok done
    obtain ⟨later, there, done⟩ := bind_ok done
    obtain rfl := Except.ok.inj done
    intro y member
    rcases List.mem_cons.mp member with rfl | inside
    · exact ⟨head, List.mem_cons_self, here⟩
    · obtain ⟨x, belongs, made⟩ := ih there y inside
      exact ⟨x, List.mem_cons_of_mem _ belongs, made⟩

theorem getStore_ok {db : JsonDB} {store : String} {d : StoreDef}
    (found : getStore db store = .ok d) : db.schema.get? store = some d := by
  unfold getStore at found
  split at found
  · next d' present => exact present.trans (congrArg some (Except.ok.inj found))
  · cases found

theorem getStore_of {db : JsonDB} {store : String} {d : StoreDef} (defined : db.schema.get? store = some d) :
    getStore db store = .ok d := by rw [getStore, defined]

theorem pushIndexes_ok {check : IndexDef → Except FlowError Unit} {store : String} {key : Bytes}
    {doc : Value} {indexes : List IndexDef} {records out : List InternalRecord}
    (done : pushIndexes S check store key doc indexes records = .ok out) :
    out = records ++ indexes.flatMap (fun idx => indexEntries S idx store key doc) ∧
      ∀ idx ∈ indexes, check idx = .ok () := by
  induction indexes generalizing records with
  | nil => exact ⟨by simpa [pushIndexes, eq_comm] using done, by simp⟩
  | cons idx rest ih =>
    obtain ⟨_, checked, later⟩ := bind_ok done
    obtain ⟨rfl, checks⟩ := ih later
    refine ⟨by simp, fun x member => ?_⟩
    rcases List.mem_cons.mp member with rfl | there
    · exact checked
    · exact checks x there

theorem schemaRecord_printed {d : StoreDef} {record : InternalRecord} (written : schemaRecord S d = .ok record) :
    ∃ text, S.toVec d.toValue = some text ∧ record = putRecord (schemaKey d.name) text := by
  unfold schemaRecord at written
  split at written
  · next text printed => exact ⟨text, printed, (Except.ok.inj written).symm⟩
  · cases written

/-- A backfill adds entries of the index behind what it is given. -/
theorem backfill_appends {d : StoreDef} {store name : String} {index : IndexDef} {docs : List (Bytes × Bytes)}
    {records out : List InternalRecord} (done : backfill S d store name index docs records = .ok out) :
    ∃ entries, out = records ++ entries ∧ ∀ r ∈ entries, ∃ value key, r = putRecord (idxKey store name value key) key := by
  induction docs generalizing records with
  | nil => exact ⟨[], by simpa [backfill, eq_comm] using done, nofun⟩
  | cons entry rest ih =>
    obtain ⟨_, bytes⟩ := entry
    obtain ⟨doc, _, done⟩ := bind_ok done
    obtain ⟨added, mapped, done⟩ := bind_ok done
    obtain ⟨later, rfl, each⟩ := ih done
    refine ⟨added ++ later, List.append_assoc _ _ _, fun r member => ?_⟩
    rcases List.mem_append.mp member with here | there
    · obtain ⟨vals, _, made⟩ := mapM_ok mapped r here
      obtain ⟨key, _, made⟩ := bind_ok made
      exact ⟨_, key, (Except.ok.inj made).symm⟩
    · exact each r there

theorem readOldDoc_ok {db : JsonDB} {store : String} {key : Bytes} {old : Option Value}
    (done : readOldDoc S db store key = .ok old) : old = storedDoc S db store key := by
  unfold readOldDoc at done
  unfold storedDoc
  cases present : getBytes db (docKey store key) with
  | none => simpa [present, eq_comm] using done
  | some bytes =>
    simp only [present] at done
    split at done
    · next doc decoded => simp [decoded, Except.toOption, ← Except.ok.inj done]
    · cases done

theorem buildPutBatch_ok {db : JsonDB} {d : StoreDef} {store : String} {key docBytes : Bytes}
    {doc : Value} {batch : List InternalRecord}
    (done : buildPutBatch S db d store key docBytes doc = .ok batch) :
    batch = changeRecords S db d store key (some (docBytes, doc)) ∧
      ∀ idx ∈ d.indexes, checkUnique S db store idx key doc = .ok () := by
  obtain ⟨old, read, pushed⟩ := bind_ok done
  obtain rfl := readOldDoc_ok read
  obtain ⟨rfl, checks⟩ := pushIndexes_ok pushed
  exact ⟨by simp [changeRecords], checks⟩

theorem buildDeleteBatch_ok {db : JsonDB} {d : StoreDef} {store : String} {key : Bytes}
    {batch : List InternalRecord} (done : buildDeleteBatch S db d store key = .ok batch) :
    batch = changeRecords S db d store key none := by
  obtain ⟨old, read, built⟩ := bind_ok done
  obtain rfl := readOldDoc_ok read
  exact (Except.ok.inj built).symm

variable (S)

/-- The checks a write passed: no entry of its value in the engine under another
key, none among the other writes of the batch. -/
def Checked (db : JsonDB) (ws : List Write) (w : Write) : Prop :=
  ∀ d, db.schema.get? (ofLex w.1).1 = some d → ∀ p, newDoc S w = some p →
    ∀ idx ∈ d.indexes, idx.unique = true → ∀ vals ∈ extractIndexValues p.2 idx,
      checkEngine S db (ofLex w.1).1 idx (ofLex w.1).2 vals = .ok () ∧
      checkBuffered S ws (ofLex w.1).1 idx (ofLex w.1).2 vals = .ok ()

/-- A batch of checked changes to different documents, among counter records. -/
structure Applied (db after : JsonDB) (ws : List Write) : Prop where
  once : (ws.map Prod.fst).Nodup
  ok : ∀ w ∈ ws, WriteOk S db w
  checked : ∀ w ∈ ws, Checked S db ws w
  written : ∃ pre post, (∀ r ∈ pre ++ post, Aside r) ∧
    after = JsonDB.write db (pre ++ ws.flatMap (writeRecords S db) ++ post)

variable {S}

theorem applied_mirrored {db after : JsonDB} {ws : List Write} (mirrored : Mirrored S db)
    (applied : Applied S db after ws) : Mirrored S after ∧ Changed S db after ws := by
  obtain ⟨pre, post, aside, rfl⟩ := applied.written
  have asidePre : ∀ r ∈ pre, Aside r := fun r member => aside r (List.mem_append_left _ member)
  have asidePost : ∀ r ∈ post, Aside r := fun r member => aside r (List.mem_append_right _ member)
  have same : writeRecords S (JsonDB.write db pre) = writeRecords S db := by
    funext w
    exact writeRecords_congr w rfl (aside_storedDoc db pre asidePre _ _)
  obtain ⟨whole, changed⟩ := changes_mirrored ws (JsonDB.write db pre)
    (aside_mirrored mirrored pre asidePre) applied.once
    fun w member => ⟨(applied.ok w member).defined, (applied.ok w member).doc⟩
  rw [same] at whole changed
  rw [← write_write, ← write_write]
  refine ⟨aside_mirrored whole post asidePost, fun store key name => ?_⟩
  rw [aside_storedDoc _ post asidePost, ← aside_storedDoc db pre asidePre store key]
  exact changed store key name

variable (S)

/-- An operation on the database leaves it alone or applies one batch. -/
def Outcome (db after : JsonDB) : Prop := after = db ∨ ∃ ws, Applied S db after ws

variable {S}

theorem commitBatch_outcome {α : Type} {db : JsonDB}
    {attempt : Except FlowError (α × List InternalRecord)}
    (writes : ∀ result records, attempt = .ok (result, records) →
      ∃ ws, Applied S db (JsonDB.write db records) ws) :
    Outcome S db (commitBatch db attempt).2 := by
  cases attempt with
  | error e => exact Or.inl rfl
  | ok p => exact Or.inr (writes p.1 p.2 rfl)

theorem newDoc_some {w : Write} {bytes : Bytes} {doc : Value} (put : w.2 = some bytes)
    (decoded : decodeDoc S bytes = .ok doc) : newDoc S w = some (bytes, doc) := by
  simp [newDoc, put, decoded, Except.toOption]

-- Nothing in a batch of one write belongs to another document.
theorem checkBuffered_single (w : Write) (idx : IndexDef) (vals : List Value) :
    checkBuffered S [w] (ofLex w.1).1 idx (ofLex w.1).2 vals = .ok () := by
  obtain ⟨slot, doc⟩ := w
  cases doc <;> simp [checkBuffered]

theorem single_applied {db : JsonDB} {d : StoreDef} {w : Write} {records : List InternalRecord}
    (post : List InternalRecord)
    (defined : db.schema.get? (ofLex w.1).1 = some d)
    (docOk : NewDocOk S (ofLex w.1).2 (newDoc S w))
    (checks : ∀ p, newDoc S w = some p → ∀ idx ∈ d.indexes,
      checkUnique S db (ofLex w.1).1 idx (ofLex w.1).2 p.2 = .ok ())
    (built : records =
      changeRecords S db d (ofLex w.1).1 (ofLex w.1).2 (newDoc S w) ++ post)
    (aside : ∀ r ∈ post, Aside r) : Applied S db (JsonDB.write db records) [w] := by
  refine ⟨by simp, ?_, ?_, [], post, by simpa using aside, ?_⟩
  · intro w' member
    obtain rfl := List.mem_singleton.mp member
    exact ⟨⟨d, defined⟩, docOk⟩
  · intro w' member d' defined' p put idx idxMember isUnique vals valsMember
    obtain rfl := List.mem_singleton.mp member
    obtain rfl := Option.some.inj (defined.symm.trans defined')
    have passed := checks p put idx idxMember
    rw [checkUnique, if_pos isUnique] at passed
    exact ⟨forM_ok passed vals valsMember, checkBuffered_single w' idx vals⟩
  · rw [built]
    simp [writeRecords, defined]

theorem keyOf_ok {d : StoreDef} {store : String} {doc keyVal : Value}
    (found : keyOf d store doc = .ok keyVal) : extractField doc d.keyPath = some keyVal := by
  unfold keyOf at found
  split at found
  · next v present => exact present.trans (congrArg some (Except.ok.inj found))
  · cases found

theorem put_outcome (db : JsonDB) (store : String) (doc : Value) (whole : doc.wellFormed = true)
    (notNull : KeyNotNull db store doc) : Outcome S db (put S db store doc).2 := by
  refine commitBatch_outcome fun result records done => ?_
  obtain ⟨d, found, done⟩ := bind_ok done
  obtain ⟨keyVal, keyed, done⟩ := bind_ok done
  obtain ⟨key, encodedKey, done⟩ := bind_ok done
  obtain ⟨docBytes, encoded, done⟩ := bind_ok done
  obtain ⟨batch, built, done⟩ := bind_ok done
  obtain ⟨rfl, rfl⟩ := Prod.mk.inj (Except.ok.inj done)
  have defined := getStore_ok found
  have decoded := decode_encode_doc S doc docBytes whole encoded
  have free := encodePrimaryKey_nul_free S keyVal key
    (fun h => notNull d defined (h ▸ keyOf_ok keyed)) encodedKey
  obtain ⟨rfl, checks⟩ := buildPutBatch_ok built
  have put := newDoc_some (S := S) (w := (toLex (store, key), some docBytes)) rfl decoded
  refine ⟨[(toLex (store, key), some docBytes)], single_applied [] defined ?_ ?_ ?_ ?_⟩
  · rw [put]
    exact ⟨free, decoded⟩
  · intro p same
    obtain rfl := Option.some.inj (put.symm.trans same)
    exact checks
  · rw [put, List.append_nil]
    rfl
  · simp

theorem delete_outcome (db : JsonDB) (store : String) (keyVal : Value) :
    Outcome S db (delete S db store keyVal).2 := by
  refine commitBatch_outcome fun result records done => ?_
  obtain ⟨d, found, done⟩ := bind_ok done
  obtain ⟨key, _, done⟩ := bind_ok done
  obtain ⟨batch, built, done⟩ := bind_ok done
  obtain ⟨rfl, rfl⟩ := Prod.mk.inj (Except.ok.inj done)
  refine ⟨[(toLex (store, key), none)], single_applied [] (getStore_ok found) trivial ?_ ?_ ?_⟩
  · intro p put
    cases put
  · rw [buildDeleteBatch_ok built, List.append_nil]
    rfl
  · simp

theorem prepareCounter_aside {db : JsonDB} {store : String} {next : UInt64} {r : InternalRecord}
    (done : prepareCounter db store = .ok (next, r)) : Aside r := by
  obtain ⟨current, _, done⟩ := bind_ok done
  obtain ⟨-, rfl⟩ := Prod.mk.inj (Except.ok.inj done)
  exact ⟨rfl, (by decide : some ctrTag ≠ some docTag), (by decide : some ctrTag ≠ some idxTag)⟩

theorem putAuto_outcome (db : JsonDB) (store : String) (doc : Value)
    (whole : doc.wellFormed = true) : Outcome S db (putAuto S db store doc).2 := by
  refine commitBatch_outcome fun result records done => ?_
  obtain ⟨d, found, done⟩ := bind_ok done
  obtain ⟨_, _, done⟩ := bind_ok done
  obtain ⟨⟨nextId, counterRec⟩, prepared, done⟩ := bind_ok done
  obtain ⟨docBytes, encoded, done⟩ := bind_ok done
  obtain ⟨batch, built, done⟩ := bind_ok done
  obtain ⟨rfl, rfl⟩ := Prod.mk.inj (Except.ok.inj done)
  have defined := getStore_ok found
  have decoded := decode_encode_doc S _ docBytes
    (insertMember_wellFormed doc _ d.keyPath whole rfl) encoded
  obtain ⟨rfl, checks⟩ := buildPutBatch_ok built
  have put := newDoc_some (S := S)
    (w := (toLex (store, decimal nextId.toNat), some docBytes)) rfl decoded
  refine ⟨[(toLex (store, decimal nextId.toNat), some docBytes)],
    single_applied [counterRec] defined ?_ ?_ ?_ ?_⟩
  · rw [put]
    exact ⟨zero_notMem_decimal _, decoded⟩
  · intro p same
    obtain rfl := Option.some.inj (put.symm.trans same)
    exact checks
  · rw [put]
    rfl
  · intro r member
    obtain rfl := List.mem_singleton.mp member
    exact prepareCounter_aside prepared

variable (S)

/-- What a transaction has buffered: documents under keys without separators, and
counter records. -/
structure Buffered (tx : Transaction) : Prop where
  counters : ∀ r ∈ tx.counterUpdates, Aside r
  docs : ∀ w ∈ tx.writes.entries, NewDocOk S (ofLex w.1).2 (newDoc S w)

variable {S}

theorem commitWrite_ok {db : JsonDB} {order : List Write} {w : Write}
    {records out : List InternalRecord} (done : commitWrite S db order w records = .ok out) :
    (∃ d, db.schema.get? (ofLex w.1).1 = some d) ∧ out = records ++ writeRecords S db w ∧
      Checked S db order w := by
  obtain ⟨slot, content⟩ := w
  obtain ⟨d, found, done⟩ := bind_ok done
  have defined : db.schema.get? (ofLex slot).1 = some d := getStore_ok found
  refine ⟨⟨d, defined⟩, ?_⟩
  have records_eq : ∀ new, newDoc S (slot, content) = new → writeRecords S db (slot, content) =
      changeRecords S db d (ofLex slot).1 (ofLex slot).2 new := by
    rintro new rfl
    simp [writeRecords, defined]
  cases content with
  | none =>
    obtain rfl := Except.ok.inj done
    refine ⟨?_, fun d' _ p put => by cases put⟩
    rw [records_eq none rfl]
    simp [changeRecords, storedDoc]
  | some docBytes =>
    obtain ⟨doc, decoded, pushed⟩ := bind_ok done
    obtain ⟨rfl, checks⟩ := pushIndexes_ok pushed
    have put := newDoc_some (S := S) (w := (slot, some docBytes)) rfl decoded
    refine ⟨?_, fun d' defined' p same idx member isUnique vals valsMember => ?_⟩
    · rw [records_eq _ put]
      simp [changeRecords, storedDoc]
    · obtain rfl := Option.some.inj (defined.symm.trans defined')
      obtain rfl := Option.some.inj (put.symm.trans same)
      have passed := checks idx member
      rw [checkUniqueBuffered, if_pos isUnique] at passed
      obtain ⟨_, engine, buffered⟩ := bind_ok (forM_ok passed vals valsMember)
      exact ⟨engine, buffered⟩

theorem commitWrites_ok {db : JsonDB} {order ws : List Write} {records out : List InternalRecord}
    (done : commitWrites S db order ws records = .ok out) :
    out = records ++ ws.flatMap (writeRecords S db) ∧
      ∀ w ∈ ws, (∃ d, db.schema.get? (ofLex w.1).1 = some d) ∧ Checked S db order w := by
  induction ws generalizing records with
  | nil => exact ⟨by simpa [commitWrites, eq_comm] using done, by simp⟩
  | cons w rest ih =>
    obtain ⟨middle, first, later⟩ := bind_ok done
    obtain ⟨defined, rfl, checked⟩ := commitWrite_ok first
    obtain ⟨rfl, each⟩ := ih later
    refine ⟨by simp, fun x member => ?_⟩
    rcases List.mem_cons.mp member with rfl | there
    · exact ⟨defined, checked⟩
    · exact each x there

theorem commit_live {tx : Transaction} (live : tx.committed = false) (db : JsonDB) (order : List Write) :
    tx.commit S db order = match commitWrites S db order order tx.counterUpdates with
      | .ok records => (.ok (), JsonDB.write db records)
      | .error e => (.error e, db) := by
  rw [Transaction.commit, live, if_neg Bool.false_ne_true]
  cases commitWrites S db order order tx.counterUpdates <;> rfl

/-- A commit that succeeds writes the counters and one change for each buffered write. -/
theorem commit_applied {db : JsonDB} {tx : Transaction} {order : List Write} (live : tx.committed = false)
    (visits : order.Perm tx.writes.entries) (buffered : Buffered S tx) (done : (tx.commit S db order).1 = .ok ()) :
    (tx.commit S db order).2 = JsonDB.write db (tx.counterUpdates ++ order.flatMap (writeRecords S db)) ∧
      Applied S db (tx.commit S db order).2 order := by
  rw [commit_live live] at done ⊢
  cases walked : commitWrites S db order order tx.counterUpdates with
  | error e =>
    rw [walked] at done
    cases done
  | ok out =>
    obtain ⟨rfl, each⟩ := commitWrites_ok walked
    refine ⟨rfl, ?_, fun w member => ⟨(each w member).1, ?_⟩, fun w member => (each w member).2,
      tx.counterUpdates, [], by simpa using buffered.counters, by rw [List.append_nil]⟩
    · exact (visits.map Prod.fst).nodup_iff.mpr (keys_nodup tx.writes)
    · exact buffered.docs w (visits.mem_iff.mp member)

theorem commit_outcome (db : JsonDB) (tx : Transaction) (order : List Write)
    (visits : order.Perm tx.writes.entries) (buffered : Buffered S tx) :
    Outcome S db (tx.commit S db order).2 := by
  cases live : tx.committed with
  | true => exact .inl (by rw [Transaction.commit, live, if_pos rfl])
  | false =>
    cases walked : commitWrites S db order order tx.counterUpdates with
    | ok out => exact .inr ⟨order, (commit_applied live visits buffered (by rw [commit_live live, walked])).2⟩
    | error e => exact .inl (by rw [commit_live live, walked])

end
end FlowDb.JsonIndexes
