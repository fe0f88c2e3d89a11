import FlowDb.StoreIsolation

/-! What a put and a delete do to one index, and what filling an index from the stored
documents does to it. Two databases that differ in one index only are written alike. -/
namespace FlowDb.IndexMaintenance
open ByteString OrderedMap Records JsonValue JsonEncoding JsonDb JsonIndexes JsonSessions KeySpace StoreIsolation

/-- Two attempts that fail alike, or succeed with related results. -/
def Agree {α β : Type} (R : α → β → Prop) : Except FlowError α → Except FlowError β → Prop
  | .ok a, .ok b => R a b
  | .error e, .error e' => e = e'
  | _, _ => False

theorem agree_refl {α : Type} (x : Except FlowError α) : Agree Eq x x := by
  cases x <;> rfl

theorem agree_bind {α β α' β' : Type} {R : α → β → Prop} {Q : α' → β' → Prop} {x : Except FlowError α}
    {y : Except FlowError β} {f : α → Except FlowError α'} {g : β → Except FlowError β'} (first : Agree R x y)
    (next : ∀ a b, x = .ok a → y = .ok b → R a b → Agree Q (f a) (g b)) : Agree Q (x >>= f) (y >>= g) := by
  cases x with
  | error e =>
    cases y with
    | error e' => exact first
    | ok b => exact first.elim
  | ok a =>
    cases y with
    | error e' => exact first.elim
    | ok b => exact next a b rfl rfl first

theorem agree_mono {α β : Type} {R Q : α → β → Prop} {x : Except FlowError α} {y : Except FlowError β}
    (agree : Agree R x y) (weaker : ∀ a b, x = .ok a → y = .ok b → R a b → Q a b) : Agree Q x y := by
  cases x with
  | error e =>
    cases y with
    | error e' => exact agree
    | ok b => exact agree.elim
  | ok a =>
    cases y with
    | error e' => exact agree.elim
    | ok b => exact weaker a b rfl rfl agree

/-- The same attempt before two continuations. -/
theorem agree_same {α α' β' : Type} {Q : α' → β' → Prop} {x y : Except FlowError α} {f : α → Except FlowError α'}
    {g : α → Except FlowError β'} (same : y = x) (next : ∀ a, x = .ok a → Agree Q (f a) (g a)) :
    Agree Q (x >>= f) (y >>= g) := by
  subst same
  exact agree_bind (agree_refl y) fun a b done _ equal => equal ▸ next a done

section
variable {S : Serde}

/-! ### The batches -/

theorem pushIndexes_eq (check : IndexDef → Except FlowError Unit) (store : String) (key : Bytes) (doc : Value)
    (indexes : List IndexDef) (records : List InternalRecord) :
    pushIndexes S check store key doc indexes records =
      (indexes.forM check).map fun _ => records ++ indexes.flatMap fun idx => indexEntries S idx store key doc := by
  induction indexes generalizing records with
  | nil => simp [pushIndexes, pure, Except.pure, Except.map]
  | cons idx rest ih =>
    rw [pushIndexes, List.forM]
    cases check idx with
    | error e => rfl
    | ok _ =>
      rw [ok_bind, ok_bind, ih]
      simp only [List.flatMap_cons, List.append_assoc]

/-- A put checks every unique index, and its batch is one change. -/
theorem buildPutBatch_eq (db : JsonDB) (d : StoreDef) (store : String) (key docBytes : Bytes) (doc : Value) :
    buildPutBatch S db d store key docBytes doc = (do
      let _ ← readOldDoc S db store key
      (d.indexes.forM fun idx => checkUnique S db store idx key doc).map fun _ =>
        changeRecords S db d store key (some (docBytes, doc))) := by
  unfold buildPutBatch
  cases read : readOldDoc S db store key with
  | error e => rfl
  | ok old =>
    obtain rfl := readOldDoc_ok read
    rw [ok_bind, ok_bind, pushIndexes_eq]
    simp only [changeRecords, List.append_assoc, List.singleton_append]

theorem buildDeleteBatch_eq (db : JsonDB) (d : StoreDef) (store : String) (key : Bytes) :
    buildDeleteBatch S db d store key = (do
      let _ ← readOldDoc S db store key
      .ok (changeRecords S db d store key none)) := by
  unfold buildDeleteBatch
  cases read : readOldDoc S db store key with
  | error e => rfl
  | ok old =>
    obtain rfl := readOldDoc_ok read
    rfl

/-! ### Reads that see the same keys -/

theorem scan_any {db : JsonDB} (pfx : Bytes) (test : Bytes → Bool) :
    (scan db.engine (prefixRange pfx)).any (fun e => test e.2) = true ↔
      ∃ k v, db.engine.get? k = some v ∧ pfx <+: k ∧ test v = true := by
  rw [List.any_eq_true]
  constructor
  · rintro ⟨e, member, holds⟩
    obtain ⟨present, starts⟩ := (mem_prefixScan db.engine pfx e).mp member
    exact ⟨e.1, e.2, present, starts, holds⟩
  · rintro ⟨k, v, present, starts, holds⟩
    exact ⟨(k, v), (mem_prefixScan db.engine pfx (k, v)).mpr ⟨present, starts⟩, holds⟩

theorem idxPrefix_isPrefix_idxValuePrefix (store index : String) (value : Bytes) :
    idxPrefix store index <+: idxValuePrefix store index value :=
  ⟨value ++ [sep], by simp [idxPrefix, idxValuePrefix]⟩

/-- The check of a value reads the entries of its index only. -/
theorem checkEngine_congr {db after : JsonDB} {store : String} {idx : IndexDef} (key : Bytes) (vals : List Value)
    (same : ∀ k, Owns store (.index idx.name) k → after.engine.get? k = db.engine.get? k) :
    checkEngine S after store idx key vals = checkEngine S db store idx key vals := by
  have taken : ((scan after.engine (prefixRange (idxValuePrefix store idx.name (encodeCompositeValue S vals)))).any
      fun e => e.2 != key) =
      (scan db.engine (prefixRange (idxValuePrefix store idx.name (encodeCompositeValue S vals)))).any
        fun e => e.2 != key := by
    rw [Bool.eq_iff_iff, scan_any _ (· != key), scan_any _ (· != key)]
    refine exists_congr fun k => exists_congr fun v => and_congr_left fun ⟨starts, _⟩ => ?_
    rw [same k ((idxPrefix_isPrefix_idxValuePrefix _ _ _).trans starts)]
  unfold checkEngine
  dsimp only
  rw [taken]

theorem forM_congr {α : Type} {items : List α} {f g : α → Except FlowError Unit} (same : ∀ x ∈ items, f x = g x) :
    items.forM f = items.forM g := by
  induction items with
  | nil => rfl
  | cons x rest ih =>
    rw [List.forM, List.forM, same x List.mem_cons_self, ih fun y member => same y (List.mem_cons_of_mem x member)]

theorem checkUnique_congr {db after : JsonDB} {store : String} {idx : IndexDef} (key : Bytes) (doc : Value)
    (same : ∀ k, Owns store (.index idx.name) k → after.engine.get? k = db.engine.get? k) :
    checkUnique S after store idx key doc = checkUnique S db store idx key doc := by
  unfold checkUnique
  rw [forM_congr fun vals _ => checkEngine_congr key vals same]

theorem readOldDoc_congr {db after : JsonDB} {store : String} {key : Bytes}
    (same : after.engine.get? (docKey store key) = db.engine.get? (docKey store key)) :
    readOldDoc S after store key = readOldDoc S db store key := by
  rw [readOldDoc, readOldDoc, getBytes, getBytes, same]

theorem storedDoc_congr {db after : JsonDB} {store : String} {key : Bytes}
    (same : after.engine.get? (docKey store key) = db.engine.get? (docKey store key)) :
    storedDoc S after store key = storedDoc S db store key := by
  rw [storedDoc, storedDoc, getBytes, getBytes, same]

/-! ### What a change leaves -/

theorem storedDoc_written (db : JsonDB) {d : StoreDef} {name store : String} {key other : Bytes}
    {new : Option (Bytes × Value)} (free : sep ∉ utf8 name) (free' : sep ∉ utf8 store)
    (reads : ∀ p, new = some p → decodeDoc S p.1 = .ok p.2) :
    storedDoc S (JsonDB.write db (changeRecords S db d name key new)) store other =
      if store = name ∧ other = key then new.map Prod.snd else storedDoc S db store other := by
  rw [storedDoc, getBytes, get?_change, if_neg docKey_notMem_entryKeys, if_neg docKey_notMem_entryKeys]
  split_ifs with same owner owner
  · cases new with
    | none => rfl
    | some p => simp [reads p rfl, Except.toOption]
  · exact absurd (docKey_inj free' free same) owner
  · exact absurd (by rw [owner.1, owner.2]) same
  · rfl

theorem docKey_unowned (name index : String) (key : Bytes) : ¬Owns store (.index index) (docKey name key) := fun owns =>
  absurd (Option.some.inj (owns_head owns)) (by decide : docTag ≠ idxTag)

theorem indexKeys_owned {store : String} {index : IndexDef} {doc : Value} {key k : Bytes}
    (member : k ∈ indexKeys S store index doc key) : Owns store (.index index.name) k := by
  obtain ⟨vals, _, rfl⟩ := List.mem_map.mp member
  exact idxPrefix_isPrefix_idxKey store index.name _ key

theorem entryKeys_owned {d : StoreDef} {store : String} {doc : Option Value} {key k : Bytes}
    (member : k ∈ entryKeys S d store key doc) : ∃ idx ∈ d.indexes, Owns store (.index idx.name) k := by
  obtain ⟨_, _, idx, inside, vals, _, rfl⟩ := (mem_entryKeys S d store key doc k).mp member
  exact ⟨idx, inside, idxPrefix_isPrefix_idxKey store idx.name _ key⟩

theorem encoded_key {v : Value} {key : Bytes} (encoded : encodePrimaryKey S v = .ok key) : sep ∉ key ∨ key = [sep] := by
  by_cases null : v = .null
  · subst null
    exact .inr (Except.ok.inj encoded).symm
  · exact .inl (encodePrimaryKey_nul_free S v key null encoded)

/-! ### Filling an index -/

variable (S)

/-- The key that a backfill computes for a document is the one it is stored under, if it
computes one at all. -/
def Recovers (d : StoreDef) (index : IndexDef) (key : Bytes) (doc : Value) : Prop :=
  extractIndexValues doc index ≠ [] → encodePrimaryKey S ((extractField doc d.keyPath).getD .null) = .ok key

/-- An entry of a stored document. -/
def Entry (db : JsonDB) (store : String) (index : IndexDef) (k v : Bytes) : Prop :=
  ∃ doc, storedDoc S db store v = some doc ∧ k ∈ indexKeys S store index doc v

/-- No other document of the store has an index key of this one. -/
def Alone (db : JsonDB) (store : String) (index : IndexDef) (key : Bytes) (doc : Value) : Prop :=
  ∀ other stored, storedDoc S db store other = some stored → other ≠ key →
    ∀ k ∈ indexKeys S store index stored other, k ∉ indexKeys S store index doc key

/-- The entries of an index are those of the stored documents. -/
def Filed (store : String) (db : JsonDB) (idx : IndexDef) : Prop :=
  ∀ k v, Owns store (.index idx.name) k → (db.engine.get? k = some v ↔ Entry S db store idx k v)

/-- A store whose documents can be filed under an index. -/
structure Fileable (db : JsonDB) (store : String) (d : StoreDef) (index : IndexDef) : Prop where
  valid : SchemaValid db
  defined : db.schema.get? store = some d
  decoded : ∀ key bytes, db.engine.get? (docKey store key) = some bytes → ∃ doc, decodeDoc S bytes = .ok doc
  keys : ∀ key doc, storedDoc S db store key = some doc → sep ∉ key ∨ key = [sep]
  recovers : ∀ key doc, storedDoc S db store key = some doc → Recovers S d index key doc
  alone : ∀ key doc, storedDoc S db store key = some doc → Alone S db store index key doc

def StoreDef.withIndex (d : StoreDef) (index : IndexDef) : StoreDef := { d with indexes := d.indexes ++ [index] }

/-- The part of `create_index` that looks at the definition only. -/
def prepareIndex (d : StoreDef) (index : IndexDef) : Except FlowError InternalRecord := do
  validateIndexDef d index.name index.keyPaths
  schemaRecord S (StoreDef.withIndex d index)

variable {S}

theorem mapM_map {α β : Type} {f : α → Except FlowError β} {g : α → β} {items : List α}
    (each : ∀ x ∈ items, f x = .ok (g x)) : items.mapM f = .ok (items.map g) := by
  induction items with
  | nil => rfl
  | cons x rest ih =>
    rw [List.mapM_cons, each x List.mem_cons_self, ih fun y member => each y (List.mem_cons_of_mem x member)]
    rfl

theorem putRecord_inj {k k' v v' : Bytes} (same : putRecord k v = putRecord k' v') : k = k' ∧ v = v' :=
  ⟨congrArg InternalRecord.key same, congrArg InternalRecord.value same⟩

/-- Puts that agree where they name one key. -/
theorem get?_filed {records : List InternalRecord} (puts : ∀ r ∈ records, ∃ k v, r = putRecord k v)
    (single : ∀ k v v', putRecord k v ∈ records → putRecord k v' ∈ records → v = v') (engine : Engine) (k v : Bytes) :
    (writeInternal engine records).get? k = some v ↔
      putRecord k v ∈ records ∨ (∀ v', putRecord k v' ∉ records) ∧ engine.get? k = some v := by
  induction records generalizing engine with
  | nil => simp [writeInternal]
  | cons r rest ih =>
    obtain ⟨key, value, rfl⟩ := puts r List.mem_cons_self
    change (writeInternal (applyRecord engine (putRecord key value)) rest).get? k = some v ↔ _
    rw [ih (fun x member => puts x (List.mem_cons_of_mem _ member))
      (fun k v v' one two => single k v v' (List.mem_cons_of_mem _ one) (List.mem_cons_of_mem _ two)), get?_put]
    by_cases here : k = key
    · subst here
      rw [if_pos rfl]
      constructor
      · rintro (later | ⟨_, same⟩)
        · exact .inl (List.mem_cons_of_mem _ later)
        · obtain rfl := Option.some.inj same
          exact .inl List.mem_cons_self
      · rintro (member | ⟨none_there, _⟩)
        · obtain rfl := single k v value member List.mem_cons_self
          by_cases later : putRecord k v ∈ rest
          · exact .inl later
          · refine .inr ⟨fun v' there => later ?_, rfl⟩
            exact single k v' v (List.mem_cons_of_mem _ there) List.mem_cons_self ▸ there
        · exact absurd List.mem_cons_self (none_there value)
    · have other : ∀ v', putRecord k v' ∈ putRecord key value :: rest ↔ putRecord k v' ∈ rest := fun v' =>
        ⟨fun member => (List.mem_cons.mp member).resolve_left fun same => here (putRecord_inj same).1,
          List.mem_cons_of_mem _⟩
      rw [if_neg here]
      simp only [other]

/-! After puts a key holds what one of them put, or what it held before. -/

theorem writeInternal_get?_some {records : List InternalRecord} (puts : ∀ r ∈ records, ∃ k v, r = putRecord k v)
    (engine : JsonDb.Engine) {k v : Bytes} (there : (writeInternal engine records).get? k = some v) :
    putRecord k v ∈ records ∨ engine.get? k = some v := by
  induction records generalizing engine with
  | nil => exact .inr there
  | cons r rest ih =>
    obtain ⟨key, value, rfl⟩ := puts r List.mem_cons_self
    change (writeInternal (applyRecord engine (putRecord key value)) rest).get? k = some v at there
    obtain later | before := ih (fun x member => puts x (List.mem_cons_of_mem _ member)) _ there
    · exact .inl (List.mem_cons_of_mem _ later)
    · rw [get?_put] at before
      split_ifs at before with same
      · obtain rfl := Option.some.inj before
        exact .inl (same ▸ List.mem_cons_self)
      · exact .inr before

theorem writeInternal_get?_put {records : List InternalRecord} (puts : ∀ r ∈ records, ∃ k v, r = putRecord k v)
    (engine : JsonDb.Engine) {k : Bytes} (present : (∃ v, putRecord k v ∈ records) ∨ ∃ v, engine.get? k = some v) :
    ∃ v, (writeInternal engine records).get? k = some v := by
  induction records generalizing engine with
  | nil => exact present.resolve_left nofun
  | cons r rest ih =>
    obtain ⟨key, value, rfl⟩ := puts r List.mem_cons_self
    refine ih (fun x member => puts x (List.mem_cons_of_mem _ member)) (applyRecord engine (putRecord key value)) ?_
    rw [get?_put]
    split_ifs with same
    · exact .inr ⟨value, rfl⟩
    · refine present.imp_left fun ⟨v, member⟩ => ⟨v, (List.mem_cons.mp member).resolve_left fun head => ?_⟩
      exact same (putRecord_inj head).1

/-- A backfill of documents that recover their keys files each of them. -/
theorem backfill_files {d : StoreDef} {store : String} {index : IndexDef} {docs : List (Bytes × Bytes)}
    (each : ∀ e ∈ docs, ∃ key doc, e.1 = docKey store key ∧ decodeDoc S e.2 = .ok doc ∧ Recovers S d index key doc)
    (records : List InternalRecord) :
    ∃ entries, backfill S d store index.name index docs records = .ok (records ++ entries) ∧
      ∀ r, r ∈ entries ↔ ∃ e ∈ docs, ∃ key doc, e.1 = docKey store key ∧ decodeDoc S e.2 = .ok doc ∧
        ∃ k ∈ indexKeys S store index doc key, r = putRecord k key := by
  induction docs generalizing records with
  | nil => exact ⟨[], by simp [backfill], by simp⟩
  | cons e rest ih =>
    obtain ⟨key, doc, named, decoded, recovers⟩ := each e List.mem_cons_self
    have filed : ((extractIndexValues doc index).mapM fun vals => do
        let key ← encodePrimaryKey S ((extractField doc d.keyPath).getD .null)
        .ok (putRecord (idxKey store index.name (encodeCompositeValue S vals) key) key)) =
        .ok ((indexKeys S store index doc key).map fun k => putRecord k key) := by
      rw [indexKeys, List.map_map]
      refine mapM_map fun vals member => ?_
      rw [recovers (List.ne_nil_of_mem member)]
      rfl
    obtain ⟨entries, done, iff⟩ := ih (fun x member => each x (List.mem_cons_of_mem e member))
      (records ++ (indexKeys S store index doc key).map fun k => putRecord k key)
    refine ⟨(indexKeys S store index doc key).map (fun k => putRecord k key) ++ entries, ?_, fun r => ?_⟩
    · obtain ⟨k, bytes⟩ := e
      rw [backfill, decoded, ok_bind, filed, ok_bind, done, List.append_assoc]
    · rw [List.mem_append, iff, List.mem_map]
      constructor
      · rintro (⟨k, inside, rfl⟩ | ⟨x, later, found⟩)
        · exact ⟨e, List.mem_cons_self, key, doc, named, decoded, k, inside, rfl⟩
        · exact ⟨x, List.mem_cons_of_mem e later, found⟩
      · rintro ⟨x, member, key', doc', named', decoded', k, inside, rfl⟩
        rcases List.mem_cons.mp member with rfl | later
        · obtain rfl := Except.ok.inj (decoded.symm.trans decoded')
          obtain rfl : key = key' := docKey_injective store (named.symm.trans named')
          exact .inl ⟨k, inside, rfl⟩
        · exact .inr ⟨x, later, key', doc', named', decoded', k, inside, rfl⟩

/-- A definition takes an index with a valid name of its own. -/
theorem prepareIndex_fresh {d : StoreDef} {index : IndexDef} {record : InternalRecord}
    (prepared : prepareIndex S d index = .ok record) :
    validateName index.name = .ok () ∧ ∀ idx ∈ d.indexes, idx.name ≠ index.name := by
  obtain ⟨_, validated, _⟩ := bind_ok prepared
  obtain ⟨_, accepted, validated⟩ := bind_ok validated
  refine ⟨accepted, fun idx inside same => ?_⟩
  split_ifs at validated with empty taken
  exact taken (List.any_eq_true.mpr ⟨idx, inside, beq_iff_eq.mpr same⟩)

/-- Names being distinct, only the index of that name goes. -/
theorem erased_eq {d : StoreDef} {store : String} (distinct : (d.indexes.map IndexDef.name).Nodup) {name : String} {pos : Nat}
    (found : JsonStores.requireIndex d store name = .ok pos) : d.indexes.eraseIdx pos = d.indexes.filter fun i => i.name != name := by
  have first : d.indexes.eraseP (fun i => i.name == name) = d.indexes.eraseIdx pos := by
    unfold JsonStores.requireIndex at found
    split at found
    · next at_pos there =>
      obtain rfl := Except.ok.inj found
      rw [List.eraseP_eq_eraseIdx, there]
    · cases found
  rw [← first]
  clear first found
  generalize d.indexes = indexes at distinct
  induction indexes with
  | nil => rfl
  | cons idx rest ih =>
    obtain ⟨fresh, distinct⟩ := List.nodup_cons.mp (List.map_cons ▸ distinct)
    by_cases same : idx.name = name
    · subst same
      have others : ∀ i ∈ rest, (i.name != idx.name) = true := fun i member => bne_iff_ne.mpr fun same =>
        fresh (List.mem_map.mpr ⟨i, member, same⟩)
      simp [List.filter_eq_self.mpr others]
    · simp [same, ih distinct]

/-- `create_index` can fail by its definition alone. -/
theorem createIndex_refused {db : JsonDB} {store name : String} {d : StoreDef} {keyPaths : List String} {unique : Bool}
    (defined : db.schema.get? store = some d) {e : FlowError}
    (refused : prepareIndex S d ⟨keyPaths, name, unique, false⟩ = .error e) :
    createIndex S db store name keyPaths unique = (.error e, db) := by
  have found := getStore_of defined
  unfold prepareIndex at refused
  unfold createIndex
  dsimp only at refused ⊢
  rw [found, ok_bind]
  cases validated : validateIndexDef d name keyPaths with
  | error e' =>
    rw [validated] at refused
    obtain rfl := Except.error.inj refused
    rfl
  | ok _ =>
    rw [validated, ok_bind] at refused
    change schemaRecord S { d with indexes := d.indexes ++ [⟨keyPaths, name, unique, false⟩] } = _ at refused
    rw [ok_bind, refused]
    rfl

/-- The keys under which an index files a document, if there is one. -/
def keysOf (S : Serde) (store : String) (index : IndexDef) (key : Bytes) (doc : Option Value) : List Bytes :=
  doc.toList.flatMap fun doc => indexKeys S store index doc key

theorem mem_keysOf {store : String} {index : IndexDef} {key : Bytes} {doc : Option Value} {k : Bytes} :
    k ∈ keysOf S store index key doc ↔ ∃ x, doc = some x ∧ k ∈ indexKeys S store index x key := by
  cases doc <;> simp [keysOf]

/-- What one change makes of the entry under one key: `Names v doc` says that the entry is that of
`doc`, stored under `v`. -/
theorem refiled {K D : Type} [DecidableEq K] {Names : K → D → Prop} {docs : K → D} {entry after : Option K} {key : K}
    {new : D} (filed : ∀ v, entry = some v ↔ Names v (docs v))
    (alone : ∀ other, other ≠ key → Names other (docs other) → ¬Names key new)
    (fresh : Names key new → after = some key) (gone : ¬Names key new → Names key (docs key) → after = none)
    (kept : ¬Names key new → ¬Names key (docs key) → after = entry) (v : K) :
    after = some v ↔ Names v (if v = key then new else docs v) := by
  by_cases here : v = key
  · subst here
    rw [if_pos rfl]
    by_cases named : Names v new
    · exact iff_of_true (fresh named) named
    refine iff_of_false (fun same => ?_) named
    by_cases before : Names v (docs v)
    · exact nomatch (gone named before).symm.trans same
    · exact before ((filed v).mp ((kept named before).symm.trans same))
  · rw [if_neg here, ← filed v]
    by_cases named : Names key new
    · rw [fresh named]
      exact iff_of_false (fun same => here (Option.some.inj same).symm) fun same => alone v here ((filed v).mp same) named
    by_cases before : Names key (docs key)
    · rw [gone named before]
      exact iff_of_false nofun fun same => here (Option.some.inj (same.symm.trans ((filed key).mpr before)))
    · rw [kept named before]

section
variable {db : JsonDB} {store : String} {d : StoreDef} {index : IndexDef} (fileable : Fileable S db store d index)
include fileable

/-- An index key of the store belongs to one document. -/
theorem entry_single {k v v' : Bytes} (one : Entry S db store index k v) (two : Entry S db store index k v') : v = v' := by
  obtain ⟨doc, stored, inside⟩ := one
  obtain ⟨doc', stored', inside'⟩ := two
  by_contra other
  exact fileable.alone v' doc' stored' v doc stored other k inside inside'

/-- Otherwise `create_index` files every stored document. -/
theorem createIndex_filed {keyPaths : List String} {name : String} {unique : Bool}
    (made : index = ⟨keyPaths, name, unique, false⟩) {record : InternalRecord} (prepared : prepareIndex S d index = .ok record) :
    ∃ entries, createIndex S db store name keyPaths unique =
        (.ok (), ⟨writeInternal db.engine (record :: entries), db.schema.insert store (StoreDef.withIndex d index)⟩) ∧
      (∀ r ∈ entries, ∃ k v, r = putRecord k v) ∧ ∀ k v, putRecord k v ∈ entries ↔ Entry S db store index k v := by
  have found := getStore_of fileable.defined
  have scanned : ∀ e ∈ scan db.engine (prefixRange (docPrefix store)), ∃ key doc, e.1 = docKey store key ∧
      decodeDoc S e.2 = .ok doc ∧ storedDoc S db store key = some doc := by
    intro e member
    obtain ⟨present, starts⟩ := (mem_prefixScan db.engine (docPrefix store) e).mp member
    obtain ⟨key, named⟩ := owns_docs starts
    rw [named] at present
    obtain ⟨doc, decoded⟩ := fileable.decoded key e.2 present
    refine ⟨key, doc, named, decoded, ?_⟩
    rw [storedDoc, getBytes, present, Option.bind_some, decoded]
    rfl
  have fit : ∀ e ∈ scan db.engine (prefixRange (docPrefix store)), ∃ key doc, e.1 = docKey store key ∧
      decodeDoc S e.2 = .ok doc ∧ Recovers S (StoreDef.withIndex d index) index key doc := by
    intro e member
    obtain ⟨key, doc, named, decoded, stored⟩ := scanned e member
    exact ⟨key, doc, named, decoded, fileable.recovers key doc stored⟩
  obtain ⟨entries, filled, iff⟩ := backfill_files fit [record]
  refine ⟨entries, ?_, fun r member => ?_, fun k v => ?_⟩
  · have name_eq : d.name = store := fileable.valid.named store d fileable.defined
    subst made
    subst name_eq
    obtain ⟨_, validated, written⟩ := bind_ok prepared
    change schemaRecord S { d with indexes := d.indexes ++ [⟨keyPaths, name, unique, false⟩] } = _ at written
    change backfill S { d with indexes := d.indexes ++ [⟨keyPaths, name, unique, false⟩] } d.name name _ _ _ = _ at filled
    unfold createIndex
    dsimp only
    rw [found, ok_bind, validated, ok_bind, written, ok_bind, filled]
    rfl
  · obtain ⟨_, _, key, _, _, _, k, _, rfl⟩ := (iff r).mp member
    exact ⟨k, key, rfl⟩
  · rw [iff]
    constructor
    · rintro ⟨e, member, key, doc, named, decoded, k', inside, same⟩
      obtain ⟨rfl, rfl⟩ := putRecord_inj same
      obtain ⟨key', doc', named', decoded', stored⟩ := scanned e member
      obtain rfl := Except.ok.inj (decoded.symm.trans decoded')
      obtain rfl : v = key' := docKey_injective store (named.symm.trans named')
      exact ⟨doc, stored, inside⟩
    · rintro ⟨doc, stored, inside⟩
      obtain ⟨bytes, present, decoded⟩ := Option.bind_eq_some_iff.mp stored
      have read : decodeDoc S bytes = .ok doc := by
        cases done : decodeDoc S bytes with
        | error e =>
          rw [done] at decoded
          cases decoded
        | ok doc' =>
          rw [done] at decoded
          exact congrArg Except.ok (Option.some.inj decoded)
      refine ⟨(docKey store v, bytes), ?_, v, doc, rfl, read, k, inside, rfl⟩
      exact (mem_prefixScan _ _ _).mpr ⟨present, docPrefix_isPrefix store v⟩

end

end
end FlowDb.IndexMaintenance
