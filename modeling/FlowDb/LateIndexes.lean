import FlowDb.IndexMaintenance

/-! An index created after a run of writes, against the same index created before it. The run with
the index writes what the run without it writes, and beside it the entries of the index. -/
namespace FlowDb.LateIndexes
open ByteString OrderedMap Records JsonValue JsonEncoding JsonDb JsonIndexes JsonSessions KeySpace StoreIsolation
open IndexMaintenance

section
variable (S : Serde)

/-- The calls that write documents. -/
inductive DocCall where
  | put (store : String) (doc : Value)
  | putAuto (store : String) (doc : Value)
  | delete (store : String) (key : Value)

def DocCall.mutation : DocCall → Mutation
  | .put store doc => .put store doc
  | .putAuto store doc => .putAuto store doc
  | .delete store key => .delete store key

def DocCall.perform (db : JsonDB) (c : DocCall) : JsonDB := c.mutation.perform S db

def run (db : JsonDB) (calls : List DocCall) : JsonDB := calls.foldl (DocCall.perform S) db

/-- What `put_auto` writes into the store gives its key back, or is not indexed; what `put` writes
shares no index key with a document under another key. -/
def Files (db : JsonDB) (store : String) (d : StoreDef) (index : IndexDef) : DocCall → Prop
  | .put name doc => doc.wellFormed = true ∧ (name = store → ∀ keyVal key, keyOf d store doc = .ok keyVal →
      encodePrimaryKey S keyVal = .ok key → Alone S db store index key doc)
  | .putAuto name doc => doc.wellFormed = true ∧ (name = store → ∀ id counterRec,
      prepareCounter db store = .ok (id, counterRec) →
        Recovers S d index (decimal id.toNat) (doc.insertMember d.keyPath (.number (.posInt id))))
  | .delete _ _ => True

def FilesRun (store : String) (d : StoreDef) (index : IndexDef) : JsonDB → List DocCall → Prop
  | _, [] => True
  | db, c :: rest => Files S db store d index c ∧ FilesRun store d index (c.perform S db) rest

/-- The index created after the run and the one created before it: alike in success, in documents
and in entries, which are those of the stored documents under their own keys. -/
structure LateIsEarly (db : JsonDB) (store name : String) (keyPaths : List String) (calls : List DocCall) : Prop where
  answer : (createIndex S (run S db calls) store name keyPaths false).1 = (createIndex S db store name keyPaths false).1
  documents : ∀ key, storedDoc S (createIndex S (run S db calls) store name keyPaths false).2 store key =
    storedDoc S (run S (createIndex S db store name keyPaths false).2 calls) store key
  entries : ∀ k, Owns store (.index name) k →
    (createIndex S (run S db calls) store name keyPaths false).2.engine.get? k =
      (run S (createIndex S db store name keyPaths false).2 calls).engine.get? k
  own : (createIndex S (run S db calls) store name keyPaths false).1 = .ok () → ∀ k v, Owns store (.index name) k →
    ((createIndex S (run S db calls) store name keyPaths false).2.engine.get? k = some v ↔
      Entry S (createIndex S (run S db calls) store name keyPaths false).2 store ⟨keyPaths, name, false, false⟩ k v)

/-! ### Two databases, one of them with the index -/

/-- A plain index that a definition can be given. -/
structure NewIndex (d : StoreDef) (index : IndexDef) : Prop where
  accepted : validateName index.name = .ok ()
  fresh : ∀ idx ∈ d.indexes, idx.name ≠ index.name
  plain : index.unique = false

/-- `e` has the index and its entries beside what `l` has. -/
structure Ahead (store : String) (d : StoreDef) (index : IndexDef) (l e : JsonDB) : Prop where
  schema : e.schema = l.schema.insert store (StoreDef.withIndex d index)
  same : ∀ k, ¬Owns store (.index index.name) k → k ≠ schemaKey store → e.engine.get? k = l.engine.get? k
  bare : ∀ k, Owns store (.index index.name) k → l.engine.get? k = none
  filed : ∀ k v, Owns store (.index index.name) k → (e.engine.get? k = some v ↔ Entry S l store index k v)

end

section
variable {S : Serde} {store : String} {d : StoreDef} {index : IndexDef} {l e : JsonDB}

/-- The documents of the store after a change. -/
theorem change_fileable (files : Fileable S l store d index) {name : String} {d₀ : StoreDef}
    (defined : l.schema.get? name = some d₀) {key : Bytes} {put : Option (Bytes × Value)} (reads : ∀ p, put = some p → decodeDoc S p.1 = .ok p.2)
    (keyed : sep ∉ key ∨ key = [sep])
    (recovers : name = store → ∀ p, put = some p → Recovers S d index key p.2)
    (alone : name = store → ∀ p, put = some p → Alone S l store index key p.2) :
    Fileable S (JsonDB.write l (changeRecords S l d₀ name key put)) store d index := by
  have stored : ∀ other, storedDoc S (JsonDB.write l (changeRecords S l d₀ name key put)) store other =
      if store = name ∧ other = key then put.map Prod.snd else storedDoc S l store other := fun other =>
    storedDoc_written l (validateName_nul_free _ (files.valid.store name d₀ defined))
      (validateName_nul_free _ (files.valid.store store d files.defined)) reads
  -- A stored document is the one just put, or was there before under another key.
  have cases : ∀ other doc, storedDoc S (JsonDB.write l (changeRecords S l d₀ name key put)) store other = some doc →
      (name = store ∧ other = key ∧ ∃ p, put = some p ∧ p.2 = doc) ∨
        ¬(store = name ∧ other = key) ∧ storedDoc S l store other = some doc := by
    intro other doc there
    rw [stored] at there
    split_ifs at there with here
    · exact .inl ⟨here.1.symm, here.2, Option.map_eq_some_iff.mp there⟩
    · exact .inr ⟨here, there⟩
  refine ⟨⟨files.valid.named, files.valid.store, files.valid.index⟩, files.defined, fun other bytes there => ?_,
    fun other doc there => ?_, fun other doc there => ?_, fun one doc there two doc' there' apart k inside => ?_⟩
  · rw [get?_change, if_neg docKey_notMem_entryKeys, if_neg docKey_notMem_entryKeys] at there
    split_ifs at there
    · obtain ⟨p, same, rfl⟩ := Option.map_eq_some_iff.mp there
      exact ⟨p.2, reads p same⟩
    · exact files.decoded other bytes there
  · rcases cases other doc there with ⟨_, rfl, _⟩ | ⟨_, before⟩
    · exact keyed
    · exact files.keys other doc before
  · rcases cases other doc there with ⟨here, rfl, p, same, rfl⟩ | ⟨_, before⟩
    · exact recovers here p same
    · exact files.recovers other doc before
  · rcases cases one doc there with ⟨here, rfl, p, same, rfl⟩ | ⟨_, before⟩ <;>
      rcases cases two doc' there' with ⟨here', rfl, p', same', rfl⟩ | ⟨_, before'⟩
    · exact absurd rfl apart
    · exact alone here p same two doc' before' apart k inside
    · exact fun member => alone here' p' same' one doc before (Ne.symm apart) k member inside
    · exact files.alone one doc before two doc' before' apart k inside

/-- The definition of a store with the index where it is given one. -/
structure Widened (name store : String) (index : IndexDef) (d₀ d₁ : StoreDef) : Prop where
  keyPath : d₁.keyPath = d₀.keyPath
  autoIncrement : d₁.autoIncrement = d₀.autoIncrement
  indexes : d₁.indexes = d₀.indexes ++ if name = store then [index] else []

theorem mem_widened {name : String} {d₀ d₁ : StoreDef} (widened : Widened name store index d₀ d₁) (key : Bytes)
    (doc : Option Value) (k : Bytes) : k ∈ entryKeys S d₁ name key doc ↔
      k ∈ entryKeys S d₀ name key doc ∨ name = store ∧ ∃ x, doc = some x ∧ k ∈ indexKeys S store index x key := by
  cases doc with
  | none => simp [entryKeys]
  | some x =>
    have keys : ∀ d : StoreDef, entryKeys S d name key (some x) = d.indexes.flatMap fun idx => indexKeys S name idx x key :=
      fun d => by simp [entryKeys]
    rw [keys, keys, widened.indexes, List.flatMap_append, List.mem_append]
    split_ifs with here
    · subst here
      simp
    · simp [here]

/-- A step of both databases keeps the store fileable and the one with the index ahead. -/
structure Together (S : Serde) (store : String) (d : StoreDef) (index : IndexDef) (l e : JsonDB) : Prop where
  fileable : Fileable S l store d index
  ahead : Ahead S store d index l e

variable (new : NewIndex d index) (both : Together S store d index l e)
include both

theorem together_getStore (name : String) :
    Agree (fun d₀ d₁ => l.schema.get? name = some d₀ ∧ Widened name store index d₀ d₁)
      (getStore l name) (getStore e name) := by
  have lookup : e.schema.get? name = if name = store then some (StoreDef.withIndex d index) else l.schema.get? name := by
    rw [both.ahead.schema, get?_insert]
  unfold getStore
  split_ifs at lookup with here
  · subst here
    rw [lookup, both.fileable.defined]
    exact ⟨rfl, rfl, rfl, by rw [if_pos rfl]; rfl⟩
  · rw [lookup]
    cases found : l.schema.get? name with
    | none => rfl
    | some d₀ => exact ⟨rfl, rfl, rfl, by rw [if_neg here, List.append_nil]⟩

theorem together_doc (name : String) (key : Bytes) : e.engine.get? (docKey name key) = l.engine.get? (docKey name key) :=
  both.ahead.same _ (docKey_unowned name index.name key) fun same =>
    absurd (List.cons.inj same).1 (by decide : docTag ≠ schTag)

include new

/-- An index of a definition owns no key of the new one. -/
theorem own_unowned {name : String} {d₀ : StoreDef} (defined : l.schema.get? name = some d₀) {idx : IndexDef}
    (inside : idx ∈ d₀.indexes) {k : Bytes} (owns : Owns name (.index idx.name) k) : ¬Owns store (.index index.name) k := by
  intro owns'
  have free := fun store d₀ (defined : l.schema.get? store = some d₀) =>
    validateName_nul_free _ (both.fileable.valid.store store d₀ defined)
  have named : (Kind.index idx.name).Named := validateName_nul_free _ (both.fileable.valid.index _ _ defined idx inside)
  have named' : (Kind.index index.name).Named := validateName_nul_free _ new.accepted
  obtain ⟨rfl, kinds⟩ := owner_unique (free _ _ defined) (free _ _ both.fileable.defined) named named' owns owns'
  obtain rfl := Option.some.inj (defined.symm.trans both.fileable.defined)
  exact new.fresh idx inside (Kind.index.inj kinds)

theorem own_entries_unowned {name : String} {d₀ : StoreDef} (defined : l.schema.get? name = some d₀) {doc : Option Value}
    {key k : Bytes} (member : k ∈ entryKeys S d₀ name key doc) : ¬Owns store (.index index.name) k := by
  obtain ⟨idx, inside, owns⟩ := entryKeys_owned member
  exact own_unowned new both defined inside owns

/-- One change in both databases. What it puts must not share an index key with another document. -/
theorem change_ahead {name : String} {d₀ d₁ : StoreDef} (defined : l.schema.get? name = some d₀)
    (widened : Widened name store index d₀ d₁) {key : Bytes} {put : Option (Bytes × Value)}
    (reads : ∀ p, put = some p → decodeDoc S p.1 = .ok p.2)
    (alone : name = store → ∀ p, put = some p → Alone S l store index key p.2) :
    Ahead S store d index (JsonDB.write l (changeRecords S l d₀ name key put))
      (JsonDB.write e (changeRecords S e d₁ name key put)) := by
  have old : storedDoc S e name key = storedDoc S l name key := storedDoc_congr (together_doc both name key)
  have stored : ∀ other, storedDoc S (JsonDB.write l (changeRecords S l d₀ name key put)) store other =
      if store = name ∧ other = key then put.map Prod.snd else storedDoc S l store other := fun other =>
    storedDoc_written l (validateName_nul_free _ (both.fileable.valid.store name d₀ defined))
      (validateName_nul_free _ (both.fileable.valid.store store d both.fileable.defined)) reads
  -- Keys outside the index, the index where it is not there yet, and where it is.
  refine ⟨both.ahead.schema, fun k unowned other => ?_, fun k owns => ?_, fun k v owns => ?_⟩
  · have narrow : ∀ doc, k ∈ entryKeys S d₁ name key doc ↔ k ∈ entryKeys S d₀ name key doc := fun doc => by
      rw [mem_widened widened]
      refine or_iff_left ?_
      rintro ⟨rfl, x, _, inside⟩
      exact unowned (indexKeys_owned inside)
    rw [get?_change, get?_change, old, both.ahead.same k unowned other]
    simp only [narrow]
  · have outside : ∀ doc, k ∉ entryKeys S d₀ name key doc := fun doc member =>
      own_entries_unowned new both defined member owns
    have notDoc : k ≠ docKey name key := fun same => docKey_unowned name index.name key (same ▸ owns)
    rw [get?_change, if_neg (outside _), if_neg notDoc, if_neg (outside _)]
    exact both.ahead.bare k owns
  · have only : ∀ doc, k ∈ entryKeys S d₁ name key doc ↔
        name = store ∧ ∃ x, doc = some x ∧ k ∈ indexKeys S store index x key := fun doc => by
        rw [mem_widened widened]
        exact or_iff_right fun member => own_entries_unowned new both defined member owns
    have notDoc : k ≠ docKey name key := fun same => docKey_unowned name index.name key (same ▸ owns)
    have after : (JsonDB.write e (changeRecords S e d₁ name key put)).engine.get? k = _ := get?_change S e d₁ name key put k
    rw [if_neg notDoc, old] at after
    by_cases here : name = store
    · subst here
      have mine : ∀ doc, k ∈ entryKeys S d₁ name key doc ↔ ∃ x, doc = some x ∧ k ∈ indexKeys S name index x key :=
        fun doc => (only doc).trans (and_iff_right rfl)
      refine (@refiled _ _ _ (fun v doc => ∃ x, doc = some x ∧ k ∈ indexKeys S name index x v) (storedDoc S l name)
        (e.engine.get? k) _ key (put.map Prod.snd) (fun v => both.ahead.filed k v owns) ?_ ?_ ?_ ?_ v).trans ?_
      · rintro other apart ⟨x, there, inside⟩ ⟨y, put', inside'⟩
        obtain ⟨p, same, rfl⟩ := Option.map_eq_some_iff.mp put'
        exact alone rfl p same other x there apart k inside inside'
      · exact fun named => after.trans (if_pos ((mine _).mpr named))
      · exact fun named before => after.trans ((if_neg (named ∘ (mine _).mp)).trans (if_pos ((mine _).mpr before)))
      · exact fun named before => after.trans ((if_neg (named ∘ (mine _).mp)).trans (if_neg (before ∘ (mine _).mp)))
      · simp only [Entry, stored, true_and]
    · have elsewhere : ∀ doc, k ∉ entryKeys S d₁ name key doc := fun doc member => here ((only doc).mp member).1
      rw [if_neg (elsewhere _), if_neg (elsewhere _)] at after
      rw [after, both.ahead.filed k v owns]
      simp only [Entry, stored, if_neg fun both : store = name ∧ v = key => here both.1.symm]

end

/-! ### The same call on both -/

section
variable {S : Serde}

/-- Two databases on which the calls go alike, `W` relating their definitions of a store. -/
structure Alike (S : Serde) (W : String → StoreDef → StoreDef → Prop) (l e : JsonDB) : Prop where
  stores : ∀ name, Agree (fun d₀ d₁ => l.schema.get? name = some d₀ ∧ W name d₀ d₁) (getStore l name) (getStore e name)
  keyPath : ∀ name d₀ d₁, W name d₀ d₁ → d₁.keyPath = d₀.keyPath
  autoIncrement : ∀ name d₀ d₁, W name d₀ d₁ → d₁.autoIncrement = d₀.autoIncrement
  docs : ∀ name key, readOldDoc S e name key = readOldDoc S l name key
  counters : ∀ name, prepareCounter e name = prepareCounter l name
  checks : ∀ name d₀ d₁, l.schema.get? name = some d₀ → W name d₀ d₁ → ∀ key doc,
    (d₁.indexes.forM fun idx => checkUnique S e name idx key doc) =
      d₀.indexes.forM fun idx => checkUnique S l name idx key doc

theorem alike_self (db : JsonDB) : Alike S (fun _ d₀ d₁ => d₁ = d₀) db db := by
  refine ⟨fun name => ?_, fun _ _ _ same => by rw [same], fun _ _ _ same => by rw [same], fun _ _ => rfl, fun _ => rfl,
    fun _ _ _ _ same _ _ => by rw [same]⟩
  cases found : getStore db name with
  | error e => rfl
  | ok d₀ => exact ⟨getStore_ok found, rfl⟩

/-- A change that a call may make to a database. -/
structure Change (S : Serde) (store : String) (d : StoreDef) (index : IndexDef) (l : JsonDB) (name : String) (d₀ : StoreDef)
    (key : Bytes) (put : Option (Bytes × Value)) (post : List InternalRecord) : Prop where
  defined : l.schema.get? name = some d₀
  reads : ∀ p, put = some p → decodeDoc S p.1 = .ok p.2
  keyed : sep ∉ key ∨ key = [sep]
  recovers : name = store → ∀ p, put = some p → Recovers S d index key p.2
  alone : name = store → ∀ p, put = some p → Alone S l store index key p.2
  aside : ∀ r ∈ post, Aside r

variable {store : String} {d : StoreDef} {index : IndexDef} {l e : JsonDB}

theorem decimal_ne_nil (n : Nat) : decimal n ≠ [] := fun empty =>
  Nat.toDigits_ne_nil (List.map_eq_nil_iff.mp empty)

/-- Only the null key and the empty one can share an index key. -/
theorem alone_of_free (fileable : Fileable S l store d index) (named : sep ∉ utf8 index.name) {key : Bytes} {doc : Value}
    (free : sep ∉ key) (clear : key ≠ [] ∨ storedDoc S l store [sep] = none) : Alone S l store index key doc := by
  intro other stored there apart k inside inside'
  obtain ⟨vals, _, rfl⟩ := List.mem_map.mp inside
  obtain ⟨vals', _, same⟩ := List.mem_map.mp inside'
  have name := validateName_nul_free _ (fileable.valid.store store d fileable.defined)
  rcases fileable.keys other stored there with free' | null
  · exact apart (idxKey_inj name name named named free free' same).2.2.2.symm
  · subst null
    have tails : encodeCompositeValue S vals' ++ sep :: key = encodeCompositeValue S vals ++ [sep, sep] :=
      (append_sep_inj named named (append_sep_inj name name (List.cons.inj same).2).2).2
    rcases clear with proper | absent
    · obtain ⟨front, last, rfl⟩ := (List.eq_nil_or_concat' key).resolve_left proper
      have ends : (encodeCompositeValue S vals' ++ sep :: front) ++ [last] = (encodeCompositeValue S vals ++ [sep]) ++ [sep] := by
        simpa using tails
      obtain ⟨_, rfl⟩ := List.append_singleton_inj.mp ends
      exact free (List.mem_append_right front List.mem_cons_self)
    · exact nomatch there.symm.trans absent

variable {W : String → StoreDef → StoreDef → Prop}

theorem build_alike (alike : Alike S W l e) {name : String} {d₀ d₁ : StoreDef} (defined : l.schema.get? name = some d₀)
    (related : W name d₀ d₁) (key docBytes : Bytes) (doc : Value) :
    Agree (fun p q => p = changeRecords S l d₀ name key (some (docBytes, doc)) ∧
        q = changeRecords S e d₁ name key (some (docBytes, doc)))
      (buildPutBatch S l d₀ name key docBytes doc) (buildPutBatch S e d₁ name key docBytes doc) := by
  rw [buildPutBatch_eq, buildPutBatch_eq]
  refine agree_same (alike.docs name key) fun old _ => ?_
  rw [alike.checks name d₀ d₁ defined related]
  cases d₀.indexes.forM fun idx => checkUnique S l name idx key doc with
  | error e => rfl
  | ok _ => exact ⟨rfl, rfl⟩

/-- A call fails on both, or makes the same change to both. -/
theorem batch_alike (fileable : Fileable S l store d index) (named : sep ∉ utf8 index.name) (alike : Alike S W l e)
    (c : DocCall) (files : Files S l store d index c) :
    Agree (fun p q => ∃ name d₀ d₁ key put post, Change S store d index l name d₀ key put post ∧ W name d₀ d₁ ∧
        p = changeRecords S l d₀ name key put ++ post ∧ q = changeRecords S e d₁ name key put ++ post)
      (c.mutation.batch S l) (c.mutation.batch S e) := by
  cases c with
  | put name doc =>
    refine agree_bind (alike.stores name) fun d₀ d₁ _ _ ⟨defined, related⟩ => ?_
    refine agree_same (by rw [keyOf, keyOf, alike.keyPath name d₀ d₁ related]) fun keyVal keyed => ?_
    refine agree_same rfl fun key encodedKey => agree_same rfl fun docBytes encoded => ?_
    refine agree_mono (build_alike alike defined related key docBytes doc) fun p q _ _ ⟨written, written'⟩ => ?_
    have same : name = store → d₀ = d := fun here =>
      Option.some.inj (defined.symm.trans (here ▸ fileable.defined))
    refine ⟨name, d₀, d₁, key, _, [], ⟨defined, fun p put => ?_, encoded_key encodedKey, fun here p put => ?_,
      fun here p put => ?_, nofun⟩, related, by rw [written, List.append_nil], by rw [written', List.append_nil]⟩
    · obtain rfl := Option.some.inj put
      exact decode_encode_doc S doc docBytes files.1 encoded
    · obtain rfl := Option.some.inj put
      obtain rfl := same here
      intro _
      rw [keyOf_ok keyed]
      exact encodedKey
    · obtain rfl := Option.some.inj put
      obtain rfl := same here
      exact files.2 here keyVal key (here ▸ keyed) encodedKey
  | delete name keyVal =>
    refine agree_bind (alike.stores name) fun d₀ d₁ _ _ ⟨defined, related⟩ => agree_same rfl fun key encodedKey => ?_
    rw [buildDeleteBatch_eq, buildDeleteBatch_eq]
    refine agree_same (alike.docs name key) fun old _ => ?_
    exact ⟨name, d₀, d₁, key, none, [], ⟨defined, nofun, encoded_key encodedKey, fun _ => nofun, fun _ => nofun, nofun⟩,
      related, (List.append_nil _).symm, (List.append_nil _).symm⟩
  | putAuto name doc =>
    refine agree_bind (alike.stores name) fun d₀ d₁ _ _ ⟨defined, related⟩ => ?_
    refine agree_same (by rw [requireAutoIncrement, requireAutoIncrement, alike.autoIncrement name d₀ d₁ related])
      fun _ _ => ?_
    refine agree_same (alike.counters name) fun ⟨id, counterRec⟩ prepared => ?_
    dsimp only
    rw [alike.keyPath name d₀ d₁ related]
    refine agree_same rfl fun docBytes encoded => ?_
    have same : name = store → d₀ = d := fun here =>
      Option.some.inj (defined.symm.trans (here ▸ fileable.defined))
    refine agree_bind (build_alike alike defined related _ docBytes _) fun p q _ _ ⟨written, written'⟩ => ?_
    refine ⟨name, d₀, d₁, decimal id.toNat, _, [counterRec], ⟨defined, fun p put => ?_, .inl (zero_notMem_decimal _),
      fun here p put => ?_, fun here p put => ?_, fun r member => ?_⟩, related, by rw [written], by rw [written']⟩
    · obtain rfl := Option.some.inj put
      exact decode_encode_doc S _ docBytes (insertMember_wellFormed doc _ d₀.keyPath files.1 rfl) encoded
    · obtain rfl := Option.some.inj put
      obtain rfl := same here
      exact files.2 here id counterRec (here ▸ prepared)
    · exact alone_of_free fileable named (zero_notMem_decimal _) (.inl (decimal_ne_nil _))
    · obtain rfl := List.mem_singleton.mp member
      exact prepareCounter_aside prepared

theorem perform_schema (db : JsonDB) (c : DocCall) : (c.perform S db).schema = db.schema := by
  have kept : ∀ {α : Type} (attempt : Except FlowError (α × List InternalRecord)),
      (commitBatch db attempt).2.schema = db.schema := fun attempt => by cases attempt <;> rfl
  cases c <;> exact kept _

theorem perform_eq (db : JsonDB) (c : DocCall) : c.perform S db = match c.mutation.batch S db with
    | .ok records => JsonDB.write db records
    | .error _ => db := by
  have engine := perform_engine (S := S) db c.mutation
  have schema := perform_schema (S := S) db c
  cases done : c.mutation.batch S db with
  | error e =>
    rw [done] at engine
    exact congrArg₂ JsonDB.mk engine schema
  | ok records =>
    rw [done] at engine
    exact congrArg₂ JsonDB.mk engine schema

theorem fileable_aside (files : Fileable S l store d index) {post : List InternalRecord} (aside : ∀ r ∈ post, Aside r) :
    Fileable S (JsonDB.write l post) store d index := by
  have stored : ∀ key, storedDoc S (JsonDB.write l post) store key = storedDoc S l store key :=
    aside_storedDoc l post aside store
  refine ⟨⟨files.valid.named, files.valid.store, files.valid.index⟩, files.defined, fun key bytes there => ?_, ?_, ?_, ?_⟩
  · exact files.decoded key bytes ((get?_aside l.engine post aside _ (.inl rfl)).symm.trans there)
  · simpa only [stored] using files.keys
  · simpa only [stored] using files.recovers
  · simpa only [Alone, stored] using files.alone

/-- One call on the documents keeps the store fileable. -/
theorem fileable_step (fileable : Fileable S l store d index) (named : sep ∉ utf8 index.name) (c : DocCall)
    (files : Files S l store d index c) : Fileable S (c.perform S l) store d index := by
  have agree := batch_alike fileable named (alike_self l) c files
  rw [perform_eq]
  cases done : c.mutation.batch S l with
  | error e => exact fileable
  | ok records =>
    rw [done] at agree
    obtain ⟨name, d₀, d₁, key, put, post, change, _, rfl, _⟩ := agree
    dsimp only
    rw [← write_write]
    exact fileable_aside (change_fileable fileable change.defined change.reads change.keyed change.recovers change.alone)
      change.aside

theorem together_alike (new : NewIndex d index) (both : Together S store d index l e) :
    Alike S (fun name => Widened name store index) l e := by
  refine ⟨together_getStore both, fun _ _ _ widened => widened.keyPath, fun _ _ _ widened => widened.autoIncrement,
    fun name key => readOldDoc_congr (together_doc both name key), fun name => ?_,
    fun name d₀ d₁ defined widened key doc => ?_⟩
  · have counter : e.engine.get? (counterKey name) = l.engine.get? (counterKey name) :=
      both.ahead.same _ (fun owns => absurd (Option.some.inj (owns_head owns)) (by decide : ctrTag ≠ idxTag))
        fun same => absurd (List.cons.inj same).1 (by decide : ctrTag ≠ schTag)
    rw [prepareCounter, prepareCounter, readCounter, readCounter, getBytes, getBytes, counter]
  · have old : ∀ idx ∈ d₀.indexes, checkUnique S e name idx key doc = checkUnique S l name idx key doc := fun idx inside =>
      checkUnique_congr key doc fun k owns => both.ahead.same k (own_unowned new both defined inside owns) fun same => by
        rw [same] at owns
        exact absurd (Option.some.inj (owns_head owns)) (by decide : schTag ≠ idxTag)
    have added : ((if name = store then [index] else []).forM fun idx => checkUnique S e name idx key doc) = .ok () := by
      split_ifs
      · rw [List.forM, checkUnique, new.plain, if_neg Bool.false_ne_true]
        rfl
      · rfl
    have both_parts : (d₀.indexes ++ if name = store then [index] else []).forM (fun idx => checkUnique S e name idx key doc) =
        (d₀.indexes.forM fun idx => checkUnique S e name idx key doc) >>= fun _ =>
          (if name = store then [index] else []).forM fun idx => checkUnique S e name idx key doc := List.forM_append
    rw [widened.indexes, both_parts, added, forM_congr old]
    cases d₀.indexes.forM fun idx => checkUnique S l name idx key doc <;> rfl

theorem ahead_aside (ahead : Ahead S store d index l e) {post : List InternalRecord} (aside : ∀ r ∈ post, Aside r) :
    Ahead S store d index (JsonDB.write l post) (JsonDB.write e post) := by
  have points : ∀ r ∈ post, Point r := fun r member => .inl (aside r member).1
  have owned : ∀ engine k, Owns store (.index index.name) k → (writeInternal engine post).get? k = engine.get? k :=
    fun engine k owns => get?_aside engine post aside k (.inr (owns_head owns))
  refine ⟨ahead.schema, fun k unowned other => get?_points points (ahead.same k unowned other), fun k owns => ?_,
    fun k v owns => ?_⟩
  · exact (owned l.engine k owns).trans (ahead.bare k owns)
  · rw [show (JsonDB.write e post).engine.get? k = e.engine.get? k from owned e.engine k owns, ahead.filed k v owns]
    simp only [Entry, aside_storedDoc l post aside]

/-- One call on both keeps the database with the index ahead. -/
theorem together_step (new : NewIndex d index) (both : Together S store d index l e) (c : DocCall)
    (files : Files S l store d index c) : Together S store d index (c.perform S l) (c.perform S e) := by
  have named := validateName_nul_free _ new.accepted
  refine ⟨fileable_step both.fileable named c files, ?_⟩
  have agree := batch_alike both.fileable named (together_alike new both) c files
  rw [perform_eq, perform_eq]
  cases done : c.mutation.batch S l with
  | error x =>
    rw [done] at agree
    cases done' : c.mutation.batch S e with
    | error y => exact both.ahead
    | ok records =>
      rw [done'] at agree
      exact agree.elim
  | ok records =>
    rw [done] at agree
    cases done' : c.mutation.batch S e with
    | error y =>
      rw [done'] at agree
      exact agree.elim
    | ok records' =>
      rw [done'] at agree
      obtain ⟨name, d₀, d₁, key, put, post, change, widened, rfl, rfl⟩ := agree
      dsimp only
      rw [← write_write, ← write_write]
      exact ahead_aside (change_ahead new both change.defined widened change.reads change.alone) change.aside

theorem run_schema (calls : List DocCall) (db : JsonDB) : (run S db calls).schema = db.schema := by
  induction calls generalizing db with
  | nil => rfl
  | cons c rest ih => exact (ih (c.perform S db)).trans (perform_schema db c)

theorem together_run (new : NewIndex d index) (calls : List DocCall) (both : Together S store d index l e)
    (files : FilesRun S store d index l calls) : Together S store d index (run S l calls) (run S e calls) := by
  induction calls generalizing l e with
  | nil => exact both
  | cons c rest ih => exact ih (together_step new both c files.1) files.2

/-! ### Creating the index -/

theorem prepareIndex_new (plain : index.unique = false) {record : InternalRecord}
    (prepared : prepareIndex S d index = .ok record) : NewIndex d index :=
  ⟨(prepareIndex_fresh prepared).1, (prepareIndex_fresh prepared).2, plain⟩

/-- The database with the index just created is ahead of the one without it. -/
theorem created_ahead (fileable : Fileable S l store d index)
    (bare : ∀ k, Owns store (.index index.name) k → l.engine.get? k = none) {record : InternalRecord}
    {entries : List InternalRecord} (prepared : prepareIndex S d index = .ok record)
    (puts : ∀ r ∈ entries, ∃ k v, r = putRecord k v) (iff : ∀ k v, putRecord k v ∈ entries ↔ Entry S l store index k v) :
    Ahead S store d index l
      ⟨writeInternal l.engine (record :: entries), l.schema.insert store (StoreDef.withIndex d index)⟩ := by
  obtain ⟨_, _, written⟩ := bind_ok prepared
  obtain ⟨text, _, rfl⟩ := schemaRecord_printed written
  have named : (StoreDef.withIndex d index).name = store := fileable.valid.named store d fileable.defined
  have owned : ∀ k v, putRecord k v ∈ entries → Owns store (.index index.name) k := by
    intro k v member
    obtain ⟨doc, _, inside⟩ := (iff k v).mp member
    exact indexKeys_owned inside
  have after : ∀ k v, (writeInternal l.engine (putRecord (schemaKey (StoreDef.withIndex d index).name) text :: entries)).get? k =
      some v ↔ Entry S l store index k v ∨ (∀ v', ¬Entry S l store index k v') ∧
        (if k = schemaKey store then some text else l.engine.get? k) = some v := by
    intro k v
    change (writeInternal (applyRecord l.engine (putRecord (schemaKey (StoreDef.withIndex d index).name) text)) entries).get? k =
      some v ↔ _
    rw [get?_filed puts fun k v v' one two => entry_single fileable ((iff k v).mp one) ((iff k v').mp two), get?_put, named]
    simp only [iff]
  refine ⟨rfl, fun k unowned other => Option.ext fun v => ?_, bare, fun k v owns => ?_⟩
  · have none_filed : ∀ v', ¬Entry S l store index k v' := fun v' filed => unowned (owned k v' ((iff k v').mpr filed))
    refine (after k v).trans ?_
    rw [if_neg other, or_iff_right (none_filed v)]
    exact and_iff_right none_filed
  · have notSchema : k ≠ schemaKey store := fun same => by
      rw [same] at owns
      exact absurd (Option.some.inj (owns_head owns)) (by decide : schTag ≠ idxTag)
    refine (after k v).trans ?_
    rw [if_neg notSchema, bare k owns]
    exact or_iff_left fun h => nomatch h.2

/-- From a store whose documents can be filed, along a run whose calls can be, an index created
late is the index created early. -/
theorem late_index_is_early (S : Serde) {db : JsonDB} {store name : String} {d : StoreDef} {keyPaths : List String}
    (start : Fileable S db store d ⟨keyPaths, name, false, false⟩)
    (unused : (∀ idx ∈ d.indexes, idx.name ≠ name) → ∀ k, Owns store (.index name) k → db.engine.get? k = none)
    (calls : List DocCall) (files : FilesRun S store d ⟨keyPaths, name, false, false⟩ db calls) :
    LateIsEarly S db store name keyPaths calls := by
  cases prepared : prepareIndex S d ⟨keyPaths, name, false, false⟩ with
  | error x =>
    have early := createIndex_refused start.defined prepared
    have defined : (run S db calls).schema.get? store = some d := by
      rw [run_schema]
      exact start.defined
    have late := createIndex_refused defined prepared
    refine ⟨by rw [early, late], fun key => by rw [early, late], fun k _ => by rw [early, late], fun done => ?_⟩
    exact nomatch (congrArg Prod.fst late).symm.trans done
  | ok record =>
    obtain ⟨entries, early, puts, iff⟩ := createIndex_filed start rfl prepared
    have new := prepareIndex_new (S := S) rfl prepared
    have both := together_run new calls ⟨start, created_ahead start (unused new.fresh) prepared puts iff⟩ files
    obtain ⟨entries', late, puts', iff'⟩ := createIndex_filed both.fileable rfl prepared
    have last : Together S store d ⟨keyPaths, name, false, false⟩ _ _ :=
      ⟨both.fileable, created_ahead both.fileable both.ahead.bare prepared puts' iff'⟩
    refine ⟨by rw [early, late], fun key => ?_, fun k owns => Option.ext fun v => ?_, fun _ k v owns => ?_⟩
    · rw [early, late]
      exact storedDoc_congr ((together_doc last store key).trans (together_doc both store key).symm)
    · rw [early, late]
      exact (last.ahead.filed k v owns).trans (both.ahead.filed k v owns).symm
    · rw [late]
      refine (last.ahead.filed k v owns).trans ?_
      simp only [Entry, storedDoc_congr (together_doc last store v)]

/-- A store without documents. -/
theorem fileable_empty {db : JsonDB} (valid : SchemaValid db) (defined : db.schema.get? store = some d)
    (empty : ∀ key, db.engine.get? (docKey store key) = none) : Fileable S db store d index := by
  have none_stored : ∀ key doc, storedDoc S db store key ≠ some doc := by
    intro key doc stored
    rw [storedDoc, getBytes, empty] at stored
    cases stored
  refine ⟨valid, defined, fun key bytes there => ?_, fun key doc there => absurd there (none_stored key doc),
    fun key doc there => absurd there (none_stored key doc), fun key doc there => absurd there (none_stored key doc)⟩
  rw [empty key] at there
  cases there

end

/-! Two auto-increment stores that differ in the key path, and the document each makes of one. -/

def tagged : Value := .object [("tag", .string "a")]

def plainText : Bytes := utf8 "\x7b\"id\":1,\"tag\":\"a\"\x7d"

def nestedText : Bytes := utf8 "\x7b\"meta.id\":1,\"tag\":\"a\"\x7d"

def tagSerde : Serde where
  toVec v := match v with
    | .object [("id", .number (.posInt 1)), ("tag", .string "a")] => some plainText
    | .object [("meta.id", .number (.posInt 1)), ("tag", .string "a")] => some nestedText
    | .object (("name", _) :: ("key_path", _) :: _) => some [123, 125]
    | _ => none
  fromSlice b :=
    if b = plainText then some (.object [("id", .number (.posInt 1)), ("tag", .string "a")])
    else if b = nestedText then some (.object [("meta.id", .number (.posInt 1)), ("tag", .string "a")]) else none
  floatText _ := [48, 46, 48]
  debugValues _ := "[String(\"a\")]"
  debugLossy _ := "\"1\""
  errorText _ := "expected value at line 1 column 1"
  round_trip v b whole written := by
    split at written
    · obtain rfl := Option.some.inj written
      exact if_pos rfl
    · obtain rfl := Option.some.inj written
      exact (if_neg (by decide)).trans (if_pos rfl)
    · have ordered := of_decide_eq_true (Bool.and_eq_true _ _ ▸ whole : _ ∧ _).1
      exact absurd (List.rel_of_pairwise_cons ordered List.mem_cons_self) (by decide : ¬"name" < "key_path")
    · cases written
  text_nul_free v b written := by
    split at written
    iterate 3
      · obtain rfl := Option.some.inj written
        decide
    · cases written
  float_nul_free := zeroPointZero_nul_free

def autoStore (keyPath : String) : StoreDef := ⟨"items", keyPath, true, [], 0⟩

def autoDb (keyPath : String) : JsonDB := ⟨∅, (∅ : OMap String StoreDef).insert "items" (autoStore keyPath)⟩

theorem autoDb_fileable (keyPath : String) (index : IndexDef) :
    Fileable tagSerde (autoDb keyPath) "items" (autoStore keyPath) index := by
  have valid : SchemaValid ⟨∅, ∅⟩ := ⟨by simp, by simp, by simp⟩
  exact fileable_empty (valid.insert rfl (by decide) nofun) (get?_insert_self ..) (by simp [autoDb])

/-- Under a dotted key path the backfill files the document under the null key. -/
theorem late_index_loses_key :
    Fileable tagSerde (autoDb "meta.id") "items" (autoStore "meta.id") ⟨["tag"], "by_tag", false, false⟩ ∧
      ¬LateIsEarly tagSerde (autoDb "meta.id") "items" "by_tag" ["tag"] [.putAuto "items" tagged] := by
  refine ⟨autoDb_fileable _ _, fun kept => ?_⟩
  have entry := kept.entries (idxKey "items" "by_tag" [7, 97] (utf8 "1")) (idxPrefix_isPrefix_idxKey _ _ _ _)
  exact absurd entry (by decide +kernel)

theorem late_index_is_early_auto : LateIsEarly tagSerde (autoDb "id") "items" "by_tag" ["tag"] [.putAuto "items" tagged] := by
  refine late_index_is_early tagSerde (autoDb_fileable "id" _) (fun _ k _ => by simp [autoDb]) _
    ⟨⟨by decide, fun _ id counterRec prepared => ?_⟩, trivial⟩
  have first : prepareCounter (autoDb "id") "items" = .ok (1, putRecord (counterKey "items") (toBe 8 1)) := rfl
  obtain ⟨rfl, _⟩ := Prod.mk.inj (Except.ok.inj (first.symm.trans prepared))
  exact fun _ => rfl

end FlowDb.LateIndexes
