import FlowDb.SchemaChanges

/-! When concurrent schema changes are kept: no two of them between reading and publishing a
definition at once, and no write of a document that an index in the making, or one that the writer
does not know of, would have to follow. -/
namespace FlowDb.SchemaChangeRuns
open ByteString OrderedMap JsonValue JsonEncoding JsonDb JsonIndexes JsonSessions JsonStores KeySpace StoreIsolation
open IndexMaintenance ConcurrentCommits Interleaving StagedRuns SchemaChanges
open Records hiding Query
open OptimisticRuns (Choice)

abbrev State (Id : Type) := Shared Id JsonDB FlowError Query Answer (Option Value) Effect

/-- Whether a call has made an update, and whether it has returned. -/
inductive Status where
  | idle
  | pending
  | done
  deriving DecidableEq

def statusOf : Thread FlowError Query Answer (Option Value) Effect → Status
  | .updating _ _ _ => .pending
  | .returned (.ok _) => .done
  | _ => .idle

def told : Thread FlowError Query Answer (Option Value) Effect → Told
  | .running seen _ | .updating seen _ _ => seen
  | _ => []

def created : StoreCall → Option IndexDef
  | .createIndex name keyPaths unique => some ⟨keyPaths, name, unique, false⟩
  | _ => none

section
variable (S : Serde) (store : String) {Id : Type} (calls : Id → StoreCall) (d₀ : StoreDef) (σ : Id → Status)

def interleave [DecidableEq Id] := StagedRuns.next answer Effect.apply fun k => (calls k).call S store

/-- The store had the index, or a call created it. -/
def Made (idx : IndexDef) : Prop := idx ∈ d₀.indexes ∨ ∃ k, created (calls k) = some idx ∧ σ k = .done

def Deleted (name : String) : Prop := ∃ k, calls k = .deleteIndex name ∧ σ k = .done

/-- The entries of the index are deleted, the definition without it is not yet published. -/
def Cleared (name : String) : Prop := ∃ k, calls k = .deleteIndex name ∧ σ k = .pending

/-- Every index of the published definition can follow the write: the writer knows of it, and no
other document has an index key of the new one; or its entries stay the same. -/
def Fits (db : JsonDB) (d : StoreDef) (key : Bytes) (new : Option Value) : Prop :=
  ∀ now, db.schema.get? store = some now → ∀ idx ∈ now.indexes, ¬Cleared calls σ idx.name →
    (idx ∈ d.indexes → ∀ doc, new = some doc → Alone S db store idx key doc) ∧
    (idx ∉ d.indexes → ∀ k, k ∈ keysOf S store idx key (storedDoc S db store key) ↔ k ∈ keysOf S store idx key new)

/-- An entry of a scanned document. -/
def ScannedEntry (docs : List (Bytes × Bytes)) (idx : IndexDef) (k v : Bytes) : Prop :=
  ∃ e ∈ docs, ∃ doc, e.1 = docKey store v ∧ decodeDoc S e.2 = .ok doc ∧ k ∈ indexKeys S store idx doc v

/-- The documents have the index keys that they had when they were scanned, no two the same. -/
def Unmoved (db : JsonDB) (idx : IndexDef) (docs : List (Bytes × Bytes)) : Prop :=
  (∀ k v, ScannedEntry S store docs idx k v ↔ Entry S db store idx k v) ∧
    ∀ key doc, storedDoc S db store key = some doc → Alone S db store idx key doc

variable {σ} in
/-- What a run must keep to: at the write of a schema change no other one is unpublished and the
definition is the one it read; a put or delete fits; and when a new index is published, the
documents have not moved since its scan. -/
def Undisturbed (s : State Id) : Choice Id → Prop
  | .start _ => True
  | .step k =>
      match s.threads k, calls k with
      | .running seen (.done _), .createIndex _ _ _ | .running seen (.done _), .deleteIndex _ =>
          (∀ j, statusOf (s.threads j) ≠ .pending) ∧
            ∀ a, (⟨.schema store, a⟩ : Σ q, Answer q) ∈ seen → s.state.schema.get? store = a
      | .running seen (.done _), .put doc => ∀ d keyVal key, (⟨.schema store, some d⟩ : Σ q, Answer q) ∈ seen →
          keyOf d store doc = .ok keyVal → encodePrimaryKey S keyVal = .ok key →
            Fits S store calls (statusOf ∘ s.threads) s.state d key (some doc)
      | .running seen (.done _), .delete keyVal => ∀ d key, (⟨.schema store, some d⟩ : Σ q, Answer q) ∈ seen →
          encodePrimaryKey S keyVal = .ok key → Fits S store calls (statusOf ∘ s.threads) s.state d key none
      | .updating seen _ _, .createIndex name keyPaths unique => ∀ docs,
          (⟨.scan (prefixRange (docPrefix store)), docs⟩ : Σ q, Answer q) ∈ seen →
            Unmoved S store s.state ⟨keyPaths, name, unique, false⟩ docs
      | _, _ => True

/-- No name is created twice: by two calls, or by one when the store's own index is deleted. -/
structure DistinctNames : Prop where
  once : ∀ k j a b, created (calls k) = some a → created (calls j) = some b → a.name = b.name → k = j
  never_again : ∀ k j idx, created (calls k) = some idx → calls j = .deleteIndex idx.name → ∀ own ∈ d₀.indexes, own.name ≠ idx.name

def Persisted (db : JsonDB) (d : StoreDef) : Prop :=
  ∃ text, S.toVec d.toValue = some text ∧ db.engine.get? (schemaKey store) = some text

/-- A store at rest: its definition is persisted, its documents are stored under the keys in them,
and its indexes, and no others, have their entries. -/
structure AtRest (db : JsonDB) : Prop where
  valid : SchemaValid db
  defined : db.schema.get? store = some d₀
  distinct : (d₀.indexes.map IndexDef.name).Nodup
  persisted : Persisted S store db d₀
  decoded : ∀ key bytes, db.engine.get? (docKey store key) = some bytes → ∃ doc, decodeDoc S bytes = .ok doc
  keyed : ∀ key doc, storedDoc S db store key = some doc →
    encodePrimaryKey S ((extractField doc d₀.keyPath).getD .null) = .ok key
  filed : ∀ idx ∈ d₀.indexes, Filed S store db idx
  bare : ∀ name, sep ∉ utf8 name → (∀ own ∈ d₀.indexes, own.name ≠ name) →
    ∀ k, Owns store (.index name) k → db.engine.get? k = none

/-- The definition in memory and the persisted one have exactly the indexes created and not deleted,
and the entries of each are those of the stored documents. -/
def ChangesKept (s : State Id) : Prop :=
  ∃ d, s.state.schema.get? store = some d ∧ Persisted S store s.state d ∧
    (∀ idx, idx ∈ d.indexes ↔ Made calls d₀ (statusOf ∘ s.threads) idx ∧ ¬Deleted calls (statusOf ∘ s.threads) idx.name) ∧
    ∀ idx ∈ d.indexes, Filed S store s.state idx

/-! ### What holds between the steps -/

/-- A definition that was published at some time. -/
structure DefOk (d : StoreDef) : Prop where
  name : d.name = store
  keyPath : d.keyPath = d₀.keyPath
  made : ∀ idx ∈ d.indexes, Made calls d₀ σ idx
  distinct : (d.indexes.map IndexDef.name).Nodup

structure Consistent (db : JsonDB) : Prop where
  valid : SchemaValid db
  decoded : ∀ key bytes, db.engine.get? (docKey store key) = some bytes → ∃ doc, decodeDoc S bytes = .ok doc
  keyed : ∀ key doc, storedDoc S db store key = some doc →
    encodePrimaryKey S ((extractField doc d₀.keyPath).getD .null) = .ok key
  definition : ∃ d, db.schema.get? store = some d ∧ DefOk store calls d₀ σ d ∧
    ∀ idx, idx ∈ d.indexes ↔ Made calls d₀ σ idx ∧ ¬Deleted calls σ idx.name
  filed : ∀ idx, Made calls d₀ σ idx → ¬Deleted calls σ idx.name → ¬Cleared calls σ idx.name → Filed S store db idx
  bare : ∀ name, sep ∉ utf8 name → (∀ own ∈ d₀.indexes, own.name ≠ name) →
    (∀ k idx, created (calls k) = some idx → idx.name = name → σ k = .idle) →
      ∀ k, Owns store (.index name) k → db.engine.get? k = none
  fresh : ∀ k idx, created (calls k) = some idx → σ k ≠ .idle →
    (∀ own ∈ d₀.indexes, own.name ≠ idx.name) ∧ validateName idx.name = .ok ()
  deleted : ∀ k name, calls k = .deleteIndex name → σ k = .done → ∃ idx, Made calls d₀ σ idx ∧ idx.name = name
  persisted : (∀ k, σ k ≠ .pending) → ∀ d, db.schema.get? store = some d → Persisted S store db d

/-- What a call has been told stands: definitions that were published, documents under their keys. -/
structure ReadOk (seen : Told) : Prop where
  defs : ∀ d, (⟨.schema store, some d⟩ : Σ q, Answer q) ∈ seen → DefOk store calls d₀ σ d
  docs : ∀ docs, (⟨.scan (prefixRange (docPrefix store)), docs⟩ : Σ q, Answer q) ∈ seen → ∀ e ∈ docs, ∃ key doc,
    e.1 = docKey store key ∧ decodeDoc S e.2 = .ok doc ∧
      encodePrimaryKey S ((extractField doc d₀.keyPath).getD .null) = .ok key

/-- A schema change between its write and its publication. -/
structure PendingOk (db : JsonDB) (k : Id) (seen : Told) (left : List Effect) : Prop where
  only : ∀ j, σ j = .pending → j = k
  next : ∀ d, (⟨.schema store, some d⟩ : Σ q, Answer q) ∈ seen → db.schema.get? store = some d
  persisted : ∀ d', .publish d' ∈ left → Persisted S store db d'
  entries : ∀ idx, created (calls k) = some idx → ∀ docs,
    (⟨.scan (prefixRange (docPrefix store)), docs⟩ : Σ q, Answer q) ∈ seen → ∀ key, Owns store (.index idx.name) key →
      (∀ v, db.engine.get? key = some v → ScannedEntry S store docs idx key v) ∧
        ∀ v, ScannedEntry S store docs idx key v → ∃ v', db.engine.get? key = some v'

structure Inv [DecidableEq Id] (s : State Id) : Prop where
  tracked : Tracked (fun k => (calls k).call S store) s
  consistent : Consistent S store calls d₀ (statusOf ∘ s.threads) s.state
  reads : ∀ k, ReadOk S store calls d₀ (statusOf ∘ s.threads) (told (s.threads k))
  olds : ∀ k, ((calls k).call S store).exclusive = true → ∀ key a,
    (⟨.getBytes (docKey store key), a⟩ : Σ q, Answer q) ∈ told (s.threads k) → getBytes s.state (docKey store key) = a
  pending : ∀ k seen left r, s.threads k = .updating seen left r →
    PendingOk S store calls (statusOf ∘ s.threads) s.state k seen left

end

section
variable {S : Serde} {store : String} {Id : Type} {calls : Id → StoreCall} {d₀ : StoreDef} {σ σ' : Id → Status}
variable {db after : JsonDB} {d : StoreDef}

/-! ### Statuses -/

theorem made_later (later : ∀ k, σ k = .done → σ' k = .done) {idx : IndexDef} (made : Made calls d₀ σ idx) :
    Made calls d₀ σ' idx :=
  made.imp_right fun ⟨k, creates, finished⟩ => ⟨k, creates, later k finished⟩

theorem DefOk.later (ok : DefOk store calls d₀ σ d) (later : ∀ k, σ k = .done → σ' k = .done) :
    DefOk store calls d₀ σ' d :=
  ⟨ok.name, ok.keyPath, fun idx inside => made_later later (ok.made idx inside), ok.distinct⟩

theorem ReadOk.later {seen : Told} (ok : ReadOk S store calls d₀ σ seen) (later : ∀ k, σ k = .done → σ' k = .done) :
    ReadOk S store calls d₀ σ' seen :=
  ⟨fun d member => (ok.defs d member).later later, ok.docs⟩

theorem made_congr (same : ∀ k idx, created (calls k) = some idx → (σ' k = .done ↔ σ k = .done)) :
    Made calls d₀ σ' = Made calls d₀ σ := by
  funext idx
  exact propext (or_congr_right (exists_congr fun k => and_congr_right (same k idx)))

theorem deleted_congr (same : ∀ k name, calls k = .deleteIndex name → (σ' k = .done ↔ σ k = .done)) :
    Deleted calls σ' = Deleted calls σ := by
  funext name
  exact propext (exists_congr fun k => and_congr_right (same k name))

theorem cleared_congr (same : ∀ k name, calls k = .deleteIndex name → (σ' k = .pending ↔ σ k = .pending)) :
    Cleared calls σ' = Cleared calls σ := by
  funext name
  exact propext (exists_congr fun k => and_congr_right (same k name))

/-- No schema change has moved. -/
structure Quiet (calls : Id → StoreCall) (σ σ' : Id → Status) : Prop where
  create : ∀ k idx, created (calls k) = some idx → σ' k = σ k
  delete : ∀ k name, calls k = .deleteIndex name → σ' k = σ k
  later : ∀ k, σ k = .done → σ' k = .done
  pending : ∀ k, σ' k = .pending ↔ σ k = .pending

section
variable (quiet : Quiet calls σ σ')
include quiet

theorem made_quiet : Made calls d₀ σ' = Made calls d₀ σ := made_congr fun k idx creates => by rw [quiet.create k idx creates]

theorem deleted_quiet : Deleted calls σ' = Deleted calls σ := deleted_congr fun k name deletes => by rw [quiet.delete k name deletes]

theorem cleared_quiet : Cleared calls σ' = Cleared calls σ := cleared_congr fun k name deletes => by rw [quiet.delete k name deletes]

theorem consistent_quiet (consistent : Consistent S store calls d₀ σ db) : Consistent S store calls d₀ σ' db := by
  obtain ⟨d, defined, ok, indexes⟩ := consistent.definition
  refine ⟨consistent.valid, consistent.decoded, consistent.keyed, ⟨d, defined, ok.later quiet.later, ?_⟩, ?_, ?_, ?_, ?_, ?_⟩
  · rw [made_quiet quiet, deleted_quiet quiet]
    exact indexes
  · rw [made_quiet quiet, deleted_quiet quiet, cleared_quiet quiet]
    exact consistent.filed
  · intro name free fresh idle
    refine consistent.bare name free fresh fun k idx creates named => ?_
    rw [← quiet.create k idx creates]
    exact idle k idx creates named
  · intro k idx creates moved
    rw [quiet.create k idx creates] at moved
    exact consistent.fresh k idx creates moved
  · intro k name deletes finished
    rw [quiet.delete k name deletes] at finished
    rw [made_quiet quiet]
    exact consistent.deleted k name deletes finished
  · intro rested
    exact consistent.persisted fun k pending => rested k ((quiet.pending k).mpr pending)

theorem pending_quiet {k : Id} {seen : Told} {left : List Effect} (ok : PendingOk S store calls σ db k seen left) :
    PendingOk S store calls σ' db k seen left :=
  ⟨fun j pending => ok.only j ((quiet.pending j).mp pending), ok.next, ok.persisted, ok.entries⟩

end

/-! ### Names and regions -/

/-- The names of the indexes that the store has and of those that the calls create. -/
structure Names (calls : Id → StoreCall) (d₀ : StoreDef) : Prop where
  distinct : DistinctNames calls d₀
  own : (d₀.indexes.map IndexDef.name).Nodup
  accepted : ∀ own ∈ d₀.indexes, validateName own.name = .ok ()

theorem filed_congr {idx : IndexDef}
    (docs : ∀ key, after.engine.get? (docKey store key) = db.engine.get? (docKey store key))
    (region : ∀ key, Owns store (.index idx.name) key → after.engine.get? key = db.engine.get? key)
    (filed : Filed S store db idx) : Filed S store after idx := fun key v owns => by
  rw [region key owns, filed key v owns]
  simp only [Entry, storedDoc_congr (docs v)]

variable (names : Names calls d₀) (consistent : Consistent S store calls d₀ σ db)
include consistent

theorem store_free : sep ∉ utf8 store := by
  obtain ⟨d, defined, _⟩ := consistent.definition
  exact validateName_nul_free _ (consistent.valid.store store d defined)

include names

theorem made_accepted {idx : IndexDef} (made : Made calls d₀ σ idx) : validateName idx.name = .ok () := by
  obtain own | ⟨k, creates, finished⟩ := made
  · exact names.accepted idx own
  · exact (consistent.fresh k idx creates fun idle => nomatch finished.symm.trans idle).2

theorem made_unique {a b : IndexDef} (one : Made calls d₀ σ a) (two : Made calls d₀ σ b) (same : a.name = b.name) : a = b := by
  have fresh : ∀ {k idx}, created (calls k) = some idx → σ k = .done → ∀ own ∈ d₀.indexes, own.name ≠ idx.name :=
    fun creates finished => (consistent.fresh _ _ creates fun idle => nomatch finished.symm.trans idle).1
  obtain own | ⟨k, creates, finished⟩ := one <;> obtain own' | ⟨j, creates', finished'⟩ := two
  · exact List.inj_on_of_nodup_map names.own own own' same
  · exact absurd same (fresh creates' finished' a own)
  · exact absurd same.symm (fresh creates finished b own')
  · obtain rfl := names.distinct.once k j a b creates creates' same
    exact Option.some.inj (creates.symm.trans creates')

/-- The index of a definition that owns a key of the store. -/
theorem entryKeys_named (known : DefOk store calls d₀ σ d) {name : String} (free : sep ∉ utf8 name) {k key : Bytes}
    {doc : Option Value} (owns : Owns store (.index name) k) (member : k ∈ entryKeys S d store key doc) :
    ∃ idx ∈ d.indexes, idx.name = name ∧ k ∈ keysOf S store idx key doc := by
  obtain ⟨x, rfl, idx, inside, vals, extracted, rfl⟩ := (mem_entryKeys S d store key doc k).mp member
  have named := validateName_nul_free _ (made_accepted names consistent (known.made idx inside))
  have free' := store_free consistent
  have owners := @owner_unique store store (.index idx.name) (.index name) _ free' free' named free
    (idxPrefix_isPrefix_idxKey store idx.name _ key) owns
  exact ⟨idx, inside, Kind.index.inj owners.2, mem_keysOf.mpr ⟨x, rfl, List.mem_map_of_mem extracted⟩⟩

/-- Among the keys of one index, those of a definition with it. -/
theorem entryKeys_index (known : DefOk store calls d₀ σ d) {idx : IndexDef} (inside : idx ∈ d.indexes) {k key : Bytes}
    {doc : Option Value} (owns : Owns store (.index idx.name) k) :
    k ∈ entryKeys S d store key doc ↔ k ∈ keysOf S store idx key doc := by
  constructor
  · intro member
    have free := validateName_nul_free _ (made_accepted names consistent (known.made idx inside))
    obtain ⟨own, inside', same, keyed⟩ := entryKeys_named names consistent known free owns member
    obtain rfl := List.inj_on_of_nodup_map known.distinct inside' inside same
    exact keyed
  · intro keyed
    obtain ⟨x, rfl, extracted⟩ := mem_keysOf.mp keyed
    obtain ⟨vals, there, rfl⟩ := List.mem_map.mp extracted
    exact (mem_entryKeys S d store key _ _).mpr ⟨x, rfl, idx, inside, vals, there, rfl⟩

/-- A change leaves the entries of an index that its definition does not have. -/
theorem change_region (known : DefOk store calls d₀ σ d) {name : String} (free : sep ∉ utf8 name)
    (unnamed : ∀ idx ∈ d.indexes, idx.name ≠ name) (key : Bytes) (new : Option (Bytes × Value)) {k : Bytes}
    (owns : Owns store (.index name) k) :
    (JsonDB.write db (changeRecords S db d store key new)).engine.get? k = db.engine.get? k := by
  have outside : ∀ doc, k ∉ entryKeys S d store key doc := fun doc member => by
    obtain ⟨idx, inside, same, _⟩ := entryKeys_named names consistent known free owns member
    exact unnamed idx inside same
  rw [get?_change, if_neg (outside _), if_neg (outside _), if_neg]
  rintro rfl
  exact docKey_unowned store name key owns

omit names consistent in
theorem change_schema (key : Bytes) (new : Option (Bytes × Value)) :
    (JsonDB.write db (changeRecords S db d store key new)).engine.get? (schemaKey store) = db.engine.get? (schemaKey store) := by
  have head : (schemaKey store).head? = some schTag := rfl
  have outside : ∀ doc, schemaKey store ∉ entryKeys S d store key doc := fun doc member =>
    absurd (Option.some.inj (head.symm.trans (entryKeys_head member))) (by decide)
  rw [get?_change, if_neg (outside _), if_neg (outside _), if_neg]
  exact fun same => absurd (List.cons.inj same).1 (by decide)

/-! ### A put or a delete -/

section
variable {key : Bytes} {new : Option (Bytes × Value)} (known : DefOk store calls d₀ σ d)
variable (reads : ∀ p, new = some p → decodeDoc S p.1 = .ok p.2) (fits : Fits S store calls σ db d key (new.map Prod.snd))
include known reads fits

theorem changed_filed {idx : IndexDef} (made : Made calls d₀ σ idx) (live : ¬Deleted calls σ idx.name)
    (kept : ¬Cleared calls σ idx.name) : Filed S store (JsonDB.write db (changeRecords S db d store key new)) idx := by
  have filed := consistent.filed idx made live kept
  have free := store_free consistent
  obtain ⟨now, defined, _, indexes⟩ := consistent.definition
  obtain ⟨alone, unknown⟩ := fits now defined idx ((indexes idx).mpr ⟨made, live⟩) kept
  have stored : ∀ other, storedDoc S (JsonDB.write db (changeRecords S db d store key new)) store other =
      if other = key then new.map Prod.snd else storedDoc S db store other := fun other => by
    rw [storedDoc_written db free free reads]
    simp only [true_and]
  have entry : ∀ db k v, Entry S db store idx k v ↔ k ∈ keysOf S store idx v (storedDoc S db store v) :=
    fun _ _ _ => mem_keysOf.symm
  intro k v owns
  rw [entry, stored]
  by_cases inside : idx ∈ d.indexes
  · have mine : ∀ doc, k ∈ entryKeys S d store key doc ↔ k ∈ keysOf S store idx key doc := fun _ =>
      entryKeys_index names consistent known inside owns
    have after : (JsonDB.write db (changeRecords S db d store key new)).engine.get? k = _ := get?_change S db d store key new k
    have notDoc : k ≠ docKey store key := fun same => docKey_unowned store idx.name key (same ▸ owns)
    rw [if_neg notDoc] at after
    refine @refiled _ _ _ (fun v doc => k ∈ keysOf S store idx v doc) (storedDoc S db store) (db.engine.get? k) _ key
      (new.map Prod.snd) (fun v => (filed k v owns).trans (entry db k v)) ?_ ?_ ?_ ?_ v
    · intro other apart there named
      obtain ⟨x, present, inside'⟩ := mem_keysOf.mp there
      obtain ⟨y, put, inside''⟩ := mem_keysOf.mp named
      exact alone inside y put other x present apart k inside' inside''
    · exact fun named => after.trans (if_pos ((mine _).mpr named))
    · exact fun named before => after.trans ((if_neg (named ∘ (mine _).mp)).trans (if_pos ((mine _).mpr before)))
    · exact fun named before => after.trans ((if_neg (named ∘ (mine _).mp)).trans (if_neg (before ∘ (mine _).mp)))
  · have unnamed : ∀ own ∈ d.indexes, own.name ≠ idx.name := fun own there same =>
      inside (made_unique names consistent (known.made own there) made same ▸ there)
    have named := validateName_nul_free _ (made_accepted names consistent made)
    rw [change_region names consistent known named unnamed key new owns, filed k v owns, entry]
    split_ifs with here
    · subst here
      exact unknown inside k
    · rfl

/-- The write of a put or a delete keeps the store consistent. -/
theorem consistent_changed
    (keyed : ∀ p, new = some p → encodePrimaryKey S ((extractField p.2 d₀.keyPath).getD .null) = .ok key) :
    Consistent S store calls d₀ σ (JsonDB.write db (changeRecords S db d store key new)) := by
  have free := store_free consistent
  refine ⟨⟨consistent.valid.named, consistent.valid.store, consistent.valid.index⟩, fun other bytes there => ?_,
    fun other doc there => ?_, consistent.definition, fun idx => changed_filed names consistent known reads fits,
    fun name named fresh idle k owns => ?_, consistent.fresh, consistent.deleted, fun rested now defined => ?_⟩
  · rw [get?_change, if_neg docKey_notMem_entryKeys, if_neg docKey_notMem_entryKeys] at there
    split_ifs at there
    · obtain ⟨p, same, rfl⟩ := Option.map_eq_some_iff.mp there
      exact ⟨p.2, reads p same⟩
    · exact consistent.decoded other bytes there
  · rw [storedDoc_written db free free reads] at there
    split_ifs at there with here
    · obtain ⟨p, same, rfl⟩ := Option.map_eq_some_iff.mp there
      rw [here.2]
      exact keyed p same
    · exact consistent.keyed other doc there
  · rw [change_region names consistent known named _ key new owns]
    · exact consistent.bare name named fresh idle k owns
    · intro idx inside same
      obtain own | ⟨j, creates, finished⟩ := known.made idx inside
      · exact fresh idx own same
      · exact nomatch finished.symm.trans (idle j idx creates same)
  · obtain ⟨text, printed, present⟩ := consistent.persisted rested now defined
    exact ⟨text, printed, (change_schema key new).trans present⟩

end

/-! ### The write of a schema change -/

theorem fresh_name {k : Id} {idx : IndexDef} (creates : created (calls k) = some idx)
    (defined : db.schema.get? store = some d) (new : ∀ own ∈ d.indexes, own.name ≠ idx.name) :
    ∀ own ∈ d₀.indexes, own.name ≠ idx.name := by
  intro own inside same
  obtain ⟨now, defined', _, indexes⟩ := consistent.definition
  obtain rfl := Option.some.inj (defined.symm.trans defined')
  refine new own ((indexes own).mpr ⟨.inl inside, fun ⟨j, deletes, _⟩ => ?_⟩) same
  exact names.distinct.never_again k j idx creates (same ▸ deletes) own inside same

end

section
variable {S : Serde} {store : String} {Id : Type} {calls : Id → StoreCall} {d₀ d : StoreDef} {σ : Id → Status} {db : JsonDB} {k : Id}

theorem pending_done [DecidableEq Id] (idle : σ k = .idle) (j : Id) : Function.update σ k .pending j = .done ↔ σ j = .done := by
  by_cases same : j = k
  · subst same
    simp [idle]
  · rw [Function.update_of_ne same]

theorem done_later [DecidableEq Id] (j : Id) (done : σ j = .done) : Function.update σ k .done j = .done := by
  by_cases same : j = k
  · rw [same, Function.update_self]
  · rw [Function.update_of_ne same, done]

/-- A write that touches the persisted definition and the entries of one index only: of an index in
the making, or of one that is being deleted. -/
theorem consistent_pending [DecidableEq Id] (names : Names calls d₀) (consistent : Consistent S store calls d₀ σ db)
    (idle : σ k = .idle) {name : String} (named : sep ∉ utf8 name) {records : List InternalRecord}
    (untouched : ∀ {key}, ¬Owns store (.index name) key → key ≠ schemaKey store →
      (JsonDB.write db records).engine.get? key = db.engine.get? key)
    (apart : ∀ own, Made calls d₀ σ own → ¬Cleared calls (Function.update σ k .pending) own.name → own.name ≠ name)
    (known : (∃ own ∈ d₀.indexes, own.name = name) ∨
      ∃ j own, created (calls j) = some own ∧ own.name = name ∧ Function.update σ k .pending j ≠ .idle)
    (fresh : ∀ idx, created (calls k) = some idx →
      (∀ own ∈ d₀.indexes, own.name ≠ idx.name) ∧ validateName idx.name = .ok ()) :
    Consistent S store calls d₀ (Function.update σ k .pending) (JsonDB.write db records) := by
  have same : Made calls d₀ (Function.update σ k .pending) = Made calls d₀ σ := made_congr fun j _ _ => pending_done idle j
  have same' : Deleted calls (Function.update σ k .pending) = Deleted calls σ := deleted_congr fun j _ _ => pending_done idle j
  have moved : ∀ j status, status ≠ .pending → Function.update σ k .pending j = status → σ j = status := by
    intro j status other here
    have apart : j ≠ k := fun equal => other (by rw [← here, equal, Function.update_self])
    rwa [Function.update_of_ne apart] at here
  have doc : ∀ key, (JsonDB.write db records).engine.get? (docKey store key) = db.engine.get? (docKey store key) := fun key =>
    untouched (docKey_unowned store name key) fun same => absurd (List.cons.inj same).1 (by decide)
  -- The write keeps to the index it is about and to the stored definition.
  have region : ∀ other, sep ∉ utf8 other → other ≠ name → ∀ key, Owns store (.index other) key →
      (JsonDB.write db records).engine.get? key = db.engine.get? key := by
    intro other free apart key owns
    have free' := store_free consistent
    refine untouched (fun owns' => apart ?_) fun same => ?_
    · exact Kind.index.inj (@owner_unique store store (.index other) (.index name) key free' free' free named owns owns').2
    · rw [same] at owns
      exact absurd (Option.some.inj (owns_head owns)) (by decide : schTag ≠ idxTag)
  obtain ⟨now, defined, ok, indexes⟩ := consistent.definition
  refine ⟨⟨consistent.valid.named, consistent.valid.store, consistent.valid.index⟩, fun key bytes there => ?_,
    fun key doc' there => ?_, ⟨now, defined, ok.later fun j => (pending_done idle j).mpr, ?_⟩, fun own made live kept => ?_,
    fun other free own unmade => ?_, fun j own creates there => ?_, fun j other deletes finished => ?_, fun rested => ?_⟩
  · exact consistent.decoded key bytes ((doc key).symm.trans there)
  · exact consistent.keyed key doc' ((storedDoc_congr (doc key)).symm.trans there)
  · rwa [same, same']
  · rw [same] at made
    rw [same'] at live
    have kept' : ¬Cleared calls σ own.name := by
      rintro ⟨j, deletes, pending⟩
      refine kept ⟨j, deletes, ?_⟩
      by_cases here : j = k
      · rw [here, Function.update_self]
      · rw [Function.update_of_ne here, pending]
    exact filed_congr doc (region own.name (validateName_nul_free _ (made_accepted names consistent made)) (apart own made kept))
      (consistent.filed own made live kept')
  · have other_name : other ≠ name := by
      rintro rfl
      obtain ⟨own', inside, equal⟩ | ⟨j, own', creates, equal, unmoved⟩ := known
      · exact own own' inside equal
      · exact unmoved (unmade j own' creates equal)
    intro key owns
    rw [region other free other_name key owns]
    exact consistent.bare other free own (fun j own' creates equal => moved j .idle nofun (unmade j own' creates equal)) key owns
  · by_cases here : j = k
    · subst here
      exact fresh own creates
    · rw [Function.update_of_ne here] at there
      exact consistent.fresh j own creates there
  · rw [same]
    exact consistent.deleted j other deletes ((pending_done idle j).mp finished)
  · exact absurd (Function.update_self ..) (rested k)

/-- What a `create_index` was told and what it writes. -/
structure Creation (S : Serde) (store : String) (calls : Id → StoreCall) (d₀ : StoreDef) (σ : Id → Status) (idx : IndexDef)
    (d : StoreDef) (docs : List (Bytes × Bytes)) (records : List InternalRecord) : Prop where
  known : DefOk store calls d₀ σ d
  scanned : ∀ e ∈ docs, ∃ key doc, e.1 = docKey store key ∧ decodeDoc S e.2 = .ok doc ∧
    encodePrimaryKey S ((extractField doc d₀.keyPath).getD .null) = .ok key
  written : ∃ record, prepareIndex S d idx = .ok record ∧
    backfill S (StoreDef.withIndex d idx) store idx.name idx docs [record] = .ok records

section
variable {idx : IndexDef} {docs : List (Bytes × Bytes)} {records : List InternalRecord}
variable (creation : Creation S store calls d₀ σ idx d docs records)
include creation

/-- The definition, and the entries of the documents that were scanned. -/
theorem created_records : ∃ text entries, S.toVec (StoreDef.withIndex d idx).toValue = some text ∧
    records = putRecord (schemaKey store) text :: entries ∧
      ∀ r, r ∈ entries ↔ ∃ key v, r = putRecord key v ∧ ScannedEntry S store docs idx key v := by
  obtain ⟨record, prepared, filled⟩ := creation.written
  obtain ⟨_, _, written⟩ := bind_ok prepared
  obtain ⟨text, printed, rfl⟩ := schemaRecord_printed written
  have each : ∀ e ∈ docs, ∃ key doc, e.1 = docKey store key ∧ decodeDoc S e.2 = .ok doc ∧
      Recovers S (StoreDef.withIndex d idx) idx key doc := by
    intro e member
    obtain ⟨key, doc, named, decoded, encoded⟩ := creation.scanned e member
    refine ⟨key, doc, named, decoded, fun _ => ?_⟩
    change encodePrimaryKey S ((extractField doc d.keyPath).getD .null) = .ok key
    rw [creation.known.keyPath]
    exact encoded
  obtain ⟨entries, files, iff⟩ := backfill_files each [putRecord (schemaKey (StoreDef.withIndex d idx).name) text]
  refine ⟨text, entries, printed, ?_, fun r => (iff r).trans ⟨?_, ?_⟩⟩
  · obtain rfl := Except.ok.inj (filled.symm.trans files)
    rw [← creation.known.name]
    rfl
  · rintro ⟨e, member, key, doc, named, decoded, k, inside, rfl⟩
    exact ⟨k, key, rfl, e, member, doc, named, decoded, inside⟩
  · rintro ⟨k, key, rfl, e, member, doc, named, decoded, inside⟩
    exact ⟨e, member, key, doc, named, decoded, k, inside, rfl⟩

theorem created_persisted : Persisted S store (JsonDB.write db records) (StoreDef.withIndex d idx) := by
  obtain ⟨text, entries, printed, rfl, iff⟩ := created_records creation
  refine ⟨text, printed, (@writeInternal_untouched entries _ (applyRecord db.engine (putRecord (schemaKey store) text))
    fun r member touched => ?_).trans ((get?_put ..).trans (if_pos rfl))⟩
  obtain ⟨key, v, rfl, e, _, doc, _, _, inside⟩ := (iff r).mp member
  have owns : Owns store (.index idx.name) (schemaKey store) := touched ▸ indexKeys_owned inside
  exact absurd (Option.some.inj (owns_head owns)) (by decide : schTag ≠ idxTag)

theorem created_untouched (engine : JsonDb.Engine) {key : Bytes} (unowned : ¬Owns store (.index idx.name) key) (other : key ≠ schemaKey store) :
    (writeInternal engine records).get? key = engine.get? key := by
  obtain ⟨text, entries, printed, rfl, iff⟩ := created_records creation
  refine writeInternal_untouched _ fun r member touched => ?_
  rcases List.mem_cons.mp member with rfl | later
  · exact other touched
  · obtain ⟨key, v, rfl, e, _, doc, _, _, inside⟩ := (iff r).mp later
    exact unowned (touched ▸ indexKeys_owned inside)

theorem created_entries (bare : ∀ key, Owns store (.index idx.name) key → db.engine.get? key = none) {key : Bytes}
    (owns : Owns store (.index idx.name) key) :
    (∀ v, (JsonDB.write db records).engine.get? key = some v → ScannedEntry S store docs idx key v) ∧
      ∀ v, ScannedEntry S store docs idx key v → ∃ v', (JsonDB.write db records).engine.get? key = some v' := by
  obtain ⟨text, entries, printed, rfl, iff⟩ := created_records creation
  have puts : ∀ r ∈ putRecord (schemaKey store) text :: entries, ∃ k v, r = putRecord k v := by
    intro r member
    rcases List.mem_cons.mp member with rfl | later
    · exact ⟨_, _, rfl⟩
    · obtain ⟨k, v, rfl, _⟩ := (iff r).mp later
      exact ⟨k, v, rfl⟩
  constructor
  · intro v there
    obtain put | before := writeInternal_get?_some puts db.engine there
    · rcases List.mem_cons.mp put with same | later
      · rw [(putRecord_inj same).1] at owns
        exact absurd (Option.some.inj (owns_head owns)) (by decide : schTag ≠ idxTag)
      · obtain ⟨k, v', same, entry⟩ := (iff _).mp later
        obtain ⟨rfl, rfl⟩ := putRecord_inj same
        exact entry
    · exact nomatch (bare key owns).symm.trans before
  · intro v entry
    exact writeInternal_get?_put puts db.engine (.inl ⟨v, List.mem_cons_of_mem _ ((iff _).mpr ⟨key, v, rfl, entry⟩)⟩)

variable (names : Names calls d₀) (consistent : Consistent S store calls d₀ σ db) (idle : σ k = .idle)
variable (creates : created (calls k) = some idx) (defined : db.schema.get? store = some d)
include names consistent idle creates defined

theorem creation_bare {key : Bytes} (owns : Owns store (.index idx.name) key) : db.engine.get? key = none := by
  obtain ⟨record, prepared, _⟩ := creation.written
  obtain ⟨accepted, new⟩ := prepareIndex_fresh prepared
  refine consistent.bare idx.name (validateName_nul_free _ accepted) (fresh_name names consistent creates defined new) ?_ key owns
  intro j own creates' same
  obtain rfl := names.distinct.once k j idx own creates creates' same.symm
  exact idle

/-- The write of `create_index` keeps the store consistent, its index not yet made. -/
theorem consistent_created [DecidableEq Id] :
    Consistent S store calls d₀ (Function.update σ k .pending) (JsonDB.write db records) := by
  obtain ⟨record, prepared, _⟩ := creation.written
  obtain ⟨accepted, new⟩ := prepareIndex_fresh prepared
  have fresh := fresh_name names consistent creates defined new
  refine consistent_pending names consistent idle (validateName_nul_free _ accepted) (created_untouched creation db.engine)
    (fun own made _ same => ?_) (.inr ⟨k, idx, creates, rfl, fun unmoved => ?_⟩) fun own creates' => ?_
  · obtain inside | ⟨j, creates', finished⟩ := made
    · exact fresh own inside same
    · obtain rfl := names.distinct.once k j idx own creates creates' same.symm
      exact nomatch idle.symm.trans finished
  · rw [Function.update_self] at unmoved
    cases unmoved
  · obtain rfl := Option.some.inj (creates.symm.trans creates')
    exact ⟨fresh, accepted⟩

end

/-- What a `delete_index` was told and what it writes. -/
structure Deletion (S : Serde) (store : String) (calls : Id → StoreCall) (d₀ : StoreDef) (σ : Id → Status) (name : String)
    (d d' : StoreDef) (records : List InternalRecord) : Prop where
  known : DefOk store calls d₀ σ d
  erased : ∃ pos, requireIndex d store name = .ok pos ∧ d' = { d with indexes := d.indexes.eraseIdx pos }
  written : ∃ record, schemaRecord S d' = .ok record ∧ records = [rangeRecord (idxPrefix store name), record]

section
variable {name : String} {d' : StoreDef} {records : List InternalRecord} (deletion : Deletion S store calls d₀ σ name d d' records)
include deletion

theorem deleted_found : ∃ idx ∈ d.indexes, idx.name = name := by
  obtain ⟨pos, required, _⟩ := deletion.erased
  exact requireIndex_ok required

theorem deleted_name : d'.name = store := by
  obtain ⟨pos, _, rfl⟩ := deletion.erased
  exact deletion.known.name

theorem deleted_untouched (engine : JsonDb.Engine) {key : Bytes} (unowned : ¬Owns store (.index name) key)
    (other : key ≠ schemaKey store) : (writeInternal engine records).get? key = engine.get? key := by
  obtain ⟨record, written, rfl⟩ := deletion.written
  obtain ⟨text, _, rfl⟩ := schemaRecord_printed written
  refine writeInternal_untouched _ fun r member touched => ?_
  rcases List.mem_cons.mp member with rfl | later
  · exact unowned ((between_increment (idxPrefix_tagged store name)).mp touched)
  · obtain rfl := List.mem_singleton.mp later
    exact other (deleted_name deletion ▸ touched)

theorem deleted_persisted : Persisted S store (JsonDB.write db records) d' := by
  obtain ⟨record, written, rfl⟩ := deletion.written
  obtain ⟨text, printed, rfl⟩ := schemaRecord_printed written
  rw [deleted_name deletion]
  exact ⟨text, printed, (get?_put (applyRecord db.engine (rangeRecord (idxPrefix store name))) _ text _).trans (if_pos rfl)⟩

variable [DecidableEq Id] (names : Names calls d₀) (consistent : Consistent S store calls d₀ σ db) (idle : σ k = .idle)
variable (deletes : calls k = .deleteIndex name)
include names consistent idle deletes

/-- The write of `delete_index` keeps the store consistent, the entries of its index cleared. -/
theorem consistent_deleted : Consistent S store calls d₀ (Function.update σ k .pending) (JsonDB.write db records) := by
  obtain ⟨gone, inside, rfl⟩ := deleted_found deletion
  have made := deletion.known.made gone inside
  refine consistent_pending names consistent idle (validateName_nul_free _ (made_accepted names consistent made))
    (deleted_untouched deletion db.engine) (fun own _ kept same => ?_) (made.imp (fun own => ⟨gone, own, rfl⟩) ?_)
    fun own creates => ?_
  · exact kept ⟨k, same ▸ deletes, Function.update_self ..⟩
  · rintro ⟨j, creates, finished⟩
    refine ⟨j, gone, creates, rfl, fun unmoved => ?_⟩
    exact nomatch ((pending_done idle j).mpr finished).symm.trans unmoved
  · rw [deletes] at creates
    cases creates

end

/-! ### Publishing a definition -/

section
variable [DecidableEq Id] (names : Names calls d₀) (consistent : Consistent S store calls d₀ σ db) (pending : σ k = .pending)
include consistent pending

/-- A definition that is published as persisted keeps the store consistent if it has the right
indexes, and the new ones among them have their entries. -/
theorem consistent_published {d' : StoreDef} (known : DefOk store calls d₀ (Function.update σ k .done) d')
    (accepted : ∀ idx ∈ d'.indexes, validateName idx.name = .ok ())
    (indexes : ∀ idx, idx ∈ d'.indexes ↔ Made calls d₀ (Function.update σ k .done) idx ∧
      ¬Deleted calls (Function.update σ k .done) idx.name)
    (filed : ∀ idx, Made calls d₀ (Function.update σ k .done) idx → ¬Deleted calls (Function.update σ k .done) idx.name →
      Filed S store db idx)
    (found : ∀ name, calls k = .deleteIndex name → ∃ idx, Made calls d₀ σ idx ∧ idx.name = name)
    (persisted : Persisted S store db d') :
    Consistent S store calls d₀ (Function.update σ k .done) { db with schema := db.schema.insert d'.name d' } := by
  have later : ∀ j, σ j = .done → Function.update σ k .done j = .done := done_later
  obtain ⟨d, defined, _⟩ := consistent.definition
  have published : (db.schema.insert d'.name d').get? store = some d' := by rw [get?_insert, if_pos known.name.symm]
  refine ⟨consistent.valid.insert rfl (known.name ▸ consistent.valid.store store d defined) accepted, consistent.decoded,
    consistent.keyed, ⟨d', published, known, indexes⟩, fun idx made live _ => filed idx made live,
    fun name free own unmade => ?_, fun j idx creates moved => ?_, fun j name deletes finished => ?_, fun _ now defined' => ?_⟩
  · refine consistent.bare name free own fun j idx creates same => ?_
    have unmoved := unmade j idx creates same
    by_cases here : j = k
    · rw [here, Function.update_self] at unmoved
      cases unmoved
    · rwa [Function.update_of_ne here] at unmoved
  · refine consistent.fresh j idx creates fun idle => moved ?_
    have apart : j ≠ k := fun same => by
      rw [same, pending] at idle
      cases idle
    rw [Function.update_of_ne apart, idle]
  · by_cases here : j = k
    · rw [here] at deletes
      obtain ⟨idx, made, named⟩ := found name deletes
      exact ⟨idx, made_later later made, named⟩
    · rw [Function.update_of_ne here] at finished
      obtain ⟨idx, made, named⟩ := consistent.deleted j name deletes finished
      exact ⟨idx, made_later later made, named⟩
  · obtain rfl := Option.some.inj (published.symm.trans defined')
    exact persisted

include names

/-- A created index is published when the documents have the index keys that were scanned. -/
theorem consistent_indexed {idx : IndexDef} (creates : created (calls k) = some idx)
    {docs : List (Bytes × Bytes)} (defined : db.schema.get? store = some d)
    (persisted : Persisted S store db (StoreDef.withIndex d idx)) (alone : ∀ j, σ j = .pending → j = k)
    (entries : ∀ key, Owns store (.index idx.name) key →
      (∀ v, db.engine.get? key = some v → ScannedEntry S store docs idx key v) ∧
        ∀ v, ScannedEntry S store docs idx key v → ∃ v', db.engine.get? key = some v')
    (unmoved : Unmoved S store db idx docs) :
    Consistent S store calls d₀ (Function.update σ k .done)
      { db with schema := db.schema.insert (StoreDef.withIndex d idx).name (StoreDef.withIndex d idx) } := by
  obtain ⟨now, defined', known, indexes⟩ := consistent.definition
  obtain rfl := Option.some.inj (defined.symm.trans defined')
  obtain ⟨fresh, accepted⟩ := consistent.fresh k idx creates fun idle => nomatch pending.symm.trans idle
  have other : ∀ own, Made calls d₀ σ own → own.name ≠ idx.name := by
    rintro own (inside | ⟨j, creates', finished⟩) same
    · exact fresh own inside same
    · obtain rfl := names.distinct.once k j idx own creates creates' same.symm
      exact nomatch pending.symm.trans finished
  have made : ∀ own, Made calls d₀ (Function.update σ k .done) own ↔ Made calls d₀ σ own ∨ own = idx := by
    intro own
    constructor
    · rintro (inside | ⟨j, creates', finished⟩)
      · exact .inl (.inl inside)
      · by_cases here : j = k
        · subst here
          exact .inr (Option.some.inj (creates'.symm.trans creates))
        · exact .inl (.inr ⟨j, creates', Function.update_of_ne here Status.done σ ▸ finished⟩)
    · rintro (before | rfl)
      · exact made_later (done_later) before
      · exact .inr ⟨k, creates, Function.update_self ..⟩
  have notDelete : ∀ j name, calls j = .deleteIndex name → j ≠ k := fun j name deletes same => by
    rw [← same, deletes] at creates
    cases creates
  have same : Deleted calls (Function.update σ k .done) = Deleted calls σ :=
    deleted_congr fun j name deletes => by rw [Function.update_of_ne (notDelete j name deletes)]
  have uncleared : ∀ name, ¬Cleared calls σ name := fun name ⟨j, deletes, unpublished⟩ =>
    notDelete j name deletes (alone j unpublished)
  -- A deletion that has ended found an index of its name, and none of this name was made before.
  have live : ¬Deleted calls σ idx.name := by
    rintro ⟨j, deletes, finished⟩
    obtain ⟨own, made, named⟩ := consistent.deleted j idx.name deletes finished
    exact other own made named
  have member : ∀ own, own ∈ (StoreDef.withIndex d idx).indexes ↔ own ∈ d.indexes ∨ own = idx := fun own => by
    simp [StoreDef.withIndex]
  refine consistent_published consistent pending ⟨known.name, known.keyPath, fun own inside => ?_, ?_⟩ (fun own inside => ?_)
    (fun own => ?_) (fun own made' live' key v owns => ?_) (fun name deletes => absurd rfl (notDelete k name deletes)) persisted
  · rw [made]
    exact ((member own).mp inside).imp_left (known.made own)
  · change ((d.indexes ++ [idx]).map IndexDef.name).Nodup
    rw [List.map_append]
    refine List.nodup_append.mpr ⟨known.distinct, List.nodup_singleton _, fun name inside name' inside' same => ?_⟩
    obtain ⟨own, there, rfl⟩ := List.mem_map.mp inside
    exact other own (known.made own there) (same.trans (List.mem_singleton.mp inside'))
  · obtain before | rfl := (member own).mp inside
    · exact made_accepted names consistent (known.made own before)
    · exact accepted
  · rw [member, indexes, made, same]
    constructor
    · rintro (⟨before, live'⟩ | rfl)
      · exact ⟨.inl before, live'⟩
      · exact ⟨.inr rfl, live⟩
    · rintro ⟨before | rfl, live'⟩
      · exact .inl ⟨before, live'⟩
      · exact .inr rfl
  · rw [same] at live'
    obtain before | rfl := (made own).mp made'
    · exact consistent.filed own before live' (uncleared _) key v owns
    · obtain ⟨scannedOf, present⟩ := entries key owns
      -- What was scanned is what is stored; of two documents with one key neither is the new index's.
      constructor
      · exact fun there => (unmoved.1 key v).mp (scannedOf v there)
      · intro entry
        obtain ⟨v', there⟩ := present v ((unmoved.1 key v).mpr entry)
        obtain ⟨doc, stored, inside⟩ := entry
        obtain ⟨doc', stored', inside'⟩ := (unmoved.1 key v').mp (scannedOf v' there)
        by_cases here : v' = v
        · exact here ▸ there
        · exact absurd inside (unmoved.2 v' doc' stored' v doc stored (Ne.symm here) key · inside')

/-- A definition without the deleted index is published. -/
theorem consistent_dropped {name : String} (deletes : calls k = .deleteIndex name) {d' : StoreDef}
    {records : List InternalRecord} (deletion : Deletion S store calls d₀ σ name d d' records)
    (defined : db.schema.get? store = some d) (persisted : Persisted S store db d') (alone : ∀ j, σ j = .pending → j = k) :
    Consistent S store calls d₀ (Function.update σ k .done) { db with schema := db.schema.insert d'.name d' } := by
  obtain ⟨now, defined', known, indexes⟩ := consistent.definition
  obtain rfl := Option.some.inj (defined.symm.trans defined')
  obtain ⟨gone, inside, named⟩ := deleted_found deletion
  have dropped_name := deleted_name deletion
  obtain ⟨pos, required, rfl⟩ := deletion.erased
  have member : ∀ own, own ∈ d.indexes.eraseIdx pos ↔ own ∈ d.indexes ∧ own.name ≠ name := fun own => by
    rw [erased_eq known.distinct required, List.mem_filter, bne_iff_ne]
  have notCreate : ∀ j idx, created (calls j) = some idx → j ≠ k := fun j idx creates same => by
    rw [same, deletes] at creates
    cases creates
  have same : Made calls d₀ (Function.update σ k .done) = Made calls d₀ σ :=
    made_congr fun j idx creates => by rw [Function.update_of_ne (notCreate j idx creates)]
  have deleted : ∀ other, Deleted calls (Function.update σ k .done) other ↔ Deleted calls σ other ∨ other = name := by
    intro other
    constructor
    · rintro ⟨j, deletes', finished⟩
      by_cases here : j = k
      · rw [here, deletes] at deletes'
        exact .inr (StoreCall.deleteIndex.inj deletes').symm
      · exact .inl ⟨j, deletes', Function.update_of_ne here Status.done σ ▸ finished⟩
    · rintro (⟨j, deletes', finished⟩ | rfl)
      · exact ⟨j, deletes', done_later j finished⟩
      · exact ⟨k, deletes, Function.update_self ..⟩
  refine consistent_published consistent pending ⟨dropped_name, known.keyPath, fun own there => ?_, ?_⟩ (fun own there => ?_)
    (fun own => ?_) (fun own made live => ?_) (fun other deletes' => ?_) persisted
  · rw [same]
    exact known.made own ((member own).mp there).1
  · exact known.distinct.sublist ((List.eraseIdx_sublist _ _).map _)
  · exact made_accepted names consistent (known.made own ((member own).mp there).1)
  · rw [member, indexes, same, deleted, not_or, and_assoc]
  · rw [same] at made
    rw [deleted, not_or] at live
    refine consistent.filed own made live.1 fun ⟨j, deletes', unpublished⟩ => live.2 ?_
    obtain rfl := alone j unpublished
    exact StoreCall.deleteIndex.inj (deletes'.symm.trans deletes)
  · obtain rfl := StoreCall.deleteIndex.inj (deletes'.symm.trans deletes)
    exact ⟨gone, known.made gone inside, named⟩

end

end

end FlowDb.SchemaChangeRuns
