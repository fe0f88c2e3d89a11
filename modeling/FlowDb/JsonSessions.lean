import FlowDb.JsonIndexes

/-! Sequential runs of a JSON database. Every call keeps the mirror and the
uniqueness of unique indexes, so both hold in every session a run reaches. -/
namespace FlowDb.JsonSessions
open ByteString OrderedMap Records JsonValue JsonEncoding JsonDb JsonTransaction JsonIndexes

section
variable (S : Serde)

/-- No two documents of a store agree on a value of a unique index. -/
def UniqueKept (db : JsonDB) : Prop :=
  ∀ store d, db.schema.get? store = some d → ∀ idx ∈ d.indexes, idx.unique = true →
    ∀ key₁ key₂ doc₁ doc₂, storedDoc S db store key₁ = some doc₁ →
      storedDoc S db store key₂ = some doc₂ →
      ∀ vals₁ ∈ extractIndexValues doc₁ idx, ∀ vals₂ ∈ extractIndexValues doc₂ idx,
        encodeCompositeValue S vals₁ = encodeCompositeValue S vals₂ → key₁ = key₂

variable {S}

theorem mem_prefixScan (engine : Engine) (pfx : Bytes) (e : Bytes × Bytes) :
    e ∈ scan engine (prefixRange pfx) ↔ engine.get? e.1 = some e.2 ∧ pfx <+: e.1 := by
  simp [scan, prefixRange_params, KeyFilter.matchesKey, get?_eq_some_iff]

-- The scan sees the entry of any other document holding the value.
theorem checkEngine_ok {db : JsonDB} {store : String} {d : StoreDef} {idx : IndexDef}
    {key key' : Bytes} {doc : Value} {vals vals' : List Value} (mirrored : Mirrored S db)
    (defined : db.schema.get? store = some d) (member : idx ∈ d.indexes)
    (passed : checkEngine S db store idx key vals = .ok ())
    (stored : storedDoc S db store key' = some doc) (holds : vals' ∈ extractIndexValues doc idx)
    (same : encodeCompositeValue S vals' = encodeCompositeValue S vals) : key' = key := by
  have entry : idxKey store idx.name (encodeCompositeValue S vals') key' ∈
      entryKeys S d store key' (storedDoc S db store key') :=
    (mem_entryKeys S d store key' _ _).mpr ⟨doc, stored, idx, member, vals', holds, rfl⟩
  have present := ((mirrored.entries _ key').mpr ⟨store, d, defined, entry⟩).1
  unfold checkEngine at passed
  dsimp only at passed
  split_ifs at passed with taken
  have scanned := (mem_prefixScan db.engine
    (idxValuePrefix store idx.name (encodeCompositeValue S vals)) (_, key')).mpr
    ⟨present, same ▸ idxValuePrefix_isPrefix_idxKey store idx.name _ key'⟩
  by_contra other
  exact taken (List.any_eq_true.mpr ⟨_, scanned, bne_iff_ne.mpr other⟩)

theorem checkBuffered_ok {ws : List Write} {store : String} {idx : IndexDef} {key : Bytes}
    {vals vals' : List Value} {w : Write} {p : Bytes × Value}
    (passed : checkBuffered S ws store idx key vals = .ok ()) (member : w ∈ ws)
    (sameStore : (ofLex w.1).1 = store) (put : newDoc S w = some p)
    (holds : vals' ∈ extractIndexValues p.2 idx)
    (same : encodeCompositeValue S vals' = encodeCompositeValue S vals) :
    (ofLex w.1).2 = key := by
  have here := forM_ok passed w member
  obtain ⟨slot, content⟩ := w
  cases content with
  | none => cases put
  | some bytes =>
    by_contra other
    have differs : ¬((ofLex slot).1 ≠ store ∨ (ofLex slot).2 = key) := by
      rintro (h | h)
      · exact h sameStore
      · exact other h
    simp only [if_neg differs] at here
    obtain ⟨doc, decoded, here⟩ := bind_ok here
    have read := newDoc_some (S := S) (w := (slot, some bytes)) rfl decoded
    obtain rfl := Option.some.inj (read.symm.trans put)
    split_ifs at here with clash
    exact clash (List.any_eq_true.mpr ⟨vals', holds, beq_iff_eq.mpr same⟩)

/-- A checked batch keeps unique indexes unique: an unchanged document is seen by
the scan, a changed one by the check against the buffer. -/
theorem applied_unique {db after : JsonDB} {ws : List Write} (mirrored : Mirrored S db)
    (unique : UniqueKept S db) (applied : Applied S db after ws) : UniqueKept S after := by
  have changed := (applied_mirrored mirrored applied).2
  have schema : after.schema = db.schema := by
    obtain ⟨_, _, _, rfl⟩ := applied.written
    rfl
  intro store d defined idx member isUnique key₁ key₂ doc₁ doc₂ stored₁ stored₂ vals₁ holds₁
    vals₂ holds₂ same
  rw [schema] at defined
  have name := (mirrored.named _ _ defined).2
  have check : ∀ w ∈ ws, ∀ key doc, w.1 = toLex (store, key) →
      (newDoc S w).map Prod.snd = some doc → ∀ vals ∈ extractIndexValues doc idx,
      checkEngine S db store idx key vals = .ok () ∧
        checkBuffered S ws store idx key vals = .ok () := by
    rintro ⟨slot, content⟩ inBatch key doc rfl put vals holds
    obtain ⟨p, read, rfl⟩ := Option.map_eq_some_iff.mp put
    exact applied.checked _ inBatch d defined p read idx member isUnique vals holds
  rcases changed store key₁ name with ⟨w₁, in₁, slot₁, value₁⟩ | ⟨_, value₁⟩ <;>
    rcases changed store key₂ name with ⟨w₂, in₂, slot₂, value₂⟩ | ⟨_, value₂⟩ <;>
    rw [stored₁] at value₁ <;> rw [stored₂] at value₂
  · obtain ⟨p, read, put⟩ := Option.map_eq_some_iff.mp value₂.symm
    have passed := (check w₁ in₁ key₁ doc₁ slot₁ value₁.symm vals₁ holds₁).2
    have sameKey := checkBuffered_ok passed in₂ (by rw [slot₂]; rfl) read (put ▸ holds₂) same.symm
    rw [slot₂] at sameKey
    exact sameKey.symm
  · have passed := (check w₁ in₁ key₁ doc₁ slot₁ value₁.symm vals₁ holds₁).1
    exact (checkEngine_ok mirrored defined member passed value₂.symm holds₂ same.symm).symm
  · have passed := (check w₂ in₂ key₂ doc₂ slot₂ value₂.symm vals₂ holds₂).1
    exact checkEngine_ok mirrored defined member passed value₁.symm holds₁ same
  · exact unique store d defined idx member isUnique key₁ key₂ doc₁ doc₂ value₁.symm value₂.symm
      vals₁ holds₁ vals₂ holds₂ same

/-- Defining a store without documents, or giving it an index, moves no entry. -/
theorem schema_inserted {db after : JsonDB} {store : String} {d : StoreDef}
    (mirrored : Mirrored S db) (unique : UniqueKept S db)
    (noDocs : ∀ key, db.engine.get? (docKey store key) = none)
    (schema : after.schema = db.schema.insert store d)
    (named : d.name = store ∧ sep ∉ utf8 store)
    (indexNamed : ∀ idx ∈ d.indexes, sep ∉ utf8 idx.name)
    (distinct : (d.indexes.map IndexDef.name).Nodup)
    (same : ∀ k, k.head? = some docTag ∨ k.head? = some idxTag →
      after.engine.get? k = db.engine.get? k) : Mirrored S after ∧ UniqueKept S after := by
  have stored : ∀ store' key, storedDoc S after store' key = storedDoc S db store' key := by
    intro store' key
    rw [storedDoc, getBytes, same _ (Or.inl rfl)]
    rfl
  have empty : ∀ key, storedDoc S db store key = none := fun key => by
    rw [storedDoc, getBytes, noDocs]
    rfl
  have lookup : ∀ store', after.schema.get? store' =
      if store' = store then some d else db.schema.get? store' := fun store' => by
    rw [schema, get?_insert]
  have defined_cases : ∀ {store' d'}, after.schema.get? store' = some d' →
      (store' = store ∧ d' = d) ∨ (store' ≠ store ∧ db.schema.get? store' = some d') := by
    intro store' d' defined
    rw [lookup] at defined
    split_ifs at defined with here
    · exact Or.inl ⟨here, (Option.some.inj defined).symm⟩
    · exact Or.inr ⟨here, defined⟩
  refine ⟨⟨⟨?_, ?_, ?_⟩, ?_, ?_⟩, ?_⟩
  · intro store' d' defined
    rcases defined_cases defined with ⟨rfl, rfl⟩ | ⟨_, old⟩
    · exact named
    · exact mirrored.named store' d' old
  · intro store' d' defined
    rcases defined_cases defined with ⟨rfl, rfl⟩ | ⟨_, old⟩
    · exact indexNamed
    · exact mirrored.indexNamed store' d' old
  · intro store' d' defined
    rcases defined_cases defined with ⟨rfl, rfl⟩ | ⟨_, old⟩
    · exact distinct
    · exact mirrored.distinct store' d' old
  · intro k v present tagged
    rw [same k (Or.inl tagged)] at present
    obtain ⟨store', d', key, doc, defined, free, rfl, decoded⟩ := mirrored.docs k v present tagged
    refine ⟨store', d', key, doc, ?_, free, rfl, decoded⟩
    rw [lookup, if_neg]
    · exact defined
    · rintro rfl
      exact absurd present (by simp [noDocs])
  · intro k v
    constructor
    · rintro ⟨present, tagged⟩
      rw [same k (Or.inr tagged)] at present
      obtain ⟨store', d', defined, member⟩ := (mirrored.entries k v).mp ⟨present, tagged⟩
      refine ⟨store', d', ?_, by rwa [stored]⟩
      rw [lookup, if_neg]
      · exact defined
      · rintro rfl
        simp [empty, entryKeys] at member
    · rintro ⟨store', d', defined, member⟩
      rw [stored] at member
      refine ⟨?_, entryKeys_head member⟩
      rw [same k (Or.inr (entryKeys_head member))]
      rcases defined_cases defined with ⟨rfl, rfl⟩ | ⟨_, old⟩
      · simp [empty, entryKeys] at member
      · exact ((mirrored.entries k v).mpr ⟨store', d', old, member⟩).1
  · intro store' d' defined idx member isUnique key₁ key₂ doc₁ doc₂ stored₁ stored₂
    rw [stored] at stored₁ stored₂
    rcases defined_cases defined with ⟨rfl, rfl⟩ | ⟨_, old⟩
    · simp [empty] at stored₁
    · exact unique store' d' old idx member isUnique key₁ key₂ doc₁ doc₂ stored₁ stored₂

theorem schemaRecord_aside {d : StoreDef} {r : InternalRecord} (done : schemaRecord S d = .ok r) :
    Aside r := by
  obtain ⟨text, _, rfl⟩ := schemaRecord_printed done
  exact ⟨rfl, (by decide : some schTag ≠ some docTag), (by decide : some schTag ≠ some idxTag)⟩

theorem docPrefix_isPrefix (store : String) (key : Bytes) :
    docPrefix store <+: docKey store key := ⟨key, by simp [docPrefix, docKey]⟩

theorem createObjectStore_keeps (db : JsonDB) (name keyPath : String)
    (mirrored : Mirrored S db) (unique : UniqueKept S db) :
    Mirrored S (createObjectStore S db name keyPath).2 ∧
      UniqueKept S (createObjectStore S db name keyPath).2 := by
  unfold createObjectStore
  dsimp only
  split
  · next after done =>
    obtain ⟨_, valid, done⟩ := bind_ok done
    obtain ⟨_, named, _⟩ := bind_ok valid
    split at done
    · next d _ =>
      split_ifs at done
      obtain rfl := Except.ok.inj done
      exact ⟨mirrored, unique⟩
    · next absent =>
      obtain ⟨record, written, done⟩ := bind_ok done
      obtain rfl := Except.ok.inj done
      have free := validateName_nul_free name named
      refine schema_inserted mirrored unique (fun key => ?_) rfl ⟨rfl, free⟩ (by simp) (by simp)
        (get?_aside db.engine [record] (by simpa using schemaRecord_aside written))
      by_contra present
      obtain ⟨v, present⟩ := Option.ne_none_iff_exists'.mp present
      obtain ⟨store', d, _, _, defined, _, same, _⟩ := mirrored.docs _ v present rfl
      obtain ⟨rfl, _⟩ := docKey_inj free (mirrored.named _ _ defined).2 same
      exact absurd (absent.symm.trans defined) (by simp)
  · exact ⟨mirrored, unique⟩

theorem createIndex_keeps (db : JsonDB) (store name : String) (keyPaths : List String)
    (isUnique : Bool) (mirrored : Mirrored S db) (unique : UniqueKept S db)
    (empty : StoreEmpty db store) :
    Mirrored S (createIndex S db store name keyPaths isUnique).2 ∧
      UniqueKept S (createIndex S db store name keyPaths isUnique).2 := by
  unfold createIndex
  dsimp only
  split
  · next after done =>
    obtain ⟨d, found, done⟩ := bind_ok done
    obtain ⟨_, valid, done⟩ := bind_ok done
    obtain ⟨record, written, done⟩ := bind_ok done
    have noDocs : scan db.engine (prefixRange (docPrefix store)) = [] := by
      refine List.eq_nil_iff_forall_not_mem.mpr fun e member => ?_
      obtain ⟨present, starts⟩ := (mem_prefixScan _ _ e).mp member
      exact empty _ _ present starts
    rw [noDocs] at done
    obtain ⟨records, filled, done⟩ := bind_ok done
    obtain rfl := Except.ok.inj filled
    obtain rfl := Except.ok.inj done
    have defined := getStore_ok found
    obtain ⟨_, named, valid⟩ := bind_ok valid
    split_ifs at valid with paths clash
    obtain ⟨rfl, free⟩ := mirrored.named _ _ defined
    have fresh : name ∉ d.indexes.map IndexDef.name := fun member => by
      obtain ⟨idx, there, same⟩ := List.mem_map.mp member
      exact clash (List.any_eq_true.mpr ⟨idx, there, beq_iff_eq.mpr same⟩)
    refine schema_inserted mirrored unique (fun key => ?_) rfl ⟨rfl, free⟩ ?_ ?_
      (get?_aside db.engine [record] (by simpa using schemaRecord_aside written))
    · by_contra present
      obtain ⟨v, present⟩ := Option.ne_none_iff_exists'.mp present
      exact empty _ v present (docPrefix_isPrefix d.name key)
    · intro idx member
      rcases List.mem_append.mp member with old | new
      · exact mirrored.indexNamed _ _ defined idx old
      · obtain rfl := List.mem_singleton.mp new
        exact validateName_nul_free name named
    · have split := mirrored.distinct _ _ defined
      rw [List.map_append, List.map_singleton]
      exact List.nodup_append.mpr ⟨split, by simp, by
        intro a old b new
        obtain rfl := List.mem_singleton.mp new
        rintro rfl
        exact fresh old⟩
  · exact ⟨mirrored, unique⟩

theorem fresh_keeps {db : JsonDB} (fresh : Fresh db) : Mirrored S db ∧ UniqueKept S db := by
  have noDoc : ∀ store key, storedDoc S db store key = none := by
    intro store key
    rw [storedDoc, getBytes]
    cases present : db.engine.get? (docKey store key) with
    | none => rfl
    | some v => exact absurd rfl (fresh.noEntry _ v present).1
  refine ⟨⟨⟨fresh.named, fresh.indexNamed, fresh.distinct⟩, ?_, ?_⟩, ?_⟩
  · intro k v present tagged
    exact absurd tagged (fresh.noEntry k v present).1
  · intro k v
    constructor
    · rintro ⟨present, tagged⟩
      exact absurd tagged (fresh.noEntry k v present).2
    · rintro ⟨store, d, _, member⟩
      simp [noDoc, entryKeys] at member
  · intro store d _ idx _ _ key₁ key₂ doc₁ doc₂ stored
    simp [noDoc] at stored

theorem outcome_keeps {db after : JsonDB} (mirrored : Mirrored S db) (unique : UniqueKept S db)
    (outcome : Outcome S db after) : Mirrored S after ∧ UniqueKept S after := by
  rcases outcome with rfl | ⟨ws, applied⟩
  · exact ⟨mirrored, unique⟩
  · exact ⟨(applied_mirrored mirrored applied).1, applied_unique mirrored unique applied⟩

/-! The buffers of open transactions. -/

theorem buffer_buffered {tx : Transaction} (buffered : Buffered S tx) (store : String)
    (key : Bytes) (doc : Option Bytes)
    (ok : NewDocOk S key (newDoc S (toLex (store, key), doc))) :
    Buffered S (tx.buffer store key doc) := by
  refine ⟨buffered.counters, fun w member => ?_⟩
  rcases (mem_insert_iff tx.writes _ _ w).mp member with rfl | ⟨old, _⟩
  · exact ok
  · exact buffered.docs w old

theorem txPut_buffered {db : JsonDB} {tx after : Transaction} {store : String} {doc : Value}
    (buffered : Buffered S tx) (whole : doc.wellFormed = true) (notNull : KeyNotNull db store doc)
    (done : tx.put S db store doc = .ok after) : Buffered S after := by
  obtain ⟨_, _, done⟩ := bind_ok done
  obtain ⟨d, found, done⟩ := bind_ok done
  obtain ⟨keyVal, keyed, done⟩ := bind_ok done
  obtain ⟨key, encodedKey, done⟩ := bind_ok done
  obtain ⟨docBytes, encoded, done⟩ := bind_ok done
  obtain rfl := Except.ok.inj done
  have decoded := decode_encode_doc S doc docBytes whole encoded
  refine buffer_buffered buffered store key _ ?_
  rw [newDoc_some rfl decoded]
  exact ⟨encodePrimaryKey_nul_free S keyVal key
    (fun h => notNull d (getStore_ok found) (h ▸ keyOf_ok keyed)) encodedKey, decoded⟩

theorem txDelete_buffered {db : JsonDB} {tx after : Transaction} {store : String}
    {keyVal : Value} (buffered : Buffered S tx)
    (done : tx.delete S db store keyVal = .ok after) : Buffered S after := by
  obtain ⟨_, _, done⟩ := bind_ok done
  obtain ⟨_, _, done⟩ := bind_ok done
  obtain ⟨key, _, done⟩ := bind_ok done
  obtain rfl := Except.ok.inj done
  exact buffer_buffered buffered store key none trivial

theorem nextId_buffered {db : JsonDB} {tx after : Transaction} {store : String} {id : UInt64}
    (buffered : Buffered S tx) (done : nextId db tx store = .ok (id, after)) :
    Buffered S after := by
  unfold nextId at done
  split at done
  · obtain ⟨-, rfl⟩ := Prod.mk.inj (Except.ok.inj done)
    exact ⟨buffered.counters, buffered.docs⟩
  · obtain ⟨⟨id', counterRec⟩, prepared, done⟩ := bind_ok done
    obtain ⟨-, rfl⟩ := Prod.mk.inj (Except.ok.inj done)
    refine ⟨fun r member => ?_, buffered.docs⟩
    rcases List.mem_append.mp member with old | new
    · exact buffered.counters r old
    · obtain rfl := List.mem_singleton.mp new
      exact prepareCounter_aside prepared

theorem txPutAuto_buffered (db : JsonDB) (tx : Transaction) (store : String) (doc : Value)
    (buffered : Buffered S tx) (whole : doc.wellFormed = true) :
    Buffered S (tx.putAuto S db store doc).2 := by
  unfold Transaction.putAuto
  dsimp only
  split
  · exact buffered
  · next d id tx' started =>
    obtain ⟨_, _, started⟩ := bind_ok started
    obtain ⟨d', _, started⟩ := bind_ok started
    obtain ⟨_, _, started⟩ := bind_ok started
    obtain ⟨⟨id', tx''⟩, counted, started⟩ := bind_ok started
    obtain ⟨rfl, rfl, rfl⟩ : d' = d ∧ id' = id ∧ tx'' = tx' := by
      simpa using Except.ok.inj started
    have counted := nextId_buffered buffered counted
    split
    · next docBytes encoded =>
      have decoded := decode_encode_doc S _ docBytes
        (insertMember_wellFormed doc _ d'.keyPath whole rfl) encoded
      refine buffer_buffered counted store _ _ ?_
      rw [newDoc_some rfl decoded]
      exact ⟨zero_notMem_decimal _, decoded⟩
    · exact counted

variable (S)

/-- What every reached session satisfies. -/
structure Sound (s : Session) : Prop where
  mirrored : Mirrored S s.db
  unique : UniqueKept S s.db
  buffered : ∀ tx ∈ s.txs, Buffered S tx

variable {S}

theorem onTx_sound {s : Session} (sound : Sound S s) (i : Nat)
    (run : Transaction → Except FlowError Unit × Transaction)
    (keeps : ∀ tx, Buffered S tx → Buffered S (run tx).2) : Sound S (onTx s i run).2 := by
  unfold onTx
  split
  · next tx present =>
    refine ⟨sound.mirrored, sound.unique, fun other member => ?_⟩
    rcases List.mem_or_eq_of_mem_set member with old | rfl
    · exact sound.buffered other old
    · exact keeps tx (sound.buffered tx (List.mem_of_getElem? present))
  · exact sound

theorem keepOnError_buffered {tx : Transaction} {r : Except FlowError Transaction}
    (buffered : Buffered S tx) (keeps : ∀ after, r = .ok after → Buffered S after) :
    Buffered S (keepOnError tx r).2 := by
  cases r with
  | ok after => exact keeps after rfl
  | error e => exact buffered

theorem onDb_sound {α : Type} {s : Session} (sound : Sound S s) (r : Except FlowError α × JsonDB)
    (keeps : Mirrored S r.2 ∧ UniqueKept S r.2) : Sound S (onDb s r).2 :=
  ⟨keeps.1, keeps.2, sound.buffered⟩

theorem perform_sound {s : Session} (c : Call) (sound : Sound S s) (allowed : Admissible s c) :
    Sound S (perform S s c).2 := by
  have outcome {after : JsonDB} : Outcome S s.db after → Mirrored S after ∧ UniqueKept S after :=
    outcome_keeps sound.mirrored sound.unique
  cases c with
  | createObjectStore name keyPath =>
    exact onDb_sound sound _ (createObjectStore_keeps s.db name keyPath sound.mirrored sound.unique)
  | createIndex store name keyPaths isUnique =>
    exact onDb_sound sound _ (createIndex_keeps s.db store name keyPaths isUnique
      sound.mirrored sound.unique allowed)
  | put store doc =>
    exact onDb_sound sound _ (outcome (put_outcome s.db store doc allowed.1 allowed.2))
  | delete store key => exact onDb_sound sound _ (outcome (delete_outcome s.db store key))
  | putAuto store doc =>
    exact onDb_sound sound _ (outcome (putAuto_outcome s.db store doc allowed))
  | openTx stores mode =>
    simp only [perform]
    split
    · next tx begun =>
      obtain ⟨_, _, begun⟩ := bind_ok begun
      obtain rfl := Except.ok.inj begun
      refine ⟨sound.mirrored, sound.unique, fun other member => ?_⟩
      rcases List.mem_append.mp member with old | new
      · exact sound.buffered other old
      · obtain rfl := List.mem_singleton.mp new
        exact ⟨by simp, by simp⟩
    · exact sound
  | txPut i store doc =>
    exact onTx_sound sound i _ fun tx buffered => keepOnError_buffered buffered
      fun after done => txPut_buffered buffered allowed.1 allowed.2 done
  | txDelete i store key =>
    exact onTx_sound sound i _ fun tx buffered => keepOnError_buffered buffered
      fun after done => txDelete_buffered buffered done
  | txPutAuto i store doc =>
    exact onTx_sound sound i _ fun tx buffered =>
      txPutAuto_buffered s.db tx store doc buffered allowed
  | commit i order =>
    simp only [perform]
    split
    · next tx present =>
      have kept := outcome (commit_outcome s.db tx order (allowed tx present)
        (sound.buffered tx (List.mem_of_getElem? present)))
      exact ⟨kept.1, kept.2, fun other member => sound.buffered other (List.mem_of_mem_eraseIdx member)⟩
    · exact sound
  | abort i =>
    exact ⟨sound.mirrored, sound.unique,
      fun other member => sound.buffered other (List.mem_of_mem_eraseIdx member)⟩

theorem reachable_sound {s : Session} (run : Reachable S s) : Sound S s := by
  induction run with
  | start db fresh => exact ⟨(fresh_keeps fresh).1, (fresh_keeps fresh).2, by simp⟩
  | call s c _ allowed ih => exact perform_sound c ih allowed

theorem commitBatch_error {α : Type} {db : JsonDB}
    {attempt : Except FlowError (α × List InternalRecord)} {e : FlowError}
    (failed : (commitBatch db attempt).1 = .error e) : (commitBatch db attempt).2 = db := by
  cases attempt with
  | error e' => rfl
  | ok p => cases failed

theorem onDb_error {α : Type} {s : Session} {r : Except FlowError α × JsonDB} {e : FlowError}
    (failed : (onDb s r).1 = .error e) (keeps : ∀ e', r.1 = .error e' → r.2 = s.db) :
    (onDb s r).2.db = s.db := by
  obtain ⟨result, after⟩ := r
  cases result with
  | error e' => exact keeps e' rfl
  | ok a => cases failed

theorem onTx_db (s : Session) (i : Nat)
    (run : Transaction → Except FlowError Unit × Transaction) : (onTx s i run).2.db = s.db := by
  unfold onTx
  split <;> rfl

/-- A call that returns an error leaves documents, entries, counters and schemas
as they were. -/
theorem perform_error_unchanged (s : Session) (c : Call) (e : FlowError)
    (failed : (perform S s c).1 = .error e) : (perform S s c).2.db = s.db := by
  cases c with
  | createObjectStore name keyPath =>
    refine onDb_error failed fun e' failed => ?_
    unfold createObjectStore at failed ⊢
    dsimp only at failed ⊢
    split at failed <;> simp_all
  | createIndex store name keyPaths isUnique =>
    refine onDb_error failed fun e' failed => ?_
    unfold createIndex at failed ⊢
    dsimp only at failed ⊢
    split at failed <;> simp_all
  | put store doc => exact onDb_error failed fun _ failed => commitBatch_error failed
  | delete store key => exact onDb_error failed fun _ failed => commitBatch_error failed
  | putAuto store doc => exact onDb_error failed fun _ failed => commitBatch_error failed
  | openTx stores mode =>
    simp only [perform]
    split <;> rfl
  | txPut i store doc => exact onTx_db s i _
  | txDelete i store key => exact onTx_db s i _
  | txPutAuto i store doc => exact onTx_db s i _
  | commit i order =>
    simp only [perform] at failed ⊢
    split
    · next tx present =>
      simp only [present] at failed
      unfold Transaction.commit at failed ⊢
      split_ifs with done
      · rfl
      · rw [if_neg done] at failed
        exact commitBatch_error failed
    · rfl
  | abort i => rfl

end

/-- In every session a run reaches, the keys under an index's prefix are those of
the stored documents' values, each holding its document's key, and a call that
fails changes nothing. -/
theorem indexes_mirror_documents (S : Serde) (s : Session) (run : Reachable S s) :
    (∀ store d idx, s.db.schema.get? store = some d → idx ∈ d.indexes → ∀ k v,
      (s.db.engine.get? k = some v ∧ idxPrefix store idx.name <+: k) ↔
        ∃ key doc vals, storedDoc S s.db store key = some doc ∧
          vals ∈ extractIndexValues doc idx ∧
          k = idxKey store idx.name (encodeCompositeValue S vals) key ∧ v = key) ∧
    ∀ c e, (perform S s c).1 = .error e → (perform S s c).2.db = s.db := by
  refine ⟨fun store d idx defined member k v => ?_, perform_error_unchanged s⟩
  have mirrored := (reachable_sound run).mirrored
  constructor
  · rintro ⟨present, starts⟩
    have tagged : k.head? = some idxTag := by
      obtain ⟨tail, rfl⟩ := starts
      rfl
    obtain ⟨store', d', defined', entry⟩ := (mirrored.entries k v).mp ⟨present, tagged⟩
    obtain ⟨doc, stored, idx', member', vals, holds, rfl⟩ := (mem_entryKeys S d' store' v _ k).mp entry
    obtain ⟨rfl, sameName⟩ := idxPrefix_of_idxKey (mirrored.named _ _ defined).2
      (mirrored.named _ _ defined').2 (mirrored.indexNamed _ _ defined idx member)
      (mirrored.indexNamed _ _ defined' idx' member') starts
    obtain rfl := Option.some.inj (defined.symm.trans defined')
    -- Index names are distinct, so the name decides the index.
    obtain rfl := List.inj_on_of_nodup_map (mirrored.distinct _ _ defined) member member' sameName
    exact ⟨v, doc, vals, stored, holds, rfl, rfl⟩
  · rintro ⟨key, doc, vals, stored, holds, rfl, rfl⟩
    have entry := (mem_entryKeys S d store v (storedDoc S s.db store v) _).mpr
      ⟨doc, stored, idx, member, vals, holds, rfl⟩
    exact ⟨((mirrored.entries _ v).mpr ⟨store, d, defined, entry⟩).1,
      idxPrefix_isPrefix_idxKey store idx.name _ v⟩

/-! A database of one store with one unique index, and the texts of two documents
that agree on it. -/

def sampleDoc : Value := .object [("email", .string "a"), ("id", .string "u1")]

def clashDoc : Value := .object [("email", .string "a"), ("id", .string "u2")]

def sampleText : Bytes := utf8 "\x7b\"email\":\"a\",\"id\":\"u1\"\x7d"

def clashText : Bytes := utf8 "\x7b\"email\":\"a\",\"id\":\"u2\"\x7d"

def sampleSerde : Serde where
  toVec v := match v with
    | .object [("email", .string "a"), ("id", .string "u1")] => some sampleText
    | .object [("email", .string "a"), ("id", .string "u2")] => some clashText
    | _ => none
  fromSlice b :=
    if b = sampleText then some sampleDoc else if b = clashText then some clashDoc else none
  floatText _ := [48, 46, 48]
  debugValues _ := "[String(\"a\")]"
  debugLossy _ := "\"u1\""
  errorText _ := "expected value at line 1 column 1"
  round_trip v b _ written := by
    split at written
    · obtain rfl := Option.some.inj written
      exact if_pos rfl
    · obtain rfl := Option.some.inj written
      exact (if_neg (by decide)).trans (if_pos rfl)
    · cases written
  text_nul_free v b written := by
    split at written
    · obtain rfl := Option.some.inj written
      decide
    · obtain rfl := Option.some.inj written
      decide
    · cases written
  float_nul_free := zeroPointZero_nul_free

def sampleStore : StoreDef := ⟨"users", "id", true, [⟨["email"], "by_email", true, false⟩], 0⟩

def sampleDb : JsonDB := ⟨∅, (∅ : OMap String StoreDef).insert "users" sampleStore⟩

theorem single_fresh {store : String} {d : StoreDef} (named : d.name = store) (free : sep ∉ utf8 store)
    (indexes : ∀ idx ∈ d.indexes, sep ∉ utf8 idx.name) (distinct : (d.indexes.map IndexDef.name).Nodup) :
    Fresh ⟨∅, (∅ : OMap String StoreDef).insert store d⟩ := by
  have only : ∀ other e, ((∅ : OMap String StoreDef).insert store d).get? other = some e → other = store ∧ e = d := by
    intro other e defined
    rw [get?_insert] at defined
    split_ifs at defined with same
    · exact ⟨same, (Option.some.inj defined).symm⟩
    · cases defined
  refine ⟨fun k v present => absurd present (by simp), ?_, ?_, ?_⟩
  all_goals
    intro other e defined
    obtain ⟨rfl, rfl⟩ := only other e defined
  · exact ⟨named, free⟩
  · exact indexes
  · exact distinct

theorem sampleDb_fresh : Fresh sampleDb := single_fresh rfl (by decide) (by decide) (by decide)

def sampleSession : Session := (perform sampleSerde ⟨sampleDb, []⟩ (.put "users" sampleDoc)).2

theorem sampleSession_reachable : Reachable sampleSerde sampleSession := by
  refine Reachable.call _ _ (Reachable.start sampleDb sampleDb_fresh) ⟨by decide, ?_⟩
  intro d defined null
  obtain rfl : sampleStore = d := Option.some.inj defined
  cases null

theorem indexes_mirror_documents_sample :
    ∃ key doc vals, storedDoc sampleSerde sampleSession.db "users" key = some doc ∧
      vals ∈ extractIndexValues doc ⟨["email"], "by_email", true, false⟩ ∧
      idxKey "users" "by_email" [7, 97] (utf8 "u1") =
        idxKey "users" "by_email" (encodeCompositeValue sampleSerde vals) key ∧ utf8 "u1" = key :=
  ((indexes_mirror_documents sampleSerde sampleSession sampleSession_reachable).1 "users" sampleStore
    ⟨["email"], "by_email", true, false⟩ rfl (List.mem_singleton.mpr rfl) _ _).mp
    ⟨by decide, by decide⟩

/-- In every session a run reaches, documents of a store that agree on a value of a
unique index are one document, and a call that fails, a violation of uniqueness
among them, leaves documents, entries and counters as they were. -/
theorem unique_indexes_stay_unique (S : Serde) (s : Session) (run : Reachable S s) :
    (∀ store d idx, s.db.schema.get? store = some d → idx ∈ d.indexes → idx.unique = true →
      ∀ key₁ key₂ doc₁ doc₂, storedDoc S s.db store key₁ = some doc₁ →
        storedDoc S s.db store key₂ = some doc₂ → key₁ ≠ key₂ →
        ∀ vals₁ ∈ extractIndexValues doc₁ idx, ∀ vals₂ ∈ extractIndexValues doc₂ idx,
          encodeCompositeValue S vals₁ ≠ encodeCompositeValue S vals₂) ∧
    ∀ c e, (perform S s c).1 = .error e → (perform S s c).2.db = s.db := by
  refine ⟨?_, perform_error_unchanged s⟩
  intro store d idx defined member isUnique key₁ key₂ doc₁ doc₂ stored₁ stored₂ apart vals₁ holds₁
    vals₂ holds₂ same
  exact apart ((reachable_sound run).unique store d defined idx member isUnique key₁ key₂ doc₁ doc₂
    stored₁ stored₂ vals₁ holds₁ vals₂ holds₂ same)

theorem unique_indexes_stay_unique_sample :
    (perform sampleSerde sampleSession (.put "users" clashDoc)).2.db = sampleSession.db :=
  (unique_indexes_stay_unique sampleSerde sampleSession sampleSession_reachable).2
    (.put "users" clashDoc) (.jsonDb
      "unique constraint violation: index 'by_email' value '[String(\"a\")]' already exists") rfl

end FlowDb.JsonSessions
