import FlowDb.LocalUpdates
import FlowDb.LegalCommits
import FlowDb.LateIndexes

/-! The order in which a commit visits the buffered writes. Writes of different documents touch
different keys, so their batches commute, and the checks look at all of the writes whatever the order.
What a commit leaves is what the puts and deletes of the transaction leave one by one. -/
namespace FlowDb.CommitOrders
open ByteString OrderedMap Records JsonValue JsonEncoding JsonDb JsonTransaction JsonIndexes JsonSessions StoreIsolation
open IndexMaintenance LateIndexes LegalCommits LocalUpdates

section
variable (S : Serde)

/-- The keys a write may touch: that of its document, and those that entries of it can have. -/
def ownKeys (db : JsonDB) (w : Write) : Set Bytes :=
  {k | ∃ d, db.schema.get? (ofLex w.1).1 = some d ∧ (k = docKey (ofLex w.1).1 (ofLex w.1).2 ∨
    sep ∉ (ofLex w.1).2 ∧ ∃ doc, k ∈ entryKeys S d (ofLex w.1).1 (ofLex w.1).2 doc)}

/-- Two orders of the writes: both commits fail and change nothing, or both succeed and leave one database. -/
def SameOutcome (db : JsonDB) (tx : Transaction) (order order' : List Write) : Prop :=
  ((∃ e, (tx.commit S db order).1 = .error e) ∧ (∃ e, (tx.commit S db order').1 = .error e) ∧
    (tx.commit S db order).2 = db ∧ (tx.commit S db order').2 = db) ∨
  ((tx.commit S db order).1 = .ok () ∧ (tx.commit S db order').1 = .ok () ∧
    (tx.commit S db order).2 = (tx.commit S db order').2)

/-- Between a call and the commit the store was not given another key path. -/
def KeyPathKept (now db : JsonDB) (store : String) : Prop :=
  ∀ d d', now.schema.get? store = some d → db.schema.get? store = some d' → d'.keyPath = d.keyPath

/-- The puts and deletes that filled a transaction. A document with a number from `put_auto` is the put
of that document, if its key path leads to the number. -/
inductive Filled (db : JsonDB) : List DocCall → Transaction → Prop where
  | opened (now : JsonDB) (stores : List String) (mode : TransactionMode) (tx : Transaction)
      (done : transaction now stores mode = .ok tx) : Filled db [] tx
  | put (now : JsonDB) (calls : List DocCall) (tx after : Transaction) (store : String) (doc : Value)
      (before : Filled db calls tx) (kept : KeyPathKept now db store) (whole : doc.wellFormed = true)
      (notNull : KeyNotNull now store doc) (done : tx.put S now store doc = .ok after) :
      Filled db (calls ++ [.put store doc]) after
  | delete (now : JsonDB) (calls : List DocCall) (tx after : Transaction) (store : String) (key : Value)
      (before : Filled db calls tx) (done : tx.delete S now store key = .ok after) :
      Filled db (calls ++ [.delete store key]) after
  | putAuto (now : JsonDB) (calls : List DocCall) (tx after : Transaction) (store : String) (d : StoreDef) (doc keyVal : Value)
      (before : Filled db calls tx) (kept : KeyPathKept now db store) (whole : doc.wellFormed = true)
      (defined : now.schema.get? store = some d) (done : tx.putAuto S now store doc = (.ok keyVal, after))
      (filed : extractField (doc.insertMember d.keyPath keyVal) d.keyPath = some keyVal) :
      Filled db (calls ++ [.put store (doc.insertMember d.keyPath keyVal)]) after
  | unstored (now : JsonDB) (calls : List DocCall) (tx after : Transaction) (store : String) (doc : Value) (e : FlowError)
      (before : Filled db calls tx) (done : tx.putAuto S now store doc = (.error e, after)) : Filled db calls after

/-- The same stores with the same documents, but no unique index. -/
structure Plain (db plain : JsonDB) : Prop where
  mirrored : Mirrored S plain
  keyPaths : ∀ store, (plain.schema.get? store).map StoreDef.keyPath = (db.schema.get? store).map StoreDef.keyPath
  notUnique : ∀ store d, plain.schema.get? store = some d → ∀ idx ∈ d.indexes, idx.unique = false
  docs : ∀ store key, storedDoc S plain store key = storedDoc S db store key

end

section
variable {S : Serde}

/-! ### Batches of different documents -/

theorem writeInternal_local {records : List InternalRecord} {own : Set Bytes} (points : ∀ r ∈ records, Point r)
    (inside : ∀ r ∈ records, r.key ∈ own) : Local OMap.get? own fun engine : Engine => writeInternal engine records := by
  refine ⟨fun engine k outside => writeInternal_untouched engine fun r member touched => outside ?_,
    fun engine other k same => get?_points points same⟩
  have here : k = r.key := by
    unfold Touches at touched
    rcases points r member with op | op <;> rwa [op] at touched
  exact here ▸ inside r member

/-- The records of a write are puts and deletes of its own keys. -/
theorem writeRecords_own {db : JsonDB} (mirrored : Mirrored S db) {w : Write}
    (ok : NewDocOk S (ofLex w.1).2 (newDoc S w)) : ∀ r ∈ writeRecords S db w, Point r ∧ r.key ∈ ownKeys S db w := by
  intro r member
  unfold writeRecords at member
  split at member
  · next d defined =>
    unfold changeRecords at member
    rw [deleteIndexEntries_eq] at member
    rcases List.mem_append.mp member with old | fresh
    · obtain ⟨k, entry, rfl⟩ := List.mem_map.mp old
      obtain ⟨doc, stored, _⟩ := (mem_entryKeys S _ _ _ _ _).mp entry
      exact ⟨.inr rfl, d, defined, .inr ⟨stored_key_free mirrored (mirrored.named _ _ defined).2 stored, _, entry⟩⟩
    · cases put : newDoc S w with
      | none =>
        rw [put] at fresh
        obtain rfl := List.mem_singleton.mp fresh
        exact ⟨.inr rfl, d, defined, .inl rfl⟩
      | some p =>
        obtain ⟨bytes, doc⟩ := p
        rw [put] at fresh ok
        dsimp only at fresh
        rw [indexEntries_eq] at fresh
        rcases List.mem_cons.mp fresh with rfl | entry
        · exact ⟨.inl rfl, d, defined, .inl rfl⟩
        · obtain ⟨k, inside, rfl⟩ := List.mem_map.mp entry
          exact ⟨.inl rfl, d, defined, .inr ⟨ok.1, _, inside⟩⟩
  · cases member

theorem ownKeys_disjoint {db : JsonDB} (named : SchemaNamed db) {w w' : Write} (apart : w.1 ≠ w'.1) :
    Disjoint (ownKeys S db w) (ownKeys S db w') := by
  refine Set.disjoint_left.mpr ?_
  rintro k ⟨d, defined, here⟩ ⟨d', defined', there⟩
  -- A document key is no entry key; two document keys, and two entry keys, name their documents.
  rcases here with rfl | ⟨free, doc, entry⟩ <;> rcases there with same | ⟨free', doc', entry'⟩
  · obtain ⟨stores, keys⟩ := docKey_inj (named.named _ _ defined).2 (named.named _ _ defined').2 same
    exact apart (Prod.ext stores keys)
  · exact docKey_notMem_entryKeys entry'
  · exact docKey_notMem_entryKeys (same ▸ entry)
  · obtain ⟨stores, keys⟩ := entryKeys_owner named defined defined' free free' entry entry'
    exact apart (Prod.ext stores keys)

theorem get?_injective : Function.Injective (OMap.get? : Engine → Bytes → Option Bytes) := fun _ _ same =>
  ext_get? fun k => congrFun same k

theorem writes_perm {db : JsonDB} (mirrored : Mirrored S db) {ws ws' : List Write} (once : (ws.map Prod.fst).Nodup)
    (ok : ∀ w ∈ ws, NewDocOk S (ofLex w.1).2 (newDoc S w)) (perm : ws.Perm ws') (engine : Engine) :
    writeInternal engine (ws.flatMap (writeRecords S db)) = writeInternal engine (ws'.flatMap (writeRecords S db)) := by
  have walked : ∀ ws : List Write, writeInternal engine (ws.flatMap (writeRecords S db)) =
      ws.foldl (fun engine w => writeInternal engine (writeRecords S db w)) engine := fun ws => by
    rw [writeInternal, List.foldl_flatMap]
    rfl
  rw [walked, walked]
  refine foldl_perm (ownKeys S db) (fun w engine => writeInternal engine (writeRecords S db w)) get?_injective perm ?_ ?_ engine
  · intro w member
    exact writeInternal_local (fun r inside => (writeRecords_own mirrored (ok w member) r inside).1)
      fun r inside => (writeRecords_own mirrored (ok w member) r inside).2
  · intro w member w' member' apart
    exact ownKeys_disjoint mirrored.toSchemaNamed fun same => apart (List.inj_on_of_nodup_map once member member' same)

/-! ### The checks -/

theorem checkUniqueBuffered_perm {db : JsonDB} {order order' : List Write} (perm : order.Perm order') {store : String}
    {idx : IndexDef} {key : Bytes} {doc : Value} (passed : checkUniqueBuffered S db order store idx key doc = .ok ()) :
    checkUniqueBuffered S db order' store idx key doc = .ok () := by
  unfold checkUniqueBuffered at passed ⊢
  split_ifs at passed ⊢ with unique
  · refine forM_of_ok fun vals extracted => ?_
    obtain ⟨_, engine, buffered⟩ := bind_ok (forM_ok passed vals extracted)
    rw [engine, ok_bind]
    exact forM_of_ok fun w member => forM_ok buffered w (perm.mem_iff.mpr member)
  · rfl

theorem passes_perm {db : JsonDB} {order order' : List Write} (perm : order.Perm order') {w : Write}
    (passes : Passes S db order w) : Passes S db order' w := by
  obtain ⟨d, defined, documents⟩ := passes
  refine ⟨d, defined, fun bytes put => ?_⟩
  obtain ⟨doc, decoded, checks⟩ := documents bytes put
  exact ⟨doc, decoded, fun idx inside => checkUniqueBuffered_perm perm (checks idx inside)⟩

variable {db : JsonDB} {tx : Transaction} {order order' : List Write}

theorem commit_ok_perm (live : tx.committed = false) (perm : order.Perm order') (done : (tx.commit S db order).1 = .ok ()) :
    (tx.commit S db order').1 = .ok () :=
  (commit_passes live order').mpr fun w member =>
    passes_perm perm ((commit_passes live order).mp done w (perm.mem_iff.mpr member))

theorem commit_refused {e : FlowError} (refused : (tx.commit S db order).1 = .error e) : (tx.commit S db order).2 = db := by
  unfold Transaction.commit at refused ⊢
  split_ifs at refused ⊢
  exact commitBatch_error refused

theorem commits_alike (mirrored : Mirrored S db) (buffered : Buffered S tx) (visits : order.Perm tx.writes.entries)
    (visits' : order'.Perm tx.writes.entries) : SameOutcome S db tx order order' := by
  have perm := visits.trans visits'.symm
  cases live : tx.committed with
  | true =>
    have unchanged : ∀ order, tx.commit S db order = (.ok (), db) := fun order => by
      rw [Transaction.commit, live, if_pos rfl]
    exact .inr ⟨by rw [unchanged], by rw [unchanged], by rw [unchanged, unchanged]⟩
  | false =>
    cases done : (tx.commit S db order).1 with
    | ok _ =>
      have done' := commit_ok_perm live perm done
      refine .inr ⟨done, done', ?_⟩
      rw [(commit_applied live visits buffered done).1, (commit_applied live visits' buffered done').1]
      have once : (order.map Prod.fst).Nodup := (visits.map Prod.fst).nodup_iff.mpr (keys_nodup tx.writes)
      have ok : ∀ w ∈ order, NewDocOk S (ofLex w.1).2 (newDoc S w) := fun w member =>
        buffered.docs w (visits.mem_iff.mp member)
      -- The counter records come first in both batches.
      unfold JsonDB.write
      rw [writeInternal_append, writeInternal_append, writes_perm mirrored once ok perm]
    | error e =>
      cases done' : (tx.commit S db order').1 with
      | ok _ =>
        have agrees := done.symm.trans (commit_ok_perm live perm.symm done')
        cases agrees
      | error e' => exact .inl ⟨⟨e, done⟩, ⟨e', done'⟩, commit_refused done, commit_refused done'⟩

/-! ### What a commit leaves -/

theorem newDoc_doc (w : Write) : (newDoc S w).map Prod.snd = w.2.bind fun bytes => (decodeDoc S bytes).toOption := by
  obtain ⟨slot, content⟩ := w
  cases content with
  | none => rfl
  | some bytes => cases read : decodeDoc S bytes <;> simp [newDoc, read, Except.toOption]

/-- A commit leaves the buffered documents, and where none is buffered the stored ones. -/
theorem commit_outcomeDoc (mirrored : Mirrored S db) (buffered : Buffered S tx) (live : tx.committed = false)
    (visits : order.Perm tx.writes.entries) (done : (tx.commit S db order).1 = .ok ()) {store : String}
    (name : sep ∉ utf8 store) (key : Bytes) : storedDoc S (tx.commit S db order).2 store key = outcomeDoc S db tx store key := by
  obtain ⟨_, changed⟩ := applied_mirrored mirrored (commit_applied live visits buffered done).2
  unfold outcomeDoc
  rcases changed store key name with ⟨⟨slot, content⟩, member, rfl, value⟩ | ⟨absent, value⟩
  · rw [(get?_eq_some_iff ..).mpr (visits.mem_iff.mp member), value, newDoc_doc]
  · cases pending : tx.writes.get? (toLex (store, key)) with
    | none => exact value
    | some content => exact absurd rfl (absent _ (visits.mem_iff.mpr ((get?_eq_some_iff ..).mp pending)))

/-! ### The puts and deletes one by one -/

theorem readOldDoc_mirrored (mirrored : Mirrored S db) (store : String) (key : Bytes) :
    readOldDoc S db store key = .ok (storedDoc S db store key) := by
  unfold readOldDoc storedDoc
  cases present : getBytes db (docKey store key) with
  | none => rfl
  | some bytes =>
    obtain ⟨_, _, _, doc, _, _, _, decoded⟩ := mirrored.docs _ _ present rfl
    simp [decoded, Except.toOption]

variable {plain : JsonDB} {store : String} {d : StoreDef}

/-- Without unique indexes a put writes its change. -/
theorem put_plain (mirrored : Mirrored S plain) (notUnique : ∀ idx ∈ d.indexes, idx.unique = false)
    (defined : plain.schema.get? store = some d) {doc keyVal : Value} {key bytes : Bytes} (keyed : keyOf d store doc = .ok keyVal)
    (encodedKey : encodePrimaryKey S keyVal = .ok key) (encoded : encodeDoc S doc = .ok bytes) :
    (DocCall.put store doc).perform S plain = JsonDB.write plain (changeRecords S plain d store key (some (bytes, doc))) := by
  have checks : (d.indexes.forM fun idx => checkUnique S plain store idx key doc) = .ok () :=
    forM_of_ok fun idx inside => by rw [checkUnique, notUnique idx inside, if_neg Bool.false_ne_true]
  have batch : (DocCall.put store doc).mutation.batch S plain = .ok (changeRecords S plain d store key (some (bytes, doc))) := by
    change (getStore plain store >>= _) = _
    rw [getStore_of defined, ok_bind, keyed, ok_bind, encodedKey, ok_bind, encoded, ok_bind, buildPutBatch_eq,
      readOldDoc_mirrored mirrored, ok_bind, checks, map_ok]
  rw [perform_eq, batch]

theorem delete_plain (mirrored : Mirrored S plain) (defined : plain.schema.get? store = some d) {keyVal : Value} {key : Bytes}
    (encodedKey : encodePrimaryKey S keyVal = .ok key) :
    (DocCall.delete store keyVal).perform S plain = JsonDB.write plain (changeRecords S plain d store key none) := by
  have batch : (DocCall.delete store keyVal).mutation.batch S plain = .ok (changeRecords S plain d store key none) := by
    change (getStore plain store >>= _) = _
    rw [getStore_of defined, ok_bind, encodedKey, ok_bind, buildDeleteBatch_eq, readOldDoc_mirrored mirrored, ok_bind]
  rw [perform_eq, batch]

theorem perform_absent {c : DocCall} {doc keyVal : Value} (onStore : c = .put store doc ∨ c = .delete store keyVal) (absent : plain.schema.get? store = none) :
    c.perform S plain = plain := by
  have batch : ∃ e, c.mutation.batch S plain = .error e := by
    rcases onStore with rfl | rfl <;>
    · change ∃ e, (getStore plain store >>= _) = _
      rw [getStore, absent]
      exact ⟨_, rfl⟩
  obtain ⟨e, refused⟩ := batch
  rw [perform_eq, refused]

/-- The documents are those that the writes of the open transaction leave. -/
structure Shows (S : Serde) (db e : JsonDB) (tx : Transaction) : Prop where
  live : tx.committed = false
  mirrored : Mirrored S e
  docs : ∀ store d, db.schema.get? store = some d → ∀ key, storedDoc S e store key = outcomeDoc S db tx store key

theorem outcomeDoc_insert {after : Transaction} {key : Bytes} {content : Option Bytes}
    (buffered : after.writes = tx.writes.insert (toLex (store, key)) content) (store' : String) (key' : Bytes) :
    outcomeDoc S db after store' key' = if store' = store ∧ key' = key then content.bind fun bytes => (decodeDoc S bytes).toOption
      else outcomeDoc S db tx store' key' := by
  unfold outcomeDoc
  rw [buffered, get?_insert]
  split_ifs with slot same same
  · rfl
  · exact absurd (Prod.mk.inj (toLex.injective slot)) same
  · exact absurd (by rw [same.1, same.2]) slot
  · rfl

/-- One call on both sides: the transaction buffers the document that the other database is given. -/
theorem shows_change {e after : JsonDB} (same : Plain S db plain) (schema : e.schema = plain.schema) (shows' : Shows S db e tx)
    {filled : Transaction} {key : Bytes} {new : Option (Bytes × Value)} (ok : NewDocOk S key new)
    (buffered : filled.writes = tx.writes.insert (toLex (store, key)) (new.map Prod.fst)) (pending : filled.committed = tx.committed)
    (wrote : ∀ d, plain.schema.get? store = some d → after = JsonDB.write e (changeRecords S e d store key new))
    (refused : plain.schema.get? store = none → after = e) : Shows S db after filled := by
  cases defined : plain.schema.get? store with
  | some d =>
    obtain rfl := wrote d defined
    have here : e.schema.get? store = some d := schema ▸ defined
    refine ⟨pending.trans shows'.live, change_mirrored e shows'.mirrored here ok, fun store' d' defined' key' => ?_⟩
    obtain ⟨d₁, named, _⟩ : ∃ d₁, plain.schema.get? store' = some d₁ ∧ d₁.keyPath = d'.keyPath :=
      Option.map_eq_some_iff.mp ((same.keyPaths store').trans (congrArg _ defined'))
    rw [storedDoc_change e shows'.mirrored.toSchemaNamed here (same.mirrored.named _ _ named).2 ok, outcomeDoc_insert buffered]
    split_ifs
    · cases new with
      | none => rfl
      | some p => simp [ok.2, Except.toOption]
    · exact shows'.docs store' d' defined' key'
  | none =>
    -- The commit does not know the store either, so none of its documents is asked for.
    obtain rfl := refused defined
    refine ⟨pending.trans shows'.live, shows'.mirrored, fun store' d' defined' key' => ?_⟩
    rw [outcomeDoc_insert buffered, if_neg, shows'.docs store' d' defined' key']
    rintro ⟨rfl, _⟩
    have absent := same.keyPaths store'
    rw [defined, defined'] at absent
    cases absent

theorem run_snoc (calls : List DocCall) (c : DocCall) : run S plain (calls ++ [c]) = c.perform S (run S plain calls) := by
  rw [run, List.foldl_append]
  rfl

/-- A put that a transaction accepted, made on the other database. -/
theorem put_shows (same : Plain S db plain) {e : JsonDB} (schema : e.schema = plain.schema) (shows' : Shows S db e tx)
    {now : JsonDB} (kept : KeyPathKept now db store) {d₀ : StoreDef} (now_defined : now.schema.get? store = some d₀)
    {doc keyVal : Value} {key bytes : Bytes} (free : sep ∉ key) (whole : doc.wellFormed = true) (keyed : keyOf d₀ store doc = .ok keyVal)
    (encodedKey : encodePrimaryKey S keyVal = .ok key) (encoded : encodeDoc S doc = .ok bytes) {filled : Transaction}
    (buffered : filled.writes = tx.writes.insert (toLex (store, key)) (some bytes)) (pending : filled.committed = tx.committed) :
    Shows S db ((DocCall.put store doc).perform S e) filled := by
  have decoded := decode_encode_doc S doc bytes whole encoded
  refine @shows_change _ _ _ _ _ _ _ same schema shows' filled key (some (bytes, doc)) ⟨free, decoded⟩ buffered pending ?_ ?_
  · intro d defined
    obtain ⟨d', defined', path⟩ : ∃ d', db.schema.get? store = some d' ∧ d'.keyPath = d.keyPath :=
      Option.map_eq_some_iff.mp ((same.keyPaths store).symm.trans (congrArg _ defined))
    have here : keyOf d store doc = .ok keyVal := by
      rw [keyOf, ← path, kept d₀ d' now_defined defined']
      exact keyed
    exact put_plain shows'.mirrored (same.notUnique store d defined) (schema ▸ defined) here encodedKey encoded
  · intro absent
    exact @perform_absent _ _ _ _ doc .null (.inl rfl) (schema ▸ absent)

theorem nextId_buffer {now : JsonDB} {after : Transaction} {id : UInt64} (done : nextId now tx store = .ok (id, after)) :
    after.writes = tx.writes ∧ after.committed = tx.committed := by
  unfold nextId at done
  split at done
  · obtain ⟨-, rfl⟩ := Prod.mk.inj (Except.ok.inj done)
    exact ⟨rfl, rfl⟩
  · obtain ⟨⟨_, _⟩, _, done⟩ := bind_ok done
    obtain ⟨-, rfl⟩ := Prod.mk.inj (Except.ok.inj done)
    exact ⟨rfl, rfl⟩

/-- A document of `put_auto` is buffered under its number, or nothing is. -/
theorem putAuto_buffer {now : JsonDB} {after : Transaction} {doc : Value}
    {answer : Except FlowError Value} (done : tx.putAuto S now store doc = (answer, after)) :
    after.committed = tx.committed ∧ match answer with
    | .ok keyVal => ∃ d id bytes, now.schema.get? store = some d ∧ keyVal = .number (.posInt id) ∧
        encodeDoc S (doc.insertMember d.keyPath keyVal) = .ok bytes ∧
        after.writes = tx.writes.insert (toLex (store, decimal id.toNat)) (some bytes)
    | .error _ => after.writes = tx.writes := by
  unfold Transaction.putAuto at done
  dsimp only at done
  split at done
  · obtain ⟨rfl, rfl⟩ := Prod.mk.inj done
    exact ⟨rfl, rfl⟩
  · next d' id tx' started =>
    obtain ⟨_, _, started⟩ := bind_ok started
    obtain ⟨d₁, found, started⟩ := bind_ok started
    obtain ⟨_, _, started⟩ := bind_ok started
    obtain ⟨⟨id', tx₁⟩, counted, started⟩ := bind_ok started
    obtain ⟨rfl, rfl, rfl⟩ : d₁ = d' ∧ id' = id ∧ tx₁ = tx' := by simpa using Except.ok.inj started
    obtain ⟨kept, pending⟩ := nextId_buffer counted
    split at done
    · next bytes encoded =>
      obtain ⟨rfl, rfl⟩ := Prod.mk.inj done
      exact ⟨pending, d₁, id', bytes, getStore_ok found, rfl, encoded, by rw [Transaction.buffer, kept]⟩
    · obtain ⟨rfl, rfl⟩ := Prod.mk.inj done
      exact ⟨pending, kept⟩

/-- What a transaction holds is what its puts and deletes leave on a database without unique indexes. -/
theorem filled_shows (same : Plain S db plain) {calls : List DocCall} (filled : Filled S db calls tx) :
    Shows S db (run S plain calls) tx := by
  induction filled with
  | opened now stores mode tx done =>
    obtain ⟨_, _, done⟩ := bind_ok done
    obtain rfl := Except.ok.inj done
    exact ⟨rfl, same.mirrored, fun store _ _ key => same.docs store key⟩
  | put now calls tx after store doc _ kept whole notNull done ih =>
    obtain ⟨_, _, done⟩ := bind_ok done
    obtain ⟨d₀, found, done⟩ := bind_ok done
    obtain ⟨keyVal, keyed, done⟩ := bind_ok done
    obtain ⟨key, encodedKey, done⟩ := bind_ok done
    obtain ⟨bytes, encoded, done⟩ := bind_ok done
    obtain rfl := Except.ok.inj done
    have defined := getStore_ok found
    have free := encodePrimaryKey_nul_free S keyVal key (fun null => notNull d₀ defined (null ▸ keyOf_ok keyed)) encodedKey
    rw [run_snoc]
    exact put_shows same (run_schema calls plain) ih kept defined free whole keyed encodedKey encoded rfl rfl
  | delete now calls tx after store keyVal _ done ih =>
    obtain ⟨_, _, done⟩ := bind_ok done
    obtain ⟨_, _, done⟩ := bind_ok done
    obtain ⟨key, encodedKey, done⟩ := bind_ok done
    obtain rfl := Except.ok.inj done
    rw [run_snoc]
    refine @shows_change _ _ _ _ _ _ _ same (run_schema calls plain) ih _ key none trivial rfl rfl ?_ ?_
    · intro d defined
      exact delete_plain ih.mirrored (run_schema (S := S) calls plain ▸ defined) encodedKey
    · intro absent
      exact @perform_absent _ _ _ _ .null keyVal (.inr rfl) (run_schema (S := S) calls plain ▸ absent)
  | putAuto now calls tx after store d doc keyVal _ kept whole defined done filed ih =>
    obtain ⟨pending, d', id, bytes, defined', rfl, encoded, buffered⟩ := putAuto_buffer done
    obtain rfl := Option.some.inj (defined.symm.trans defined')
    have keyed : keyOf d store (doc.insertMember d.keyPath (.number (.posInt id))) = .ok (.number (.posInt id)) := by
      rw [keyOf, filed]
    rw [run_snoc]
    exact put_shows same (run_schema calls plain) ih kept defined (zero_notMem_decimal _)
      (insertMember_wellFormed doc _ d.keyPath whole rfl) keyed rfl encoded buffered pending
  | unstored now calls tx after store doc e _ done ih =>
    obtain ⟨pending, kept⟩ : after.committed = tx.committed ∧ after.writes = tx.writes := putAuto_buffer done
    refine ⟨pending.trans ih.live, ih.mirrored, fun store' d defined key => ?_⟩
    rw [ih.docs store' d defined key, outcomeDoc, outcomeDoc, kept]

/-- A commit does not depend on the order in which it visits the writes, and where it succeeds the documents
are those that the puts and deletes leave one by one on stores without unique indexes. -/
theorem commit_order_irrelevant (S : Serde) {db : JsonDB} {tx : Transaction} {order order' : List Write} (mirrored : Mirrored S db)
    (buffered : Buffered S tx) (visits : order.Perm tx.writes.entries) (visits' : order'.Perm tx.writes.entries) :
    SameOutcome S db tx order order' ∧
      ∀ calls, Filled S db calls tx → (tx.commit S db order).1 = .ok () → ∀ plain, Plain S db plain →
        ∀ store d, db.schema.get? store = some d → ∀ key,
          storedDoc S (tx.commit S db order).2 store key = storedDoc S (run S plain calls) store key := by
  refine ⟨commits_alike mirrored buffered visits visits', fun calls filled done plain same store d defined key => ?_⟩
  have shown := filled_shows same filled
  rw [commit_outcomeDoc mirrored buffered shown.live visits done (mirrored.named store d defined).2]
  exact (shown.docs store d defined key).symm

end

/-! A put and a delete, visited in either order. -/

def bareDb : JsonDB := ⟨∅, (∅ : OMap String StoreDef).insert "users" { sampleStore with indexes := [] }⟩

def putDelete : Transaction := firstPut.buffer "users" (utf8 "u2") none

theorem bareDb_plain : Plain sampleSerde sampleDb bareDb := by
  have fresh : Fresh bareDb := single_fresh rfl (by decide) (by decide) (by decide)
  refine ⟨(fresh_keeps fresh).1, fun store => ?_, fun store d defined idx inside => ?_, fun store key => ?_⟩
  · rw [bareDb, sampleDb, get?_insert, get?_insert]
    split_ifs <;> rfl
  · rw [bareDb, get?_insert] at defined
    split_ifs at defined
    · obtain rfl := Option.some.inj defined
      cases inside
    · cases defined
  · simp [storedDoc, getBytes, bareDb, sampleDb]

theorem putDelete_filled :
    Filled sampleSerde sampleDb [.put "users" sampleDoc, .delete "users" (.string "u2")] putDelete := by
  refine .delete sampleDb [.put "users" sampleDoc] firstPut putDelete "users" (.string "u2") ?_ rfl
  refine .put sampleDb [] opened firstPut "users" sampleDoc (.opened sampleDb ["users"] .readWrite opened rfl) ?_ (by decide) ?_ rfl
  · intro d d' defined defined'
    rw [Option.some.inj (defined.symm.trans defined')]
  · intro d defined null
    rw [(sample_defined rfl defined).2] at null
    cases null

theorem putDelete_buffered : Buffered sampleSerde putDelete := by
  have empty : Buffered sampleSerde opened := ⟨by simp [opened], by simp [opened]⟩
  have first : Buffered sampleSerde firstPut := buffer_buffered empty "users" (utf8 "u1") (some sampleText) (by
    exact ⟨by decide, rfl⟩)
  exact buffer_buffered first "users" (utf8 "u2") none trivial

theorem commit_order_irrelevant_put_delete :
    SameOutcome sampleSerde sampleDb putDelete putDelete.writes.entries putDelete.writes.entries.reverse ∧
      storedDoc sampleSerde (putDelete.commit sampleSerde sampleDb putDelete.writes.entries).2 "users" (utf8 "u1") =
        storedDoc sampleSerde (run sampleSerde bareDb [.put "users" sampleDoc, .delete "users" (.string "u2")]) "users" (utf8 "u1") := by
  have result := commit_order_irrelevant sampleSerde (fresh_keeps (S := sampleSerde) sampleDb_fresh).1 putDelete_buffered
    (List.Perm.refl putDelete.writes.entries) (List.reverse_perm putDelete.writes.entries)
  exact ⟨result.1, result.2 _ putDelete_filled rfl bareDb bareDb_plain "users" sampleStore rfl (utf8 "u1")⟩

end FlowDb.CommitOrders
