import FlowDb.Overlay
import FlowDb.StoreIsolation

/-! The reads of transaction.rs. They overlay the write buffer on the engine: a loop over
the engine's documents that skips or replaces what is buffered, then a loop over the buffer
for the documents that the engine does not have. -/
namespace FlowDb.TransactionReads
open ByteString OrderedMap Records JsonValue JsonEncoding JsonDb JsonTransaction JsonIndexes JsonStores JsonSessions
open KeySpace StoreIsolation Overlay

section
variable (S : Serde)

/-- `self.writes.get(&(store, key))` -/
def pendingDoc (tx : Transaction) (store : String) (key : Bytes) : Option (Option Bytes) :=
  tx.writes.get? (toLex (store, key))

/-- `rec.key[doc_prefix(store).len()..]` -/
def keyBytes (store : String) (k : Bytes) : Bytes := k.drop (docPrefix store).length

/-- What the loop over the engine's documents takes of one. -/
def engineDoc (tx : Transaction) (store : String) (entry : Bytes × Bytes) : Option Bytes :=
  (pendingDoc tx store (keyBytes store entry.1)).getD (some entry.2)

/-- What the loop over the buffer takes of a write: a document of the store that the engine does not have. -/
def bufferedDoc (db : JsonDB) (store : String) (w : Write) : Option Bytes :=
  if (ofLex w.1).1 ≠ store then none
  else w.2.filter fun _ => (getBytes db (docKey store (ofLex w.1).2)).isNone

def Transaction.get (db : JsonDB) (tx : Transaction) (store : String) (key : Value) : Except FlowError (Option Value) := do
  let _ ← getStore db store
  let keyBytes ← encodePrimaryKey S key
  match pendingDoc tx store keyBytes with
  | some (some bytes) => do
      let doc ← decodeDoc S bytes
      .ok (some doc)
  | some none => .ok none
  | none =>
      match getBytes db (docKey store keyBytes) with
      | some bytes => do
          let doc ← decodeDoc S bytes
          .ok (some doc)
      | none => .ok none

/-- The order is the one in which the hash map yields the buffered writes. -/
def Transaction.count (db : JsonDB) (tx : Transaction) (order : List Write) (store : String) : Except FlowError Nat := do
  let _ ← getStore db store
  let kept := (JsonDb.scan db.engine (docRange store)).filterMap (engineDoc tx store)
  .ok (kept.length + (order.filterMap (bufferedDoc db store)).length)

def Transaction.scan (db : JsonDB) (tx : Transaction) (order : List Write) (store : String) :
    Except FlowError (List Value) := do
  let _ ← getStore db store
  ((JsonDb.scan db.engine (docRange store)).filterMap (engineDoc tx store) ++
    order.filterMap (bufferedDoc db store)).mapM (decodeDoc S)

end

/-! ### The documents a commit leaves -/

section
variable {S : Serde} {db : JsonDB}

theorem docs_write (valid : SchemaValid db) {w : Write} (defined : ∃ d, db.schema.get? (ofLex w.1).1 = some d)
    (engine : JsonDb.Engine) {store : String} (free : sep ∉ utf8 store) (key : Bytes) :
    (writeInternal engine (writeRecords S db w)).get? (docKey store key) =
      if w.1 = toLex (store, key) then (newDoc S w).map Prod.fst else engine.get? (docKey store key) := by
  obtain ⟨d, defined⟩ := defined
  have own : docKey store key = docKey (ofLex w.1).1 (ofLex w.1).2 ↔ w.1 = toLex (store, key) := by
    constructor
    · intro same
      obtain ⟨rfl, rfl⟩ := docKey_inj free (validateName_nul_free _ (valid.store _ _ defined)) same
      rfl
    · intro same
      rw [same]
      rfl
  simp only [writeRecords, defined, changeRecords, writeInternal_append, ← own]
  rw [deleteIndexEntries_eq]
  cases newDoc S w with
  | none =>
    change (applyRecord _ (deleteRecord _)).get? _ = _
    rw [get?_delete, get?_deletes, if_neg docKey_notMem_entryKeys]
    rfl
  | some new =>
    obtain ⟨bytes, doc⟩ := new
    change (writeInternal (applyRecord _ (putRecord _ _)) _).get? _ = _
    rw [indexEntries_eq, get?_puts, if_neg docKey_notMem_entryKeys, get?_put, get?_deletes, if_neg docKey_notMem_entryKeys]
    rfl

/-- The buffered writes are to different documents, so each leaves what it wrote. -/
theorem docs_writes (valid : SchemaValid db) {ws : List Write} (once : Keyed ws)
    (defined : ∀ w ∈ ws, ∃ d, db.schema.get? (ofLex w.1).1 = some d) (engine : JsonDb.Engine) {store : String}
    (free : sep ∉ utf8 store) (key : Bytes) :
    (∀ w ∈ ws, w.1 = toLex (store, key) →
      (writeInternal engine (ws.flatMap (writeRecords S db))).get? (docKey store key) = (newDoc S w).map Prod.fst) ∧
    ((∀ w ∈ ws, w.1 ≠ toLex (store, key)) →
      (writeInternal engine (ws.flatMap (writeRecords S db))).get? (docKey store key) = engine.get? (docKey store key)) := by
  induction ws generalizing engine with
  | nil => exact ⟨nofun, fun _ => rfl⟩
  | cons first rest ih =>
    obtain ⟨apart, once⟩ := List.pairwise_cons.mp once
    obtain ⟨written, kept⟩ := ih once (fun w member => defined w (List.mem_cons_of_mem _ member))
      (writeInternal engine (writeRecords S db first))
    have step := docs_write (S := S) valid (defined first List.mem_cons_self) engine free key
    rw [List.flatMap_cons, writeInternal_append]
    refine ⟨fun w member same => ?_, fun other => ?_⟩
    · rcases List.mem_cons.mp member with rfl | later
      · rw [kept fun x inside => same ▸ (apart x inside).symm, step, if_pos same]
      · exact written w later same
    · rw [kept fun w member => other w (List.mem_cons_of_mem _ member), step, if_neg (other first List.mem_cons_self)]

theorem commitWrites_decoded {order ws : List Write} {records out : List InternalRecord}
    (done : commitWrites S db order ws records = .ok out) :
    ∀ w ∈ ws, (newDoc S w).map Prod.fst = w.2 := by
  induction ws generalizing records with
  | nil => exact nofun
  | cons first rest ih =>
    obtain ⟨middle, here, later⟩ := bind_ok done
    intro w member
    rcases List.mem_cons.mp member with rfl | inside
    · obtain ⟨slot, content⟩ := w
      obtain ⟨d, _, here⟩ := bind_ok here
      cases content with
      | none => rfl
      | some bytes =>
        obtain ⟨doc, decoded, _⟩ := bind_ok here
        rw [newDoc_some rfl decoded]
        rfl
    · exact ih later w inside

/-- A transaction that is not committed yet, with counter records besides its writes. -/
structure Uncommitted (tx : Transaction) : Prop where
  counters : ∀ r ∈ tx.counterUpdates, Aside r
  pending : tx.committed = false

theorem nextId_uncommitted {tx after : Transaction} {store : String} {id : UInt64} (uncommitted : Uncommitted tx)
    (done : nextId db tx store = .ok (id, after)) : Uncommitted after := by
  unfold nextId at done
  split at done
  · obtain ⟨-, rfl⟩ := Prod.mk.inj (Except.ok.inj done)
    exact ⟨uncommitted.counters, uncommitted.pending⟩
  · obtain ⟨⟨id', counterRec⟩, prepared, done⟩ := bind_ok done
    obtain ⟨-, rfl⟩ := Prod.mk.inj (Except.ok.inj done)
    refine ⟨fun r member => ?_, uncommitted.pending⟩
    rcases List.mem_append.mp member with old | new
    · exact uncommitted.counters r old
    · obtain rfl := List.mem_singleton.mp new
      exact prepareCounter_aside prepared

theorem begun_uncommitted {tx : Transaction} (begun : Begun S tx) : Uncommitted tx :=
  begun_keeps (fun _ => ⟨nofun, rfl⟩) (fun _ _ uncommitted => ⟨uncommitted.counters, uncommitted.pending⟩)
    (fun _ _ _ _ _ _ done uncommitted => nextId_uncommitted uncommitted done) begun

section
variable {tx : Transaction} {order : List Write} (visits : order.Perm tx.writes.entries)
include visits

theorem order_keyed : Keyed order := by
  have entries : Keyed tx.writes.entries := tx.writes.sorted.imp fun below => ne_of_lt below
  exact entries.perm visits

omit visits in
theorem commit_built (uncommitted : Uncommitted tx) (done : (tx.commit S db order).1 = .ok ()) :
    ∃ records, commitWrites S db order order tx.counterUpdates = .ok records ∧
      (tx.commit S db order).2 = ⟨writeInternal db.engine records, db.schema⟩ := by
  rw [Transaction.commit, if_neg (by rw [uncommitted.pending]; exact Bool.false_ne_true)] at done ⊢
  cases built : commitWrites S db order order tx.counterUpdates with
  | error e =>
    rw [built] at done
    cases done
  | ok records => exact ⟨records, rfl, rfl⟩

/-- The store of a buffered write exists where the commit succeeds, and a document key holds what is pending for it. -/
theorem commit_docs (valid : SchemaValid db) (uncommitted : Uncommitted tx) (done : (tx.commit S db order).1 = .ok ()) :
    (tx.commit S db order).2.schema = db.schema ∧
    ∀ store, sep ∉ utf8 store → ∀ key, getBytes (tx.commit S db order).2 (docKey store key) =
      (pendingDoc tx store key).getD (getBytes db (docKey store key)) := by
  obtain ⟨records, built, after⟩ := commit_built uncommitted done
  rw [after]
  refine ⟨rfl, fun store free key => ?_⟩
  obtain ⟨rfl, each⟩ := commitWrites_ok built
  obtain ⟨written, kept⟩ := docs_writes (S := S) valid (order_keyed visits) (fun w member => (each w member).1)
    (writeInternal db.engine tx.counterUpdates) free key
  change (writeInternal db.engine (tx.counterUpdates ++ order.flatMap (writeRecords S db))).get? (docKey store key) = _
  rw [writeInternal_append]
  cases pending : pendingDoc tx store key with
  | some content =>
    have member := visits.mem_iff.mpr ((get?_eq_some_iff _ _ _).mp pending)
    rw [written _ member rfl, commitWrites_decoded built _ member]
    rfl
  | none =>
    rw [kept, get?_aside db.engine _ uncommitted.counters _ (Or.inl rfl)]
    · rfl
    · rintro ⟨slot, content⟩ member rfl
      have present := (get?_eq_some_iff _ _ _).mpr (visits.mem_iff.mp member)
      exact absurd (pending.symm.trans present) (by simp)

end

/-! ### Scans -/

/-- The documents of a store by key, as a scan yields them. -/
def docsOf (engine : JsonDb.Engine) (store : String) : List (Bytes × Bytes) :=
  (JsonDb.scan engine (docRange store)).map fun e => (keyBytes store e.1, e.2)

theorem docKey_eq (store : String) (key : Bytes) : docKey store key = docPrefix store ++ key := by simp [docKey, docPrefix]

theorem keyBytes_docKey (store : String) (key : Bytes) : keyBytes store (docKey store key) = key := by
  rw [docKey_eq, keyBytes, List.drop_left]

theorem mem_docsOf (engine : JsonDb.Engine) (store : String) (key value : Bytes) :
    (key, value) ∈ docsOf engine store ↔ engine.get? (docKey store key) = some value := by
  simp only [docsOf, List.mem_map, Prod.mk.injEq, docRange, mem_prefixScan]
  constructor
  · rintro ⟨⟨k, v⟩, ⟨present, key', rfl⟩, rfl, rfl⟩
    rw [← docKey_eq, keyBytes_docKey] at *
    exact present
  · exact fun present => ⟨(docKey store key, value), ⟨present, key, (docKey_eq store key).symm⟩, keyBytes_docKey store key, rfl⟩

theorem docsOf_keyed (engine : JsonDb.Engine) (store : String) : Keyed (docsOf engine store) := by
  refine List.pairwise_map.mpr ?_
  have inside : ∀ e ∈ JsonDb.scan engine (docRange store), ∃ key, e.1 = docKey store key := fun e member => by
    obtain ⟨key, starts⟩ := ((mem_prefixScan _ _ e).mp member).2
    exact ⟨key, starts.symm.trans (docKey_eq store key).symm⟩
  refine (engine.sorted.filter _).imp_of_mem fun {a b} first second below same => ?_
  obtain ⟨key, here⟩ := inside a first
  obtain ⟨key', there⟩ := inside b second
  rw [here, there, keyBytes_docKey, keyBytes_docKey] at same
  obtain rfl : key = key' := same
  rw [here, there] at below
  exact lt_irrefl _ below

/-- The buffered writes to one store. -/
def storeWrites (order : List Write) (store : String) : List (Bytes × Option Bytes) :=
  order.filterMap fun w => if (ofLex w.1).1 = store then some ((ofLex w.1).2, w.2) else none

theorem mem_storeWrites (order : List Write) (store : String) (key : Bytes) (content : Option Bytes) :
    (key, content) ∈ storeWrites order store ↔ (toLex (store, key), content) ∈ order := by
  simp only [storeWrites, List.mem_filterMap]
  constructor
  · rintro ⟨⟨slot, written⟩, member, held⟩
    split_ifs at held with same
    obtain ⟨rfl, rfl⟩ := Prod.mk.inj (Option.some.inj held)
    exact same ▸ member
  · exact fun member => ⟨_, member, if_pos rfl⟩

theorem storeWrites_keyed {order : List Write} (keyed : Keyed order) (store : String) : Keyed (storeWrites order store) := by
  refine List.Pairwise.filterMap _ (fun a b apart x held y other same => apart ?_) keyed
  split_ifs at held other with first second
  obtain rfl := Option.some.inj held
  obtain rfl := Option.some.inj other
  exact Prod.ext (first.trans second.symm) same

section
variable (db : JsonDB) (tx : Transaction) (order : List Write) (store : String)

def knownDoc (key : Bytes) : Bool := (getBytes db (docKey store key)).isSome

/-- The contents that the loop over the engine shows. -/
theorem engineDocs_eq : (JsonDb.scan db.engine (docRange store)).filterMap (engineDoc tx store) =
    ((docsOf db.engine store).filterMap (seen (pendingDoc tx store))).map Prod.snd := by
  rw [docsOf, List.filterMap_map, List.map_filterMap]
  refine List.filterMap_congr fun e _ => ?_
  simp [engineDoc, seen, Function.comp_def]

/-- The contents that the loop over the buffer adds. -/
theorem bufferedDocs_eq : order.filterMap (bufferedDoc db store) =
    ((storeWrites order store).filterMap (fresh (knownDoc db store))).map Prod.snd := by
  rw [storeWrites, List.filterMap_filterMap, List.map_filterMap]
  refine List.filterMap_congr fun w _ => ?_
  by_cases own : (ofLex w.1).1 = store
  · subst own
    cases content : w.2 <;> simp [bufferedDoc, fresh, knownDoc, content, Option.filter]
  · simp [bufferedDoc, own]

end

theorem decodeDoc_error {bytes : Bytes} {e : FlowError} (failed : decodeDoc S bytes = .error e) : e = .json := by
  unfold decodeDoc at failed
  split at failed
  · cases failed
  · exact (Except.error.inj failed).symm

/-- Decoding goes through the documents in order and stops at the first that it cannot read; in any order it comes to
the same documents, or to the same error. -/
theorem decode_perm {docs others : List Bytes} (perm : docs.Perm others) :
    (docs.mapM (decodeDoc S)).map (fun read => (read : Multiset Value)) =
      (others.mapM (decodeDoc S)).map fun read => (read : Multiset Value) := by
  induction perm with
  | nil => rfl
  | @cons first front back _ ih =>
    rw [List.mapM_cons, List.mapM_cons]
    cases decodeDoc S first with
    | error e => rfl
    | ok v =>
      cases one : front.mapM (decodeDoc S) with
      | error e =>
        cases other : back.mapM (decodeDoc S) with
        | error e' =>
          rw [one, other] at ih
          exact ih
        | ok read => rw [one, other] at ih; cases ih
      | ok read =>
        cases other : back.mapM (decodeDoc S) with
        | error e' => rw [one, other] at ih; cases ih
        | ok read' =>
          rw [one, other] at ih
          have same : (read : Multiset Value) = read' := Except.ok.inj ih
          exact congrArg Except.ok (Multiset.coe_eq_coe.mpr ((Multiset.coe_eq_coe.mp same).cons v))
  | swap first second rest =>
    simp only [List.mapM_cons]
    cases here : decodeDoc S first with
    | error e =>
      cases there : decodeDoc S second with
      | error e' => rw [decodeDoc_error here, decodeDoc_error there]
      | ok w => rfl
    | ok v =>
      cases there : decodeDoc S second with
      | error e' => rfl
      | ok w =>
        cases rest.mapM (decodeDoc S) with
        | error e => rfl
        | ok read => exact congrArg Except.ok (Multiset.coe_eq_coe.mpr (List.Perm.swap v w read))
  | trans _ _ ih ih' => exact ih.trans ih'

section
variable {tx : Transaction} {after : JsonDB} {store : String}
  (holds : ∀ key, getBytes after (docKey store key) = (pendingDoc tx store key).getD (getBytes db (docKey store key)))
include holds

/-- The two loops together go through the documents that the commit leaves. -/
theorem overlaid_docs {visited : List Write} (visits : visited.Perm tx.writes.entries) :
    ((JsonDb.scan db.engine (docRange store)).filterMap (engineDoc tx store) ++
      visited.filterMap (bufferedDoc db store)).Perm ((docsOf after.engine store).map Prod.snd) := by
  rw [engineDocs_eq, bufferedDocs_eq, ← List.map_append]
  refine (overlay_perm (docsOf_keyed _ _) (docsOf_keyed _ _) (storeWrites_keyed (order_keyed visits) store) ?_ ?_ ?_).map _
  · intro key content
    rw [mem_storeWrites, visits.mem_iff, ← get?_eq_some_iff]
    rfl
  · intro key
    simp only [mem_docsOf, knownDoc, Option.isSome_iff_exists]
    rfl
  · intro key value
    rw [mem_docsOf, mem_docsOf]
    change getBytes after (docKey store key) = some value ↔ _ ∨ _ ∧ getBytes db (docKey store key) = some value
    rw [holds]
    cases pendingDoc tx store key <;> simp

end

/-- The reads of a transaction show each store as its commit leaves it. -/
theorem reads_match_commit (reached : Reached S db) {tx : Transaction} (begun : Begun S tx) {order : List Write}
    (visits : order.Perm tx.writes.entries) (done : (tx.commit S db order).1 = .ok ()) (store : String) :
    (∀ key, Transaction.get S db tx store key = JsonStores.get S (tx.commit S db order).2 store key) ∧
    ∀ visited : List Write, visited.Perm tx.writes.entries →
      Transaction.count db tx visited store = JsonStores.count (tx.commit S db order).2 store ∧
      (Transaction.scan S db tx visited store).map (fun docs => (docs : Multiset Value)) =
        (scanStore S (tx.commit S db order).2 store).map fun docs => (docs : Multiset Value) := by
  have valid := reached_valid reached
  obtain ⟨schema, docs⟩ := commit_docs visits valid (begun_uncommitted begun) done
  have stores : getStore (tx.commit S db order).2 store = getStore db store := by rw [getStore, schema]; rfl
  cases found : getStore db store with
  | error e =>
    simp [Transaction.get, Transaction.count, Transaction.scan, JsonStores.get, JsonStores.count, scanStore, stores, found,
      bind, Except.bind]
  | ok d =>
    have holds := docs store (validateName_nul_free _ (valid.store _ _ (getStore_ok found)))
    refine ⟨fun key => ?_, fun visited visits' => ?_⟩
    · simp only [Transaction.get, JsonStores.get, stores, found, ok_bind]
      cases encodePrimaryKey S key with
      | error e => rfl
      | ok keyBytes =>
        simp only [ok_bind, holds]
        rcases pendingDoc tx store keyBytes with _ | _ | bytes <;> rfl
    · have whole := overlaid_docs holds visits'
      refine ⟨?_, ?_⟩
      · simp only [Transaction.count, JsonStores.count, stores, found, ok_bind]
        have sizes := whole.length_eq
        rw [List.length_append] at sizes
        rw [sizes, docsOf, List.length_map, List.length_map]
      · simp only [Transaction.scan, scanStore, stores, found, ok_bind]
        rw [decode_perm whole, docsOf, List.map_map, List.mapM_map]
        rfl

end

/-- A transaction that has put the sample document. -/
def sampleTx : Transaction :=
  ⟨.readWrite, (∅ : OMap (String ×ₗ Bytes) (Option Bytes)).insert (toLex ("users", utf8 "u1")) (some sampleText), [], ∅, false⟩

theorem sampleTx_begun : Begun sampleSerde sampleTx :=
  .put sampleDb _ _ "users" sampleDoc (.begin sampleDb ["users"] .readWrite _ rfl) rfl

theorem sampleDb_reached : Reached sampleSerde sampleDb := by
  have empty : SchemaValid ⟨∅, ∅⟩ := ⟨by simp, by simp, by simp⟩
  exact .opened _ (empty.insert rfl (by decide) (by decide))

theorem reads_match_commit_sample :
    Transaction.count sampleDb sampleTx sampleTx.writes.entries "users" =
      JsonStores.count (sampleTx.commit sampleSerde sampleDb sampleTx.writes.entries).2 "users" :=
  ((reads_match_commit sampleDb_reached sampleTx_begun (.refl _) rfl "users").2 _ (.refl _)).1

end FlowDb.TransactionReads
