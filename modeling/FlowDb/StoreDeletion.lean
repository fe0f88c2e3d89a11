import FlowDb.EngineDatabase

/-! A store deleted and created again. The range delete of its documents is never
outlived: scans apply it to what was put after it as to what was there before, and
point reads do not know it. -/
namespace FlowDb.StoreDeletion
open ByteString OrderedMap Records WalLog Sstable MemoryTables Reads JsonValue JsonEncoding JsonDb JsonStores
open ConcurrentCommits OptimisticRuns KeySpace Scans EngineRuns LastingRecords EngineDatabase

/-- The steps of a run of puts and deletes on a store, with flushes anywhere. -/
inductive Further (store : String) : Step → Prop where
  | put (doc : Value) (nowUs : Int) : Further store (.request (.put store doc) nowUs)
  | delete (key : Value) (nowUs : Int) : Further store (.request (.delete store key) nowUs)
  | flush (nowUs : Int) : Further store (.flush nowUs)

/-- A store's creation with any indexes. -/
structure Creation (store keyPath : String) (steps : List Step) : Prop where
  first : ∃ nowUs rest, steps = .request (.createObjectStore store keyPath) nowUs :: rest ∧
    ∀ step ∈ rest, ∃ name keyPaths unique later, step = .request (.createIndex store name keyPaths unique) later

section
variable (S : Serde) (compressedLen : Bytes → Nat) (search : SlotSearch)

/-- What the steps of a run can return, and a read behind them. -/
def Observed (db : Database) (steps : List Step) (store : String) (read : Read) (readUs : Int)
    (results : List (Except FlowError (Option Value))) (reply : Except FlowError Reply) : Prop :=
  ∃ after, Runs S compressedLen search db steps results after ∧ Replies S search after readUs store read reply

/-- Behind its deletion a store behaves as in a new database. -/
def StartsAfresh (db : Database) (store : String) : Prop :=
  ∀ nowUs keyPath creation further, Creation store keyPath creation → (∀ step ∈ further, Further store step) →
    ∀ read readUs results reply, readUs < i64Max →
      (Observed S compressedLen search db (.request (.deleteObjectStore store) nowUs :: (creation ++ further)) store read
          readUs (.ok none :: results) reply ↔
        Observed S compressedLen search (.empty db.engine.config) (creation ++ further) store read readUs results reply)

/-- Created again under its name, an index behaves as one created for the first time, in the database
`bare` of the same documents. -/
def IndexStartsAfresh (db bare : Database) (store index : String) : Prop :=
  ∀ nowUs againUs keyPaths unique further, (∀ step ∈ further, Further store step) →
    ∀ read readUs results reply, readUs < i64Max →
      (Observed S compressedLen search db (.request (.deleteIndex store index) nowUs ::
          .request (.createIndex store index keyPaths unique) againUs :: further) store read readUs
          (.ok none :: results) reply ↔
        Observed S compressedLen search bare (.request (.createIndex store index keyPaths unique) againUs :: further)
          store read readUs results reply)

end

/-- A range delete of everything under the prefix has been written. -/
def Tombstoned (log : List InternalRecord) (p : Bytes) : Prop :=
  ∃ d ∈ log, d.op = .deleteRange ∧ d.key = p ∧ d.rangeEnd = some (incrementPrefixBytes p)

theorem queryOf_prefixRange (p : Bytes) : queryOf (prefixRange p) = prefixQuery p := by
  rw [queryOf, prefixRange_params]
  rfl

section
variable {S : Serde} {compressedLen : Bytes → Nat} {search : SlotSearch} {db after : Database} {log : List InternalRecord}
  {store : String} {nowUs : Int}

/-! ### Scans behind a deletion -/

theorem deletion_tombstoned {step : Option Value} (retained : Retained log db.engine)
    (performed : Performs S compressedLen search db (.request (.deleteObjectStore store) nowUs) (.ok step) after) :
    ∃ more, Retained (log ++ more) after.engine ∧ Tombstoned (log ++ more) (docPrefix store) := by
  cases performed with
  | done _ _ clock answers answered _ effect ran fits =>
    have wrote := request_writes S (.deleteObjectStore store) answers _ ran
    refine ⟨_, write_retained retained clock fits fun r member => (wrote r member).timeless, ?_⟩
    obtain ⟨deleted, ran', same⟩ : ∃ d, (getStoreSteps store).run answers = .ok d ∧
        effect = ⟨deleteStoreRecords d store, .remove store⟩ := by
      rw [Request.steps, deleteObjectStoreSteps, Program.run_bind, Program.run_bind] at ran
      obtain ⟨_, inner, outer⟩ := JsonIndexes.bind_ok ran
      obtain ⟨d, found, built⟩ := JsonIndexes.bind_ok inner
      obtain rfl := Except.ok.inj built
      exact ⟨d, found, (Prod.mk.inj (Except.ok.inj outer)).2.symm⟩
    have listed : rangeRecord (docPrefix store) ∈ effect.records := by simp [same, deleteStoreRecords]
    obtain ⟨n, inside⟩ := assigned db.engine.seqCounter listed
    exact ⟨_, List.mem_append_right _ inside, rfl, rfl, rfl⟩

theorem Tombstoned.append {p : Bytes} (tombstoned : Tombstoned log p) (more : List InternalRecord) :
    Tombstoned (log ++ more) p := by
  obtain ⟨d, member, shape⟩ := tombstoned
  exact ⟨d, List.mem_append_left _ member, shape⟩

theorem docs_unscanned (retained : Retained log db.engine) (tombstoned : Tombstoned log (docPrefix store))
    (clock : nowUs < i64Max) {answers : ∀ q, Answer q} (answered : Answered search db nowUs answers) :
    answers (.scan (docRange store)) = [] := by
  obtain ⟨d, member, op, key, range⟩ := tombstoned
  obtain ⟨out, scan, same⟩ := answered.scan (docRange store) rfl
  rw [docRange, queryOf_prefixRange] at scan
  rw [same, prefix_deleted retained (docPrefix_tagged store) clock member op key range scan]
  rfl

/-- What a count and a scan say of a store whose documents are all hidden. -/
theorem nothing_counted {answers : ∀ q, Answer q} (none_scanned : answers (.scan (docRange store)) = []) :
    (∀ n, (Read.count.steps S store).run answers = .ok (.number n) → n = 0) ∧
      ∀ docs, (Read.scan.steps S store).run answers = .ok (.documents docs) → docs = [] := by
  have asked : (scanSteps (docRange store)).run answers = .ok [] := congrArg Except.ok none_scanned
  constructor
  · intro n ran
    rw [Read.steps, Program.run_bind] at ran
    obtain ⟨_, _, ran⟩ := JsonIndexes.bind_ok ran
    rw [Program.run_bind, asked] at ran
    exact (Reply.number.inj (Except.ok.inj ran)).symm
  · intro docs ran
    rw [Read.steps, Program.run_bind] at ran
    obtain ⟨_, _, ran⟩ := JsonIndexes.bind_ok ran
    rw [Program.run_bind, asked] at ran
    exact (Reply.documents.inj (Except.ok.inj ran)).symm

/-- Whatever is done after it, a deleted store counts and scans as empty. -/
theorem deletion_hides (retained : Retained log db.engine) {steps : List Step}
    {results : List (Except FlowError (Option Value))} {returned : Option Value}
    (ran : Runs S compressedLen search db (.request (.deleteObjectStore store) nowUs :: steps) (.ok returned :: results)
      after) {readUs : Int} (clock : readUs < i64Max) :
    (∀ n, Replies S search after readUs store .count (.ok (.number n)) → n = 0) ∧
      ∀ docs, Replies S search after readUs store .scan (.ok (.documents docs)) → docs = [] := by
  cases ran with
  | cons first rest =>
    obtain ⟨here, middle, tombstoned⟩ := deletion_tombstoned retained first
    obtain ⟨later, whole⟩ := runs_retained middle rest
    have unscanned := fun answers (answered : Answered search after readUs answers) =>
      docs_unscanned whole (tombstoned.append later) clock answered
    constructor
    · rintro n ⟨answers, answered, ran⟩
      exact (nothing_counted (unscanned answers answered)).1 n ran
    · rintro docs ⟨answers, answered, ran⟩
      exact (nothing_counted (unscanned answers answered)).2 docs ran

/-! ### The first document of a new store -/

theorem getBytes_unwritten (session : Session log db.engine) {answers : ∀ q, Answer q}
    (answered : Answered search db nowUs answers) {key : Bytes} (unwritten : ∀ r ∈ log, r.key ≠ key) :
    answers (.getBytes key) = none := by
  have apart : ∀ r ∈ log, r.slot ≠ toLex (key, 0) := fun r member same =>
    unwritten r member (Prod.mk.inj (toLex_inj.mp same)).1
  rw [answered.getBytes, getSync_unwritten session search apart]
  rfl

/-- A new store of the key path takes the document, under this key. -/
structure Storable (S : Serde) (store keyPath : String) (doc keyVal : Value) : Prop where
  valid : validateStoreDef store keyPath = .ok ()
  schema : ∃ record, schemaRecord S ⟨store, keyPath, false, [], 0⟩ = .ok record ∧ TableFits record
  keyed : extractField doc keyPath = some keyVal
  written : ∃ key bytes, encodePrimaryKey S keyVal = .ok key ∧ encodeDoc S doc = .ok bytes ∧
    TableFits (putRecord (docKey store key) bytes)

theorem of_one {P : InternalRecord → Prop} {record : InternalRecord} (holds : P record) : ∀ x ∈ [record], P x :=
  fun _ member => List.mem_singleton.mp member ▸ holds

theorem write_one (retained : Retained log db.engine) (clock : nowUs < i64Max) {record : InternalRecord}
    (change : SchemaChange) (fits : TableFits record) (timeless : Timeless record) :
    Retained (log ++ [{ record with seq := db.engine.seqCounter }])
      (db.write compressedLen ⟨[record], change⟩ nowUs).engine :=
  @write_retained compressedLen db log retained nowUs clock ⟨[record], change⟩ (of_one fits) (of_one timeless)

/-- A document under a new key is scanned, where nothing was ever range-deleted. -/
theorem new_document_scanned (retained : Retained log db.engine) (points : ∀ r ∈ log, r.op = .put ∨ r.op = .delete)
    {key bytes : Bytes} (unwritten : ∀ r ∈ log, r.key ≠ docKey store key) (clock : nowUs < i64Max)
    (fits : TableFits (putRecord (docKey store key) bytes)) {answers : ∀ q, Answer q}
    (answered : Answered search (db.write compressedLen ⟨[putRecord (docKey store key) bytes], .keep⟩ nowUs) nowUs answers) :
    answers (.scan (docRange store)) ≠ [] := by
  have written := @write_one compressedLen db log nowUs retained clock _ .keep fits ⟨rfl, rfl⟩
  obtain ⟨out, scan, shown⟩ := answered.scan (docRange store) rfl
  rw [docRange, queryOf_prefixRange] at scan
  have last := List.mem_append_right log
    (List.mem_singleton_self { putRecord (docKey store key) bytes with seq := db.engine.seqCounter })
  have found := lone_put_scanned written (docPrefix_tagged store) clock (fun r member => ?_) last rfl
    (JsonSessions.docPrefix_isPrefix store key) (fun r member same => ?_) scan
  · rw [shown]
    exact mt List.map_eq_nil_iff.mp (List.ne_nil_of_mem found)
  · rcases List.mem_append.mp member with old | new
    · exact points r old
    · exact Or.inl (List.mem_singleton.mp new ▸ rfl)
  · rcases List.mem_append.mp member with old | new
    · exact absurd (Prod.mk.inj (toLex_inj.mp same)).1 (unwritten r old)
    · exact List.mem_singleton.mp new

/-- A store's creation in a new database, and what it leaves. -/
theorem first_store (config : Config) {keyPath : String} {doc keyVal : Value}
    (storable : Storable S store keyPath doc keyVal) : ∃ made record,
      Runs S compressedLen search (.empty config) [.request (.createObjectStore store keyPath) 0] [.ok none] made ∧
      Retained [record] made.engine ∧ record.op = .put ∧ (∀ key, record.key ≠ docKey store key) ∧
      made.schema.get? store = some ⟨store, keyPath, false, [], 0⟩ := by
  obtain ⟨record, schemaText, fits⟩ := storable.schema
  have clock : (0 : Int) < i64Max := by decide
  have created := (@performs_iff S compressedLen search (.empty config) _ (.createObjectStore store keyPath) 0 none
    ⟨[record], .insert ⟨store, keyPath, false, [], 0⟩⟩ (.ok none) clock (of_one fits)
    fun answers answered => createObjectStore_run storable.valid (answered.schema store) schemaText).mpr ⟨rfl, rfl⟩
  have timeless := (writes_schema S (.createObjectStore store keyPath) _ _ schemaText).timeless
  have retained := @write_one compressedLen _ [] 0 (retained_empty config) clock record
    (.insert ⟨store, keyPath, false, [], 0⟩) fits timeless
  refine ⟨_, _, .cons created (.nil _), retained, ?_, ?_, get?_insert_self _ _ _⟩
  all_goals obtain ⟨schemaBytes, _, rfl⟩ := JsonIndexes.schemaRecord_printed schemaText
  · rfl
  · exact fun key same => absurd (List.cons.inj same).1 (by decide)

/-- A new store has no document. -/
theorem nothing_stored (config : Config) {keyPath : String} {doc keyVal : Value}
    (storable : Storable S store keyPath doc keyVal) :
    Observed S compressedLen search (.empty config) [.request (.createObjectStore store keyPath) 0] store (.get keyVal) 0
      [.ok none] (.ok (.document none)) := by
  obtain ⟨made, record, created, retained, _, apart, known⟩ :=
    @first_store S compressedLen search store config keyPath doc keyVal storable
  obtain ⟨key, bytes, encoded, _⟩ := storable.written
  refine ⟨made, created, (replies_iff fun answers answered => ?_).mpr rfl⟩
  exact get_absent ((answered.schema store).trans known) encoded
    (getBytes_unwritten retained.toSession answered (of_one (apart key)))

/-- The first document of a new store counts. -/
theorem first_document_counted (config : Config) {keyPath : String} {doc keyVal : Value}
    (storable : Storable S store keyPath doc keyVal) : ∃ after n,
      Runs S compressedLen search (.empty config) [.request (.createObjectStore store keyPath) 0, .request (.put store doc) 0]
        [.ok none, .ok (some keyVal)] after ∧ Replies S search after 0 store .count (.ok (.number n)) ∧ n ≠ 0 := by
  obtain ⟨made, record, created, retained, put, apart, known⟩ :=
    @first_store S compressedLen search store config keyPath doc keyVal storable
  obtain ⟨key, bytes, encoded, text, fits⟩ := storable.written
  have clock : (0 : Int) < i64Max := by decide
  have unwritten : ∀ r ∈ [record], r.key ≠ docKey store key := of_one (apart key)
  have stored := (@performs_iff S compressedLen search made _ (.put store doc) 0 (some keyVal)
    ⟨[putRecord (docKey store key) bytes], .keep⟩ _ clock (of_one fits) fun answers answered =>
      put_run ((answered.schema store).trans known) storable.keyed encoded text
        (getBytes_unwritten retained.toSession answered unwritten) nofun).mpr ⟨rfl, rfl⟩
  obtain ⟨answers, answered⟩ := exists_answered search
    (made.write compressedLen ⟨[putRecord (docKey store key) bytes], .keep⟩ 0) 0
  refine ⟨_, _, created.append (.cons stored (.nil _)), ⟨answers, answered,
    count_run ((answered.schema store).trans known)⟩, fun zero => ?_⟩
  exact new_document_scanned retained (of_one (Or.inl put)) unwritten clock fits answered (List.length_eq_zero_iff.mp zero)

def plainStore : StoreDef := ⟨"s", "id", false, [], 0⟩

def idIndex : IndexDef := ⟨["id"], "i", false, false⟩

def indexedStore : StoreDef := ⟨"s", "id", false, [idIndex], 0⟩

def namedDoc : Value := .object [("id", .string "a")]

def indexText : Bytes := utf8 "\x7b\"key_paths\":[\"id\"],\"name\":\"i\",\"unique\":false,\"multi_entry\":false\x7d"

def storeText (indexes : Bytes) : Bytes :=
  utf8 "\x7b\"name\":\"s\",\"key_path\":\"id\",\"auto_increment\":false,\"indexes\":[" ++ indexes ++
    utf8 "],\"next_auto_id\":0\x7d"

theorem storeText_nul_free {indexes : Bytes} (free : (0 : UInt8) ∉ indexes) : (0 : UInt8) ∉ storeText indexes := by
  simp only [storeText, List.mem_append, free, or_false]
  decide

theorem storeText_fits {indexes : Bytes} (small : indexes.length < 256) :
    TableFits (putRecord (schemaKey "s") (storeText indexes)) := by
  have front : (utf8 "\x7b\"name\":\"s\",\"key_path\":\"id\",\"auto_increment\":false,\"indexes\":[").length < 256 := by
    decide
  have back : (utf8 "],\"next_auto_id\":0\x7d").length < 256 := by decide
  refine ⟨(by decide : (schemaKey "s").length < 2 ^ 16), (by decide : InI64 0), (by decide : InI64 i64Max), nofun, ?_⟩
  change (storeText indexes).length < 2 ^ 32
  rw [storeText, List.length_append, List.length_append]
  omega

def namedText : Bytes := utf8 "\x7b\"id\":\"a\"\x7d"

def storeSerde : Serde where
  toVec v := match v with
    | .object [("id", .string "a")] => some namedText
    | .object [("name", .string "s"), ("key_path", .string "id"), ("auto_increment", .bool false), ("indexes", .array []),
        ("next_auto_id", .number (.posInt 0))] => some (storeText [])
    | .object [("name", .string "s"), ("key_path", .string "id"), ("auto_increment", .bool false),
        ("indexes", .array [.object [("key_paths", .array [.string "id"]), ("name", .string "i"), ("unique", .bool false),
          ("multi_entry", .bool false)]]), ("next_auto_id", .number (.posInt 0))] => some (storeText indexText)
    | _ => none
  fromSlice b := if b = namedText then some namedDoc else none
  floatText _ := [48, 46, 48]
  debugValues _ := "[String(\"a\")]"
  debugLossy _ := "\"a\""
  errorText _ := "expected value at line 1 column 1"
  round_trip v b proper written := by
    split at written
    · obtain rfl := Option.some.inj written
      exact if_pos rfl
    · exact absurd proper (by decide)
    · exact absurd proper (by decide)
    · cases written
  text_nul_free v b written := by
    split at written
    · obtain rfl := Option.some.inj written
      decide
    · obtain rfl := Option.some.inj written
      exact storeText_nul_free (by decide)
    · obtain rfl := Option.some.inj written
      exact storeText_nul_free (by decide)
    · cases written
  float_nul_free := zeroPointZero_nul_free

theorem namedDoc_storable : Storable storeSerde "s" "id" namedDoc (.string "a") :=
  ⟨by rfl, ⟨_, rfl, storeText_fits (by decide)⟩, by rfl, ⟨_, _, rfl, rfl, by decide⟩⟩

/-- Wherever a run has led, a store that is deleted and created again does not start afresh once it can take a
document: behind its deletion it always counts and scans as empty, and without a `delete` a point read
finds every document that was ever put. -/
theorem deletion_never_starts_afresh {config : Config} {history : List Step}
    {earlier : List (Except FlowError (Option Value))}
    (reached : Runs S compressedLen search (.empty config) history earlier db) {keyPath : String} {doc keyVal : Value}
    (storable : Storable S store keyPath doc keyVal) :
    ¬ StartsAfresh S compressedLen search db store ∧
    ∀ nowUs returned steps results after readUs, readUs < i64Max →
      Runs S compressedLen search db (.request (.deleteObjectStore store) nowUs :: steps) (.ok returned :: results) after →
      (∀ n, Replies S search after readUs store .count (.ok (.number n)) → n = 0) ∧
      (∀ docs, Replies S search after readUs store .scan (.ok (.documents docs)) → docs = []) ∧
      (NoDelete (history ++ steps) → ∀ doc keyVal putUs,
        (Step.request (.put store doc) putUs, Except.ok (some keyVal)) ∈ history.zip earlier ++ steps.zip results →
        ¬ Replies S search after readUs store (.get keyVal) (.ok (.document none))) := by
  obtain ⟨log, retained⟩ := runs_retained (retained_empty config) reached
  refine ⟨fun afresh => ?_, fun nowUs returned steps results after readUs clock ran => ?_⟩
  · obtain ⟨_, n, ran, counted, some⟩ := first_document_counted db.engine.config storable
    have creation : Creation store keyPath [.request (.createObjectStore store keyPath) 0] := ⟨⟨0, [], rfl, nofun⟩⟩
    obtain ⟨_, ran', counted'⟩ := (afresh 0 keyPath _ [.request (.put store doc) 0] creation
      (fun step member => List.mem_singleton.mp member ▸ .put doc 0) .count 0 _ _ (by decide)).mpr ⟨_, ran, counted⟩
    exact some ((deletion_hides retained ran' (by decide)).1 n counted')
  · obtain ⟨counts, scans⟩ := deletion_hides retained ran clock
    refine ⟨counts, scans, fun undeleted doc keyVal putUs done => ?_⟩
    have putDone : (Step.request (.put store doc) putUs, Except.ok (some keyVal)) ∈
        (history ++ .request (.deleteObjectStore store) nowUs :: steps).zip (earlier ++ .ok returned :: results) := by
      rw [List.zip_append reached.lengths, List.zip_cons_cons]
      exact List.mem_append.mpr ((List.mem_append.mp done).imp_right (List.mem_cons_of_mem _))
    refine put_document_read (reached.append ran) (fun store' key t member => ?_) clock putDone
    rcases List.mem_append.mp member with before | behind
    · exact undeleted store' key t (List.mem_append_left _ before)
    · rcases List.mem_cons.mp behind with now | later
      · cases now
      · exact undeleted store' key t (List.mem_append_right _ later)

/-- After its first document the store is deleted and created again. -/
theorem deletion_never_starts_afresh_first : ∃ db, Runs storeSerde List.length .first (.empty {})
    [.request (.createObjectStore "s" "id") 0, .request (.put "s" namedDoc) 0] [.ok none, .ok (some (.string "a"))] db ∧
    ¬ StartsAfresh storeSerde List.length .first db "s" := by
  obtain ⟨db, _, ran, _, _⟩ := @first_document_counted storeSerde List.length .first "s" {} "id" _ _ namedDoc_storable
  exact ⟨db, ran, (deletion_never_starts_afresh ran namedDoc_storable).1⟩

/-! ### An index created again -/

theorem docs_unwritten (session : Session log db.engine) (unwritten : ∀ r ∈ log, ¬ docPrefix store <+: r.key)
    {answers : ∀ q, Answer q} (answered : Answered search db nowUs answers) : answers (.scan (docRange store)) = [] := by
  obtain ⟨out, scan, same⟩ := answered.scan (docRange store) rfl
  rw [docRange, queryOf_prefixRange] at scan
  rw [same, List.map_eq_nil_iff]
  refine List.eq_nil_iff_forall_not_mem.mpr fun r inside => ?_
  obtain ⟨y, member, _, _, front⟩ := scan_written session scan inside
  exact unwritten y member front

/-- An index whose range delete the lookup sees shows nothing, what was put behind the delete included. -/
theorem lookup_hidden (session : Session log db.engine) {index : String} {value : Bytes}
    (visible : (idxPrefix store index, incrementPrefixBytes (idxPrefix store index)) ∈
      scanTombstones db.engine.memtables db.engine.tables (prefixQuery (idxValuePrefix store index value)) nowUs
        (prefixBlocks db.engine.tables (idxValuePrefix store index value) nowUs))
    {answers : ∀ q, Answer q} (answered : Answered search db nowUs answers) :
    answers (.scan (valueRange store index value)) = [] := by
  obtain ⟨out, scan, same⟩ := answered.scan (valueRange store index value) rfl
  rw [valueRange, queryOf_prefixRange] at scan
  have within : idxPrefix store index <+: idxValuePrefix store index value := ⟨value ++ [sep], by simp [idxPrefix, idxValuePrefix]⟩
  rw [same, covered_hidden session visible
    (fun key front => (between_increment (idxPrefix_tagged store index)).mpr (within.trans front)) scan]
  rfl

end

/-- Effects written one after the other to a new database, and the log of their records. -/
def written (effects : List Effect) : Database × List InternalRecord :=
  effects.foldl (fun done effect => (done.1.write List.length effect 0,
    done.2 ++ assignSeqs done.1.engine.seqCounter effect.records)) (.empty {}, [])

theorem written_retained (effects : List Effect) (fine : ∀ effect ∈ effects, ∀ x ∈ effect.records, TableFits x ∧ Timeless x) :
    Retained (written effects).2 (written effects).1.engine := by
  induction effects using List.reverseRecOn with
  | nil => exact retained_empty {}
  | append_singleton effects last ih =>
    have before := ih fun effect member => fine effect (List.mem_append_left _ member)
    have records := fine last (List.mem_append_right _ (List.mem_singleton_self last))
    rw [written, List.foldl_append]
    exact write_retained before (by decide) (fun x member => (records x member).1) fun x member => (records x member).2

def created : Effect := ⟨[putRecord (schemaKey "s") (storeText [])], .insert plainStore⟩

def indexCreated : Effect := ⟨[putRecord (schemaKey "s") (storeText indexText)], .insert indexedStore⟩

def indexDeleted : Effect := ⟨[rangeRecord (idxPrefix "s" "i"), putRecord (schemaKey "s") (storeText [])], .insert plainStore⟩

def namedPut : Effect :=
  ⟨[putRecord (docKey "s" (utf8 "a")) namedText, putRecord (idxKey "s" "i" [7, 97] (utf8 "a")) (utf8 "a")], .keep⟩

theorem created_fine : ∀ x ∈ created.records, TableFits x ∧ Timeless x :=
  of_one ⟨storeText_fits (by decide), by decide⟩

theorem indexCreated_fine : ∀ x ∈ indexCreated.records, TableFits x ∧ Timeless x :=
  of_one ⟨storeText_fits (by decide), by decide⟩

theorem indexDeleted_fine : ∀ x ∈ indexDeleted.records, TableFits x ∧ Timeless x :=
  List.forall_mem_cons.mpr ⟨by decide, created_fine⟩

theorem namedPut_fine : ∀ x ∈ namedPut.records, TableFits x ∧ Timeless x := by decide

theorem sample_retained (effects : List Effect) (known : effects ⊆ [created, indexCreated, indexDeleted, namedPut]) :
    Retained (written effects).2 (written effects).1.engine := by
  refine written_retained effects fun effect member => ?_
  have fine : ∀ effect ∈ [created, indexCreated, indexDeleted, namedPut], ∀ x ∈ effect.records, TableFits x ∧ Timeless x := by
    simp only [List.forall_mem_cons]
    exact ⟨created_fine, indexCreated_fine, indexDeleted_fine, namedPut_fine, nofun⟩
  exact fine effect (known member)

section
variable {db next : Database} {log : List InternalRecord} {result : Except FlowError (Option Value)}
  (retained : Retained log db.engine) (undocumented : ∀ r ∈ log, ¬ docPrefix "s" <+: r.key)
include retained undocumented

theorem createIndex_iff (known : db.schema.get? "s" = some plainStore) :
    Performs storeSerde List.length .first db (.request (.createIndex "s" "i" ["id"] false) 0) result next ↔
      result = .ok none ∧ next = db.write List.length indexCreated 0 :=
  performs_iff (by decide) (fun x member => (indexCreated_fine x member).1) fun _ answered => createIndex_run ((answered.schema "s").trans known) rfl rfl
    (docs_unwritten retained.toSession undocumented answered)

theorem put_iff (known : db.schema.get? "s" = some indexedStore) :
    Performs storeSerde List.length .first db (.request (.put "s" namedDoc) 0) result next ↔
      result = .ok (some (.string "a")) ∧ next = db.write List.length namedPut 0 := by
  refine performs_iff (by decide) (fun x member => (namedPut_fine x member).1) fun answers answered => ?_
  exact put_run ((answered.schema "s").trans known) rfl rfl rfl
    (getBytes_unwritten retained.toSession answered fun r member same =>
      undocumented r member (same ▸ JsonSessions.docPrefix_isPrefix "s" (utf8 "a"))) (by decide)

end

def flushed (db : Database) : Database := { db with engine := db.engine.doFlush List.length 0 }

theorem flushed_retained {db : Database} {log : List InternalRecord} (retained : Retained log db.engine) :
    Retained log (flushed db).engine := retained_doFlush List.length retained (by decide)

/-- The index deleted, created again and filled. -/
theorem rebuilt_hidden {answers : ∀ q, Answer q}
    (answered : Answered .first (flushed (written [created, indexCreated, indexDeleted, indexCreated, namedPut]).1) 0 answers) :
    answers (.scan (valueRange "s" "i" [7, 97])) = [] := by
  have retained := sample_retained [created, indexCreated, indexDeleted, indexCreated, namedPut] (by simp)
  exact lookup_hidden (flushed_retained retained).toSession (by decide +kernel) answered

def idPut : InternalRecord := putRecord (idxKey "s" "i" [7, 97] (utf8 "a")) (utf8 "a")

def builtLog : List InternalRecord :=
  [{ putRecord (schemaKey "s") (storeText []) with seq := 1000000 },
    { putRecord (schemaKey "s") (storeText indexText) with seq := 1000001 },
    { putRecord (docKey "s" (utf8 "a")) namedText with seq := 1000002 }, { idPut with seq := 1000003 }]

theorem built_log : (written [created, indexCreated, namedPut]).2 = builtLog := by
  have first : (written [created]).1.engine.seqCounter = 1000001 := by decide +kernel
  have second : (written [created, indexCreated]).1.engine.seqCounter = 1000002 := by decide +kernel
  change [] ++ assignSeqs 1000000 created.records ++ assignSeqs (written [created]).1.engine.seqCounter indexCreated.records ++
    assignSeqs (written [created, indexCreated]).1.engine.seqCounter namedPut.records = _
  rw [first, second]
  rfl

theorem built_alone : ∀ r ∈ builtLog, r.key = idPut.key → r = { idPut with seq := 1000003 } := by
  have schema : schemaKey "s" ≠ idPut.key := by decide
  have document : docKey "s" (utf8 "a") ≠ idPut.key := by decide
  intro r member same
  simp only [builtLog, List.mem_cons, List.not_mem_nil, or_false] at member
  rcases member with rfl | rfl | rfl | rfl
  · exact absurd same schema
  · exact absurd same schema
  · exact absurd same document
  · rfl

/-- The index created for the first time and filled. -/
theorem built_shown {answers : ∀ q, Answer q}
    (answered : Answered .first (flushed (written [created, indexCreated, namedPut]).1) 0 answers) :
    ∃ entry rest, answers (.scan (valueRange "s" "i" [7, 97])) = entry :: rest ∧ entry.2 = utf8 "a" := by
  have before := sample_retained [created, indexCreated, namedPut] (by simp)
  rw [built_log] at before
  have retained := flushed_retained before
  obtain ⟨out, scan, same⟩ := answered.scan (valueRange "s" "i" [7, 97]) rfl
  rw [valueRange, queryOf_prefixRange] at scan
  have put : { idPut with seq := 1000003 } ∈ builtLog := by simp [builtLog]
  have shown := lone_put_scanned retained ⟨idxTag, _, rfl, by decide⟩ (by decide) (by decide) put rfl (by decide)
    (fun r member slot => built_alone r member (Prod.mk.inj (toLex_inj.mp slot)).1) scan
  cases out with
  | nil => cases shown
  | cons first rest =>
    obtain ⟨y, member, _, shape, front⟩ := scan_written retained.toSession scan List.mem_cons_self
    have only : ∀ r ∈ builtLog, idxValuePrefix "s" "i" [7, 97] <+: r.key → r.value = utf8 "a" := by decide
    exact ⟨_, _, same, (congrArg Record.value shape).symm.trans (only y member front)⟩

def rebuildSteps : List Step :=
  [.request (.createIndex "s" "i" ["id"] false) 0, .request (.put "s" namedDoc) 0, .flush 0]

def rebuildResults : List (Except FlowError (Option Value)) := [.ok none, .ok (some (.string "a")), .ok none]

theorem rebuilt_lost : Observed storeSerde List.length .first (written [created, indexCreated]).1
    (.request (.deleteIndex "s" "i") 0 :: rebuildSteps) "s" (.getByIndex "i" (.string "a")) 0 (.ok none :: rebuildResults)
    (.ok (.documents [])) := by
  have clock : (0 : Int) < i64Max := by decide
  have known : (written [created, indexCreated]).1.schema.get? "s" = some indexedStore := get?_insert_self _ _ _
  have named : requireIndex indexedStore "s" "i" = .ok 0 := rfl
  have text : schemaRecord storeSerde plainStore = .ok (putRecord (schemaKey "s") (storeText [])) := rfl
  have retained := sample_retained [created, indexCreated, indexDeleted] (by simp)
  have again := sample_retained [created, indexCreated, indexDeleted, indexCreated] (by simp)
  have deleted : Performs storeSerde List.length .first (written [created, indexCreated]).1 (.request (.deleteIndex "s" "i") 0)
      (.ok none) (written [created, indexCreated, indexDeleted]).1 :=
    (performs_iff clock (fun x member => (indexDeleted_fine x member).1) fun answers answered =>
      deleteIndex_run ((answered.schema "s").trans known) named text).mpr ⟨rfl, rfl⟩
  have indexed := (createIndex_iff retained (by decide +kernel) (get?_insert_self _ _ _)).mpr ⟨rfl, rfl⟩
  have put := (put_iff again (by decide +kernel) (get?_insert_self _ _ _)).mpr ⟨rfl, rfl⟩
  refine ⟨_, .cons deleted (.cons indexed (.cons put (.cons (.flush 0 clock) (.nil _)))), ?_⟩
  refine (replies_iff fun answers answered => ?_).mpr rfl
  exact (getByIndex_run ((answered.schema "s").trans (get?_insert_self _ _ _)) rfl (rebuilt_hidden answered)).trans rfl

theorem built_found {after : Database}
    (ran : Runs storeSerde List.length .first (written [created]).1 rebuildSteps rebuildResults after) :
    ¬ Replies storeSerde .first after 0 "s" (.getByIndex "i" (.string "a")) (.ok (.documents [])) := by
  rintro ⟨answers, answered, read⟩
  have retained := sample_retained [created] (by simp)
  have indexed := sample_retained [created, indexCreated] (by simp)
  obtain ⟨_, first, ran⟩ := runs_cons_iff.mp ran
  obtain ⟨_, rfl⟩ := (createIndex_iff retained (by decide +kernel) (get?_insert_self _ _ _)).mp first
  obtain ⟨_, second, ran⟩ := runs_cons_iff.mp ran
  obtain ⟨_, rfl⟩ := (put_iff indexed (by decide +kernel) (get?_insert_self _ _ _)).mp second
  obtain ⟨clock, _, rfl⟩ := runs_flush_iff.mp ran
  obtain ⟨entry, rest, listed, named⟩ := built_shown answered
  have there : ∃ bytes, answers (.getBytes (docKey "s" entry.2)) = some bytes := by
    have document : { putRecord (docKey "s" (utf8 "a")) namedText with seq := 1000002 } ∈ builtLog := by simp [builtLog]
    have before := sample_retained [created, indexCreated, namedPut] (by simp)
    rw [built_log] at before
    obtain ⟨r, _, _, found⟩ := getSync_written (flushed_retained before) .first clock document (by decide)
    refine ⟨r.value, (answered.getBytes _).trans ?_⟩
    rw [named]
    exact congrArg _ found
  obtain ⟨bytes, there⟩ := there
  rw [getByIndex_run ((answered.schema "s").trans (get?_insert_self _ _ _)) rfl listed] at read
  cases fetched : (fetchSteps storeSerde "s" (entry :: rest)).run answers with
  | error e =>
    rw [fetched] at read
    cases read
  | ok docs =>
    rw [fetched] at read
    exact fetchSteps_found there fetched (Reply.documents.inj (Except.ok.inj read))

theorem index_lost : ¬ IndexStartsAfresh storeSerde List.length .first (written [created, indexCreated]).1 (written [created]).1
    "s" "i" := by
  intro afresh
  have further : ∀ step ∈ [Step.request (.put "s" namedDoc) 0, .flush 0], Further "s" step := by
    simp only [List.forall_mem_cons]
    exact ⟨.put namedDoc 0, .flush 0, nofun⟩
  obtain ⟨after, ran, read⟩ := (afresh 0 0 ["id"] false _ further (.getByIndex "i" (.string "a")) 0 _ _ (by decide)).mp rebuilt_lost
  exact built_found ran read

theorem store_created : Runs storeSerde List.length .first (.empty {}) [.request (.createObjectStore "s" "id") 0] [.ok none]
    (written [created]).1 := by
  have performed : Performs storeSerde List.length .first (.empty {}) (.request (.createObjectStore "s" "id") 0) (.ok none)
      (written [created]).1 :=
    (performs_iff (by decide) (fun x member => (created_fine x member).1) fun answers answered =>
      createObjectStore_run rfl ((answered.schema "s").trans rfl) rfl).mpr ⟨rfl, rfl⟩
  exact .cons performed (.nil _)

/-- A document is still read behind the deletion of its store, and an index that is deleted and created again loses
what is put into it. -/
theorem deletion_outlived :
    (∃ db, Runs storeSerde List.length .first (.empty {}) [.request (.createObjectStore "s" "id") 0, .request (.put "s" namedDoc) 0]
        [.ok none, .ok (some (.string "a"))] db ∧ ¬ StartsAfresh storeSerde List.length .first db "s") ∧
    ∃ db bare, Runs storeSerde List.length .first (.empty {})
        [.request (.createObjectStore "s" "id") 0, .request (.createIndex "s" "i" ["id"] false) 0] [.ok none, .ok none] db ∧
      Runs storeSerde List.length .first (.empty {}) [.request (.createObjectStore "s" "id") 0] [.ok none] bare ∧
      ¬ IndexStartsAfresh storeSerde List.length .first db bare "s" "i" := by
  constructor
  · obtain ⟨db, _, ran, _, _⟩ := @first_document_counted storeSerde List.length .first "s" {} "id" _ _ namedDoc_storable
    refine ⟨db, ran, fun afresh => ?_⟩
    have creation : Creation "s" "id" [.request (.createObjectStore "s" "id") 0] := ⟨⟨0, [], rfl, nofun⟩⟩
    obtain ⟨after, again, read⟩ := (afresh 0 "id" _ [] creation nofun (.get (.string "a")) 0 _ _ (by decide)).mpr
      (nothing_stored _ namedDoc_storable)
    have undeleted : NoDelete ([.request (.createObjectStore "s" "id") 0, .request (.put "s" namedDoc) 0] ++
        [.request (.deleteObjectStore "s") 0, .request (.createObjectStore "s" "id") 0]) := fun store key nowUs => by simp
    exact put_document_read (ran.append again) undeleted (by decide) (List.mem_cons_of_mem _ List.mem_cons_self) read
  · have retained := sample_retained [created] (by simp)
    have indexed := (createIndex_iff retained (by decide +kernel) (get?_insert_self _ _ _)).mpr ⟨rfl, rfl⟩
    exact ⟨_, _, store_created.append (.cons indexed (.nil _)), store_created, index_lost⟩

end FlowDb.StoreDeletion
