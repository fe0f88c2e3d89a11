import FlowDb.MemorySessions
import FlowDb.Restarts
import FlowDb.SchemaRecords

/-! A JsonDB whose process is killed, and the one that the next process opens on its directory. The
engine replays its log; the stores are read back from the records of their schemas. -/
namespace FlowDb.ReopenedDocuments
open ByteString OrderedMap Records WalLog Sstable TableStore MemoryTables Reads JsonValue JsonEncoding JsonDb JsonStores
open ConcurrentCommits OptimisticRuns Scans EngineOps EngineRuns LastingRecords EngineDatabase DirectoryRuns StoreDeletion
open CrashRecovery Restarts IndexAgreement MemorySessions SchemaRecords

/-! ### An engine that the next open continues -/

/-- Nothing in the log ever expires. -/
def Lasting (e : EngineOps.Engine) : Prop := ∀ x ∈ e.wal.logged, x.expireAt = i64Max

/-- An open on the log and the tables gives back all that reads can tell, at any time. -/
structure Recoverable (e : EngineOps.Engine) : Prop where
  ok : EngineOk e
  indexed : Indexed e.memtables.active
  synced : Synced e.tables
  bucketed : Bucketed e
  replayable : Replayable e (i64Max - 1)
  lasting : Lasting e

theorem recoverable_fresh {config : Config} (roomy : 0 < config.maxFrozenMemtables) : Recoverable (fresh config) := by
  have start : Start ⟨fresh config, i64Max - 1, [], []⟩ := ⟨⟨config, roomy, rfl⟩, rfl, rfl⟩
  obtain ⟨ok, indexed, synced, bucketed, _⟩ := ready_start start
  refine ⟨ok, indexed, synced, bucketed, replayable_start start, fun x member => ?_⟩
  rw [logged_fresh] at member
  cases member

section
variable {compressedLen : Bytes → Nat} {e : EngineOps.Engine} {nowUs : Int}

theorem lasting_doFlush (ok : EngineOk e) (lasting : Lasting e) : Lasting (e.doFlush compressedLen nowUs) := by
  rcases doFlush_cases compressedLen e nowUs ok.frozen with ⟨_, same⟩ | ⟨_, dropped⟩ | flushed
  · rwa [same]
  · rw [dropped]
    exact lasting
  · rw [flushed]
    intro x member
    rw [logged_syncAll] at member
    exact lasting x (logged_truncateBefore _ _ member)

theorem lasting_submit (ok : EngineOk e) {records : List InternalRecord}
    (fits : ∀ x ∈ assignSeqs e.seqCounter records, x.Fits ∧ TableFits x)
    (timeless : ∀ x ∈ assignSeqs e.seqCounter records, Timeless x) (lasting : Lasting e) :
    Lasting (e.submit compressedLen records nowUs) := by
  apply submit_keeps (P := Lasting) ok fits
  · intro x member
    rw [Engine.processBatchInner, WalRuns.writeEncoded_batch ok.log _ _ fun x there => (fits x there).1] at member
    rcases List.mem_append.mp member with old | new
    · exact lasting x old
    · obtain ⟨y, there, rfl⟩ := List.mem_map.mp new
      exact (timeless y there).2
  · intro e held x member
    rw [logged_syncAll] at member
    exact held x member
  · exact fun e inserted held => lasting_doFlush inserted held

variable (recoverable : Recoverable e) (clock : nowUs < i64Max)
include recoverable clock

theorem recoverable_doFlush : Recoverable (e.doFlush compressedLen nowUs) := by
  obtain ⟨ok, indexed, synced, bucketed, replayable, lasting⟩ := recoverable
  have within : max (i64Max - 1) nowUs = i64Max - 1 := max_eq_left (Int.le_sub_one_of_lt clock)
  refine ⟨engineOk_doFlush compressedLen ok nowUs, indexed_doFlush ok indexed nowUs, ?_, bucketed_doFlush bucketed nowUs,
    ?_, lasting_doFlush ok lasting⟩
  · exact kept_doFlush (fun config t records _ held => held.flush config compressedLen records) e nowUs synced
  · exact within ▸ replayable_doFlush ok nowUs replayable

theorem recoverable_submit {records : List InternalRecord}
    (fits : ∀ x ∈ assignSeqs e.seqCounter records, x.Fits ∧ TableFits x)
    (whole : ∀ x ∈ assignSeqs e.seqCounter records, x.dropEmptyEnd = x)
    (timeless : ∀ x ∈ assignSeqs e.seqCounter records, Timeless x) :
    Recoverable (e.submit compressedLen records nowUs) := by
  obtain ⟨ok, indexed, synced, bucketed, replayable, lasting⟩ := recoverable
  have within : max (i64Max - 1) nowUs = i64Max - 1 := max_eq_left (Int.le_sub_one_of_lt clock)
  refine ⟨engineOk_submit compressedLen ok nowUs fits, indexed_submit ok nowUs fits indexed, ?_,
    bucketed_submit ok bucketed nowUs fits, ?_, lasting_submit ok fits timeless lasting⟩
  · exact kept_submit (fun config t records _ held => held.flush config compressedLen records) e records nowUs synced
  · exact within ▸ replayable_submit ok nowUs fits whole replayable

end

theorem Recoverable.sameReads {e : EngineOps.Engine} (recoverable : Recoverable e) {config : Config}
    (roomy : 0 < config.maxFrozenMemtables) (buckets : config.timeBucketSecs = e.config.timeBucketSecs)
    (search : SlotSearch) (nowUs : Int) : SameReads search e (reopened config e) nowUs := by
  obtain ⟨ok, indexed, synced, bucketed, replayable, lasting⟩ := recoverable
  obtain ⟨past, shape, expired⟩ := replayable.mirrored
  have none : past = [] := by
    apply List.eq_nil_iff_forall_not_mem.mpr
    intro x member
    have replayed : x ∈ e.wal.replayFrom (CrashedWriters.lastFlushedSeq e) := shape ▸ List.mem_append_left _ member
    have forever := lasting x (SequenceNumbers.mem_replayed.mp replayed).2
    have bound := expired x member
    omega
  apply sameReads_reopened ok indexed synced bucketed roomy buckets
  have memory : (reopened config e).memtables.active.records =
      (reopened config e).wal.replayFrom (CrashedWriters.lastFlushedSeq e) := (foldl_insert _ _).1
  refine ⟨[], ?_, fun x member => ?_⟩
  · rw [memory, replayFrom_eq, logged_reopened ok config, ← replayFrom_eq, shape, none]
  · cases member

/-! ### Sessions -/

theorem incrementPrefixBytes_ne_nil (p : Bytes) : incrementPrefixBytes p ≠ [] := by
  rw [incrementPrefixBytes, incrementOr]
  cases grown : bumpLast p.reverse with
  | none => simp
  | some bumped =>
    obtain ⟨_, _, _, _, _, rfl⟩ := KeySpace.bumpLast_eq grown
    simp

theorem writes_whole {request : Request} {r : InternalRecord} (wrote : Writes request r) : r.dropEmptyEnd = r := by
  cases wrote with
  | put | beside | document => rfl
  | range pfx =>
    have ended : some (incrementPrefixBytes pfx) ≠ some [] := fun same =>
      incrementPrefixBytes_ne_nil pfx (Option.some.inj same)
    rw [InternalRecord.dropEmptyEnd, rangeRecord, InternalRecord.deleteRange, if_neg ended]

section
variable {S : Serde} {compressedLen : Bytes → Nat} {search : SlotSearch} {db next : Database} {log : List InternalRecord}

theorem assigned_tableFits {base : Nat} {records : List InternalRecord} (fits : ∀ x ∈ records, TableFits x) :
    ∀ x ∈ assignSeqs base records, TableFits x := by
  intro x member
  obtain ⟨_, _, y, there, shape⟩ := mem_assignSeqs _ _ x member
  have fit := fits y there
  rw [shape]
  exact ⟨fit.key, fit.ts, fit.expireAt, fit.rangeEnd, fit.value⟩

/-- A batch numbered within 64 bits fits the log as it fits the tables. -/
theorem assigned_fits {base : Nat} {records : List InternalRecord} (fits : ∀ x ∈ records, TableFits x)
    (counted : base + records.length ≤ 2 ^ 64) : ∀ x ∈ assignSeqs base records, x.Fits ∧ TableFits x := by
  intro x member
  have fit := assigned_tableFits fits x member
  have below := (mem_assignSeqs _ _ x member).2.1.trans_le counted
  have ended : ∀ re, x.rangeEnd = some re → re.length < 2 ^ 32 := fun re held =>
    (fit.rangeEnd re held).trans (by decide)
  exact ⟨⟨below, fit.key, fit.ts, fit.expireAt, ended, fit.value⟩, fit⟩

theorem write_counters (retained : Retained log db.engine) {effect : Effect} (nowUs : Int)
    (fits : ∀ x ∈ effect.records, TableFits x) :
    (db.write compressedLen effect nowUs).engine.config = db.engine.config ∧
      (db.write compressedLen effect nowUs).engine.seqCounter = db.engine.seqCounter + effect.records.length := by
  unfold Database.write
  dsimp only
  split_ifs with empty
  · rw [empty]
    exact ⟨rfl, rfl⟩
  · exact (session_submit compressedLen retained.toSession effect.records nowUs (assigned_tableFits fits)).2

theorem performs_counters {step : Step} {result : Except FlowError (Option Value)} (retained : Retained log db.engine)
    (performed : Performs S compressedLen search db step result next) :
    next.engine.config = db.engine.config ∧ db.engine.seqCounter ≤ next.engine.seqCounter := by
  cases performed with
  | done request nowUs clock answers answered result effect ran fits =>
    obtain ⟨config, counter⟩ := @write_counters compressedLen db log retained effect nowUs fits
    exact ⟨config, counter ▸ Nat.le_add_right _ _⟩
  | failed => exact ⟨rfl, le_rfl⟩
  | flush nowUs clock =>
    obtain ⟨config, counter⟩ := doFlush_counters compressedLen db.engine nowUs
    exact ⟨config, counter.ge⟩

theorem runs_counters {steps : List Step} {results : List (Except FlowError (Option Value))}
    (retained : Retained log db.engine) (ran : Runs S compressedLen search db steps results next) :
    next.engine.config = db.engine.config ∧ db.engine.seqCounter ≤ next.engine.seqCounter := by
  induction ran generalizing log with
  | nil db => exact ⟨rfl, le_rfl⟩
  | cons first rest ih =>
    obtain ⟨_, middle, _⟩ := performs_adds retained first
    obtain ⟨config, counter⟩ := performs_counters retained first
    obtain ⟨later, above⟩ := ih middle
    exact ⟨later.trans config, counter.trans above⟩

theorem performs_recoverable {step : Step} {result : Except FlowError (Option Value)} (retained : Retained log db.engine)
    (performed : Performs S compressedLen search db step result next) (counted : next.engine.seqCounter ≤ 2 ^ 64)
    (recoverable : Recoverable db.engine) : Recoverable next.engine := by
  cases performed with
  | done request nowUs clock answers answered result effect ran fits =>
    have wrote := request_writes S request answers _ ran
    rw [(write_counters retained nowUs fits).2] at counted
    unfold Database.write
    dsimp only
    split_ifs
    · exact recoverable
    · apply recoverable_submit recoverable clock (assigned_fits fits counted)
      · intro x member
        obtain ⟨_, _, y, there, shape⟩ := mem_assignSeqs _ _ x member
        have whole := congrArg InternalRecord.rangeEnd (writes_whole (wrote y there))
        rw [shape, InternalRecord.dropEmptyEnd]
        exact congrArg (fun re => { y with seq := x.seq, rangeEnd := re }) whole
      · intro x member
        obtain ⟨_, _, y, there, shape⟩ := mem_assignSeqs _ _ x member
        rw [shape]
        exact (wrote y there).timeless
  | failed => exact recoverable
  | flush nowUs clock => exact recoverable_doFlush recoverable clock

theorem runs_recoverable {steps : List Step} {results : List (Except FlowError (Option Value))}
    (retained : Retained log db.engine) (ran : Runs S compressedLen search db steps results next)
    (counted : next.engine.seqCounter ≤ 2 ^ 64) (recoverable : Recoverable db.engine) : Recoverable next.engine := by
  induction ran generalizing log with
  | nil db => exact recoverable
  | cons first rest ih =>
    obtain ⟨_, middle, _⟩ := performs_adds retained first
    exact ih middle counted (performs_recoverable retained first ((runs_counters middle rest).2.trans counted) recoverable)

/-! ### The next process -/

/-- Questions are answered by the second engine as by the first, given the same schemas. -/
theorem answered_iff {e : EngineOps.Engine} {nowUs : Int} (same : SameReads search db.engine e nowUs)
    (answers : ∀ q, Answer q) :
    Answered search ⟨e, db.schema⟩ nowUs answers ↔ Answered search db nowUs answers := by
  obtain ⟨gets, _, scans⟩ := same
  constructor
  · rintro ⟨schema, getBytes, scan⟩
    refine ⟨schema, fun key => (getBytes key).trans (congrArg _ (gets key 0)), fun range untimed => ?_⟩
    obtain ⟨out, scanned, shown⟩ := scan range untimed
    exact ⟨out, (scans _ out).mp scanned, shown⟩
  · rintro ⟨schema, getBytes, scan⟩
    refine ⟨schema, fun key => (getBytes key).trans (congrArg _ (gets key 0).symm), fun range untimed => ?_⟩
    obtain ⟨out, scanned, shown⟩ := scan range untimed
    exact ⟨out, (scans _ out).mpr scanned, shown⟩

theorem session_sameReads {config : Config} (roomy : 0 < config.maxFrozenMemtables) {steps : List Step}
    {results : List (Except FlowError (Option Value))} (ran : Runs S compressedLen search (.empty config) steps results db)
    (counted : db.engine.seqCounter ≤ 2 ^ 64) {next : Config} (roomier : 0 < next.maxFrozenMemtables)
    (buckets : next.timeBucketSecs = config.timeBucketSecs) (nowUs : Int) :
    SameReads search db.engine (reopened next db.engine) nowUs := by
  have recoverable := runs_recoverable (retained_empty config) ran counted (recoverable_fresh roomy)
  have same : db.engine.config = config := (runs_counters (retained_empty config) ran).1
  exact recoverable.sameReads roomier (same.symm ▸ buckets) search nowUs

end

/-- The indexed document, and a flush. -/
def flushedSession : Database := { indexedSession with engine := indexedSession.engine.doFlush List.length 0 }

section
variable (S : Serde)

/-- `from_engine` with what its scan of the schema records has returned. -/
def fromEngine (e : EngineOps.Engine) (records : List Record) : Except FlowError Database := do
  let schema ← (records.map fun r => (r.key, r.value)).foldlM (loadRecord S) ∅
  .ok ⟨e, schema⟩

/-- `JsonDB::from_engine` at `nowUs`. -/
def Opens (e : EngineOps.Engine) (nowUs : Int) (opened : Except FlowError Database) : Prop :=
  ∃ out, Scans e.memtables e.tables (queryOf (prefixRange schemaPrefix)) nowUs out ∧ opened = fromEngine S e out

variable {S} {debugPaths : List String → String}

theorem ofDocument_outside {records : List InternalRecord} (documents : ∀ r ∈ records, OfDocument r)
    (engine : JsonDb.Engine) {k : Bytes} (tagged : k.head? = some schTag) :
    (writeInternal engine records).get? k = engine.get? k := by
  apply StoreIsolation.writeInternal_untouched
  intro r member touches
  obtain ⟨point, named⟩ := documents r member
  have here : k = r.key := by
    rcases point with put | delete
    · rwa [StoreIsolation.Touches, put] at touches
    · rwa [StoreIsolation.Touches, delete] at touches
  rw [← here, tagged] at named
  exact absurd named (by decide)

/-- Calls on documents leave the records of the schemas as they are. -/
theorem documents_schemaRun {db : JsonDB} (before : SchemaRun S debugPaths db) {request : Request}
    (documents : (request.steps S).Ensures fun done => (∀ r ∈ done.2.records, OfDocument r) ∧ done.2.schema = .keep) :
    SchemaRun S debugPaths (request.perform S db).2 := by
  rw [← request_refines, onMap]
  cases ran : (request.steps S).run (answer db) with
  | error e => exact before
  | ok done =>
    obtain ⟨records, kept⟩ := documents _ done ran
    obtain ⟨returned, effect⟩ := done
    show SchemaRun S debugPaths ⟨writeInternal db.engine effect.records, effect.schema.apply db.schema⟩
    rw [show effect.schema = .keep from kept]
    exact .elsewhere db _ before fun k tagged => ofDocument_outside records db.engine tagged

theorem perform_schemaRun {db : JsonDB} (before : SchemaRun S debugPaths db) (request : Request) :
    SchemaRun S debugPaths (request.perform S db).2 := by
  cases request with
  | createObjectStore name keyPath => exact .call db (.createObjectStore name keyPath) before
  | deleteObjectStore name => exact .call db (.deleteObjectStore name) before
  | createIndex store name keyPaths unique => exact .call db (.createIndex store name keyPaths unique) before
  | deleteIndex store name => exact .call db (.deleteIndex store name) before
  | put store doc =>
    apply documents_schemaRun before
    exact (putSteps_ofDocument S store doc).bind fun done written => Program.ensures_pure ⟨written, rfl⟩
  | delete store key =>
    apply documents_schemaRun before
    exact (deleteSteps_ofDocument S store key).bind fun done written => Program.ensures_pure ⟨written, rfl⟩

theorem atomically_schemaRun {db : JsonDB} (before : SchemaRun S debugPaths db) (steps : List Step) :
    SchemaRun S debugPaths (atomically S db steps).2 := by
  induction steps generalizing db with
  | nil => exact before
  | cons step rest ih =>
    cases step with
    | request r nowUs => exact ih (perform_schemaRun before r)
    | flush nowUs => exact ih before

variable {compressedLen : Bytes → Nat} {search : SlotSearch} {db : Database}

end

def usersSession : Database :=
  (Database.empty {}).write List.length ⟨[putRecord (schemaKey "users") [123, 125]], .insert usersDef⟩ 0

theorem usersSession_ran : Runs usersSerde List.length .first (.empty {}) [.request (.createObjectStore "users" "id") 0]
    [.ok none] usersSession := by
  have performed : Performs usersSerde List.length .first (.empty {}) (.request (.createObjectStore "users" "id") 0) (.ok none)
      usersSession := by
    refine (performs_iff (by decide) (by decide) fun answers answered => ?_).mpr ⟨rfl, rfl⟩
    exact createObjectStore_run rfl ((answered.schema "users").trans rfl) rfl
  exact .cons performed (.nil _)

end FlowDb.ReopenedDocuments
