import FlowDb.BackgroundMaintenance
import FlowDb.ConfigSizes
import FlowDb.IndexAgreement
import FlowDb.LatestReads

/-! Closing an engine and opening its directory again. `close` flushes the active table and
hands what the log's writers have buffered to the files; the next open replays what no flush
has published, which by then is expired. -/
namespace FlowDb.Restarts
open ByteString OrderedMap Records WalCodec WalLog Sstable ManifestLog ManifestState BlockIndex BlockMetaIndex TableStore
open MemoryTables
open EngineOps EngineRuns Reads LatestReads MaintenanceSteps Interleaving CrashedWriters CrashRecovery
open BackgroundMaintenance IndexAgreement DirectoryRuns

-- The segments of a log hold the bytes its writers were given, buffered or not, so `flush_wal` leaves them as they are.
def Engine.close (compressedLen : Bytes → Nat) (e : Engine) (nowUs : Int) : Engine := e.doFlush compressedLen nowUs

section
variable {compressedLen : Bytes → Nat}

/-- What appending, syncing and flushing keep is kept by a submission. -/
theorem submit_keeps {P : Engine → Prop} {e : Engine} (ok : EngineOk e) {records : List InternalRecord} {nowUs : Int}
    (fits : ∀ x ∈ assignSeqs e.seqCounter records, x.Fits ∧ TableFits x)
    (appended : P (({ e with seqCounter := e.seqCounter + records.length } : Engine).processBatchInner
      (assignSeqs e.seqCounter records)))
    (sync : ∀ e, P e → P { e with wal := e.wal.syncAll })
    (flush : ∀ e, EngineOk e → P e → P (e.doFlush compressedLen nowUs)) : P (e.submit compressedLen records nowUs) := by
  have counted : EngineOk { e with seqCounter := e.seqCounter + records.length } :=
    ⟨ok.frozen, ok.roomy, ok.log, ok.tables, ok.memory, ok.logged⟩
  have inserted := engineOk_processBatchInner counted fits
  rw [submit_eq compressedLen ok, Engine.flushIfFull, Engine.syncGroup]
  split_ifs
  · exact flush _ (engineOk_syncAll inserted) (sync _ appended)
  · exact sync _ appended
  · exact flush _ inserted appended
  · exact appended

/-! ### What the log holds that no flush has published -/

/-- Every record of the log is published, expired, or in memory. -/
def Accounted (e : Engine) (clock : Int) : Prop :=
  ∀ x ∈ e.wal.logged, x.seq ≤ CrashedWriters.lastFlushedSeq e ∨ x.expireAt ≤ clock ∨
    ∃ y ∈ e.memtables.active.records, y.seq = x.seq ∧ y.expireAt = x.expireAt

theorem Accounted.later {e : Engine} {clock clock' : Int} (accounted : Accounted e clock) (later : clock ≤ clock') :
    Accounted e clock' := by
  intro x member
  rcases accounted x member with published | expired | held
  · exact Or.inl published
  · exact Or.inr (Or.inl (expired.trans later))
  · exact Or.inr (Or.inr held)

theorem accounted_syncAll {e : Engine} {clock : Int} (accounted : Accounted e clock) :
    Accounted { e with wal := e.wal.syncAll } clock := by
  intro x member
  rw [logged_syncAll] at member
  exact accounted x member

/-- Behind a flush nothing of the log is left that is neither published nor expired. -/
theorem settled_doFlush {e : Engine} (ok : EngineOk e) {clock : Int} (nowUs : Int) (accounted : Accounted e clock) :
    (e.doFlush compressedLen nowUs).memtables.active.records = [] ∧
      ∀ x ∈ (e.doFlush compressedLen nowUs).wal.logged,
        x.seq ≤ CrashedWriters.lastFlushedSeq (e.doFlush compressedLen nowUs) ∨ x.expireAt ≤ max clock nowUs := by
  rcases doFlush_cases compressedLen e nowUs ok.frozen with ⟨empty, same⟩ | ⟨expired, dropped⟩ | flushed
  · rw [same]
    refine ⟨empty, fun x member => ?_⟩
    rcases accounted x member with published | past | ⟨y, held, _⟩
    · exact Or.inl published
    · exact Or.inr (le_max_of_le_left past)
    · rw [empty] at held
      cases held
  · rw [dropped]
    refine ⟨rfl, fun x member => ?_⟩
    rcases accounted x member with published | past | ⟨y, held, _, same⟩
    · exact Or.inl published
    · exact Or.inr (le_max_of_le_left past)
    · right
      rw [← same]
      by_contra late
      have kept := (mem_flushable _ nowUs y).mpr ⟨held, (le_max_right clock nowUs).trans_lt (not_le.mp late)⟩
      rw [expired] at kept
      cases kept
  · rw [flushed]
    refine ⟨rfl, fun x member => ?_⟩
    have number := @addFlushed_lastFlushedSeq compressedLen e.config e.tables
      (flushable e.memtables.active.records nowUs)
    rw [logged_syncAll] at member
    rw [CrashedWriters.lastFlushedSeq, number]
    rcases accounted x (logged_truncateBefore _ _ member) with published | past | ⟨y, held, seq, same⟩
    · exact Or.inl (le_max_of_le_left published)
    · exact Or.inr (le_max_of_le_left past)
    · by_cases live : nowUs < y.expireAt
      · left
        rw [← seq]
        have inside := (mem_flushable _ nowUs y).mpr ⟨held, live⟩
        exact le_max_of_le_right (le_foldl_max _ 0 _ (Or.inl (List.mem_map.mpr ⟨y, inside, rfl⟩)))
      · right
        rw [← same]
        exact le_max_of_le_right (not_lt.mp live)

theorem accounted_doFlush {e : Engine} (ok : EngineOk e) {clock : Int} (nowUs : Int) (accounted : Accounted e clock) :
    Accounted (e.doFlush compressedLen nowUs) (max clock nowUs) := by
  intro x member
  rcases (settled_doFlush ok nowUs accounted).2 x member with published | past
  · exact Or.inl published
  · exact Or.inr (Or.inl past)

theorem accounted_processBatchInner {e : Engine} (ok : EngineOk e) {clock : Int} {records : List InternalRecord}
    (fits : ∀ x ∈ records, x.Fits) (accounted : Accounted e clock) :
    Accounted (e.processBatchInner records) clock := by
  have active : (e.processBatchInner records).memtables.active.records = e.memtables.active.records ++ records :=
    (foldl_insert records e.memtables).1
  intro x member
  rw [Engine.processBatchInner, WalRuns.writeEncoded_batch ok.log _ _ fits] at member
  rw [active]
  rcases List.mem_append.mp member with old | new
  · rcases accounted x old with published | past | ⟨y, held, same⟩
    · exact Or.inl published
    · exact Or.inr (Or.inl past)
    · exact Or.inr (Or.inr ⟨y, List.mem_append_left _ held, same⟩)
  · obtain ⟨y, there, rfl⟩ := List.mem_map.mp new
    exact Or.inr (Or.inr ⟨y, List.mem_append_right _ there, rfl, rfl⟩)

theorem accounted_submit {e : Engine} (ok : EngineOk e) {clock : Int} {records : List InternalRecord} (nowUs : Int)
    (fits : ∀ x ∈ assignSeqs e.seqCounter records, x.Fits ∧ TableFits x) (accounted : Accounted e clock) :
    Accounted (e.submit compressedLen records nowUs) (max clock nowUs) := by
  have counted : EngineOk { e with seqCounter := e.seqCounter + records.length } :=
    ⟨ok.frozen, ok.roomy, ok.log, ok.tables, ok.memory, ok.logged⟩
  have appended : Accounted (({ e with seqCounter := e.seqCounter + records.length } : Engine).processBatchInner
      (assignSeqs e.seqCounter records)) clock :=
    accounted_processBatchInner counted (fun x member => (fits x member).1) accounted
  apply submit_keeps (P := fun e => Accounted e (max clock nowUs)) ok fits (appended.later (le_max_left _ _))
  · exact fun e held => accounted_syncAll held
  · intro e inserted held
    have flushed := @accounted_doFlush compressedLen e inserted _ nowUs held
    rwa [max_eq_left (le_max_right clock nowUs)] at flushed

/-! ### Runs -/

/-- No persisted filter is of another version where index and manifest agree. -/
theorem stale_none {t : Tables} (synced : Synced t) : staleSsts t.manifest.state = [] := by
  apply List.filter_eq_nil_iff.mpr
  intro id _
  cases known : t.manifest.state.sstables.get? id with
  | none => simp
  | some info =>
    cases has : info.bloom with
    | none => simp [has]
    | some f => simp [has, synced.current id info f known has]

theorem synced_reopened {e : Engine} (synced : Synced e.tables) (config : Config) :
    Synced (reopened config e).tables := by
  have same : Restated e.tables.manifest.state e.tables.manifest.state :=
    ⟨rfl, rfl, synced.consistent.nodup, fun _ => Iff.rfl, fun _ => rfl, fun _ info _ there has _ => ⟨info, there, has⟩⟩
  have again := synced.openAgain config e.wal.files e.tables.manifest same
  rwa [openMigrating_current _ _ _ _ _ (stale_none synced)] at again

/-- The time buckets of the index are as wide as the configuration says. -/
def Bucketed (e : Engine) : Prop := e.tables.index.timeBucketUs = e.config.timeBucketSecs * 1000000

theorem width_publish (t : Tables) (m : ManifestLog.Manifest) (info : SstInfo) (f : SstFile) (bloom : Bloom.BloomFilter) :
    (publishSst t m info f bloom).index.timeBucketUs = t.index.timeBucketUs := ConfigSizes.addBlocks_width _ _

theorem width_deleteSsts (t : Tables) (ids : List Nat) :
    (deleteSsts t ids).index.timeBucketUs = t.index.timeBucketUs := by
  rw [deleteSsts]
  generalize t.index = idx
  induction ids generalizing idx with
  | nil => rfl
  | cons id rest ih => exact ih (idx.removeSst id)

theorem width_run (config : Config) (t : Tables) (popped : List InternalRecord) :
    (CompactionRunner.run config compressedLen t popped).index.timeBucketUs = t.index.timeBucketUs := by
  simp only [CompactionRunner.run]
  split_ifs
  · rfl
  · rfl
  · exact width_deleteSsts t _
  · rw [width_publish, width_deleteSsts]

theorem bucketed_doFlush {e : Engine} (bucketed : Bucketed e) (nowUs : Int) : Bucketed (e.doFlush compressedLen nowUs) := by
  have tables : (e.doFlush compressedLen nowUs).tables.index.timeBucketUs = e.config.timeBucketSecs * 1000000 :=
    kept_doFlush (P := fun t => t.index.timeBucketUs = e.config.timeBucketSecs * 1000000)
      (fun config t records _ held => (width_publish _ _ _ _ _).trans held) e nowUs bucketed
  rw [Bucketed, (doFlush_counters compressedLen e nowUs).1]
  exact tables

theorem bucketed_submit {e : Engine} (ok : EngineOk e) (bucketed : Bucketed e) {records : List InternalRecord} (nowUs : Int)
    (fits : ∀ x ∈ assignSeqs e.seqCounter records, x.Fits ∧ TableFits x) :
    Bucketed (e.submit compressedLen records nowUs) := by
  apply submit_keeps ok fits
  · exact bucketed
  · exact fun e held => held
  · exact fun e _ held => bucketed_doFlush held nowUs

theorem bucketed_command {e : Engine} (ok : EngineOk e) (bucketed : Bucketed e) {c : Command} (nowUs : Int)
    (fits : ∀ x ∈ assignSeqs e.seqCounter (c.records e.config), x.Fits ∧ TableFits x) :
    Bucketed (c.exec compressedLen e nowUs) := by
  rcases exec_cases compressedLen c e nowUs with ⟨_, same | flushed⟩ | submitted
  · rwa [same]
  · rw [flushed]
    exact bucketed_doFlush bucketed nowUs
  · rw [submitted]
    exact bucketed_submit ok bucketed nowUs fits

theorem bucketed_reopened {e : Engine} (synced : Synced e.tables) (config : Config) : Bucketed (reopened config e) :=
  (built_open config e.wal.files e.tables.manifest e.tables.files synced.consistent).2

theorem indexed_doFlush {e : Engine} (ok : EngineOk e) (indexed : Indexed e.memtables.active) (nowUs : Int) :
    Indexed (e.doFlush compressedLen nowUs).memtables.active := by
  rcases doFlush_cases compressedLen e nowUs ok.frozen with ⟨_, same⟩ | ⟨_, dropped⟩ | flushed
  · rwa [same]
  · rw [dropped]
    exact indexed_new
  · rw [flushed]
    exact indexed_new

theorem indexed_submit {e : Engine} (ok : EngineOk e) {records : List InternalRecord} (nowUs : Int)
    (fits : ∀ x ∈ assignSeqs e.seqCounter records, x.Fits ∧ TableFits x) (indexed : Indexed e.memtables.active) :
    Indexed (e.submit compressedLen records nowUs).memtables.active := by
  apply submit_keeps (P := fun e => Indexed e.memtables.active) ok fits
  · exact (foldl_insert (assignSeqs e.seqCounter records) e.memtables).2.2 indexed
  · exact fun e held => held
  · exact fun e inserted held => indexed_doFlush inserted held nowUs

theorem indexed_command {e : Engine} (ok : EngineOk e) {c : Command} (nowUs : Int)
    (fits : ∀ x ∈ assignSeqs e.seqCounter (c.records e.config), x.Fits ∧ TableFits x)
    (indexed : Indexed e.memtables.active) : Indexed (c.exec compressedLen e nowUs).memtables.active := by
  rcases exec_cases compressedLen c e nowUs with ⟨_, same | flushed⟩ | submitted
  · rwa [same]
  · rw [flushed]
    exact indexed_doFlush ok indexed nowUs
  · rw [submitted]
    exact indexed_submit ok nowUs fits indexed

/-- An engine between two operations of a run, its log and its tables. -/
structure Ready (w : World) : Prop where
  ok : EngineOk w.engine
  indexed : Indexed w.engine.memtables.active
  synced : Synced w.engine.tables
  bucketed : Bucketed w.engine
  accounted : Accounted w.engine w.clock

theorem logged_fresh (config : Config) : (fresh config).wal.logged = [] := by
  simp [fresh, Engine.open, Wal.openDir, Wal.createNewSegment, Wal.logged, Wal.files, replaySegment, replayLoop]

theorem ready_start {w : World} (start : Start w) : Ready w := by
  obtain ⟨config, _, opened⟩ := start.engine
  refine ⟨(carried_start (r := .delete [] 0 0) start).ok, ?_, ?_, ?_, ?_⟩
  · rw [opened]
    exact indexed_new
  · rw [opened]
    exact Synced.new config.timeBucketSecs
  · rw [opened]
    rfl
  · rw [opened]
    intro x member
    rw [logged_fresh] at member
    cases member

theorem ready_step {w : World} (ready : Ready w) {choice : CrashRecovery.Choice} (fitting : Fitting w choice) :
    Ready (w.exec compressedLen choice) := by
  obtain ⟨ok, indexed, synced, bucketed, accounted⟩ := ready
  cases choice with
  | command c nowUs =>
    have fits := fitting.2 c nowUs rfl
    refine ⟨stable_engineOk.command w.engine c nowUs fits ok, indexed_command ok nowUs fits indexed, ?_,
      bucketed_command ok bucketed nowUs fits, ?_⟩
    · exact kept_command (fun config t records _ held => held.flush config compressedLen records) c w.engine nowUs synced
    · show Accounted (c.exec compressedLen w.engine nowUs) (max w.clock nowUs)
      rcases exec_cases compressedLen c w.engine nowUs with ⟨_, same | flushed⟩ | submitted
      · rw [same]
        exact accounted.later (le_max_left _ _)
      · rw [flushed]
        exact accounted_doFlush ok nowUs accounted
      · rw [submitted]
        exact accounted_submit ok nowUs fits accounted
  | compact nowUs popped =>
    refine ⟨stable_engineOk.compact w.engine nowUs popped fitting.1 ok, indexed,
      synced.compact w.engine.config compressedLen popped, ?_, fun x member => ?_⟩
    · exact (width_run w.engine.config w.engine.tables popped).trans bucketed
    · rcases accounted.later (le_max_left w.clock nowUs) x member with published | expiredOrHeld
      · exact Or.inl (published.trans_eq (run_lastFlushedSeq w.engine.config compressedLen w.engine.tables popped).symm)
      · exact Or.inr expiredOrHeld
  | gc nowUs =>
    refine ⟨ok_gc ok nowUs, indexed, synced.deleteSsts _, (width_deleteSsts _ _).trans bucketed, fun x member => ?_⟩
    rcases accounted.later (le_max_left w.clock nowUs) x member with published | expiredOrHeld
    · exact Or.inl (published.trans_eq (gc_lastFlushedSeq w.engine.tables nowUs).symm)
    · exact Or.inr expiredOrHeld
  | crash config =>
    refine ⟨engineOk_reopened ok fitting.1, (foldl_insert _ _).2.2 indexed_new, synced_reopened synced config,
      bucketed_reopened synced config, fun x member => ?_⟩
    by_cases above : CrashedWriters.lastFlushedSeq w.engine < x.seq
    · refine Or.inr (Or.inr ⟨x, ?_, rfl, rfl⟩)
      have memory : (reopened config w.engine).memtables.active.records =
          (reopened config w.engine).wal.replayFrom (CrashedWriters.lastFlushedSeq w.engine) := (foldl_insert _ _).1
      rw [show (w.exec compressedLen (.crash config)).engine = reopened config w.engine from rfl, memory]
      exact (mem_replayFrom_iff _ _ x).mpr ⟨above, (logged_iff x _).mpr member⟩
    · exact Or.inl (not_lt.mp above)

theorem ready_reachable {w : World} (reached : Reachable (World.next compressedLen) Fitting Start w) : Ready w := by
  apply reached.invariant
  · exact fun w start => ready_start start
  · intro w choice w' ready fitting moved
    obtain rfl := Option.some.inj moved
    exact ready_step ready fitting

/-! ### The index of an engine reopened -/

section
variable {t : Tables}

theorem metasOf_eq (ok : Ok t) {id : Nat} (active : id ∈ t.activeIds) : metasOf t.manifest.state id = t.metas id := by
  rw [metasOf, ok.infos id active]
  rfl

theorem mem_listed (ok : Ok t) (m : BlockMeta) :
    m ∈ t.activeIds.flatMap (metasOf t.manifest.state) ↔ ∃ id ∈ t.activeIds, m ∈ t.metas id := by
  rw [List.mem_flatMap]
  refine exists_congr fun id => and_congr_right fun active => ?_
  rw [metasOf_eq ok active]

/-- An index built anew from the manifest is one of the same tables. -/
theorem ok_reindexed (ok : Ok t) (synced : Synced t) {idx : BlockMetaIndex}
    (built : Built idx t.manifest.state t.activeIds) : Ok { t with index := idx } := by
  refine ⟨ok.nodup, ok.listed, ok.filed, ok.infos, fun id => ?_, fun m => ?_, fun id f held => ?_⟩
  · show idx.sstBlocks.get? id = if id ∈ t.activeIds then some (t.metas id) else none
    rw [built.bySst]
    split_ifs with active
    · rw [metasOf_eq ok active]
    · rfl
  · show m ∈ idx.metas ↔ ∃ id ∈ t.activeIds, m ∈ t.metas id
    rw [← mem_listed ok m, BlockMetaIndex.metas]
    exact built.byKey.perm.mem_iff
  · have same := (built.blooms id).trans (synced.built.blooms id).symm
    exact ok.blooms id f (same ▸ held)

theorem ok_reopened {e : Engine} (ok : Ok e.tables) (synced : Synced e.tables) (config : Config) :
    Ok (reopened config e).tables :=
  ok_reindexed ok synced (built_open config e.wal.files e.tables.manifest e.tables.files synced.consistent).1

end

/-- Manifest, index and files of a run agree. -/
theorem tables_reachable {w : World} (reached : Reachable (World.next compressedLen) Fitting Start w) : Ok w.engine.tables := by
  have both : Ready w ∧ Ok w.engine.tables := by
    apply reached.invariant
    · intro w start
      refine ⟨ready_start start, ?_⟩
      obtain ⟨config, _, opened⟩ := start.engine
      rw [opened]
      exact ok_new config.timeBucketSecs
    · rintro w choice w' ⟨ready, ok⟩ fitting moved
      obtain rfl := Option.some.inj moved
      refine ⟨ready_step ready fitting, ?_⟩
      cases choice with
      | command c nowUs =>
        exact kept_command (fun config t records _ held => ok_addFlushed config compressedLen t held records) c w.engine
          nowUs ok
      | compact nowUs popped => exact ok_run w.engine.config compressedLen w.engine.tables ok popped
      | gc nowUs => exact TableStore.ok_gc w.engine.tables ok nowUs
      | crash config => exact ok_reopened ok ready.synced config
  exact both.2

/-! ### Reads past expired records -/

/-- The second memtables hold what the first do, behind records that have expired. -/
structure Behind (m m' : MemTables) (nowUs : Int) : Prop where
  frozen : m.frozen = []
  frozen' : m'.frozen = []
  indexed : Indexed m.active
  indexed' : Indexed m'.active
  records : ∃ past, m'.active.records = past ++ m.active.records ∧ ∀ x ∈ past, x.expireAt < nowUs

namespace Behind
variable {m m' : MemTables} {nowUs : Int} (behind : Behind m m' nowUs)
include behind

/-- A filter that takes nothing expired takes the same of both. -/
theorem filter_eq (keep : InternalRecord → Bool) (unexpired : ∀ x, keep x = true → nowUs ≤ x.expireAt) :
    m'.active.records.filter keep = m.active.records.filter keep := by
  obtain ⟨past, shape, expired⟩ := behind.records
  have none : past.filter keep = [] := by
    apply List.filter_eq_nil_iff.mpr
    intro x member kept
    exact absurd (unexpired x kept) (not_le.mpr (expired x member))
  rw [shape, List.filter_append, none, List.nil_append]

theorem queryWhere_eq (keyFilter : KeyFilter) (timeRange : Option (Int × Int)) :
    m'.active.queryWhere keyFilter timeRange nowUs = m.active.queryWhere keyFilter timeRange nowUs := by
  apply behind.filter_eq
  intro x kept
  rw [Bool.and_eq_true, decide_eq_true_eq] at kept
  exact kept.2

theorem memResults_eq (query : Query) : memResults m' query nowUs = memResults m query nowUs := by
  have gathered (keyFilter : KeyFilter) (timeRange : Option (Int × Int)) :
      m'.gather (fun t => t.queryWhere keyFilter timeRange nowUs) =
        m.gather (fun t => t.queryWhere keyFilter timeRange nowUs) := by
    rw [MemTables.gather, MemTables.gather, behind.queryWhere_eq, behind.frozen, behind.frozen']
  unfold memResults
  split
  · exact gathered _ _
  · exact gathered _ _
  · exact gathered _ _
  · exact gathered _ _
  · exact gathered _ _
  · exact gathered _ _

theorem get_same (key : Bytes) (ts : Int) : m'.get key ts nowUs = m.get key ts nowUs := by
  obtain ⟨past, shape, expired⟩ := behind.records
  rw [get_eq m behind.frozen behind.indexed, get_eq m' behind.frozen' behind.indexed', shape, lastVersion_append_list]
  cases lastVersion m.active.records (toLex (key, ts)) with
  | some r => rfl
  | none =>
    rw [Option.none_or, Option.filter_none, Option.filter_eq_none_iff]
    intro x last
    simpa using expired x (mem_of_lastVersion last).1

theorem latest_same (key : Bytes) : memTablesLatest m' key nowUs = memTablesLatest m key nowUs := by
  have active : memTableLatest m'.active key nowUs = memTableLatest m.active key nowUs := by
    rw [memTableLatest, memTableLatest, behind.filter_eq]
    intro x kept
    exact (of_decide_eq_true kept).2.1
  rw [memTablesLatest, memTablesLatest, behind.frozen, behind.frozen', List.filterMap_cons, List.filterMap_cons, active]

/-- Gets, scans and `get_latest` answer from both as from one. -/
theorem reads (search : SlotSearch) (t : Tables) :
    (∀ key ts, getSync search m' t key ts nowUs = getSync search m t key ts nowUs) ∧
      (∀ key, getLatest m' t key nowUs = getLatest m t key nowUs) ∧
      ∀ query out, Scans m' t query nowUs out ↔ Scans m t query nowUs out := by
  refine ⟨fun key ts => ?_, fun key => ?_, fun query out => ?_⟩
  · rw [getSync, getSync, behind.get_same]
  · rw [getLatest, getLatest, behind.latest_same]
  · have same : ScanIterator.build query m' t nowUs = ScanIterator.build query m t nowUs := by
      simp only [ScanIterator.build, behind.memResults_eq]
    rw [Scans, Scans, same]

end Behind

theorem tables_reopened {e : Engine} (synced : Synced e.tables) (bucketed : Bucketed e) {config : Config}
    (buckets : config.timeBucketSecs = e.config.timeBucketSecs) : (reopened config e).tables = e.tables := by
  have built := built_open config e.wal.files e.tables.manifest e.tables.files synced.consistent
  have width : (reopened config e).tables.index.timeBucketUs = e.tables.index.timeBucketUs := by
    rw [bucketed, ← buckets]
    exact built.2
  have index : (reopened config e).tables.index = e.tables.index := synced.built.unique built.1 width
  exact congrArg (Tables.mk e.tables.manifest · e.tables.files) index

/-- The reads of the second engine at `nowUs` are those of the first. -/
def SameReads (search : SlotSearch) (e e' : Engine) (nowUs : Int) : Prop :=
  (∀ key ts, getSync search e'.memtables e'.tables key ts nowUs = getSync search e.memtables e.tables key ts nowUs) ∧
    (∀ key, getLatest e'.memtables e'.tables key nowUs = getLatest e.memtables e.tables key nowUs) ∧
    ∀ query out, Scans e'.memtables e'.tables query nowUs out ↔ Scans e.memtables e.tables query nowUs out

/-- An open on a log that holds what is in memory, behind expired records, changes no read. -/
theorem sameReads_reopened {e : Engine} (ok : EngineOk e) (indexed : Indexed e.memtables.active) (synced : Synced e.tables)
    (bucketed : Bucketed e) {config : Config} (roomy : 0 < config.maxFrozenMemtables)
    (buckets : config.timeBucketSecs = e.config.timeBucketSecs) {nowUs : Int} (search : SlotSearch)
    (records : ∃ past, (reopened config e).memtables.active.records = past ++ e.memtables.active.records ∧
      ∀ x ∈ past, x.expireAt < nowUs) : SameReads search e (reopened config e) nowUs := by
  have behind : Behind e.memtables (reopened config e).memtables nowUs :=
    ⟨ok.frozen, (engineOk_reopened ok roomy).frozen, indexed, (foldl_insert _ _).2.2 indexed_new, records⟩
  rw [SameReads, tables_reopened synced bucketed buckets]
  exact behind.reads search e.tables

section
variable {records : List InternalRecord}

theorem orderedInsert_above (a : InternalRecord) (front : List InternalRecord) {back : List InternalRecord}
    (above : ∀ b ∈ back, bySeq a b) : (front ++ back).orderedInsert bySeq a = front.orderedInsert bySeq a ++ back := by
  induction front with
  | nil =>
    cases back with
    | nil => rfl
    | cons b rest => exact List.orderedInsert_cons_of_le bySeq rest (above b List.mem_cons_self)
  | cons x rest ih =>
    rw [List.cons_append, List.orderedInsert_cons, List.orderedInsert_cons, ih]
    split_ifs <;> rfl

/-- A sorted list above another stays behind it. -/
theorem insertionSort_above (front : List InternalRecord) {back : List InternalRecord} (sorted : back.Pairwise bySeq)
    (above : ∀ a ∈ front, ∀ b ∈ back, bySeq a b) :
    (front ++ back).insertionSort bySeq = front.insertionSort bySeq ++ back := by
  induction front with
  | nil => exact sorted.insertionSort_eq
  | cons a rest ih =>
    rw [List.cons_append, List.insertionSort_cons, ih fun x member => above x (List.mem_cons_of_mem a member),
      orderedInsert_above a _ (above a List.mem_cons_self), List.insertionSort_cons]

theorem replayFrom_eq (w : Wal) (after : Nat) :
    w.replayFrom after = (w.logged.filter fun r => after < r.seq).insertionSort bySeq := by
  rw [logged_eq]
  rfl

end

/-- A replay would give back what is in memory, behind expired records. -/
def Mirrored (e : Engine) (clock : Int) : Prop :=
  ∃ past, e.wal.replayFrom (CrashedWriters.lastFlushedSeq e) = past ++ e.memtables.active.records ∧
    ∀ x ∈ past, x.expireAt ≤ clock

theorem Mirrored.later {e : Engine} {clock clock' : Int} (mirrored : Mirrored e clock) (later : clock ≤ clock') :
    Mirrored e clock' := by
  obtain ⟨past, shape, expired⟩ := mirrored
  exact ⟨past, shape, fun x member => (expired x member).trans later⟩

/-- The log would give back what is in memory, and the next number is above all of it. -/
structure Replayable (e : Engine) (clock : Int) : Prop where
  ahead : SequenceNumbers.Ahead e
  mirrored : Mirrored e clock

theorem replayable_syncAll {e : Engine} {clock : Int} (replayable : Replayable e clock) :
    Replayable { e with wal := e.wal.syncAll } clock := by
  have same (after : Nat) : e.wal.syncAll.replayFrom after = e.wal.replayFrom after := by
    rw [replayFrom_eq, replayFrom_eq, logged_syncAll]
  obtain ⟨⟨published, counted⟩, past, shape, expired⟩ := replayable
  exact ⟨⟨published, fun r member => counted r (same _ ▸ member)⟩, past, (same _).trans shape, expired⟩

theorem replayable_append {e : Engine} (ok : EngineOk e) {clock : Int} (replayable : Replayable e clock)
    (records : List InternalRecord) (fits : ∀ x ∈ assignSeqs e.seqCounter records, x.Fits)
    (whole : ∀ x ∈ assignSeqs e.seqCounter records, x.dropEmptyEnd = x) :
    Replayable (({ e with seqCounter := e.seqCounter + records.length } : Engine).processBatchInner
      (assignSeqs e.seqCounter records)) clock := by
  obtain ⟨⟨published, counted⟩, past, shape, expired⟩ := replayable
  have numbered := mem_assignSeqs e.seqCounter records
  have logged : (e.wal.writeEncoded (encodeBatch (assignSeqs e.seqCounter records))
      (batchMaxSeq (assignSeqs e.seqCounter records))).logged = e.wal.logged ++ assignSeqs e.seqCounter records := by
    rw [WalRuns.writeEncoded_batch ok.log _ _ fits, (List.map_congr_left whole).trans (List.map_id _)]
  have replayed : (e.wal.writeEncoded (encodeBatch (assignSeqs e.seqCounter records))
      (batchMaxSeq (assignSeqs e.seqCounter records))).replayFrom (CrashedWriters.lastFlushedSeq e) =
        e.wal.replayFrom (CrashedWriters.lastFlushedSeq e) ++ assignSeqs e.seqCounter records := by
    have new : (assignSeqs e.seqCounter records).filter (fun r => CrashedWriters.lastFlushedSeq e < r.seq) =
        assignSeqs e.seqCounter records := by
      refine List.filter_eq_self.mpr fun x member => decide_eq_true ?_
      exact published.trans_le (numbered x member).1
    rw [replayFrom_eq, logged, List.filter_append, new, replayFrom_eq]
    apply insertionSort_above
    · exact (assignSeqs_increasing e.seqCounter records).imp Nat.le_of_lt
    · intro a old b member
      have below := counted a ((replayFrom_eq _ _).symm ▸ (List.mem_insertionSort _).mpr old)
      exact (below.trans_le (numbered b member).1).le
  have active := (foldl_insert (assignSeqs e.seqCounter records) e.memtables).1
  refine ⟨⟨published.trans_le (Nat.le_add_right _ _), fun r member => ?_⟩, past, ?_, expired⟩
  · rcases List.mem_append.mp (replayed ▸ member) with old | new
    · exact (counted r old).trans_le (Nat.le_add_right _ _)
    · exact (numbered r new).2.1
  · rw [Engine.processBatchInner, active, ← List.append_assoc, ← shape]
    exact replayed

/-- What a flush leaves of the log above the number it publishes was expired. -/
theorem replayable_doFlush {e : Engine} (ok : EngineOk e) {clock : Int} (nowUs : Int) (replayable : Replayable e clock) :
    Replayable (e.doFlush compressedLen nowUs) (max clock nowUs) := by
  obtain ⟨⟨published, counted⟩, past, shape, expired⟩ := replayable
  have held (x : InternalRecord) (member : x ∈ e.memtables.active.records) :
      x ∈ e.wal.replayFrom (CrashedWriters.lastFlushedSeq e) := shape ▸ List.mem_append_right past member
  have gone (taken : flushable e.memtables.active.records nowUs = []) (x : InternalRecord)
      (member : x ∈ e.wal.replayFrom (CrashedWriters.lastFlushedSeq e)) : x.expireAt ≤ max clock nowUs := by
    rcases List.mem_append.mp (shape ▸ member) with old | new
    · exact le_max_of_le_left (expired x old)
    · by_contra late
      have kept := (mem_flushable _ nowUs x).mpr ⟨new, (le_max_right clock nowUs).trans_lt (not_le.mp late)⟩
      rw [taken] at kept
      cases kept
  rcases doFlush_cases compressedLen e nowUs ok.frozen with ⟨empty, same⟩ | ⟨taken, dropped⟩ | flushed
  · rw [same]
    exact ⟨⟨published, counted⟩, past, shape, fun x member => le_max_of_le_left (expired x member)⟩
  · rw [dropped]
    exact ⟨⟨published, counted⟩, _, (List.append_nil _).symm, gone taken⟩
  · rw [flushed]
    have number := @addFlushed_lastFlushedSeq compressedLen e.config e.tables (flushable e.memtables.active.records nowUs)
    have source (x : InternalRecord) (member : x ∈ flushable e.memtables.active.records nowUs) :
        x ∈ e.wal.replayFrom (CrashedWriters.lastFlushedSeq e) := held x ((mem_flushable _ nowUs x).mp member).1
    -- Whatever the truncated log gives back it gave back before.
    have back (seq : Nat) (x : InternalRecord) (member : x ∈ (e.wal.truncateBefore seq).syncAll.replayFrom
        (addFlushed e.config compressedLen e.tables (flushable e.memtables.active.records nowUs)).manifest.state.lastFlushedSeq) :
        lastSeq (flushable e.memtables.active.records nowUs) < x.seq ∧
          x ∈ e.wal.replayFrom (CrashedWriters.lastFlushedSeq e) := by
      rw [number, SequenceNumbers.mem_replayed, logged_syncAll] at member
      obtain ⟨above, logged⟩ := member
      refine ⟨(le_max_right _ _).trans_lt above, SequenceNumbers.mem_replayed.mpr ⟨?_, logged_truncateBefore _ _ logged⟩⟩
      exact (le_max_left _ _).trans_lt above
    refine ⟨⟨?_, fun x member => counted x (back _ x member).2⟩, _, (List.append_nil _).symm, fun x member => ?_⟩
    · rw [CrashedWriters.lastFlushedSeq, number]
      exact max_lt published (lastSeq_lt (Nat.zero_lt_of_lt published) fun x member => counted x (source x member))
    · obtain ⟨above, there⟩ := back _ x member
      rcases List.mem_append.mp (shape ▸ there) with old | new
      · exact le_max_of_le_left (expired x old)
      · by_contra late
        have live := (mem_flushable _ nowUs x).mpr ⟨new, (le_max_right clock nowUs).trans_lt (not_le.mp late)⟩
        exact absurd above (not_lt.mpr (SequenceNumbers.le_lastSeq live))

theorem Replayable.later {e : Engine} {clock clock' : Int} (replayable : Replayable e clock) (later : clock ≤ clock') :
    Replayable e clock' := ⟨replayable.ahead, replayable.mirrored.later later⟩

theorem replayable_submit {e : Engine} (ok : EngineOk e) {clock : Int} {records : List InternalRecord} (nowUs : Int)
    (fits : ∀ x ∈ assignSeqs e.seqCounter records, x.Fits ∧ TableFits x)
    (whole : ∀ x ∈ assignSeqs e.seqCounter records, x.dropEmptyEnd = x) (replayable : Replayable e clock) :
    Replayable (e.submit compressedLen records nowUs) (max clock nowUs) := by
  have appended := replayable_append ok replayable records (fun x member => (fits x member).1) whole
  apply submit_keeps (P := fun e => Replayable e (max clock nowUs)) ok fits (appended.later (le_max_left _ _))
  · exact fun e held => replayable_syncAll held
  · intro e inserted held
    have flushed := @replayable_doFlush compressedLen e inserted _ nowUs held
    rwa [max_eq_left (le_max_right clock nowUs)] at flushed

theorem replayable_tables {e : Engine} {t : Tables} {clock : Int}
    (same : t.manifest.state.lastFlushedSeq = CrashedWriters.lastFlushedSeq e) (replayable : Replayable e clock) :
    Replayable (withTables e t) clock := by
  obtain ⟨⟨published, counted⟩, past, shape, expired⟩ := replayable
  refine ⟨⟨same.trans_lt published, fun x member => counted x ?_⟩, past, ?_, expired⟩
  · rw [← same]
    exact member
  · show e.wal.replayFrom t.manifest.state.lastFlushedSeq = past ++ e.memtables.active.records
    rw [same, shape]

/-- Records fit, no range delete has an empty end, and no open hands out a number it has replayed. -/
def Orderly (w : World) (choice : CrashRecovery.Choice) : Prop :=
  Fitting w choice ∧ (∀ c nowUs, choice = .command c nowUs → ∀ x ∈ w.numbered c, x.dropEmptyEnd = x) ∧
    ∀ config, choice = .crash config → SequenceNumbers.Ahead (reopened config w.engine)

theorem replayable_step {w : World} (ready : Ready w) (replayable : Replayable w.engine w.clock)
    {choice : CrashRecovery.Choice} (orderly : Orderly w choice) :
    Replayable (w.exec compressedLen choice).engine (w.exec compressedLen choice).clock := by
  have later (nowUs : Int) : w.clock ≤ max w.clock nowUs := le_max_left _ _
  obtain ⟨fitting, whole, ahead⟩ := orderly
  cases choice with
  | command c nowUs =>
    show Replayable (c.exec compressedLen w.engine nowUs) (max w.clock nowUs)
    rcases exec_cases compressedLen c w.engine nowUs with ⟨_, same | flushed⟩ | submitted
    · rw [same]
      exact replayable.later (later nowUs)
    · rw [flushed]
      exact replayable_doFlush ready.ok nowUs replayable
    · rw [submitted]
      exact replayable_submit ready.ok nowUs (fitting.2 c nowUs rfl) (whole c nowUs rfl) replayable
  | compact nowUs popped =>
    refine replayable_tables (run_lastFlushedSeq w.engine.config compressedLen w.engine.tables popped) ?_
    exact replayable.later (later nowUs)
  | gc nowUs =>
    refine replayable_tables (gc_lastFlushedSeq w.engine.tables nowUs) ?_
    exact replayable.later (later nowUs)
  | crash config =>
    have memory : (reopened config w.engine).memtables.active.records =
        (reopened config w.engine).wal.replayFrom (CrashedWriters.lastFlushedSeq w.engine) := (foldl_insert _ _).1
    refine ⟨ahead config rfl, [], memory.symm, ?_⟩
    intro x member
    cases member

theorem replayable_start {w : World} (start : Start w) : Replayable w.engine w.clock := by
  obtain ⟨config, _, opened⟩ := start.engine
  have memory : (fresh config).memtables.active.records =
      (fresh config).wal.replayFrom (CrashedWriters.lastFlushedSeq (fresh config)) := (foldl_insert _ _).1
  rw [opened]
  refine ⟨⟨show 0 < 1000000 by decide, fun x member => ?_⟩, [], memory.symm, ?_⟩
  · rw [SequenceNumbers.mem_replayed, logged_fresh] at member
    cases member.2
  · intro x member
    cases member

theorem replayable_reachable {w : World} (reached : Reachable (World.next compressedLen) Orderly Start w) :
    Ready w ∧ Replayable w.engine w.clock := by
  apply reached.invariant
  · exact fun w start => ⟨ready_start start, replayable_start start⟩
  · rintro w choice w' ⟨ready, replayable⟩ orderly moved
    obtain rfl := Option.some.inj moved
    exact ⟨ready_step ready orderly.1, replayable_step ready replayable orderly⟩

/-- A crash loses nothing that reads can tell: at any moment of any such run, an open on what the
directory holds has the tables of the engine that crashed, and answers every later get, scan and
`get_latest` as that engine would have. -/
theorem recovery_invisible (w : World) (reached : Reachable (World.next compressedLen) Orderly Start w)
    (config : Config) (roomy : 0 < config.maxFrozenMemtables)
    (buckets : config.timeBucketSecs = w.engine.config.timeBucketSecs) (search : SlotSearch) :
    (reopened config w.engine).tables = w.engine.tables ∧
      ∀ later, w.clock < later → SameReads search w.engine (reopened config w.engine) later := by
  obtain ⟨ready, replayable⟩ := replayable_reachable reached
  refine ⟨tables_reopened ready.synced ready.bucketed buckets, fun later clock => ?_⟩
  apply sameReads_reopened ready.ok ready.indexed ready.synced ready.bucketed roomy buckets
  obtain ⟨past, shape, expired⟩ := replayable.mirrored
  have memory : (reopened config w.engine).memtables.active.records =
      (reopened config w.engine).wal.replayFrom (CrashedWriters.lastFlushedSeq w.engine) := (foldl_insert _ _).1
  refine ⟨past, ?_, fun x member => (expired x member).trans_lt clock⟩
  rw [memory, replayFrom_eq, logged_reopened ready.ok config, ← replayFrom_eq, shape]

/-- Two puts with a flush between them, then a crash. -/
def halfFlushed : World := [put 97, .command .flush 1, put 98].foldl (World.exec List.length) CrashRecovery.opened

theorem halfFlushed_reachable : Reachable (World.next List.length) Orderly Start halfFlushed := by
  simp only [halfFlushed, List.foldl_cons, List.foldl_nil]
  refine reachable_exec (reachable_exec (reachable_exec (.start CrashRecovery.opened CrashRecovery.opened_start) ?_) ?_) ?_
  all_goals
    refine ⟨⟨trivial, ?_⟩, ?_, ?_⟩
    · rintro c nowUs ⟨⟩
      decide +kernel
    · rintro c nowUs ⟨⟩
      decide +kernel
    · rintro config ⟨⟩

/-- One put is read from the table, the other from the log. -/
theorem recovery_invisible_half_flushed :
    let e := halfFlushed.engine
    e.tables.activeIds ≠ [] ∧ e.memtables.active.records ≠ [] ∧ (reopened {} e).tables = e.tables ∧
      SameReads .first e (reopened {} e) 2 := by
  have invisible := @recovery_invisible List.length halfFlushed halfFlushed_reachable {} CrashRecovery.roomy
    (by decide +kernel) .first
  exact ⟨by decide +kernel, by decide +kernel, invisible.1, invisible.2 2 (by decide +kernel)⟩

end

end FlowDb.Restarts
