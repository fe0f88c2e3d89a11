import FlowDb.Restarts

/-! A crash in the middle of a flush, a compaction or a collection. What the next open finds are the
directories between two of their steps; most of these read like the one before the operation or the
one behind it. Files are written under a temporary name and renamed, so a file is there whole or not
at all, and a line of the manifest cut short is dropped by the open. -/
namespace FlowDb.CrashedMaintenance
open ByteString OrderedMap Records WalLog Sstable ManifestLog ManifestState BlockIndex BlockMetaIndex TableStore
open MemoryTables EngineOps EngineRuns Reads PointReads LatestReads ReadViews MaintenanceSteps Interleaving CrashRecovery
open BackgroundMaintenance DirectoryRuns IndexAgreement Restarts

/-! ### Directories that read alike -/

/-- The second tables list what the first do, and have the files of the tables listed. The index is left out. -/
structure SameFiles (t t' : Tables) : Prop where
  state : t'.manifest.state = t.manifest.state
  files : ∀ id ∈ t.activeIds, t'.files.get? id = t.files.get? id

theorem SameFiles.refl (t : Tables) : SameFiles t t := ⟨rfl, fun _ _ => rfl⟩

theorem SameFiles.file {t t' : Tables} (same : SameFiles t t') {id : Nat} (active : id ∈ t.activeIds) :
    t'.file id = t.file id := by
  rw [Tables.file, Tables.file, same.files id active]

/-- What `Engine::open` makes of the second directory is what it makes of the first. -/
structure SameDirectory (e e' : Engine) : Prop where
  tables : SameFiles e.tables e'.tables
  sound : WalRuns.Sound e'.wal
  log : WalRuns.later (CrashedWriters.lastFlushedSeq e) e'.wal.logged =
    WalRuns.later (CrashedWriters.lastFlushedSeq e) e.wal.logged

/-- The two restarts answer every read at every time alike, and number alike. -/
def SameRestart (e e' : Engine) : Prop :=
  ∀ config, (reopened config e').memtables = (reopened config e).memtables ∧
    (reopened config e').seqCounter = (reopened config e).seqCounter ∧
    ∀ search nowUs, SameReads search (reopened config e) (reopened config e') nowUs

section
variable {e e' : Engine}

theorem replayed_reopened (sound : WalRuns.Sound e.wal) (config : Config) (after : Nat) :
    (reopened config e).wal.replayFrom after = (WalRuns.later after e.wal.logged).insertionSort bySeq := by
  have log : (reopened config e).wal.logged = e.wal.logged := (WalRuns.sound_openDir sound config.walSegmentSizeMb).2
  rw [replayFrom_eq, log]
  rfl

theorem SameDirectory.memtables (same : SameDirectory e e') (sound : WalRuns.Sound e.wal) (config : Config) :
    (reopened config e').memtables = (reopened config e).memtables := by
  have replayed : (reopened config e').wal.replayFrom e'.tables.manifest.state.lastFlushedSeq =
      (reopened config e).wal.replayFrom e.tables.manifest.state.lastFlushedSeq := by
    rw [same.tables.state, replayed_reopened same.sound, replayed_reopened sound]
    exact congrArg _ same.log
  have opened : ∀ e : Engine, (reopened config e).memtables =
      ((reopened config e).wal.replayFrom e.tables.manifest.state.lastFlushedSeq).foldl MemTables.insert
        (MemTables.new config.maxFrozenMemtables (config.memtableSizeMb * 1024 * 1024)) := fun _ => rfl
  rw [opened e', opened e, replayed]

theorem SameFiles.views (same : SameFiles e.tables e'.tables) (config : Config) :
    Views (reopened config e).tables (reopened config e').tables := by
  refine ⟨?_, fun id active => ?_⟩
  · rw [reopened, reopened, open_index, open_index, same.state]
  · exact same.file active

/-- Reads of two engines with the same memtables and index, and the same files behind it. -/
theorem sameReads_views {e e' : Engine} (memtables : e'.memtables = e.memtables) (ok : Ok e.tables)
    (views : Views e.tables e'.tables) (search : SlotSearch) (nowUs : Int) : SameReads search e e' nowUs := by
  rw [SameReads, memtables]
  refine ⟨fun key ts => getSync_views ok views search _ key ts nowUs, fun key => ?_,
    fun query out => scans_views ok views query _ nowUs out⟩
  have each (b : BlockMeta) (active : b.sstId ∈ e.tables.activeIds) :
      blockSearchLatest e'.tables key nowUs b = blockSearchLatest e.tables key nowUs b := by
    rw [blockSearchLatest, blockSearchLatest, views.files _ active]
  rw [getLatest, getLatest, views.index, queryPointInline_congr ok each]

theorem SameDirectory.restart (same : SameDirectory e e') (sound : WalRuns.Sound e.wal) (ok : Ok e.tables)
    (synced : Synced e.tables) : SameRestart e e' := by
  intro config
  have memtables := same.memtables sound config
  refine ⟨memtables, ?_, sameReads_views memtables (ok_reopened ok synced config) (same.tables.views config)⟩
  show (e'.tables.manifest.state.sstables.keys.foldl max 0 + 1) * 1000000 = _
  rw [same.tables.state]
  rfl

/-- Where only the tables differ. -/
theorem SameFiles.directory {t t' : Tables} (same : SameFiles t t') (sound : WalRuns.Sound e.wal) :
    SameDirectory (withTables e t) (withTables e t') := ⟨same, sound, rfl⟩

end

/-! ### Operations under way -/

/-- The states a run of steps comes to from `start` until it has ended. -/
inductive Underway {State : Type} (step : State → State) (ended : State → Prop) (start : State) : State → Prop
  | start : Underway step ended start start
  | step {s : State} (before : Underway step ended start s) (running : ¬ ended s) : Underway step ended start (step s)

theorem Underway.iterate {State : Type} {step : State → State} {ended : State → Prop} (start : State) (n : Nat)
    (running : ∀ k < n, ¬ ended (step^[k] start)) : Underway step ended start (step^[n] start) := by
  induction n with
  | zero => exact .start
  | succ n ih =>
    rw [Function.iterate_succ_apply']
    exact .step (ih fun k below => running k (below.trans (Nat.lt_succ_self n))) (running n (Nat.lt_succ_self n))

/-- What the first step reaches and every further one keeps holds all the while. -/
theorem Underway.invariant {State : Type} {step : State → State} {ended : State → Prop} {start s : State} {P : State → Prop}
    (underway : Underway step ended start s) (first : P start) (kept : ∀ s, P s → ¬ ended s → P (step s)) : P s := by
  induction underway with
  | start => exact first
  | step _ running ih => exact kept _ ih running

section
variable (compressedLen : Bytes → Nat) (nowUs : Int)

/-! ### A flush -/

def flushOn (s : FlushPc × Engine) : FlushPc × Engine := flushStep compressedLen nowUs s.2 s.1

def Flushing (e : Engine) (s : FlushPc × Engine) : Prop :=
  Underway (flushOn compressedLen nowUs) (·.1 = .idle) (flushOn compressedLen nowUs (.idle, e)) s

/-- The log in the middle of `truncate_before`: of the segment files to go those in `left` are still there.
The new segment of a log that keeps none is made before they go. -/
def partlyTruncated (w : Wal) (seq : Nat) (left : Nat → Bool) : Wal :=
  let here : Wal := { w with segments := w.segments.filter fun s => s.maxSeq == 0 || decide (seq < s.maxSeq) || left s.id }
  if (w.segments.filter fun s => s.maxSeq == 0 || seq < s.maxSeq) = [] then here.createNewSegment else here

/-- The entry of a flush, without the checkpoint that follows it. -/
def flushEntry (e : Engine) (sstId : Nat) (allRecords : List InternalRecord) : Manifest :=
  e.tables.manifest.append (.flush (lastSeq allRecords) (flushedInfo e.config compressedLen sstId allRecords)
    (flushedSst e.config allRecords).1.blockInfos)

/-- What a crash in a flush leaves: the directory between two steps, or in the middle of the two steps that
change it more than once. -/
inductive FlushCrash (e : Engine) : Engine → Prop
  | between {pc : FlushPc} {e' : Engine} (flushing : Flushing compressedLen nowUs e (pc, e')) : FlushCrash e e'
  | appending {sstId : Nat} {allRecords : List InternalRecord} {e' : Engine}
      (flushing : Flushing compressedLen nowUs e (.written sstId allRecords, e')) :
      FlushCrash e (withTables e' { e'.tables with manifest := flushEntry compressedLen e' sstId allRecords })
  | truncating {allRecords : List InternalRecord} {e' : Engine} (left : Nat → Bool)
      (flushing : Flushing compressedLen nowUs e (.indexed allRecords, e')) :
      FlushCrash e { e' with wal := partlyTruncated e'.wal (lastSeq allRecords) left }

variable {compressedLen nowUs}

/-- What a flush takes out of memory and has to write. -/
structure Taken (nowUs : Int) (e : Engine) (records : List InternalRecord) (memtables : MemTables) : Prop where
  popped : ∃ frozen, e.memtables.freeze.popFrozen = some (frozen, memtables) ∧
    records = frozen.records.filter fun r => decide (nowUs < r.expireAt)
  nonempty : records ≠ []

theorem Taken.flushed {e : Engine} {records : List InternalRecord} {memtables : MemTables}
    (taken : Taken nowUs e records memtables) : e.doFlush compressedLen nowUs =
      { e with
        memtables
        tables := addFlushed e.config compressedLen e.tables records
        wal := (e.wal.truncateBefore (lastSeq records)).syncAll } := by
  obtain ⟨⟨frozen, popped, rfl⟩, nonempty⟩ := taken
  simp only [Engine.doFlush, popped, if_neg nonempty]

/-- Behind each step but the last the flush has its records in hand, and the directory has grown by what was written. -/
def FlushAt (compressedLen : Bytes → Nat) (nowUs : Int) (e : Engine) (s : FlushPc × Engine) : Prop :=
  match s.1 with
  | .idle => s.2 = e.doFlush compressedLen nowUs
  | .frozen => s.2 = { e with memtables := e.memtables.freeze }
  | .popped records => ∃ memtables, Taken nowUs e records memtables ∧ s.2 = { e with memtables }
  | .numbered id records => ∃ memtables, Taken nowUs e records memtables ∧ id = e.tables.manifest.state.nextSstId ∧
      s.2 = { e with memtables }
  | .written id records => ∃ memtables, Taken nowUs e records memtables ∧ id = e.tables.manifest.state.nextSstId ∧
      s.2 = { e with memtables, tables := withFile e.tables id (flushedSst e.config records).1 }
  | .registered id records => ∃ memtables, Taken nowUs e records memtables ∧ id = e.tables.manifest.state.nextSstId ∧
      s.2 = { e with
        memtables
        tables :=
          { withFile e.tables id (flushedSst e.config records).1 with
            manifest := (flushEntry compressedLen e id records).append (.checkpoint (lastSeq records)) } }
  | .indexed records => ∃ memtables, Taken nowUs e records memtables ∧
      s.2 = { e with memtables, tables := addFlushed e.config compressedLen e.tables records }

theorem flushAt_step {e : Engine} (s : FlushPc × Engine) (here : FlushAt compressedLen nowUs e s) (running : ¬ s.1 = .idle) :
    FlushAt compressedLen nowUs e (flushOn compressedLen nowUs s) := by
  obtain ⟨pc, e'⟩ := s
  cases pc with
  | idle => exact absurd rfl running
  | frozen =>
    obtain rfl : e' = _ := here
    rw [flushOn]
    cases popped : e.memtables.freeze.popFrozen with
    | none => simp [flushStep, popped, FlushAt, Engine.doFlush]
    | some pair =>
      obtain ⟨frozen, memtables⟩ := pair
      by_cases nothing : (frozen.records.filter fun r => decide (nowUs < r.expireAt)) = []
      · simp only [flushStep, popped, nothing, if_true, FlushAt, Engine.doFlush]
      · simp only [flushStep, popped, if_neg nothing]
        exact ⟨memtables, ⟨⟨frozen, popped, rfl⟩, nothing⟩, rfl⟩
  | popped records =>
    obtain ⟨memtables, taken, rfl⟩ := here
    exact ⟨memtables, taken, rfl, rfl⟩
  | numbered id records =>
    obtain ⟨memtables, taken, rfl, rfl⟩ := here
    exact ⟨memtables, taken, rfl, rfl⟩
  | written id records =>
    obtain ⟨memtables, taken, rfl, rfl⟩ := here
    exact ⟨memtables, taken, rfl, rfl⟩
  | registered id records =>
    obtain ⟨memtables, taken, rfl, rfl⟩ := here
    exact ⟨memtables, taken, rfl⟩
  | indexed records =>
    obtain ⟨memtables, taken, rfl⟩ := here
    exact taken.flushed.symm

theorem Flushing.here {e : Engine} {s : FlushPc × Engine} (flushing : Flushing compressedLen nowUs e s) :
    FlushAt compressedLen nowUs e s :=
  flushing.invariant rfl flushAt_step

theorem withFile_unlisted {t : Tables} (ok : Ok t) (file : SstFile) :
    SameFiles t (withFile t t.manifest.state.nextSstId file) := by
  refine ⟨rfl, fun id active => ?_⟩
  have other : id ≠ t.manifest.state.nextSstId := by
    rintro rfl
    exact nextSstId_absent t ok active
  exact (get?_insert _ _ _ _).trans (if_neg other)

/-- The checkpoint repeats what the entry of the flush says. -/
theorem checkpoint_state (e : Engine) (id : Nat) (records : List InternalRecord) :
    ((flushEntry compressedLen e id records).append (.checkpoint (lastSeq records))).state =
      (flushEntry compressedLen e id records).state := by
  have number := (applyEntry_flush e.tables.manifest.state (lastSeq records)
    (flushedInfo e.config compressedLen id records) (flushedSst e.config records).1.blockInfos).2.2.2
  have same : max (flushEntry compressedLen e id records).state.lastFlushedSeq (lastSeq records) =
      (flushEntry compressedLen e id records).state.lastFlushedSeq := by
    rw [flushEntry, state_append, number, max_assoc, max_self]
  rw [state_append]
  exact congrArg (fun n => { (flushEntry compressedLen e id records).state with lastFlushedSeq := n }) same

theorem addFlushed_files (e : Engine) (records : List InternalRecord) {t' : Tables}
    (state : t'.manifest.state = (flushEntry compressedLen e e.tables.manifest.state.nextSstId records).state)
    (files : t'.files = e.tables.files.insert e.tables.manifest.state.nextSstId (flushedSst e.config records).1) :
    SameFiles (addFlushed e.config compressedLen e.tables records) t' := by
  refine ⟨state.trans (checkpoint_state e _ records).symm, fun id _ => ?_⟩
  rw [files]
  rfl

/-! What is left of the log is replayed from the number flushed on. -/

theorem partlyTruncated_log {w : Wal} (sound : WalRuns.Sound w) {seq after : Nat} (below : seq ≤ after) (left : Nat → Bool) :
    WalRuns.Sound (partlyTruncated w seq left) ∧
      WalRuns.later after (partlyTruncated w seq left).logged = WalRuns.later after w.logged := by
  have fewer := List.filter_sublist (p := fun s : WalSegment => s.maxSeq == 0 || decide (seq < s.maxSeq) || left s.id)
    (l := w.segments)
  have kept : WalRuns.Sound { w with
      segments := w.segments.filter fun s => s.maxSeq == 0 || decide (seq < s.maxSeq) || left s.id } :=
    ⟨sound.ids.sublist (fewer.map _), fun s member => sound.below s (fewer.subset member),
      fun s member => sound.whole s (fewer.subset member)⟩
  have rest : WalRuns.later after ((w.segments.filter fun s =>
      s.maxSeq == 0 || decide (seq < s.maxSeq) || left s.id).flatMap fun s => WalCodec.replaySegment s.data) =
        WalRuns.later after (w.segments.flatMap fun s => WalCodec.replaySegment s.data) := by
    apply WalRuns.later_filter_segments _ _ _ sound.whole
    intro s _ gone
    simp only [Bool.or_eq_false_iff, beq_eq_false_iff_ne, decide_eq_false_iff_not] at gone
    omega
  simp only [partlyTruncated]
  split_ifs
  · exact ⟨WalRuns.sound_createNewSegment kept, by rw [createNewSegment_logged, logged_eq, logged_eq, rest]⟩
  · exact ⟨kept, by rw [logged_eq, logged_eq, rest]⟩

/-- The directory behind a flush, but for segments of the log that hold nothing but published records. -/
theorem Taken.directory {e e' : Engine} {records : List InternalRecord} {memtables : MemTables}
    (taken : Taken nowUs e records memtables) (sound : WalRuns.Sound e.wal)
    (tables : SameFiles (addFlushed e.config compressedLen e.tables records) e'.tables) (kept : WalRuns.Sound e'.wal)
    (log : ∀ after, lastSeq records ≤ after → WalRuns.later after e'.wal.logged = WalRuns.later after e.wal.logged) :
    SameDirectory (e.doFlush compressedLen nowUs) e' := by
  rw [taken.flushed]
  refine ⟨tables, kept, ?_⟩
  have number : lastSeq records ≤ (addFlushed e.config compressedLen e.tables records).manifest.state.lastFlushedSeq := by
    rw [addFlushed_lastFlushedSeq]
    exact le_max_right _ _
  have behind := WalRuns.truncateBefore_logged sound _ _ number
  exact (log _ number).trans (behind.symm.trans (congrArg _ (logged_syncAll _).symm))

theorem flushing_directory {e e' : Engine} (ok : Ok e.tables) (sound : WalRuns.Sound e.wal)
    (behind : WalRuns.Sound (e.doFlush compressedLen nowUs).wal) {pc : FlushPc}
    (flushing : Flushing compressedLen nowUs e (pc, e')) :
    SameDirectory e e' ∨ SameDirectory (e.doFlush compressedLen nowUs) e' := by
  have here := flushing.here
  cases pc with
  | idle =>
    obtain rfl : e' = _ := here
    exact Or.inr ⟨.refl _, behind, rfl⟩
  | frozen =>
    obtain rfl : e' = _ := here
    exact Or.inl ⟨.refl _, sound, rfl⟩
  | popped records =>
    obtain ⟨memtables, taken, rfl⟩ := here
    exact Or.inl ⟨.refl _, sound, rfl⟩
  | numbered id records =>
    obtain ⟨memtables, taken, rfl, rfl⟩ := here
    exact Or.inl ⟨.refl _, sound, rfl⟩
  | written id records =>
    obtain ⟨memtables, taken, rfl, rfl⟩ := here
    exact Or.inl ⟨withFile_unlisted ok _, sound, rfl⟩
  | registered id records =>
    obtain ⟨memtables, taken, rfl, rfl⟩ := here
    exact Or.inr (taken.directory sound (addFlushed_files e records (checkpoint_state e _ records) rfl) sound fun _ _ => rfl)
  | indexed records =>
    obtain ⟨memtables, taken, rfl⟩ := here
    exact Or.inr (taken.directory sound (.refl _) sound fun _ _ => rfl)

theorem flushCrash_directory {e e' : Engine} (ok : Ok e.tables) (sound : WalRuns.Sound e.wal)
    (behind : WalRuns.Sound (e.doFlush compressedLen nowUs).wal) (crash : FlushCrash compressedLen nowUs e e') :
    SameDirectory e e' ∨ SameDirectory (e.doFlush compressedLen nowUs) e' := by
  cases crash with
  | between flushing => exact flushing_directory ok sound behind flushing
  | appending flushing =>
    obtain ⟨memtables, taken, rfl, rfl⟩ := flushing.here
    exact Or.inr (taken.directory sound (addFlushed_files e _ rfl rfl) sound fun _ _ => rfl)
  | truncating left flushing =>
    obtain ⟨memtables, taken, rfl⟩ := flushing.here
    refine Or.inr (taken.directory sound (.refl _) (partlyTruncated_log sound (le_refl _) left).1 fun after below => ?_)
    exact (partlyTruncated_log sound below left).2

end

def registeredFlush : FlushPc × Engine :=
  (flushOn List.length 1)^[4] (flushOn List.length 1 (.idle, halfFlushed.engine))

theorem halfFlushed_fitting : Reachable (World.next List.length) Fitting Start halfFlushed :=
  halfFlushed_reachable.mono fun _ _ orderly => orderly.1

section
variable (config : Config) (compressedLen : Bytes → Nat) (popped : List InternalRecord)

def Compacting (t : Tables) (s : CompactPc × Tables) : Prop :=
  Underway (compactOn config compressedLen popped) (·.1 = .idle) (compactOn config compressedLen popped (.idle, t)) s

/-- The run goes as far as its merge. -/
structure Merges (t : Tables) : Prop where
  enough : ¬ t.manifest.state.sstables.entries.length < config.compactionThreshold
  blocks : ¬ (t.candidates.all fun id => (t.file id).blocks.isEmpty) = true

/-- The number of records of the candidates, which sizes the filter of the new table. -/
def estimatedRecords (t : Tables) : Nat :=
  (t.candidates.filterMap fun id => (t.manifest.state.sstables.get? id).map (·.records)).sum

/-- The table a compaction writes. -/
def merged (t : Tables) : SstFile × Bloom.BloomFilter := compactedSst config (written popped) (estimatedRecords t)

def mergedInfo (t : Tables) : SstInfo :=
  sstInfo t.manifest.state.nextSstId ((merged config popped t).1.totalBytes compressedLen) (written popped)
    (merged config popped t).2

def compacted (t : Tables) : Manifest :=
  t.manifest.append (.compaction t.candidates [mergedInfo config compressedLen popped t]
    [(t.manifest.state.nextSstId, (merged config popped t).1.blockInfos)])

/-- What the disk holds behind each step. Before the new table is registered the directory is that of `t` with a file
more; a run that keeps no record drops one candidate after the other, file first. -/
def CompactAt (t t' : Tables) : CompactPc → Prop
  | .idle => SameFiles t t' ∨ SameFiles (CompactionRunner.run config compressedLen t popped) t'
  | .checked => t' = t ∧ ¬ t.manifest.state.sstables.entries.length < config.compactionThreshold
  | .listed ids => t' = t ∧ ¬ t.manifest.state.sstables.entries.length < config.compactionThreshold ∧
      ids = t.activeIds.insertionSort (· ≤ ·)
  | .opening candidates todo opened => t' = t ∧
      ¬ t.manifest.state.sstables.entries.length < config.compactionThreshold ∧ candidates = t.candidates ∧
      opened ++ todo.map t.file = t.candidates.map t.file
  | .merged candidates records => t' = t ∧ Merges config t ∧ candidates = t.candidates ∧ records = written popped
  | .numbered id candidates records estimated => t' = t ∧ Merges config t ∧ id = t.manifest.state.nextSstId ∧
      candidates = t.candidates ∧ records = written popped ∧ estimated = estimatedRecords t
  | .written id candidates records estimated => t' = withFile t id (merged config popped t).1 ∧ Merges config t ∧
      written popped ≠ [] ∧ id = t.manifest.state.nextSstId ∧ candidates = t.candidates ∧ records = written popped ∧
      estimated = estimatedRecords t
  | .swapped id candidates records estimated => (∃ index, t' = { withFile t id (merged config popped t).1 with index }) ∧
      Merges config t ∧ written popped ≠ [] ∧ id = t.manifest.state.nextSstId ∧ candidates = t.candidates ∧
      records = written popped ∧ estimated = estimatedRecords t
  | .removing todo => Merges config t ∧ written popped ≠ [] ∧ t'.manifest = compacted config compressedLen popped t ∧
      (∀ id, id ∉ t.candidates → t'.files.get? id =
        (t.files.insert t.manifest.state.nextSstId (merged config popped t).1).get? id) ∧ todo ⊆ t.candidates
  | .dropping todo => Merges config t ∧ written popped = [] ∧ ∃ dropped, t.candidates = dropped ++ todo ∧
      t' = deleteSsts t dropped
  | .unlinked id todo => Merges config t ∧ written popped = [] ∧ ∃ dropped, t.candidates = dropped ++ id :: todo ∧
      t' = withoutFile (deleteSsts t dropped) id
  | .unindexed id todo => Merges config t ∧ written popped = [] ∧ ∃ dropped, t.candidates = dropped ++ id :: todo ∧
      t' = { withoutFile (deleteSsts t dropped) id with index := (deleteSsts t dropped).index.removeSst id }

variable {config compressedLen popped}

theorem Merges.run {t : Tables} (merges : Merges config t) (some : written popped ≠ []) :
    (CompactionRunner.run config compressedLen t popped).manifest = compacted config compressedLen popped t ∧
      (CompactionRunner.run config compressedLen t popped).files =
        (t.files.filter fun id _ => decide (id ∉ t.candidates)).insert t.manifest.state.nextSstId
          (merged config popped t).1 := by
  simp only [CompactionRunner.run, if_neg merges.enough, if_neg merges.blocks, if_neg some]
  exact ⟨rfl, rfl⟩

theorem Merges.drops {t : Tables} (merges : Merges config t) (none : written popped = []) :
    CompactionRunner.run config compressedLen t popped = deleteSsts t t.candidates := by
  simp only [CompactionRunner.run, if_neg merges.enough, if_neg merges.blocks, if_pos none]

theorem deleteSsts_nil (t : Tables) : deleteSsts t [] = t := (withoutFiles t []).symm

theorem deleteSsts_append (t : Tables) (ids rest : List Nat) :
    deleteSsts t (ids ++ rest) = deleteSsts (deleteSsts t ids) rest := by
  have files : t.files.filter (fun id _ => decide (id ∉ ids ++ rest)) =
      (t.files.filter fun id _ => decide (id ∉ ids)).filter fun id _ => decide (id ∉ rest) := by
    apply ext_get?
    intro k
    rw [get?_filter, get?_filter, get?_filter]
    cases t.files.get? k <;> by_cases first : k ∈ ids <;> simp [first, Option.filter]
  simp only [deleteSsts, List.foldl_append, files]

theorem deleteSsts_snoc (t : Tables) (dropped : List Nat) (id : Nat) :
    deleteSsts t (dropped ++ [id]) =
      { withoutFile (deleteSsts t dropped) id with
        index := (deleteSsts t dropped).index.removeSst id
        manifest := (deleteSsts t dropped).manifest.append (.gcDeleteSst id) } := by
  rw [deleteSsts_append, ← deleteSsts_cons, deleteSsts_nil]

/-- With the candidates' files gone the directory is that of the run. -/
theorem Merges.removed {t t' : Tables} (merges : Merges config t) (ok : Ok t) (some : written popped ≠ [])
    (manifest : t'.manifest = compacted config compressedLen popped t)
    (files : ∀ id, id ∉ t.candidates → t'.files.get? id =
      (t.files.insert t.manifest.state.nextSstId (merged config popped t).1).get? id) :
    SameFiles (CompactionRunner.run config compressedLen t popped) t' := by
  obtain ⟨entry, there⟩ := @Merges.run config compressedLen popped t merges some
  refine ⟨by rw [manifest, entry], fun id active => ?_⟩
  have filed := ((ok_run config compressedLen t ok popped).filed id).mp active
  rw [there, get?_insert, get?_filter] at filed
  rw [there, get?_insert, get?_filter]
  by_cases new : id = t.manifest.state.nextSstId
  · have kept : id ∉ t.candidates := by
      rw [new]
      exact fun inside => nextSstId_absent t ok ((candidates_subperm t).subset inside)
    rw [files id kept, get?_insert, if_pos new, if_pos new]
  · rw [if_neg new] at filed ⊢
    by_cases gone : id ∈ t.candidates
    · cases held : t.files.get? id <;> simp [gone, held, Option.filter] at filed
    · rw [files id gone, get?_insert, if_neg new]
      cases t.files.get? id <;> simp [gone, Option.filter]

theorem compactAt_step {t t' : Tables} (ok : Ok t) {pc : CompactPc} (here : CompactAt config compressedLen popped t t' pc)
    (running : ¬ pc = .idle) : CompactAt config compressedLen popped t (compactStep config compressedLen popped t' pc).2
      (compactStep config compressedLen popped t' pc).1 := by
  cases pc with
  | idle => exact absurd rfl running
  | checked =>
    obtain ⟨rfl, enough⟩ := here
    simp only [compactStep]
    split_ifs
    · exact Or.inl (.refl _)
    · exact ⟨rfl, enough, rfl⟩
  | listed ids =>
    obtain ⟨rfl, enough, rfl⟩ := here
    simp only [compactStep]
    split_ifs
    · exact Or.inl (.refl _)
    · exact ⟨rfl, enough, rfl, rfl⟩
  | opening candidates todo opened =>
    obtain ⟨rfl, enough, rfl, read⟩ := here
    cases todo with
    | cons id rest => exact ⟨rfl, enough, rfl, by rw [← read]; simp⟩
    | nil =>
      rw [List.map_nil, List.append_nil] at read
      simp only [compactStep, read]
      split_ifs with empty
      · exact Or.inl (.refl _)
      · exact ⟨rfl, ⟨enough, by simpa using empty⟩, rfl, rfl⟩
  | merged candidates records =>
    obtain ⟨rfl, merges, rfl, rfl⟩ := here
    exact ⟨rfl, merges, rfl, rfl, rfl, rfl⟩
  | numbered id candidates records estimated =>
    obtain ⟨rfl, merges, rfl, rfl, rfl, rfl⟩ := here
    simp only [compactStep]
    split_ifs with none
    · exact ⟨merges, none, [], rfl, (deleteSsts_nil _).symm⟩
    · exact ⟨rfl, merges, none, rfl, rfl, rfl, rfl⟩
  | written id candidates records estimated =>
    obtain ⟨rfl, merges, some, rfl, rfl, rfl, rfl⟩ := here
    exact ⟨⟨_, rfl⟩, merges, some, rfl, rfl, rfl, rfl⟩
  | swapped id candidates records estimated =>
    obtain ⟨⟨index, rfl⟩, merges, some, rfl, rfl, rfl, rfl⟩ := here
    exact ⟨merges, some, rfl, fun _ _ => rfl, List.Subset.refl _⟩
  | removing todo =>
    obtain ⟨merges, some, manifest, files, inside⟩ := here
    cases todo with
    | nil => exact Or.inr (merges.removed ok some manifest files)
    | cons id rest =>
      refine ⟨merges, some, manifest, fun k kept => ?_, (List.cons_subset.mp inside).2⟩
      have other : k ≠ id := by
        rintro rfl
        exact kept (inside List.mem_cons_self)
      exact (get?_erase _ _ _).trans ((if_neg other).trans (files k kept))
  | dropping todo =>
    obtain ⟨merges, none, dropped, candidates, rfl⟩ := here
    cases todo with
    | nil =>
      right
      rw [List.append_nil] at candidates
      rw [merges.drops none, candidates]
      exact .refl _
    | cons id rest => exact ⟨merges, none, dropped, candidates, rfl⟩
  | unlinked id todo =>
    obtain ⟨merges, none, dropped, candidates, rfl⟩ := here
    exact ⟨merges, none, dropped, candidates, rfl⟩
  | unindexed id todo =>
    obtain ⟨merges, none, dropped, candidates, rfl⟩ := here
    exact ⟨merges, none, dropped ++ [id], by rw [candidates, List.append_cons], (deleteSsts_snoc t dropped id).symm⟩

theorem Compacting.here {t : Tables} (ok : Ok t) {s : CompactPc × Tables}
    (compacting : Compacting config compressedLen popped t s) :
    CompactAt config compressedLen popped t s.2 s.1 := by
  apply compacting.invariant
  · simp only [compactOn, compactStep]
    split_ifs with few
    · exact Or.inl (.refl _)
    · exact ⟨rfl, few⟩
  · exact fun s held running => compactAt_step ok held running

/-- Tables that a crash in a compaction can leave to the next open: those of before, those of behind, or, where the run
keeps no record, those without its first candidates, of the next one perhaps the file gone already. -/
def CompactionLeft (config : Config) (compressedLen : Bytes → Nat) (popped : List InternalRecord) (t left : Tables) : Prop :=
  left = t ∨ left = CompactionRunner.run config compressedLen t popped ∨
    written popped = [] ∧ ∃ dropped todo, t.candidates = dropped ++ todo ∧
      (left = deleteSsts t dropped ∨ ∃ id rest, todo = id :: rest ∧ left = withoutFile (deleteSsts t dropped) id)

/-- The index of the engine that crashed counts for nothing. -/
theorem sameRestart_reindexed (e : Engine) (t : Tables) (index : BlockMetaIndex) :
    SameRestart (withTables e t) (withTables e { t with index }) := by
  intro config
  exact ⟨rfl, rfl, fun _ _ => ⟨fun _ _ => rfl, fun _ => rfl, fun _ _ => Iff.rfl⟩⟩

theorem compaction_crash (w : World) (reached : Reachable (World.next compressedLen) Fitting Start w)
    (popped : List InternalRecord) (pc : CompactPc) (t' : Tables)
    (compacting : Compacting w.engine.config compressedLen popped w.engine.tables (pc, t')) :
    ∃ left, CompactionLeft w.engine.config compressedLen popped w.engine.tables left ∧
      SameRestart (withTables w.engine left) (withTables w.engine t') := by
  have ready := ready_reachable reached
  have ok := tables_reachable reached
  have restarts {t : Tables} (okT : Ok t) (synced : Synced t) (same : SameFiles t t') :
      SameRestart (withTables w.engine t) (withTables w.engine t') :=
    (same.directory ready.ok.log).restart ready.ok.log okT synced
  have unchanged (same : SameFiles w.engine.tables t') : ∃ left,
      CompactionLeft w.engine.config compressedLen popped w.engine.tables left ∧
        SameRestart (withTables w.engine left) (withTables w.engine t') :=
    ⟨_, Or.inl rfl, restarts ok ready.synced same⟩
  have finished (same : SameFiles (CompactionRunner.run w.engine.config compressedLen w.engine.tables popped) t') : ∃ left,
      CompactionLeft w.engine.config compressedLen popped w.engine.tables left ∧
        SameRestart (withTables w.engine left) (withTables w.engine t') :=
    ⟨_, Or.inr (Or.inl rfl), restarts (ok_run _ _ _ ok popped) (ready.synced.compact _ _ popped) same⟩
  have here := compacting.here ok
  cases pc with
  | idle => exact here.elim unchanged finished
  | checked =>
    obtain ⟨same, _⟩ := here
    exact unchanged (same ▸ .refl _)
  | listed ids =>
    obtain ⟨same, _⟩ := here
    exact unchanged (same ▸ .refl _)
  | opening candidates todo opened =>
    obtain ⟨same, _⟩ := here
    exact unchanged (same ▸ .refl _)
  | merged candidates records =>
    obtain ⟨same, _⟩ := here
    exact unchanged (same ▸ .refl _)
  | numbered id candidates records estimated =>
    obtain ⟨same, _⟩ := here
    exact unchanged (same ▸ .refl _)
  | written id candidates records estimated =>
    obtain ⟨rfl, _, _, rfl, _⟩ := here
    exact unchanged (withFile_unlisted ok _)
  | swapped id candidates records estimated =>
    obtain ⟨⟨index, rfl⟩, _, _, rfl, _⟩ := here
    have written := withFile_unlisted ok (merged w.engine.config popped w.engine.tables).1
    exact unchanged ⟨written.state, written.files⟩
  | removing todo =>
    obtain ⟨merges, some, manifest, files, _⟩ := here
    exact finished (merges.removed ok some manifest files)
  | dropping todo =>
    obtain ⟨_, none, dropped, candidates, rfl⟩ := here
    exact ⟨_, Or.inr (Or.inr ⟨none, dropped, todo, candidates, Or.inl rfl⟩), sameRestart_reindexed _ _ _⟩
  | unlinked id todo =>
    obtain ⟨_, none, dropped, candidates, rfl⟩ := here
    exact ⟨_, Or.inr (Or.inr ⟨none, dropped, _, candidates, Or.inr ⟨id, todo, rfl, rfl⟩⟩), sameRestart_reindexed _ _ _⟩
  | unindexed id todo =>
    obtain ⟨_, none, dropped, candidates, rfl⟩ := here
    exact ⟨_, Or.inr (Or.inr ⟨none, dropped, _, candidates, Or.inr ⟨id, todo, rfl, rfl⟩⟩), sameRestart_reindexed _ _ _⟩

end

def twoTables : World := [put 97, .command .flush 0, put 98, .command .flush 0].foldl (World.exec List.length)
  ⟨fresh { compactionThreshold := 2 }, 0, [], []⟩

theorem twoTables_reachable : Reachable (World.next List.length) Fitting Start twoTables := by
  simp only [twoTables, List.foldl_cons, List.foldl_nil]
  refine reachable_exec (reachable_exec (reachable_exec (reachable_exec
    (.start _ ⟨⟨{ compactionThreshold := 2 }, by decide, rfl⟩, rfl, rfl⟩) ?_) ?_) ?_) ?_
  all_goals
    refine ⟨trivial, ?_⟩
    rintro c nowUs ⟨⟩
    decide +kernel

def halfRemoved (popped : List InternalRecord) : CompactPc × Tables :=
  (compactOn twoTables.engine.config List.length popped)^[10]
    (compactOn twoTables.engine.config List.length popped (.idle, twoTables.engine.tables))

/-- Both tables are replaced in the manifest, and one of their files is gone. -/
theorem compaction_crash_half_removed :
    let popped := twoTables.engine.tables.records
    let t' := (halfRemoved popped).2
    t'.activeIds = [3] ∧ t'.files.keys = [2, 3] ∧
      ∃ left, CompactionLeft twoTables.engine.config List.length popped twoTables.engine.tables left ∧
        SameRestart (withTables twoTables.engine left) (withTables twoTables.engine t') := by
  refine ⟨by decide +kernel, by decide +kernel, ?_⟩
  have compacting : Compacting twoTables.engine.config List.length twoTables.engine.tables.records twoTables.engine.tables
      (halfRemoved twoTables.engine.tables.records) := .iterate _ 10 (by decide +kernel)
  exact compaction_crash twoTables twoTables_reachable _ _ _ compacting

/-! ### A collection -/

section
variable {compressedLen : Bytes → Nat} {nowUs : Int}

def Collecting (nowUs : Int) (t : Tables) (s : GcPc × Tables) : Prop :=
  Underway (fun s => gcStep nowUs s.2 s.1) (·.1 = .idle) (gcStep nowUs t .idle) s

/-- Behind each step some of the expired tables are gone, of the last perhaps the file there yet. -/
def GcAt (nowUs : Int) (t t' : Tables) : GcPc → Prop
  | .idle => t' = GcRunner.run t nowUs
  | .deleting todo => ∃ gone, expiredSsts t.manifest.state nowUs = gone ++ todo ∧ t' = deleteSsts t gone
  | .unindexed id todo => ∃ gone, expiredSsts t.manifest.state nowUs = gone ++ id :: todo ∧
      t' = { deleteSsts t gone with index := (deleteSsts t gone).index.removeSst id }
  | .unregistered id todo => ∃ gone, expiredSsts t.manifest.state nowUs = gone ++ id :: todo ∧
      t' = { deleteSsts t gone with
        index := (deleteSsts t gone).index.removeSst id
        manifest := (deleteSsts t gone).manifest.append (.gcDeleteSst id) }

theorem gcAt_step {t t' : Tables} {pc : GcPc} (here : GcAt nowUs t t' pc) (running : ¬ pc = .idle) :
    GcAt nowUs t (gcStep nowUs t' pc).2 (gcStep nowUs t' pc).1 := by
  cases pc with
  | idle => exact absurd rfl running
  | deleting todo =>
    obtain ⟨gone, expired, rfl⟩ := here
    cases todo with
    | nil =>
      rw [List.append_nil] at expired
      exact congrArg (deleteSsts t) expired.symm
    | cons id rest => exact ⟨gone, expired, rfl⟩
  | unindexed id todo =>
    obtain ⟨gone, expired, rfl⟩ := here
    exact ⟨gone, expired, rfl⟩
  | unregistered id todo =>
    obtain ⟨gone, expired, rfl⟩ := here
    exact ⟨gone ++ [id], by rw [expired, List.append_cons], (deleteSsts_snoc t gone id).symm⟩

theorem Collecting.here {t : Tables} {s : GcPc × Tables} (collecting : Collecting nowUs t s) : GcAt nowUs t s.2 s.1 := by
  apply collecting.invariant
  · exact ⟨[], rfl, (deleteSsts_nil t).symm⟩
  · exact fun s held running => gcAt_step held running

/-- What is left has the files of some tables less, and perhaps one file that is not listed any more. -/
theorem collecting_files {t t' : Tables} {pc : GcPc} (collecting : Collecting nowUs t (pc, t')) :
    ∃ gone todo, expiredSsts t.manifest.state nowUs = gone ++ todo ∧ SameFiles (deleteSsts t gone) t' := by
  have here := collecting.here
  cases pc with
  | idle =>
    obtain rfl : t' = _ := here
    exact ⟨_, [], (List.append_nil _).symm, .refl _⟩
  | deleting todo =>
    obtain ⟨gone, expired, rfl⟩ := here
    exact ⟨gone, todo, expired, .refl _⟩
  | unindexed id todo =>
    obtain ⟨gone, expired, rfl⟩ := here
    exact ⟨gone, _, expired, rfl, fun _ _ => rfl⟩
  | unregistered id todo =>
    obtain ⟨gone, expired, rfl⟩ := here
    refine ⟨gone ++ [id], todo, by rw [expired, List.append_cons], ?_, fun k active => ?_⟩
    · rw [deleteSsts_snoc]
    · rw [activeIds_deleteSsts, List.mem_filter] at active
      have other : k ≠ id := by
        rintro rfl
        simp at active
      rw [deleteSsts_snoc]
      exact ((get?_erase _ _ _).trans (if_neg other)).symm

theorem mem_expiredSsts (s : ManifestState) (id : Nat) :
    id ∈ expiredSsts s nowUs ↔ ∃ info, s.sstables.get? id = some info ∧ info.maxExpire < nowUs := by
  rw [expiredSsts, List.mem_map]
  constructor
  · rintro ⟨entry, member, rfl⟩
    obtain ⟨there, expired⟩ := List.mem_filter.mp member
    exact ⟨entry.2, (get?_eq_some_iff _ _ _).mpr there, of_decide_eq_true expired⟩
  · rintro ⟨info, known, expired⟩
    exact ⟨(id, info), List.mem_filter.mpr ⟨(get?_eq_some_iff _ _ _).mp known, decide_eq_true expired⟩, rfl⟩

/-- Which tables are removed matters, not in which order. -/
theorem removes_congr (s : ManifestState) {ids ids' : List Nat} (same : ∀ id, id ∈ ids ↔ id ∈ ids') :
    ids.foldl remove s = ids'.foldl remove s := by
  have numbers := (removes_lastFlushedSeq ids s).trans (removes_lastFlushedSeq ids' s).symm
  have infos : (ids.foldl remove s).sstables = (ids'.foldl remove s).sstables := by
    apply ext_get?
    intro k
    simp only [(removes_get? _ s k).1, same]
  have blocks : (ids.foldl remove s).blockInfos = (ids'.foldl remove s).blockInfos := by
    apply ext_get?
    intro k
    simp only [(removes_get? _ s k).2, same]
  have active : (ids.foldl remove s).activeSstIds = (ids'.foldl remove s).activeSstIds := by
    simp only [removes_active, same]
  generalize ids.foldl remove s = a at numbers infos blocks active ⊢
  generalize ids'.foldl remove s = b at numbers infos blocks active ⊢
  cases a
  cases b
  simp_all only

/-- What an interrupted collection has dropped or left behind is what a later one finds expired. -/
theorem expired_again (s : ManifestState) {again : Int} (after : nowUs ≤ again) {gone todo : List Nat}
    (expired : expiredSsts s nowUs = gone ++ todo) (id : Nat) :
    id ∈ gone ∨ id ∈ expiredSsts (gone.foldl remove s) again ↔ id ∈ expiredSsts s again := by
  rw [mem_expiredSsts, mem_expiredSsts, (removes_get? gone s id).1]
  by_cases removed : id ∈ gone
  · have there : id ∈ expiredSsts s nowUs := expired ▸ List.mem_append_left _ removed
    obtain ⟨info, known, early⟩ := (mem_expiredSsts s id).mp there
    exact iff_of_true (Or.inl removed) ⟨info, known, early.trans_le after⟩
  · simp only [removed, if_false, false_or]

/-- A later collection of what an interrupted one has left removes what one collection would. -/
theorem collected_again (s : ManifestState) {again : Int} (after : nowUs ≤ again) {gone todo : List Nat}
    (expired : expiredSsts s nowUs = gone ++ todo) :
    (expiredSsts (gone.foldl remove s) again).foldl remove (gone.foldl remove s) =
      (expiredSsts s again).foldl remove s := by
  rw [← List.foldl_append]
  apply removes_congr
  intro id
  rw [List.mem_append, expired_again s after expired]

end

def expiring : World := [.command (.writeBatch [.new [97] 1 [1]] (some 1)) 0, .command .flush 0].foldl (World.exec List.length)
  CrashRecovery.opened

theorem expiring_reachable : Reachable (World.next List.length) Fitting Start expiring := by
  simp only [expiring, List.foldl_cons, List.foldl_nil]
  refine reachable_exec (reachable_exec (.start CrashRecovery.opened CrashRecovery.opened_start) ?_) ?_
  all_goals
    refine ⟨trivial, ?_⟩
    rintro c nowUs ⟨⟩
    decide +kernel

end FlowDb.CrashedMaintenance
