import FlowDb.CrashRecovery

/-! Sequence numbers from one session to the next. `Engine::open` starts `seq_counter`
at the largest live table id plus one, times a million, whatever numbers the log and the
manifest hold. A session ends between any two steps, by a close or a crash. -/
namespace FlowDb.SequenceNumbers
open ByteString OrderedMap Records WalCodec WalLog Sstable ManifestLog ManifestState TableStore MemoryTables
open EngineOps EngineRuns MaintenanceSteps Interleaving CrashedWriters CrashRecovery

/-- A directory with the engine on it. `top` is above every number that was ever
appended to its log. -/
structure World where
  engine : Engine
  flush : FlushPc
  compact : CompactPc
  gc : GcPc
  top : Nat

/-- `take` hands out numbers, `append` logs and inserts a batch under numbers handed
out before, and `reopen` is an open on what a crash or a close leaves of the log. -/
inductive Choice where
  | take (n : Nat)
  | append (records : List InternalRecord)
  | sync
  | flush (nowUs : Int)
  | compact (popped : List InternalRecord)
  | gc (nowUs : Int)
  | reopen (config : Config) (files : List (Nat × Bytes))

def reopen (config : Config) (files : List (Nat × Bytes)) (e : Engine) : Engine :=
  Engine.open config files e.tables.manifest e.tables.files

def World.next (compressedLen : Bytes → Nat) (s : World) : Choice → Option World
  | .take n => some { s with engine := { s.engine with seqCounter := s.engine.seqCounter + n } }
  | .append records =>
      match s.flush with
      | .idle => some { s with
          engine := s.engine.processBatchInner records
          top := max s.top (lastSeq records + 1) }
      | _ => none
  | .sync =>
      match s.flush with
      | .idle => some { s with engine := { s.engine with wal := s.engine.wal.syncAll } }
      | _ => none
  | .flush nowUs =>
      let moved := flushStep compressedLen nowUs s.engine s.flush
      some { s with flush := moved.1, engine := moved.2 }
  | .compact popped =>
      let moved := compactStep s.engine.config compressedLen popped s.engine.tables s.compact
      some { s with compact := moved.1, engine := withTables s.engine moved.2 }
  | .gc nowUs =>
      let moved := gcStep nowUs s.engine.tables s.gc
      some { s with gc := moved.1, engine := withTables s.engine moved.2 }
  | .reopen config files => some ⟨reopen config files s.engine, .idle, .idle, .idle, s.top⟩

/-- Numbers come from the counter, in order within a batch; a crash leaves at least what an fsync covered. -/
def Possible (s : World) : Choice → Prop
  | .append records => (∀ r ∈ records, r.seq < s.engine.seqCounter) ∧ records.Pairwise fun a b => a.seq < b.seq
  | .reopen _ files => Crash s.engine.wal files
  | _ => True

/-- What the log gives back from where a batch goes has numbers that were handed out. A
batch whose records fit their length fields gives back itself, unless the log is torn there. -/
def Legible (s : World) : Choice → Prop
  | .append records =>
      ∀ x ∈ replaySegment (replayTail (lastData s.engine.wal) ++ encodeBatch records), x.seq < max s.top (lastSeq records + 1)
  | _ => True

/-- No byte of the log is lost. -/
def Lossless (s : World) : Choice → Prop
  | .append records => ∀ r ∈ records, r.Fits
  | .reopen _ files => files = s.engine.wal.files
  | _ => True

/-- An empty directory, opened. -/
structure Start (s : World) : Prop where
  engine : ∃ config : Config, s.engine = fresh config
  flush : s.flush = .idle
  compact : s.compact = .idle
  gc : s.gc = .idle
  top : s.top = 1

/-- The next number of an engine just opened is above what is published and all that it replayed. -/
def Ahead (e : Engine) : Prop :=
  lastFlushedSeq e < e.seqCounter ∧ ∀ r ∈ e.wal.replayFrom (lastFlushedSeq e), r.seq < e.seqCounter

/-- The numbers appended so far are below the million of the next table id. -/
def Room (s : World) : Prop := s.top ≤ s.engine.tables.manifest.state.nextSstId * 1000000

/-! ### Every number is below the top -/

theorem le_lastSeq {records : List InternalRecord} {r : InternalRecord} (member : r ∈ records) : r.seq ≤ lastSeq records :=
  le_foldl_max _ 0 _ (Or.inl (List.mem_map.mpr ⟨r, member, rfl⟩))

theorem foldl_max_mem (l : List Nat) (start : Nat) : l.foldl max start = start ∨ l.foldl max start ∈ l := by
  induction l generalizing start with
  | nil => exact Or.inl rfl
  | cons n rest ih =>
    rcases ih (max start n) with same | inside
    · rcases max_choice start n with old | new
      · exact Or.inl (same.trans old)
      · exact Or.inr (List.mem_cons.mpr (Or.inl (same.trans new)))
    · exact Or.inr (List.mem_cons_of_mem n inside)

theorem lastSeq_mem (records : List InternalRecord) : lastSeq records = 0 ∨ ∃ r ∈ records, r.seq = lastSeq records :=
  (foldl_max_mem (records.map InternalRecord.seq) 0).imp_right List.mem_map.mp

structure Counted (s : World) : Prop where
  published : lastFlushedSeq s.engine < s.top
  logged : ∀ r ∈ s.engine.wal.logged, r.seq < s.top
  memory : ∀ r ∈ inMemory s.engine s.flush, r.seq < s.top

theorem registered_lastFlushedSeq (m : Manifest) (seq : Nat) (info : SstInfo) (blocks : List BlockInfo) :
    ((m.append (.flush seq info blocks)).append (.checkpoint seq)).state.lastFlushedSeq = max m.state.lastFlushedSeq seq := by
  have flushed := (applyEntry_flush m.state seq info blocks).2.2.2
  rw [state_append, state_append]
  show max (m.state.applyEntry (.flush seq info blocks)).lastFlushedSeq seq = _
  rw [flushed]
  exact max_eq_left (le_max_right _ _)

section
variable (compressedLen : Bytes → Nat) (nowUs : Int)

/-- A flush only takes records out of memory, and out of the log. -/
theorem flushStep_shrinks (e : Engine) (pc : FlushPc) :
    inMemory (flushStep compressedLen nowUs e pc).2 (flushStep compressedLen nowUs e pc).1 ⊆ inMemory e pc ∧
      (flushStep compressedLen nowUs e pc).2.wal.logged ⊆ e.wal.logged := by
  cases pc with
  | idle =>
    refine ⟨fun r member => ?_, List.Subset.refl _⟩
    by_cases nothing : e.memtables.active.records = []
    · simpa [flushStep, MemTables.freeze, nothing, inMemory, unregistered] using member
    · simp only [flushStep, MemTables.freeze, nothing, if_false, inMemory, unregistered, MemTable.new, MemTable.sort,
        List.flatMap_append, List.flatMap_singleton, List.mem_append, List.mem_insertionSort, List.not_mem_nil,
        false_or, or_false] at member ⊢
      exact member.symm
  | frozen =>
    cases backlog : e.memtables.frozen with
    | nil =>
      have step : flushStep compressedLen nowUs e .frozen = (.idle, e) := by
        simp only [flushStep, MemTables.popFrozen, backlog]
      rw [step]
      exact ⟨List.Subset.refl _, List.Subset.refl _⟩
    | cons t rest =>
      have memory : inMemory e .frozen = e.memtables.active.records ++ (t.records ++ rest.flatMap MemTable.records) := by
        simp [inMemory, unregistered, backlog]
      simp only [flushStep, MemTables.popFrozen, backlog, memory]
      split_ifs
      · refine ⟨fun r member => ?_, List.Subset.refl _⟩
        simp only [inMemory, unregistered, List.mem_append, List.not_mem_nil, or_false] at member ⊢
        exact member.imp_right Or.inr
      · refine ⟨fun r member => ?_, List.Subset.refl _⟩
        simp only [inMemory, unregistered, List.mem_append] at member ⊢
        rcases member with (active | behind) | kept
        · exact Or.inl active
        · exact Or.inr (Or.inr behind)
        · exact Or.inr (Or.inl (List.mem_of_mem_filter kept))
  | popped allRecords => exact ⟨List.Subset.refl _, List.Subset.refl _⟩
  | numbered sstId allRecords => exact ⟨List.Subset.refl _, List.Subset.refl _⟩
  | written sstId allRecords =>
    refine ⟨fun r member => ?_, List.Subset.refl _⟩
    simp only [flushStep, inMemory, withTables, unregistered, List.append_nil] at member
    exact List.mem_append_left _ member
  | registered sstId allRecords => exact ⟨List.Subset.refl _, List.Subset.refl _⟩
  | indexed allRecords =>
    refine ⟨List.Subset.refl _, ?_⟩
    show (e.wal.truncateBefore (lastSeq allRecords)).syncAll.logged ⊆ _
    rw [logged_syncAll]
    exact logged_truncateBefore _ _

/-- A flush publishes a number when it registers its table. -/
theorem flushStep_publishes (e : Engine) (pc : FlushPc) :
    lastFlushedSeq (flushStep compressedLen nowUs e pc).2 = lastFlushedSeq e ∨
      ∃ sstId allRecords, pc = .written sstId allRecords ∧
        lastFlushedSeq (flushStep compressedLen nowUs e pc).2 = max (lastFlushedSeq e) (lastSeq allRecords) := by
  cases pc with
  | written sstId allRecords => exact Or.inr ⟨sstId, allRecords, rfl, registered_lastFlushedSeq _ _ _ _⟩
  | frozen =>
    refine Or.inl ?_
    simp only [flushStep]
    split
    · rfl
    · split_ifs <;> rfl
  | _ => exact Or.inl rfl

theorem compactStep_published (config : Config) (popped : List InternalRecord) (t : Tables) (pc : CompactPc) :
    (compactStep config compressedLen popped t pc).2.manifest.state.lastFlushedSeq = t.manifest.state.lastFlushedSeq := by
  cases pc with
  | swapped newSstId candidates records estimated =>
    simp only [compactStep, state_append]
    exact (applyEntry_compaction t.manifest.state candidates _ _).2.2.2
  | unindexed sstId todo =>
    simp only [compactStep, state_append]
    rfl
  | opening candidates todo opened =>
    cases todo with
    | nil =>
      simp only [compactStep]
      split_ifs <;> rfl
    | cons id todo => rfl
  | removing todo => cases todo <;> rfl
  | dropping todo => cases todo <;> rfl
  | unlinked sstId todo => rfl
  | written newSstId candidates records estimated => rfl
  | merged candidates records => rfl
  | idle | checked | listed | numbered =>
    simp only [compactStep]
    split_ifs <;> rfl

theorem gcStep_published (t : Tables) (pc : GcPc) :
    (gcStep nowUs t pc).2.manifest.state.lastFlushedSeq = t.manifest.state.lastFlushedSeq := by
  cases pc with
  | idle => rfl
  | deleting toDelete => cases toDelete <;> rfl
  | unindexed sstId rest =>
    simp only [gcStep, state_append]
    rfl
  | unregistered sstId rest => rfl

end

/-! ### Runs -/

/-- What a crash leaves gives back no more than the log did. -/
theorem crash_logged {w : Wal} {files : List (Nat × Bytes)} (crash : Crash w files) (sizeMb : Nat) :
    (Wal.openDir files sizeMb).logged ⊆ w.logged := by
  intro r member
  rw [(openDir_logged_perm files sizeMb).mem_iff, List.mem_flatMap] at member
  obtain ⟨f, there, held⟩ := member
  rw [logged_eq, List.mem_flatMap]
  unfold Crash at crash
  generalize w.segments = segments at crash ⊢
  induction crash with
  | nil => cases there
  | @cons segment file segments files kept _ ih =>
    rcases List.mem_cons.mp there with rfl | later
    · exact ⟨segment, List.mem_cons_self, replay_prefix kept.2.1 held⟩
    · obtain ⟨found, inside, same⟩ := ih later
      exact ⟨found, List.mem_cons_of_mem _ inside, same⟩

theorem crash_files (w : Wal) : Crash w w.files := by
  unfold Crash Wal.files
  induction w.segments with
  | nil => exact .nil
  | cons segment rest ih => exact .cons ⟨rfl, List.prefix_rfl, List.take_prefix _ _⟩ ih

theorem mem_replayed {w : Wal} {after : Nat} {r : InternalRecord} : r ∈ w.replayFrom after ↔ after < r.seq ∧ r ∈ w.logged := by
  rw [mem_replayFrom_iff, ← logged_iff]
  rfl

theorem memory_reopen (config : Config) (files : List (Nat × Bytes)) (e : Engine) : inMemory (reopen config files e) .idle =
    (reopen config files e).wal.replayFrom (lastFlushedSeq e) := by
  obtain ⟨active, frozen, _⟩ := foldl_insert ((reopen config files e).wal.replayFrom (lastFlushedSeq e))
    (MemTables.new config.maxFrozenMemtables (config.memtableSizeMb * 1024 * 1024))
  have memtables : (reopen config files e).memtables = ((reopen config files e).wal.replayFrom (lastFlushedSeq e)).foldl
      MemTables.insert (MemTables.new config.maxFrozenMemtables (config.memtableSizeMb * 1024 * 1024)) := rfl
  rw [inMemory, memtables, active, frozen]
  simp [MemTables.new, MemTable.new, unregistered]

variable {compressedLen : Bytes → Nat} {s : World}

theorem counted_start (start : Start s) : Counted s := by
  obtain ⟨⟨config, opened⟩, flush, _, _, top⟩ := start
  refine ⟨?_, fun r member => ?_, fun r member => ?_⟩
  · rw [top, opened]
    exact Nat.one_pos
  · rw [opened] at member
    simp [fresh, Engine.open, Wal.openDir, Wal.createNewSegment, Wal.logged, Wal.files, replaySegment, replayLoop] at member
  · rw [opened, flush] at member
    simp [fresh, Engine.open, inMemory, unregistered, MemTables.new, MemTable.new, Wal.openDir, Wal.createNewSegment,
      Wal.replayFrom, replaySegment, replayLoop] at member

/-- No step appends or publishes a number that is not below the top. -/
theorem counted_step (counted : Counted s) (choice : Choice) (possible : Possible s choice) (legible : Legible s choice)
    {s' : World} (moved : s.next compressedLen choice = some s') : Counted s' := by
  obtain ⟨published, logged, memory⟩ := counted
  cases choice with
  | take n =>
    obtain rfl := Option.some.inj moved
    exact ⟨published, logged, memory⟩
  | append records =>
    cases idle : s.flush with
    | idle =>
      simp only [World.next, idle] at moved
      obtain rfl := Option.some.inj moved
      refine ⟨lt_max_of_lt_left published, fun r member => ?_, fun r member => ?_⟩
      · rw [Engine.processBatchInner, writeEncoded_logged] at member
        rcases List.mem_append.mp member with old | new
        · exact lt_max_of_lt_left (logged r old)
        · exact legible r new
      · obtain ⟨active, frozen, _⟩ := foldl_insert records s.engine.memtables
        simp only [inMemory, Engine.processBatchInner, active, frozen, List.mem_append] at member
        rcases member with ((old | new) | behind) | taken
        · exact lt_max_of_lt_left (memory r (by simp [inMemory, old]))
        · exact lt_max_of_lt_right (Nat.lt_succ_of_le (le_lastSeq new))
        · exact lt_max_of_lt_left (memory r (by simp only [inMemory, List.mem_append]; exact Or.inl (Or.inr behind)))
        · cases taken
    | _ =>
      simp only [World.next, idle] at moved
      cases moved
  | sync =>
    cases idle : s.flush with
    | idle =>
      simp only [World.next, idle] at moved
      obtain rfl := Option.some.inj moved
      exact ⟨published, fun r member => logged r (logged_syncAll s.engine.wal ▸ member), idle ▸ memory⟩
    | _ =>
      simp only [World.next, idle] at moved
      cases moved
  | flush nowUs =>
    obtain rfl := Option.some.inj moved
    obtain ⟨fewer, shorter⟩ := flushStep_shrinks compressedLen nowUs s.engine s.flush
    refine ⟨?_, fun r member => logged r (shorter member), fun r member => memory r (fewer member)⟩
    rcases flushStep_publishes compressedLen nowUs s.engine s.flush with same | ⟨sstId, allRecords, written, grown⟩
    · exact same.trans_lt published
    · refine grown.trans_lt (max_lt published (lastSeq_lt (Nat.zero_lt_of_lt published) fun r member => memory r ?_))
      rw [written]
      exact List.mem_append_right _ member
  | compact popped =>
    obtain rfl := Option.some.inj moved
    exact ⟨(compactStep_published compressedLen _ popped _ _).trans_lt published, logged, memory⟩
  | gc nowUs =>
    obtain rfl := Option.some.inj moved
    exact ⟨(gcStep_published nowUs _ _).trans_lt published, logged, memory⟩
  | reopen config files =>
    obtain rfl := Option.some.inj moved
    have back := crash_logged possible config.walSegmentSizeMb
    refine ⟨published, fun r member => logged r (back member), fun r member => ?_⟩
    rw [memory_reopen] at member
    exact logged r (back (mem_replayed.mp member).2)

theorem counted_reached (reached : Reachable (World.next compressedLen) (fun s choice => Possible s choice ∧ Legible s choice)
    Start s) : Counted s :=
  Reachable.invariant (fun _ => counted_start) (fun _ choice _ counted allowed moved =>
    counted_step counted choice allowed.1 allowed.2 moved) reached

/-- With room below the next million an open starts above everything it finds. -/
theorem ahead_of_room (counted : Counted s) (room : Room s) (config : Config) {files : List (Nat × Bytes)}
    (crash : Crash s.engine.wal files) : Ahead (reopen config files s.engine) := by
  refine ⟨counted.published.trans_le room, fun r member => ?_⟩
  exact (counted.logged r (crash_logged crash config.walSegmentSizeMb (mem_replayed.mp member).2)).trans_le room

/-! ### Without loss the top is on disk -/

/-- The largest number is published, or its record is in the log. -/
def TopHeld (e : Engine) (top : Nat) : Prop :=
  top = 1 ∨ top ≤ lastFlushedSeq e + 1 ∨ ∃ r, Logged r e.wal ∧ top = r.seq + 1

structure Recorded (s : World) : Prop where
  sound : WalRuns.Sound s.engine.wal
  placed : ∀ allRecords, (∃ sstId, s.flush = .registered sstId allRecords) ∨ s.flush = .indexed allRecords →
    lastSeq allRecords ≤ lastFlushedSeq s.engine
  top : TopHeld s.engine s.top

theorem TopHeld.congr {e e' : Engine} {top : Nat} (held : TopHeld e top) (published : lastFlushedSeq e ≤ lastFlushedSeq e')
    (logged : ∀ r, Logged r e.wal → Logged r e'.wal) : TopHeld e' top := by
  rcases held with first | below | ⟨r, there, same⟩
  · exact Or.inl first
  · exact Or.inr (Or.inl (below.trans (Nat.succ_le_succ published)))
  · exact Or.inr (Or.inr ⟨r, logged r there, same⟩)

/-- A batch appended to a whole log can be read back from it. -/
theorem topHeld_append {e : Engine} {top : Nat} (sound : WalRuns.Sound e.wal) (held : TopHeld e top)
    {records : List InternalRecord} (fits : ∀ r ∈ records, r.Fits) :
    TopHeld (e.processBatchInner records) (max top (lastSeq records + 1)) := by
  have before : TopHeld (e.processBatchInner records) top := held.congr le_rfl fun r there => there.writeEncoded _ _
  by_cases larger : lastSeq records + 1 ≤ top
  · rwa [max_eq_left larger]
  · rw [max_eq_right (Nat.le_of_not_le larger)]
    rcases lastSeq_mem records with zero | ⟨r, member, largest⟩
    · exact Or.inl (by rw [zero])
    · refine Or.inr (Or.inr ⟨r.dropEmptyEnd, logged_batch sound fits member _, ?_⟩)
      rw [← largest]
      rfl

/-- A truncation leaves no number behind that is not published. -/
theorem topHeld_truncate {e : Engine} {top seq : Nat} (sound : WalRuns.Sound e.wal) (held : TopHeld e top)
    (published : seq ≤ lastFlushedSeq e) : TopHeld { e with wal := (e.wal.truncateBefore seq).syncAll } top := by
  rcases held with first | below | ⟨r, there, same⟩
  · exact Or.inl first
  · exact Or.inr (Or.inl below)
  · by_cases above : seq < r.seq
    · exact Or.inr (Or.inr ⟨r, (there.truncateBefore sound above).syncAll.logged, same⟩)
    · refine Or.inr (Or.inl ?_)
      rw [same]
      exact Nat.succ_le_succ ((not_lt.mp above).trans published)

/-- A flush step that leaves the log and the manifest as they are. -/
theorem recorded_quiet {pc : FlushPc} {e : Engine} (recorded : Recorded s) (wal : e.wal = s.engine.wal)
    (manifest : e.tables.manifest = s.engine.tables.manifest)
    (placed : ∀ allRecords, (∃ sstId, pc = .registered sstId allRecords) ∨ pc = .indexed allRecords →
      lastSeq allRecords ≤ lastFlushedSeq s.engine) : Recorded { s with flush := pc, engine := e } := by
  have published : lastFlushedSeq e = lastFlushedSeq s.engine := congrArg (fun m => m.state.lastFlushedSeq) manifest
  exact ⟨wal ▸ recorded.sound, fun allRecords passed => (placed allRecords passed).trans_eq published.symm,
    recorded.top.congr published.ge fun r there => wal ▸ there⟩

theorem recorded_flush (recorded : Recorded s) (nowUs : Int) : Recorded
    { s with
      flush := (flushStep compressedLen nowUs s.engine s.flush).1
      engine := (flushStep compressedLen nowUs s.engine s.flush).2 } := by
  cases pc : s.flush with
  | idle => exact recorded_quiet recorded rfl rfl (by simp [flushStep])
  | frozen =>
    simp only [flushStep]
    split
    · exact recorded_quiet recorded rfl rfl (by simp)
    · split_ifs <;> exact recorded_quiet recorded rfl rfl (by simp)
  | popped allRecords => exact recorded_quiet recorded rfl rfl (by simp [flushStep])
  | numbered sstId allRecords => exact recorded_quiet recorded rfl rfl (by simp [flushStep])
  | written sstId allRecords =>
    have published : lastFlushedSeq (flushStep compressedLen nowUs s.engine (.written sstId allRecords)).2 =
        max (lastFlushedSeq s.engine) (lastSeq allRecords) := registered_lastFlushedSeq _ _ _ _
    refine ⟨recorded.sound, fun others passed => ?_, recorded.top.congr (published ▸ le_max_left _ _) fun _ => id⟩
    obtain rfl : allRecords = others := by simpa [flushStep] using passed
    exact published ▸ le_max_right _ _
  | registered sstId allRecords =>
    refine recorded_quiet recorded rfl rfl fun others passed => recorded.placed others (Or.inl ⟨sstId, ?_⟩)
    obtain rfl : allRecords = others := by simpa [flushStep] using passed
    exact pc
  | indexed allRecords =>
    have published := recorded.placed allRecords (Or.inr pc)
    exact ⟨sound_syncAll (WalRuns.sound_truncateBefore recorded.sound _), by simp [flushStep],
      topHeld_truncate recorded.sound recorded.top published⟩

theorem recorded_start (start : Start s) : Recorded s := by
  obtain ⟨⟨config, opened⟩, flush, _, _, top⟩ := start
  refine ⟨?_, fun allRecords => ?_, Or.inl top⟩
  · rw [opened]
    exact WalRuns.sound_new config.walSegmentSizeMb
  · rw [flush]
    simp

theorem recorded_step (recorded : Recorded s) (choice : Choice) (possible : Possible s choice) (lossless : Lossless s choice)
    {s' : World} (moved : s.next compressedLen choice = some s') : Recorded s' := by
  obtain ⟨sound, placed, top⟩ := id recorded
  cases choice with
  | take n =>
    obtain rfl := Option.some.inj moved
    exact ⟨sound, placed, top⟩
  | append records =>
    cases idle : s.flush with
    | idle =>
      simp only [World.next, idle] at moved
      obtain rfl := Option.some.inj moved
      refine ⟨WalRuns.sound_writeEncoded sound records _ lossless (WalRuns.le_batchMaxSeq records possible.2), ?_,
        topHeld_append sound top lossless⟩
      simp
    | _ =>
      simp only [World.next, idle] at moved
      cases moved
  | sync =>
    cases idle : s.flush with
    | idle =>
      simp only [World.next, idle] at moved
      obtain rfl := Option.some.inj moved
      exact ⟨sound_syncAll sound, by simp, top.congr le_rfl fun r there => there.syncAll.logged⟩
    | _ =>
      simp only [World.next, idle] at moved
      cases moved
  | flush nowUs =>
    obtain rfl := Option.some.inj moved
    exact recorded_flush recorded nowUs
  | compact popped =>
    obtain rfl := Option.some.inj moved
    have same := compactStep_published compressedLen s.engine.config popped s.engine.tables s.compact
    exact ⟨sound, fun allRecords passed => (placed allRecords passed).trans_eq same.symm, top.congr same.ge fun _ => id⟩
  | gc nowUs =>
    obtain rfl := Option.some.inj moved
    have same := gcStep_published nowUs s.engine.tables s.gc
    exact ⟨sound, fun allRecords passed => (placed allRecords passed).trans_eq same.symm, top.congr same.ge fun _ => id⟩
  | reopen config files =>
    obtain rfl := Option.some.inj moved
    obtain rfl : files = s.engine.wal.files := lossless
    obtain ⟨opened, same⟩ := WalRuns.sound_openDir sound config.walSegmentSizeMb
    refine ⟨opened, by simp, top.congr le_rfl fun r there => (logged_iff r _).mpr ?_⟩
    exact same.symm ▸ (logged_iff r _).mp there

/-- What is published and what is replayed take up the room. -/
theorem room_of_ahead (recorded : Recorded s) (config : Config) (ahead : Ahead (reopen config s.engine.wal.files s.engine)) :
    Room s := by
  have published : lastFlushedSeq s.engine < s.engine.tables.manifest.state.nextSstId * 1000000 := ahead.1
  rcases recorded.top with first | below | ⟨r, there, same⟩
  · rw [Room, first]
    exact Nat.one_le_iff_ne_zero.mpr (Nat.ne_zero_of_lt published)
  · exact below.trans published
  · by_cases above : lastFlushedSeq s.engine < r.seq
    · have opened := (WalRuns.sound_openDir recorded.sound config.walSegmentSizeMb).2
      have replayed : r ∈ (reopen config s.engine.wal.files s.engine).wal.replayFrom (lastFlushedSeq s.engine) :=
        mem_replayed.mpr ⟨above, opened.symm ▸ (logged_iff r _).mp there⟩
      rw [Room, same]
      exact ahead.2 r replayed
    · rw [Room, same]
      exact (Nat.succ_le_succ (not_lt.mp above)).trans published

/-- A lossless run is legible. -/
theorem legible_of_lossless (recorded : Recorded s) (choice : Choice) (lossless : Lossless s choice) : Legible s choice := by
  cases choice with
  | append records =>
    intro x member
    rw [WalRuns.lastData_clean recorded.sound, List.nil_append, replay_batch records lossless] at member
    obtain ⟨r, inside, rfl⟩ := List.mem_map.mp member
    have counted : r.seq ≤ lastSeq records := le_lastSeq inside
    exact lt_max_of_lt_right (Nat.lt_succ_of_le counted)
  | _ => trivial

theorem counted_lossless (reached : Reachable (World.next compressedLen) (fun s choice => Possible s choice ∧ Lossless s choice)
    Start s) : Recorded s ∧ Counted s := by
  refine @Reachable.invariant World Choice _ _ _ (fun s => Recorded s ∧ Counted s) (fun s start => ?_)
    (fun s choice s' inv allowed moved => ?_) s reached
  · exact ⟨recorded_start start, counted_start start⟩
  · exact ⟨recorded_step inv.1 choice allowed.1 allowed.2 moved,
      counted_step inv.2 choice allowed.1 (legible_of_lossless inv.1 choice allowed.2) moved⟩

/-- Whatever a crash leaves, an open hands out numbers above everything it finds if there
is room below the next million; where no byte is lost, only then. -/
theorem reopened_ahead (compressedLen : Bytes → Nat) (s : World) (config : Config) :
    (Reachable (World.next compressedLen) (fun s choice => Possible s choice ∧ Legible s choice) Start s → Room s →
        ∀ files, Crash s.engine.wal files → Ahead (reopen config files s.engine)) ∧
      (Reachable (World.next compressedLen) (fun s choice => Possible s choice ∧ Lossless s choice) Start s →
        (Ahead (reopen config s.engine.wal.files s.engine) ↔ Room s)) := by
  constructor
  · intro reached room files crash
    exact ahead_of_room (counted_reached reached) room config crash
  · intro reached
    obtain ⟨recorded, counted⟩ := counted_lossless reached
    exact ⟨room_of_ahead recorded config, fun room => ahead_of_room counted room config (crash_files _)⟩

/-! One put in the first session, which ends before a flush. -/

def opened : World := ⟨fresh {}, .idle, .idle, .idle, 1⟩

def firstPut : InternalRecord := .fromRecord (.new [107] 1 [2]) 1000000

/-- The number is taken, and the put appended. -/
def putOnce : World :=
  { opened with
    engine := ({ fresh {} with seqCounter := 1000001 } : Engine).processBatchInner [firstPut]
    top := 1000001 }

theorem putOnce_reached : Reachable (World.next List.length) (fun s choice => Possible s choice ∧ Lossless s choice) Start putOnce := by
  have start : Start opened := ⟨⟨{}, rfl⟩, rfl, rfl, rfl, rfl⟩
  refine .step { opened with engine := { fresh {} with seqCounter := 1000001 } } _
    (.step opened _ (.start opened start) ⟨.take 1, ⟨trivial, trivial⟩, rfl⟩) ⟨.append [firstPut], ⟨⟨?_, ?_⟩, ?_⟩, ?_⟩
  · simp [firstPut, InternalRecord.fromRecord]
  · exact List.pairwise_singleton _ _
  · intro r member
    rw [List.mem_singleton.mp member]
    constructor <;> decide
  · rfl

/-- The next session starts with the number of the put it replays. -/
theorem restart_repeats_number :
    Reachable (World.next List.length) (fun s choice => Possible s choice ∧ Lossless s choice) Start putOnce ∧
      Crash putOnce.engine.wal putOnce.engine.wal.files ∧ ¬ Ahead (reopen {} putOnce.engine.wal.files putOnce.engine) := by
  refine ⟨putOnce_reached, crash_files _, fun ahead => ?_⟩
  exact absurd (ahead.2 firstPut (by decide +kernel)) (by decide +kernel)

/-- The same session with a whole flush behind the put. -/
def putFlushed : World :=
  (fun s => { s with
    flush := (flushStep List.length 0 s.engine s.flush).1
    engine := (flushStep List.length 0 s.engine s.flush).2 })^[7] putOnce

theorem putFlushed_reached :
    Reachable (World.next List.length) (fun s choice => Possible s choice ∧ Lossless s choice) Start putFlushed := by
  have flushed : ∀ {s : World}, Reachable (World.next List.length) (fun s choice => Possible s choice ∧ Lossless s choice) Start s →
      Reachable (World.next List.length) (fun s choice => Possible s choice ∧ Lossless s choice) Start
        { s with
          flush := (flushStep List.length 0 s.engine s.flush).1
          engine := (flushStep List.length 0 s.engine s.flush).2 } :=
    fun {s} reached => .step s _ reached ⟨.flush 0, ⟨trivial, trivial⟩, rfl⟩
  exact flushed (flushed (flushed (flushed (flushed (flushed (flushed putOnce_reached))))))

theorem reopened_ahead_flushed : Ahead (reopen {} putFlushed.engine.wal.files putFlushed.engine) := by
  refine ((reopened_ahead List.length putFlushed {}).2 putFlushed_reached).mpr ?_
  unfold Room
  decide +kernel

end FlowDb.SequenceNumbers
