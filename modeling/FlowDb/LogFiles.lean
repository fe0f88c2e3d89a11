import FlowDb.TableUpkeep

/-! What the files of the write-ahead log are kept for. A segment goes by the largest number
in it, and a flush removes those that go by a number it has published; a segment that stays
without bytes is the last. -/
namespace FlowDb.LogFiles
open ByteString Records WalCodec WalLog WalRuns Sstable TableStore EngineOps EngineRuns MaintenanceSteps Interleaving
open CrashRecovery PollingLoop BackgroundMaintenance Restarts TableUpkeep

/-! ### The number read off a file -/

/-- Both parsers go through a whole segment alike. -/
theorem findMaxSeqLoop_eq (fuel : Nat) (data : Bytes) (maxSeq : Nat) (clean : replayTailLoop fuel data = []) :
    findMaxSeqLoop fuel data maxSeq = ((replayLoop fuel data).map (·.seq)).foldl max maxSeq := by
  induction fuel generalizing data maxSeq with
  | zero => rfl
  | succ fuel ih =>
    rw [replayTailLoop] at clean
    rw [replayLoop]
    cases decoded : decodeRecord data with
    | none =>
      rw [decoded] at clean
      obtain rfl : data = [] := clean
      rfl
    | some pair =>
      obtain ⟨r, advance⟩ := pair
      rw [decoded] at clean
      obtain ⟨skipped, number, long⟩ := skipRecord_of_decode data r advance decoded
      rw [findMaxSeqLoop, if_neg (by omega), skipped, number]
      exact ih _ _ clean

theorem foldl_max_eq {l : List Nat} {top : Nat} (bound : ∀ n ∈ l, n ≤ top) (attained : top ∈ l) :
    l.foldl max 0 = top := by
  apply le_antisymm
  · rcases SequenceNumbers.foldl_max_mem l 0 with none | member
    · rw [none]
      exact Nat.zero_le top
    · exact bound _ member
  · exact ManifestLog.ManifestState.le_foldl_max l 0 top (Or.inl attained)

/-! ### Segments that no flush has done with -/

/-- Without bytes, or going by the number of a record in it that is not published. -/
def Needed (published : Nat) (s : WalSegment) : Prop :=
  (s.data = [] ∧ s.maxSeq = 0) ∨ (published < s.maxSeq ∧ ∃ x ∈ replaySegment s.data, x.seq = s.maxSeq)

theorem needed_empty (published id : Nat) : Needed published ⟨id, [], 0, 0, 0⟩ := Or.inl ⟨rfl, rfl⟩

/-- The number survives the file's being read again. -/
theorem needed_reread {published : Nat} {s : WalSegment} (ok : SegmentOk s) (needed : Needed published s) :
    Needed published ⟨s.id, s.data, s.data.length, 0, findMaxSeqInSegment s.data⟩ := by
  rcases needed with ⟨empty, _⟩ | ⟨above, x, member, top⟩
  · left
    exact ⟨empty, congrArg findMaxSeqInSegment empty⟩
  · right
    have same : findMaxSeqInSegment s.data = s.maxSeq := by
      rw [findMaxSeqInSegment, findMaxSeqLoop_eq _ _ _ ok.clean]
      apply foldl_max_eq
      · intro n there
        obtain ⟨y, inside, rfl⟩ := List.mem_map.mp there
        exact ok.bound y inside
      · exact List.mem_map.mpr ⟨x, member, top⟩
    rw [same]
    exact ⟨above, x, member, top⟩

theorem needed_append {published : Nat} {s : WalSegment} (ok : SegmentOk s) {batch : List InternalRecord}
    (fits : ∀ x ∈ batch, x.Fits) (numbered : ∀ x ∈ batch, published < x.seq) (needed : Needed published s) :
    Needed published (s.append (encodeBatch batch) (batchMaxSeq batch)) := by
  have whole : replaySegment (s.data ++ encodeBatch batch) =
      replaySegment s.data ++ batch.map InternalRecord.dropEmptyEnd := by
    rw [replaySegment_append, ok.clean, List.nil_append, replay_batch batch fits]
  rcases List.eq_nil_or_concat batch with rfl | ⟨front, last, shape⟩
  · have same : s.append (encodeBatch []) (batchMaxSeq []) = s := by
      simp [WalSegment.append, encodeBatch, batchMaxSeq]
    rwa [same]
  · rw [List.concat_eq_append] at shape
    have member : last ∈ batch := by simp [shape]
    have top : batchMaxSeq batch = last.seq := by simp [batchMaxSeq, shape]
    right
    by_cases larger : batchMaxSeq batch > s.maxSeq
    · have number : (s.append (encodeBatch batch) (batchMaxSeq batch)).maxSeq = last.seq := by
        rw [WalSegment.append, if_pos larger, top]
      rw [number]
      refine ⟨numbered last member, last.dropEmptyEnd, ?_, rfl⟩
      show last.dropEmptyEnd ∈ replaySegment (s.data ++ encodeBatch batch)
      rw [whole]
      exact List.mem_append_right _ (List.mem_map.mpr ⟨last, member, rfl⟩)
    · have number : (s.append (encodeBatch batch) (batchMaxSeq batch)).maxSeq = s.maxSeq := by
        rw [WalSegment.append, if_neg larger]
      rw [number]
      rcases needed with ⟨_, zero⟩ | ⟨above, x, inside, same⟩
      · have positive := numbered last member
        omega
      · refine ⟨above, x, ?_, same⟩
        show x ∈ replaySegment (s.data ++ encodeBatch batch)
        rw [whole]
        exact List.mem_append_left _ inside

theorem encodeBatch_ne_nil {batch : List InternalRecord} (some : batch ≠ []) : encodeBatch batch ≠ [] := by
  obtain ⟨r, rest, rfl⟩ := List.exists_cons_of_ne_nil some
  intro none
  have longer : (encodeRecord r ++ encodeBatch rest).length = 0 := List.length_eq_zero_iff.mpr none
  rw [List.length_append, length_encodeRecord, encodedSize] at longer
  omega

/-- Every segment is needed, and only the last may be without bytes. -/
structure Trim (published : Nat) (w : Wal) : Prop where
  filled : w.segments.Pairwise fun s _ => s.data ≠ []
  needed : ∀ s ∈ w.segments, Needed published s

namespace Trim
variable {published : Nat} {w : Wal}

theorem createNewSegment (trim : Trim published w) (full : ∀ s ∈ w.segments, s.data ≠ []) :
    Trim published w.createNewSegment := by
  constructor
  · exact List.pairwise_append.mpr ⟨trim.filled, List.pairwise_singleton _ _, fun s member _ _ => full s member⟩
  · intro s member
    rcases List.mem_append.mp member with old | new
    · exact trim.needed s old
    · rw [List.mem_singleton.mp new]
      exact needed_empty _ _

theorem ensureSegment (trim : Trim published w) : Trim published w.ensureSegment := by
  unfold Wal.ensureSegment
  split_ifs with none
  · apply trim.createNewSegment
    intro s member
    rw [none] at member
    cases member
  · exact trim

theorem exists_last (w : Wal) : ∃ front last, w.ensureSegment.segments = front ++ [last] := by
  rcases List.eq_nil_or_concat w.ensureSegment.segments with none | ⟨front, last, shape⟩
  · unfold Wal.ensureSegment at none
    split_ifs at none with empty
    · exact absurd none (List.append_ne_nil_of_right_ne_nil _ (List.cons_ne_nil _ _))
    · exact absurd none empty
  · exact ⟨front, last, shape.trans List.concat_eq_append⟩

/-- Once the last segment has bytes, all have. -/
theorem full (trim : Trim published w) {front : List WalSegment} {last : WalSegment} (shape : w.segments = front ++ [last])
    (written : last.data ≠ []) : ∀ s ∈ w.segments, s.data ≠ [] := by
  have filled := trim.filled
  rw [shape] at filled ⊢
  intro s member
  rcases List.mem_append.mp member with before | here
  · exact (List.pairwise_append.mp filled).2.2 s before last (List.mem_singleton_self last)
  · rw [List.mem_singleton.mp here]
    exact written

/-- Another segment in the place of the last. -/
theorem replaceLast (trim : Trim published w) {front : List WalSegment} {last s : WalSegment}
    (shape : w.segments = front ++ [last]) (needed : Needed published s) :
    Trim published { w with segments := front ++ [s] } := by
  have filled := trim.filled
  rw [shape] at filled
  obtain ⟨fronts, _, before⟩ := List.pairwise_append.mp filled
  constructor
  · refine List.pairwise_append.mpr ⟨fronts, List.pairwise_singleton _ _, fun x member _ _ => ?_⟩
    exact before x member last (List.mem_singleton_self last)
  · intro x member
    rcases List.mem_append.mp member with old | new
    · exact trim.needed x (shape ▸ List.mem_append_left _ old)
    · rw [List.mem_singleton.mp new]
      exact needed

theorem rollover (trim : Trim published w) (full : ∀ s ∈ w.segments, s.data ≠ []) : Trim published w.rollover := by
  unfold Wal.rollover
  split
  · split_ifs
    · exact trim.createNewSegment full
    · exact trim
  · exact trim

/-- A batch goes to the last segment, which is rolled over only once it has bytes. -/
theorem writeEncoded (trim : Trim published w) (sound : Sound w) {batch : List InternalRecord} (some : batch ≠ [])
    (fits : ∀ x ∈ batch, x.Fits) (numbered : ∀ x ∈ batch, published < x.seq) :
    Trim published (w.writeEncoded (encodeBatch batch) (batchMaxSeq batch)) := by
  obtain ⟨front, last, shape⟩ := exists_last w
  let grown := last.append (encodeBatch batch) (batchMaxSeq batch)
  have here : last ∈ w.ensureSegment.segments := by simp [shape]
  have needed : Needed published grown :=
    needed_append ((sound_ensureSegment sound).whole last here) fits numbered (trim.ensureSegment.needed last here)
  have written : grown.data ≠ [] := by
    intro none
    exact encodeBatch_ne_nil some (List.append_eq_nil_iff.mp none).2
  have step : w.appendLast (encodeBatch batch) (batchMaxSeq batch) = { w.ensureSegment with segments := front ++ [grown] } := by
    simp only [Wal.appendLast, shape, modifyLast_append]
    rfl
  have appended := trim.ensureSegment.replaceLast shape needed
  rw [Wal.writeEncoded, step]
  exact appended.rollover (appended.full rfl written)

theorem syncAll (trim : Trim published w) : Trim published w.syncAll := by
  constructor
  · exact List.pairwise_map.mpr trim.filled
  · intro s member
    obtain ⟨x, there, rfl⟩ := List.mem_map.mp member
    exact trim.needed x there

/-- A flush that publishes `seq` leaves the segments that go by a larger number. -/
theorem truncateBefore (trim : Trim published w) (seq : Nat) : Trim (max published seq) (w.truncateBefore seq) := by
  apply Trim.ensureSegment
  constructor
  · exact trim.filled.sublist List.filter_sublist
  · intro s member
    obtain ⟨there, kept⟩ := List.mem_filter.mp member
    rcases trim.needed s there with none | ⟨above, held⟩
    · exact Or.inl none
    · right
      have kept : s.maxSeq = 0 ∨ seq < s.maxSeq := by simpa using kept
      exact ⟨max_lt above (by omega), held⟩

theorem openDir (trim : Trim published w) (sound : Sound w) (sizeMb : Nat) :
    Trim published (Wal.openDir w.files sizeMb) := by
  have inOrder : w.files.Pairwise byId := by
    rw [Wal.files, List.pairwise_map]
    exact (List.pairwise_map.mp sound.ids).imp Nat.le_of_lt
  rw [Wal.openDir, inOrder.insertionSort_eq, Wal.files, List.map_map, List.map_map]
  apply Trim.ensureSegment
  constructor
  · exact List.pairwise_map.mpr trim.filled
  · intro s member
    obtain ⟨x, there, rfl⟩ := List.mem_map.mp member
    exact needed_reread (sound.whole x there) (trim.needed x there)

end Trim

/-! ### What every operation keeps -/

section
variable {compressedLen : Bytes → Nat}

/-- No segment waits for a number that a flush has published. -/
def Trimmed (e : Engine) : Prop := Trim (CrashedWriters.lastFlushedSeq e) e.wal

theorem trimmed_syncAll {e : Engine} (trimmed : Trimmed e) : Trimmed { e with wal := e.wal.syncAll } := trimmed.syncAll

theorem trimmed_doFlush {e : Engine} (ok : EngineOk e) (nowUs : Int) (trimmed : Trimmed e) :
    Trimmed (e.doFlush compressedLen nowUs) := by
  rcases doFlush_cases compressedLen e nowUs ok.frozen with ⟨_, same⟩ | ⟨_, dropped⟩ | flushed
  · rwa [same]
  · rwa [dropped]
  · have number := @addFlushed_lastFlushedSeq compressedLen e.config e.tables (flushable e.memtables.active.records nowUs)
    rw [flushed, Trimmed, CrashedWriters.lastFlushedSeq, number]
    apply Trim.syncAll
    exact trimmed.truncateBefore _

theorem trimmed_tables {e : Engine} {t : Tables}
    (same : t.manifest.state.lastFlushedSeq = CrashedWriters.lastFlushedSeq e) (trimmed : Trimmed e) :
    Trimmed (withTables e t) := by
  rw [Trimmed, CrashedWriters.lastFlushedSeq]
  exact same.symm ▸ trimmed

theorem assignSeqs_ne_nil {base : Nat} {records : List InternalRecord} (some : records ≠ []) :
    assignSeqs base records ≠ [] := by
  obtain ⟨r, rest, rfl⟩ := List.exists_cons_of_ne_nil some
  exact List.cons_ne_nil _ _

theorem trimmed_submit {e : Engine} (ok : EngineOk e) {records : List InternalRecord} (nowUs : Int) (some : records ≠ [])
    (fits : ∀ x ∈ assignSeqs e.seqCounter records, x.Fits ∧ TableFits x)
    (published : CrashedWriters.lastFlushedSeq e < e.seqCounter) (trimmed : Trimmed e) :
    Trimmed (e.submit compressedLen records nowUs) := by
  apply submit_keeps ok fits
  · apply Trim.writeEncoded trimmed ok.log
    · exact assignSeqs_ne_nil some
    · exact fun x member => (fits x member).1
    · intro x member
      exact published.trans_le (mem_assignSeqs e.seqCounter records x member).1
  · exact fun e held => trimmed_syncAll held
  · exact fun e inserted held => trimmed_doFlush inserted nowUs held

/-- A command does nothing, flushes, or submits something. -/
theorem exec_submits (compressedLen : Bytes → Nat) (c : Command) (e : Engine) (nowUs : Int) :
    (c.exec compressedLen e nowUs = e ∨ c.exec compressedLen e nowUs = e.doFlush compressedLen nowUs) ∨
      (c.records e.config ≠ [] ∧ c.exec compressedLen e nowUs = e.submit compressedLen (c.records e.config) nowUs) := by
  cases c with
  | writeBatch batch ttlSecs =>
    by_cases empty : batch = []
    · exact Or.inl (Or.inl (if_pos empty))
    · exact Or.inr ⟨mt List.map_eq_nil_iff.mp empty, if_neg empty⟩
  | deleteBatch keysTs =>
    by_cases empty : keysTs = []
    · exact Or.inl (Or.inl (if_pos empty))
    · exact Or.inr ⟨mt List.map_eq_nil_iff.mp empty, if_neg empty⟩
  | deleteRange startKey endKey => exact Or.inr ⟨List.cons_ne_nil _ _, rfl⟩
  | flush => exact Or.inl (Or.inr rfl)

theorem trimmed_command {e : Engine} (ok : EngineOk e) (c : Command) (nowUs : Int)
    (fits : ∀ x ∈ assignSeqs e.seqCounter (c.records e.config), x.Fits ∧ TableFits x)
    (published : CrashedWriters.lastFlushedSeq e < e.seqCounter) (trimmed : Trimmed e) :
    Trimmed (c.exec compressedLen e nowUs) := by
  rcases exec_submits compressedLen c e nowUs with (same | flushed) | ⟨some, submitted⟩
  · rwa [same]
  · rw [flushed]
    exact trimmed_doFlush ok nowUs trimmed
  · rw [submitted]
    exact trimmed_submit ok nowUs some fits published trimmed

theorem trimmed_reopened {e : Engine} (ok : EngineOk e) (trimmed : Trimmed e) (config : Config) :
    Trimmed (reopened config e) := trimmed.openDir ok.log config.walSegmentSizeMb

theorem trimmed_step {w : World} (ready : Ready w) (replayable : Replayable w.engine w.clock) (trimmed : Trimmed w.engine)
    {choice : CrashRecovery.Choice} (orderly : Orderly w choice) : Trimmed (w.exec compressedLen choice).engine := by
  cases choice with
  | command c nowUs => exact trimmed_command ready.ok c nowUs (orderly.1.2 c nowUs rfl) replayable.ahead.1 trimmed
  | compact nowUs popped =>
    exact trimmed_tables (run_lastFlushedSeq w.engine.config compressedLen w.engine.tables popped) trimmed
  | gc nowUs => exact trimmed_tables (gc_lastFlushedSeq w.engine.tables nowUs) trimmed
  | crash config => exact trimmed_reopened ready.ok trimmed config

theorem trimmed_fresh (config : Config) : Trimmed (fresh config) := by
  have files : (fresh config).wal.segments = [⟨1, [], 0, 0, 0⟩] := rfl
  constructor
  · rw [files]
    exact List.pairwise_singleton _ _
  · intro s member
    rw [files] at member
    rw [List.mem_singleton.mp member]
    exact needed_empty _ _

theorem trimmed_reachable {w : World} (reached : Reachable (World.next compressedLen) Orderly Start w) :
    (Ready w ∧ Replayable w.engine w.clock) ∧ Trimmed w.engine := by
  apply reached.invariant
  · intro w start
    refine ⟨⟨ready_start start, replayable_start start⟩, ?_⟩
    obtain ⟨config, _, opened⟩ := start.engine
    rw [opened]
    exact trimmed_fresh config
  · rintro w choice w' ⟨⟨ready, replayable⟩, trimmed⟩ orderly moved
    obtain rfl := Option.some.inj moved
    exact ⟨⟨ready_step ready orderly.1, replayable_step ready replayable orderly⟩,
      trimmed_step ready replayable trimmed orderly⟩

/-- Its newest record is in memory, or has expired. -/
def Awaited (e : Engine) (clock : Int) (s : WalSegment) : Prop :=
  ∃ x ∈ replaySegment s.data, (∀ y ∈ replaySegment s.data, y.seq ≤ x.seq) ∧
    (x ∈ e.memtables.active.records ∨ x.expireAt ≤ clock)

theorem awaited_of_trimmed {e : Engine} {clock : Int} (ok : EngineOk e) (mirrored : Mirrored e clock) (trimmed : Trimmed e)
    {s : WalSegment} (member : s ∈ e.wal.segments) (written : s.data ≠ []) : Awaited e clock s := by
  obtain ⟨past, shape, expired⟩ := mirrored
  rcases trimmed.needed s member with ⟨empty, _⟩ | ⟨above, x, inside, top⟩
  · exact absurd empty written
  · refine ⟨x, inside, fun y there => ((ok.log.whole s member).bound y there).trans_eq top.symm, ?_⟩
    have replayed : x ∈ e.wal.replayFrom (CrashedWriters.lastFlushedSeq e) :=
      (mem_replayFrom_iff _ _ _).mpr ⟨top ▸ above, s, member, inside⟩
    rw [shape] at replayed
    rcases List.mem_append.mp replayed with old | held
    · exact Or.inr (expired x old)
    · exact Or.inl held

/-- At any moment of a run every file of the log but the last has bytes, and the newest record of each that has is in the
memtables or has expired. -/
theorem files_awaited (w : World) (reached : Reachable (World.next compressedLen) Orderly Start w) :
    (w.engine.wal.segments.Pairwise fun s _ => s.data ≠ []) ∧
      ∀ s ∈ w.engine.wal.segments, s.data ≠ [] → Awaited w.engine w.clock s := by
  obtain ⟨⟨ready, replayable⟩, trimmed⟩ := trimmed_reachable reached
  refine ⟨trimmed.filled, fun s member written => ?_⟩
  exact awaited_of_trimmed ready.ok replayable.mirrored trimmed member written

end

/-- Behind the flush one put waits in the one file. -/
theorem files_awaited_half_flushed : halfFlushed.engine.wal.segments.length = 1 ∧
    ∀ s ∈ halfFlushed.engine.wal.segments, s.data ≠ [] ∧ Awaited halfFlushed.engine halfFlushed.clock s := by
  have written : ∀ s ∈ halfFlushed.engine.wal.segments, s.data ≠ [] := by decide +kernel
  refine ⟨by decide +kernel, fun s member => ⟨written s member, ?_⟩⟩
  exact (files_awaited halfFlushed halfFlushed_reachable).2 s member (written s member)

/-! ### How long a file stays -/

section
variable {compressedLen : Bytes → Nat} {config : Config} {intervals : Intervals} {lag : Nat} {limit : Int}

/-- No clock shows a time past `limit`, and no range delete has an empty end. -/
def FineUntil (limit : Int) (e : Engine) (op : Operation) : Prop :=
  Fine e op ∧ Operation.nowUs op ≤ limit ∧
    ∀ c nowUs, op = .command c nowUs → ∀ x ∈ assignSeqs e.seqCounter (c.records e.config), x.dropEmptyEnd = x

def AnswersUntil (limit : Int) (e : Engine) (answer : Answer) : Prop := Answers e answer ∧ answer.nowUs ≤ limit

/-- An engine whose log gives back its memory and keeps no file for less. -/
structure LogKept (limit : Int) (e : Engine) : Prop where
  ok : EngineOk e
  replayable : Replayable e limit
  trimmed : Trimmed e

namespace LogKept
variable {e : Engine} {nowUs : Int}

theorem doFlush (kept : LogKept limit e) (early : nowUs ≤ limit) : LogKept limit (e.doFlush compressedLen nowUs) := by
  refine ⟨engineOk_doFlush compressedLen kept.ok nowUs, ?_, trimmed_doFlush kept.ok nowUs kept.trimmed⟩
  have flushed := @replayable_doFlush compressedLen e kept.ok limit nowUs kept.replayable
  rwa [max_eq_left early] at flushed

theorem command (kept : LogKept limit e) {c : Command} (fine : FineUntil limit e (.command c nowUs)) :
    LogKept limit (c.exec compressedLen e nowUs) := by
  obtain ⟨fits, early, whole⟩ := fine
  rcases exec_submits compressedLen c e nowUs with (same | flushed) | ⟨_, submitted⟩
  · rwa [same]
  · rw [flushed]
    exact kept.doFlush early
  · refine ⟨stable_engineOk.command e c nowUs fits kept.ok, ?_,
      trimmed_command kept.ok c nowUs fits kept.replayable.ahead.1 kept.trimmed⟩
    have submits := @replayable_submit compressedLen e kept.ok limit _ nowUs fits (whole c nowUs rfl) kept.replayable
    rw [submitted]
    exact (max_eq_left early : max limit nowUs = limit) ▸ submits

theorem tables (kept : LogKept limit e) {t : Tables} (ok : EngineOk (withTables e t))
    (same : t.manifest.state.lastFlushedSeq = CrashedWriters.lastFlushedSeq e) : LogKept limit (withTables e t) :=
  ⟨ok, replayable_tables same kept.replayable, trimmed_tables same kept.trimmed⟩

theorem compact (kept : LogKept limit e) {popped : List InternalRecord} (order : HeapOrder e.tables nowUs popped) :
    LogKept limit (withTables e (CompactionRunner.run e.config compressedLen e.tables popped)) :=
  kept.tables (stable_engineOk.compact e nowUs popped order kept.ok)
    (run_lastFlushedSeq e.config compressedLen e.tables popped)

theorem gc (kept : LogKept limit e) (nowUs : Int) : LogKept limit (withTables e (GcRunner.run e.tables nowUs)) :=
  kept.tables (ok_gc kept.ok nowUs) (gc_lastFlushedSeq e.tables nowUs)

theorem syncAll (kept : LogKept limit e) : LogKept limit { e with wal := e.wal.syncAll } :=
  ⟨engineOk_syncAll kept.ok, replayable_syncAll kept.replayable, trimmed_syncAll kept.trimmed⟩

end LogKept

theorem kept_log : Kept (tasks compressedLen config intervals) (Operation.exec compressedLen) (FineUntil limit)
    (AnswersUntil limit) (LogKept limit) := by
  constructor
  · intro e op fine kept
    cases op with
    | command c nowUs => exact kept.command fine
    | compact nowUs popped => exact kept.compact fine.1
    | gc nowUs => exact kept.gc nowUs
  · intro task member e answer answers kept
    simp only [tasks, List.mem_cons, List.not_mem_nil, or_false] at member
    rcases member with rfl | rfl | rfl | rfl
    · exact kept.doFlush answers.2
    · simp only [compactTask]
      split_ifs
      · exact kept.compact answers.1
      · exact kept
    · exact kept.gc answer.nowUs
    · exact kept.syncAll

/-- The thread of an engine opened on what orderly sessions have left. -/
def Resumed (compressedLen : Bytes → Nat) (config : Config) (s : State Engine) : Prop :=
  0 < config.maxFrozenMemtables ∧ ∃ w clock, Reachable (World.next compressedLen) Orderly Start w ∧
    SequenceNumbers.Ahead (reopened config w.engine) ∧ s = begin (reopened config w.engine) clock

theorem Resumed.opened {s : State Engine} (resumed : Resumed compressedLen config s) : Opened compressedLen config s := by
  obtain ⟨roomy, w, clock, before, _, same⟩ := resumed
  exact ⟨roomy, w, clock, before.mono fun _ _ orderly => orderly.1, same⟩

theorem Resumed.kept {s : State Engine} (resumed : Resumed compressedLen config s) (limit : Int) :
    LogKept limit s.store := by
  obtain ⟨roomy, w, clock, before, ahead, rfl⟩ := resumed
  obtain ⟨⟨ready, _⟩, trimmed⟩ := trimmed_reachable before
  have memory : (reopened config w.engine).memtables.active.records =
      (reopened config w.engine).wal.replayFrom (CrashedWriters.lastFlushedSeq w.engine) :=
    (MemoryTables.foldl_insert _ _).1
  refine ⟨engineOk_reopened ready.ok roomy, ⟨ahead, [], memory.symm, ?_⟩, trimmed_reopened ready.ok trimmed config⟩
  intro x member
  cases member

theorem prompt_until {s : State Engine} {choice : PollingLoop.Choice Answer Operation}
    (prompt : Prompt lag (FineUntil limit) (AnswersUntil limit) s choice) : Prompt lag Fine Answers s choice := by
  cases choice with
  | outside op => exact prompt.1
  | tick d => exact prompt
  | halt => trivial
  | turn answer => exact prompt.1

/-- While the thread runs no file of the log stays for what was written long ago: a flush interval and three lags after any
moment, the newest record of each file that has bytes was written since or has expired. -/
theorem files_renewed_within (s s' : State Engine) (limit : Int)
    (reached : Reachable (next (tasks compressedLen config intervals) (pollDur config intervals) (Operation.exec compressedLen))
      (Prompt lag (FineUntil limit) (AnswersUntil limit)) (Resumed compressedLen config) s)
    (later : Reachable (next (tasks compressedLen config intervals) (pollDur config intervals) (Operation.exec compressedLen))
      (Prompt lag (FineUntil limit) (AnswersUntil limit)) (· = s) s')
    (running : s'.place ≠ .stopped) (late : s.clock + flushDur intervals + 3 * lag < s'.clock) (file : WalSegment)
    (there : file ∈ s'.store.wal.segments) (written : file.data ≠ []) :
    ∃ x ∈ replaySegment file.data, (∀ y ∈ replaySegment file.data, y.seq ≤ x.seq) ∧
      (s.store.seqCounter ≤ x.seq ∨ x.expireAt ≤ limit) := by
  have before : LogKept limit s.store := Kept.reachable kept_log (fun u resumed => resumed.kept limit) reached
  have behind : LogKept limit s'.store := by
    refine Kept.reachable kept_log ?_ later
    rintro u rfl
    exact before
  have opened : Runs compressedLen config intervals lag (Opened compressedLen config) s :=
    (reached.mono fun u choice => prompt_until).mono_start fun u => Resumed.opened
  have recent := (memory_flushed_within s s' opened (later.mono fun u choice => prompt_until) running late).2
  obtain ⟨x, inside, newest, held | expired⟩ :=
    awaited_of_trimmed behind.ok behind.replayable.mirrored behind.trimmed there written
  · exact ⟨x, inside, newest, Or.inl (recent x held)⟩
  · exact ⟨x, inside, newest, Or.inr expired⟩

end

/-! ### A session with one put -/

def NotPast (limit : Int) : PollingLoop.Choice Answer Operation → Prop
  | .turn answer => answer.nowUs ≤ limit
  | _ => True

instance decidableNotPast (limit : Int) : (choice : PollingLoop.Choice Answer Operation) → Decidable (NotPast limit choice)
  | .outside _ => inferInstanceAs (Decidable True)
  | .tick _ => inferInstanceAs (Decidable True)
  | .halt => inferInstanceAs (Decidable True)
  | .turn answer => inferInstanceAs (Decidable (answer.nowUs ≤ limit))

theorem prompt_notPast {lag : Nat} {since limit : Int} {s : State Engine} {choice : PollingLoop.Choice Answer Operation}
    (spent : Spent lag since s choice) (early : NotPast limit choice) :
    Prompt lag (FineUntil limit) (AnswersUntil limit) s choice := by
  have prompt := prompt_spent spent
  cases choice with
  | outside op => exact spent.elim
  | tick d => exact prompt
  | halt => trivial
  | turn answer => exact ⟨prompt.1, early⟩

/-- A put that lives for a second. -/
def putBriefly : Command := .writeBatch [.new [97] 1 [1]] (some 1)

def firstOpened : State Engine := begin (reopened syncing CrashRecovery.opened.engine) 0

theorem firstOpened_resumed : Resumed List.length syncing firstOpened :=
  ⟨by decide, CrashRecovery.opened, 0, .start _ CrashRecovery.opened_start, ⟨by decide +kernel, by decide +kernel⟩, rfl⟩

def putSession : State Engine := { firstOpened with store := putBriefly.exec List.length firstOpened.store 0 }

theorem putSession_reached : Reachable (next (tasks List.length syncing briefly) (pollDur syncing briefly)
    (Operation.exec List.length)) (Prompt 2000000 (FineUntil 2000000) (AnswersUntil 2000000))
      (Resumed List.length syncing) putSession := by
  refine .step _ _ (.start _ firstOpened_resumed) ⟨.outside (.command putBriefly 0), ⟨?_, by decide, ?_⟩, rfl⟩
  · show ∀ x ∈ assignSeqs firstOpened.store.seqCounter (putBriefly.records firstOpened.store.config), x.Fits ∧ TableFits x
    decide +kernel
  · rintro c nowUs ⟨⟩
    decide +kernel

/-- The flush comes before the put has expired, the rest behind it. -/
def putPasses : List (PollingLoop.Choice Answer Operation) :=
  [.turn ⟨0, []⟩, .tick 2000000] ++ List.replicate 2 (.turn ⟨0, []⟩) ++ List.replicate 6 (.turn ⟨2000000, []⟩) ++
    (List.replicate 3 (pass 2000000 8)).flatten

/-- Eight milliseconds after the put its bytes have left the log. -/
theorem files_renewed_within_session : (∃ file ∈ putSession.store.wal.segments, file.data ≠ []) ∧
    ∃ s' : State Engine, 7000000 < s'.clock ∧ ∀ file ∈ s'.store.wal.segments, file.data ≠ [] →
      ∃ x ∈ replaySegment file.data, (∀ y ∈ replaySegment file.data, y.seq ≤ x.seq) ∧
        (putSession.store.seqCounter ≤ x.seq ∨ x.expireAt ≤ 2000000) := by
  obtain ⟨s', reached, passed⟩ : ∃ s', Reachable (next (tasks List.length syncing briefly) (pollDur syncing briefly)
      (Operation.exec List.length)) (fun s choice => Spent 2000000 0 s choice ∧ NotPast 2000000 choice) (· = putSession) s' ∧
        (s'.place != .stopped && decide (7000000 < s'.clock)) = true :=
    reachable_of_follow putSession putPasses _ rfl (by decide +kernel)
  rw [Bool.and_eq_true, bne_iff_ne, decide_eq_true_eq] at passed
  refine ⟨by decide +kernel, s', passed.2, fun file there written => ?_⟩
  exact files_renewed_within putSession s' 2000000 putSession_reached
    (reached.mono fun s choice taken => prompt_notPast taken.1 taken.2) passed.1 passed.2 file there written

end FlowDb.LogFiles
