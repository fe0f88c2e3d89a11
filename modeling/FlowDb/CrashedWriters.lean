import FlowDb.EngineRuns
import FlowDb.Interleaving
import FlowDb.MaintenanceSteps
import FlowDb.WalRuns

/-! Writers of one session up to a crash. A writer takes its numbers from the shared
counter before it submits; the worker appends, inserts and syncs under its lock, which
a flush holds as well; a crash leaves what an fsync has covered, and what is replayed
depends on the largest number a flush has published. -/
namespace FlowDb.CrashedWriters
open ByteString OrderedMap Records WalCodec WalLog Sstable ManifestLog ManifestState TableStore MemoryTables
open EngineOps EngineRuns MaintenanceSteps Interleaving

/-- Where a writer stands, with the records it has taken numbers for. -/
inductive WriterPc where
  | idle
  | numbered (records : List InternalRecord)
  | appended (records : List InternalRecord)
  | inserted (records : List InternalRecord)
  | synced (records : List InternalRecord)
  deriving DecidableEq, Repr

/-- The worker lock: free or a flush's, or held by the leader of a group. -/
inductive Worker (Writer : Type) where
  | free
  | group
  | inserting (k : Writer)

/-- The shared engine, its worker and the writers; `acked` are the records whose submit
has returned. -/
structure Shared (Writer : Type) where
  engine : Engine
  flush : FlushPc
  worker : Worker Writer
  writer : Writer → WriterPc
  acked : List InternalRecord

/-- `flush` is a step of any flush: an explicit one, one of the maintenance thread, or
one a leader makes before its group or after it. -/
inductive Choice (Writer : Type) where
  | take (k : Writer) (records : List InternalRecord)
  | lead
  | append (k : Writer)
  | insert
  | sync
  | acknowledge (k : Writer)
  | flush (nowUs : Int)

section
variable {Writer : Type}

def afterSync : WriterPc → WriterPc
  | .inserted records => .synced records
  | pc => pc

def Shared.next [DecidableEq Writer] (compressedLen : Bytes → Nat) (s : Shared Writer) :
    Choice Writer → Option (Shared Writer)
  | .take k records =>
      match s.writer k with
      | .idle => some { s with
          engine := { s.engine with seqCounter := s.engine.seqCounter + records.length }
          writer := Function.update s.writer k (.numbered (assignSeqs s.engine.seqCounter records)) }
      | _ => none
  | .lead =>
      match s.worker, s.flush with
      | .free, .idle => some { s with worker := .group }
      | _, _ => none
  | .append k =>
      match s.worker, s.writer k with
      | .group, .numbered records => some { s with
          engine := { s.engine with wal := s.engine.wal.writeEncoded (encodeBatch records) (batchMaxSeq records) }
          worker := .inserting k
          writer := Function.update s.writer k (.appended records) }
      | _, _ => none
  | .insert =>
      match s.worker with
      | .inserting k =>
          match s.writer k with
          | .appended records => some { s with
              engine := { s.engine with memtables := records.foldl MemTables.insert s.engine.memtables }
              worker := .group
              writer := Function.update s.writer k (.inserted records) }
          | _ => none
      | _ => none
  | .sync =>
      match s.worker with
      | .group => some { s with
          engine := { s.engine with
            wal := if s.engine.config.walSyncMode = .always then s.engine.wal.syncAll else s.engine.wal }
          worker := .free
          writer := fun k => afterSync (s.writer k) }
      | _ => none
  | .acknowledge k =>
      match s.writer k with
      | .synced records => some { s with
          writer := Function.update s.writer k .idle
          acked := s.acked ++ records }
      | _ => none
  | .flush nowUs =>
      match s.worker with
      | .free =>
          let moved := flushStep compressedLen nowUs s.engine s.flush
          some { s with flush := moved.1, engine := moved.2 }
      | _ => none

def lastFlushedSeq (e : Engine) : Nat := e.tables.manifest.state.lastFlushedSeq

/-- What a crash may leave of the log: of each segment at least what an fsync covered. -/
def Crash (w : Wal) (files : List (Nat × Bytes)) : Prop :=
  List.Forall₂ (fun s f => f.1 = s.id ∧ f.2 <+: s.data ∧ s.data.take s.synced <+: f.2) w.segments files

/-- The record is in a live table, or the next session replays it. -/
def Recovered (e : Engine) (files : List (Nat × Bytes)) (r : InternalRecord) : Prop :=
  r ∈ e.tables.records ∨
    r.dropEmptyEnd ∈ (Wal.openDir files e.config.walSegmentSizeMb).replayFrom (lastFlushedSeq e)

/-- The records a writer has numbers for and has not appended. -/
def unwritten : WriterPc → List InternalRecord
  | .numbered records => records
  | _ => []

/-- No flush that publishes a number as flushed leaves a smaller one behind which a
writer has taken for `r` and not written. -/
def Behind (r : InternalRecord) (s : Shared Writer) : FlushPc → Prop
  | .written _ allRecords => ∀ k, r ∈ unwritten (s.writer k) → lastSeq allRecords < r.seq
  | _ => True

def Orderly (r : InternalRecord) (s : Shared Writer) : Choice Writer → Prop
  | .take _ records => ∀ x ∈ assignSeqs s.engine.seqCounter records, x.Fits
  | .flush nowUs => nowUs < r.expireAt ∧ Behind r s s.flush
  | _ => True

/-- A session that has opened: what it replayed is in the active table, and its numbers
start above all of these and above what is published as flushed. -/
structure Start (s : Shared Writer) : Prop where
  flush : s.flush = .idle
  worker : s.worker = .free
  writer : ∀ k, s.writer k = .idle
  acked : s.acked = []
  always : s.engine.config.walSyncMode = .always
  log : WalRuns.Sound s.engine.wal
  frozen : s.engine.memtables.frozen = []
  listed : ∀ id ∈ s.engine.tables.activeIds, (s.engine.tables.manifest.state.sstables.get? id).isSome
  numbers : ∀ x ∈ s.engine.memtables.active.records, x.seq < s.engine.seqCounter
  published : lastFlushedSeq s.engine < s.engine.seqCounter

end

/-! ### What the log keeps -/

theorem replay_prefix {p q : Bytes} (front : p <+: q) : replaySegment p ⊆ replaySegment q := by
  obtain ⟨rest, rfl⟩ := front
  rw [replaySegment_append]
  exact List.subset_append_left _ _

/-- Replayed from what an fsync has covered. -/
def Durable (r : InternalRecord) (w : Wal) : Prop := ∃ s ∈ w.segments, r ∈ replaySegment (s.data.take s.synced)

def Logged (r : InternalRecord) (w : Wal) : Prop := ∃ s ∈ w.segments, r ∈ replaySegment s.data

theorem logged_iff (r : InternalRecord) (w : Wal) : Logged r w ↔ r ∈ w.logged := by
  rw [logged_eq, List.mem_flatMap]
  rfl

theorem mem_ensureSegment {w : Wal} {s : WalSegment} (member : s ∈ w.segments) : s ∈ w.ensureSegment.segments := by
  rwa [Wal.ensureSegment, if_neg (List.ne_nil_of_mem member)]

theorem mem_rollover {w : Wal} {s : WalSegment} (member : s ∈ w.segments) : s ∈ w.rollover.segments := by
  unfold Wal.rollover
  split
  · split_ifs
    · exact List.mem_append_left _ member
    · exact member
  · exact member

theorem mem_modifyLast (f : WalSegment → WalSegment) {segments : List WalSegment} {s : WalSegment}
    (member : s ∈ segments) : s ∈ modifyLast f segments ∨ f s ∈ modifyLast f segments := by
  rcases List.eq_nil_or_concat segments with rfl | ⟨front, last, rfl⟩
  · cases member
  · rw [List.concat_eq_append] at member ⊢
    rw [modifyLast_append]
    rcases List.mem_append.mp member with old | new
    · exact Or.inl (List.mem_append_left _ old)
    · rw [List.mem_singleton.mp new]
      exact Or.inr (List.mem_append_right _ (List.mem_singleton_self _))

/-- An append only lengthens segments, behind what is synced. -/
theorem grows_writeEncoded {w : Wal} {s : WalSegment} (member : s ∈ w.segments) (buf : Bytes) (seq : Nat) :
    ∃ s' ∈ (w.writeEncoded buf seq).segments, s.data <+: s'.data ∧ s'.synced = s.synced := by
  rcases mem_modifyLast (·.append buf seq) (mem_ensureSegment member) with same | longer
  · exact ⟨s, mem_rollover same, List.prefix_rfl, rfl⟩
  · exact ⟨s.append buf seq, mem_rollover longer, List.prefix_append _ _, rfl⟩

theorem Durable.writeEncoded {r : InternalRecord} {w : Wal} (durable : Durable r w) (buf : Bytes) (seq : Nat) :
    Durable r (w.writeEncoded buf seq) := by
  obtain ⟨s, member, held⟩ := durable
  obtain ⟨s', member', longer, same⟩ := grows_writeEncoded member buf seq
  refine ⟨s', member', replay_prefix ?_ held⟩
  rw [same]
  exact longer.take _

theorem Logged.writeEncoded {r : InternalRecord} {w : Wal} (logged : Logged r w) (buf : Bytes) (seq : Nat) :
    Logged r (w.writeEncoded buf seq) := by
  obtain ⟨s, member, held⟩ := logged
  obtain ⟨s', member', longer, _⟩ := grows_writeEncoded member buf seq
  exact ⟨s', member', replay_prefix longer held⟩

theorem logged_batch {w : Wal} (sound : WalRuns.Sound w) {batch : List InternalRecord} (fits : ∀ x ∈ batch, x.Fits)
    {r : InternalRecord} (member : r ∈ batch) (seq : Nat) :
    Logged r.dropEmptyEnd (w.writeEncoded (encodeBatch batch) seq) := by
  rw [logged_iff, WalRuns.writeEncoded_batch sound batch seq fits]
  exact List.mem_append_right _ (List.mem_map.mpr ⟨r, member, rfl⟩)

-- A truncation keeps every segment with a larger number in it.
theorem mem_truncateBefore {w : Wal} (sound : WalRuns.Sound w) {s : WalSegment} (member : s ∈ w.segments)
    {r : InternalRecord} (held : r ∈ replaySegment s.data) {seq : Nat} (above : seq < r.seq) :
    s ∈ (w.truncateBefore seq).segments := by
  have bound := (sound.whole s member).bound r held
  refine mem_ensureSegment (List.mem_filter.mpr ⟨member, ?_⟩)
  simp only [Bool.or_eq_true, decide_eq_true_eq]
  omega

theorem Logged.truncateBefore {r : InternalRecord} {w : Wal} (sound : WalRuns.Sound w) (logged : Logged r w) {seq : Nat}
    (above : seq < r.seq) : Logged r (w.truncateBefore seq) := by
  obtain ⟨s, member, held⟩ := logged
  exact ⟨s, mem_truncateBefore sound member held above, held⟩

theorem Logged.syncAll {r : InternalRecord} {w : Wal} (logged : Logged r w) : Durable r w.syncAll := by
  obtain ⟨s, member, held⟩ := logged
  refine ⟨{ s with synced := s.data.length }, List.mem_map.mpr ⟨s, member, rfl⟩, ?_⟩
  rwa [List.take_length]

theorem Durable.logged {r : InternalRecord} {w : Wal} (durable : Durable r w) : Logged r w := by
  obtain ⟨s, member, held⟩ := durable
  exact ⟨s, member, replay_prefix ⟨_, List.take_append_drop _ _⟩ held⟩

theorem sound_syncAll {w : Wal} (sound : WalRuns.Sound w) : WalRuns.Sound w.syncAll := by
  refine ⟨?_, fun s member => ?_, fun s member => ?_⟩
  · simpa [Wal.syncAll, Function.comp_def] using sound.ids
  · obtain ⟨x, there, rfl⟩ := List.mem_map.mp member
    exact sound.below x there
  · obtain ⟨x, there, rfl⟩ := List.mem_map.mp member
    exact ⟨(sound.whole x there).clean, (sound.whole x there).bound⟩

theorem Crash.survives {w : Wal} {files : List (Nat × Bytes)} (crash : Crash w files) {s : WalSegment}
    (member : s ∈ w.segments) : ∃ f ∈ files, s.data.take s.synced <+: f.2 := by
  unfold Crash at crash
  generalize w.segments = segments at crash member
  induction crash with
  | nil => cases member
  | cons kept _ ih =>
    rcases List.mem_cons.mp member with rfl | later
    · exact ⟨_, List.mem_cons_self, kept.2.2⟩
    · obtain ⟨f, there, held⟩ := ih later
      exact ⟨f, List.mem_cons_of_mem _ there, held⟩

/-- What was covered by an fsync is replayed if its number is above the published one. -/
theorem replayed_of_durable {r : InternalRecord} {w : Wal} (durable : Durable r w) {files : List (Nat × Bytes)}
    (crash : Crash w files) (sizeMb : Nat) {after : Nat} (above : after < r.seq) :
    r ∈ (Wal.openDir files sizeMb).replayFrom after := by
  obtain ⟨s, member, held⟩ := durable
  obtain ⟨f, survived, kept⟩ := crash.survives member
  rw [(open_replay_perm files sizeMb after).mem_iff, List.mem_filter, List.mem_flatMap]
  exact ⟨⟨f, survived, replay_prefix kept held⟩, decide_eq_true above⟩

theorem lastSeq_lt {bound : Nat} (positive : 0 < bound) {records : List InternalRecord}
    (each : ∀ x ∈ records, x.seq < bound) : lastSeq records < bound := by
  refine foldl_max_lt positive fun n member => ?_
  obtain ⟨x, there, rfl⟩ := List.mem_map.mp member
  exact each x there

/-! ### The engine during a flush -/

section
variable (compressedLen : Bytes → Nat)

/-- How far the table of a flush has come. -/
def Placed (e : Engine) : FlushPc → Prop
  | .numbered sstId _ => sstId = e.tables.manifest.state.nextSstId
  | .written sstId allRecords =>
      sstId = e.tables.manifest.state.nextSstId ∧ e.tables.file sstId = (flushedSst e.config allRecords).1
  | .registered _ allRecords => lastSeq allRecords ≤ lastFlushedSeq e
  | .indexed allRecords => lastSeq allRecords ≤ lastFlushedSeq e
  | _ => True

/-- What a flush has taken out of the memtables and not registered. -/
def unregistered : FlushPc → List InternalRecord
  | .popped allRecords => allRecords
  | .numbered _ allRecords => allRecords
  | .written _ allRecords => allRecords
  | _ => []

/-- All records in memory: in a memtable, or with a flush on their way to a table. -/
def inMemory (e : Engine) (pc : FlushPc) : List InternalRecord :=
  e.memtables.active.records ++ e.memtables.frozen.flatMap MemTable.records ++ unregistered pc

structure FlushOk (e : Engine) (pc : FlushPc) : Prop where
  log : WalRuns.Sound e.wal
  listed : ∀ id ∈ e.tables.activeIds, (e.tables.manifest.state.sstables.get? id).isSome
  placed : Placed e pc
  drained : pc ≠ .idle → e.memtables.active.records = []
  one : e.memtables.frozen.length ≤ 1
  none : pc ≠ .frozen → e.memtables.frozen = []
  numbers : ∀ x ∈ inMemory e pc, x.seq < e.seqCounter
  published : lastFlushedSeq e < e.seqCounter

/-- A record that a crash does not lose: in a live table, or in the log, above what is
published as flushed, and on its way into a table. -/
def Safe (held : Wal → Prop) (r : InternalRecord) (e : Engine) (pc : FlushPc) : Prop :=
  r ∈ e.tables.records ∨ (lastFlushedSeq e < r.seq ∧ held e.wal ∧ r ∈ inMemory e pc)

variable {compressedLen} {e : Engine} {pc : FlushPc}

theorem Placed.congr {e' : Engine} (placed : Placed e pc) (config : e'.config = e.config) (tables : e'.tables = e.tables) :
    Placed e' pc := by
  cases pc <;> simp only [Placed, lastFlushedSeq, config, tables] <;> exact placed

/-- A file under an id no table has changes no table. -/
theorem records_withFile {t : Tables} {id : Nat} (inactive : id ∉ t.activeIds) (file : SstFile) :
    (withFile t id file).records = t.records := by
  refine List.flatMap_congr fun k active => ?_
  have other : k ≠ id := by
    rintro rfl
    exact inactive active
  rw [Tables.file, withFile, get?_insert, if_neg other]
  rfl

variable (compressedLen)

/-- The tables once a written one is registered. -/
def registered (config : Config) (t : Tables) (sstId : Nat) (allRecords : List InternalRecord) : Tables :=
  { t with manifest := (t.manifest.append (.flush (lastSeq allRecords) (flushedInfo config compressedLen sstId allRecords)
      (flushedSst config allRecords).1.blockInfos)).append (.checkpoint (lastSeq allRecords)) }

/-- Registering a table makes it live and publishes the largest number in it. -/
theorem registered_state (config : Config) (t : Tables) (sstId : Nat) (allRecords : List InternalRecord)
    (inactive : sstId ∉ t.activeIds) :
    let state := (registered compressedLen config t sstId allRecords).manifest.state
    state.activeSstIds = t.activeIds ++ [sstId] ∧
      state.sstables = t.manifest.state.sstables.insert sstId (flushedInfo config compressedLen sstId allRecords) ∧
      state.lastFlushedSeq = max t.manifest.state.lastFlushedSeq (lastSeq allRecords) := by
  obtain ⟨sstables, -, active, flushed⟩ := applyEntry_flush t.manifest.state (lastSeq allRecords)
    (flushedInfo config compressedLen sstId allRecords) (flushedSst config allRecords).1.blockInfos
  have fresh : (flushedInfo config compressedLen sstId allRecords).id ∉ t.manifest.state.activeSstIds := inactive
  rw [addActive, if_neg fresh] at active
  simp only [registered, state_append]
  exact ⟨active, sstables, (congrArg (max · (lastSeq allRecords)) flushed).trans (by simp)⟩

theorem registered_records (config : Config) (t : Tables) (sstId : Nat) (allRecords : List InternalRecord)
    (inactive : sstId ∉ t.activeIds) (filed : t.file sstId = (flushedSst config allRecords).1) :
    (registered compressedLen config t sstId allRecords).records = t.records ++ allRecords := by
  have active := (registered_state compressedLen config t sstId allRecords inactive).1
  have new : (t.file sstId).records = allRecords := by
    rw [filed, flushedSst, SstFile.records, SstWriter.write, chunks_flatten]
  rw [Tables.records, show (registered compressedLen config t sstId allRecords).activeIds = t.activeIds ++ [sstId] from active,
    List.flatMap_append, List.flatMap_singleton]
  exact congrArg (t.records ++ ·) new

variable (held : Wal → Prop) {r : InternalRecord} {sstId : Nat} {allRecords : List InternalRecord}

theorem flush_freeze (ok : FlushOk e .idle) (nowUs : Int) :
    let moved := flushStep compressedLen nowUs e .idle
    FlushOk moved.2 moved.1 ∧ (Safe held r e .idle → Safe held r moved.2 moved.1) := by
  intro moved
  have empty : e.memtables.frozen = [] := ok.none nofun
  by_cases nothing : e.memtables.active.records = []
  · have step : moved = (.frozen, e) := by
      simp only [moved, flushStep, MemTables.freeze, if_pos nothing]
    rw [step]
    exact ⟨⟨ok.log, ok.listed, trivial, fun _ => nothing, ok.one, fun other => absurd rfl other, ok.numbers, ok.published⟩, id⟩
  · have step : moved = (.frozen, { e with memtables :=
        { e.memtables with active := .new, frozen := [e.memtables.active.sort] } }) := by
      simp only [moved, flushStep, MemTables.freeze, if_neg nothing, empty, List.nil_append]
    have same : ∀ x, x ∈ inMemory moved.2 moved.1 ↔ x ∈ inMemory e .idle := by
      intro x
      rw [step]
      simp [inMemory, unregistered, empty, MemTable.new, MemTable.sort]
    refine ⟨⟨?_, ?_, ?_, ?_, ?_, ?_, fun x member => ?_, ?_⟩, fun safe => ?_⟩
    any_goals rw [step]
    · exact ok.log
    · exact ok.listed
    · trivial
    · exact fun _ => rfl
    · exact le_rfl
    · exact fun other => absurd rfl other
    · exact ok.numbers x ((same x).mp member)
    · exact ok.published
    · rw [← step]
      rcases safe with live | ⟨above, logged, member⟩
      · exact Or.inl (by rw [step]; exact live)
      · exact Or.inr ⟨by rw [step]; exact above, by rw [step]; exact logged, (same r).mpr member⟩

theorem flush_pop (ok : FlushOk e .frozen) {nowUs : Int}
    (unexpired : nowUs < r.expireAt) :
    let moved := flushStep compressedLen nowUs e .frozen
    FlushOk moved.2 moved.1 ∧ (Safe held r e .frozen → Safe held r moved.2 moved.1) := by
  intro moved
  have emptied : e.memtables.active.records = [] := ok.drained nofun
  -- Whatever is left of the backlog, a pop keeps what it does not drop as expired.
  have popped (m : MemTables) (pc : FlushPc) (step : moved = (pc, { e with memtables := m })) (place : Placed e pc)
      (active : m.active.records = []) (frozen : m.frozen = []) (fewer : unregistered pc ⊆ inMemory e .frozen)
      (kept : r ∈ inMemory e .frozen → r ∈ unregistered pc) :
      FlushOk moved.2 moved.1 ∧ (Safe held r e .frozen → Safe held r moved.2 moved.1) := by
    have memory : inMemory { e with memtables := m } pc = unregistered pc := by
      simp [inMemory, active, frozen]
    rw [step]
    refine ⟨⟨ok.log, ok.listed, ?_, fun _ => active, ?_, fun _ => frozen, fun x member => ?_, ok.published⟩, fun safe => ?_⟩
    · cases pc <;> exact place
    · rw [frozen]
      exact Nat.zero_le 1
    · exact ok.numbers x (fewer (memory ▸ member))
    · rcases safe with live | ⟨above, logged, member⟩
      · exact Or.inl live
      · exact Or.inr ⟨above, logged, by rw [memory]; exact kept member⟩
  cases backlog : e.memtables.frozen with
  | nil =>
    have pop : e.memtables.popFrozen = none := by rw [MemTables.popFrozen, backlog]
    have nothing : inMemory e .frozen = [] := by simp [inMemory, unregistered, emptied, backlog]
    refine popped e.memtables .idle (by simp only [moved, flushStep, pop]) trivial emptied backlog (List.nil_subset _) ?_
    rw [nothing]
    exact id
  | cons t rest =>
    have alone : rest = [] := by
      have few := ok.one
      rw [backlog, List.length_cons] at few
      exact List.length_eq_zero_iff.mp (by omega)
    subst alone
    have pop : e.memtables.popFrozen = some (t, { e.memtables with frozen := [] }) := by
      rw [MemTables.popFrozen, backlog]
    have memory : inMemory e .frozen = t.records := by simp [inMemory, unregistered, emptied, backlog]
    have unexpiredKept : r ∈ t.records → r ∈ t.records.filter fun x => decide (nowUs < x.expireAt) :=
      fun inside => List.mem_filter.mpr ⟨inside, decide_eq_true unexpired⟩
    by_cases expired : (t.records.filter fun x => decide (nowUs < x.expireAt)) = []
    · refine popped { e.memtables with frozen := [] } .idle ?_ trivial emptied rfl (List.nil_subset _) ?_
      · simp only [moved, flushStep, pop, expired, if_true]
      · intro inside
        have kept := unexpiredKept (memory ▸ inside)
        rw [expired] at kept
        cases kept
    · refine popped { e.memtables with frozen := [] } (.popped (t.records.filter fun x => decide (nowUs < x.expireAt)))
        ?_ trivial emptied rfl ?_ ?_
      · simp only [moved, flushStep, pop, expired, if_false]
      · rw [memory]
        exact fun x inside => List.mem_of_mem_filter inside
      · rw [memory]
        exact unexpiredKept

-- Between a pop and the registration no number is published.
theorem flush_write (ok : FlushOk e (.numbered sstId allRecords)) (nowUs : Int) :
    let moved := flushStep compressedLen nowUs e (.numbered sstId allRecords)
    FlushOk moved.2 moved.1 ∧
      (Safe held r e (.numbered sstId allRecords) → Safe held r moved.2 moved.1) := by
  have fresh : sstId = e.tables.manifest.state.nextSstId := ok.placed
  have inactive : sstId ∉ e.tables.activeIds := fresh ▸ nextSstId_inactive ok.listed
  refine ⟨⟨ok.log, ok.listed, ⟨fresh, ?_⟩, fun _ => ok.drained nofun, ok.one, fun _ => ok.none nofun, ok.numbers,
    ok.published⟩, fun safe => ?_⟩
  · show (withFile e.tables sstId (flushedSst e.config allRecords).1).file sstId = _
    rw [Tables.file, withFile, get?_insert, if_pos rfl]
    rfl
  · exact safe.imp_left fun live => by
      show r ∈ (withFile e.tables sstId _).records
      rwa [records_withFile inactive]

theorem flush_register (ok : FlushOk e (.written sstId allRecords)) (nowUs : Int) :
    let moved := flushStep compressedLen nowUs e (.written sstId allRecords)
    FlushOk moved.2 moved.1 ∧ (Safe held r e (.written sstId allRecords) → Safe held r moved.2 moved.1) := by
  intro moved
  obtain ⟨fresh, filed⟩ := ok.placed
  have inactive : sstId ∉ e.tables.activeIds := fresh ▸ nextSstId_inactive ok.listed
  have step : moved = (.registered sstId allRecords,
      withTables e (registered compressedLen e.config e.tables sstId allRecords)) := rfl
  obtain ⟨active, sstables, flushed⟩ := registered_state compressedLen e.config e.tables sstId allRecords inactive
  have records := registered_records compressedLen e.config e.tables sstId allRecords inactive filed
  have memory : inMemory e (.written sstId allRecords) = allRecords := by
    simp [inMemory, unregistered, ok.drained nofun, ok.none nofun]
  have memory' : inMemory moved.2 moved.1 = [] := by
    rw [step]
    simp [inMemory, unregistered, withTables, ok.drained nofun, ok.none nofun]
  have largest : lastSeq allRecords < e.seqCounter := by
    refine lastSeq_lt (Nat.zero_lt_of_lt ok.published) fun x member => ok.numbers x ?_
    rwa [memory]
  refine ⟨⟨ok.log, fun id live => ?_, ?_, fun _ => ok.drained nofun, ok.one, fun _ => ok.none nofun, fun x member => ?_, ?_⟩,
    fun safe => Or.inl ?_⟩
  · show (((registered compressedLen e.config e.tables sstId allRecords).manifest.state.sstables).get? id).isSome = true
    have live : id ∈ (registered compressedLen e.config e.tables sstId allRecords).manifest.state.activeSstIds := live
    rw [sstables, get?_insert]
    rw [active] at live
    split_ifs with same
    · rfl
    · rcases List.mem_append.mp live with old | new
      · exact ok.listed id old
      · exact absurd (List.mem_singleton.mp new) same
  · exact flushed.ge.trans' (le_max_right _ _)
  · rw [memory'] at member
    cases member
  · exact flushed.le.trans_lt (max_lt ok.published largest)
  · show r ∈ (registered compressedLen e.config e.tables sstId allRecords).records
    rw [records]
    rcases safe with live | ⟨_, _, member⟩
    · exact List.mem_append_left _ live
    · exact List.mem_append_right _ (memory ▸ member)

/-- After the registration the log loses what is published only. -/
theorem flush_truncate (ok : FlushOk e (.indexed allRecords))
    (kept : ∀ seq, seq < r.seq → held e.wal → held (e.wal.truncateBefore seq).syncAll) (nowUs : Int) :
    let moved := flushStep compressedLen nowUs e (.indexed allRecords)
    FlushOk moved.2 moved.1 ∧ (Safe held r e (.indexed allRecords) → Safe held r moved.2 moved.1) := by
  have published : lastSeq allRecords ≤ lastFlushedSeq e := ok.placed
  refine ⟨⟨sound_syncAll (WalRuns.sound_truncateBefore ok.log _), ok.listed, trivial, fun other => absurd rfl other, ok.one,
    fun _ => ok.none nofun, ok.numbers, ok.published⟩, fun safe => ?_⟩
  rcases safe with live | ⟨above, logged, member⟩
  · exact Or.inl live
  · exact Or.inr ⟨above, kept _ (published.trans_lt above) logged, member⟩

/-- One step of a flush: nothing safe gets lost, and only a registration publishes. -/
theorem flush_step (ok : FlushOk e pc) {nowUs : Int}
    (unexpired : nowUs < r.expireAt)
    (kept : ∀ seq, seq < r.seq → held e.wal → held (e.wal.truncateBefore seq).syncAll) :
    let moved := flushStep compressedLen nowUs e pc
    FlushOk moved.2 moved.1 ∧ (Safe held r e pc → Safe held r moved.2 moved.1) := by
  cases pc with
  | idle => exact flush_freeze compressedLen held ok nowUs
  | frozen => exact flush_pop compressedLen held ok unexpired
  | popped allRecords =>
    exact ⟨⟨ok.log, ok.listed, rfl, fun _ => ok.drained nofun, ok.one, fun _ => ok.none nofun, ok.numbers, ok.published⟩, id⟩
  | numbered sstId allRecords => exact flush_write compressedLen held ok nowUs
  | written sstId allRecords => exact flush_register compressedLen held ok nowUs
  | registered sstId allRecords =>
    exact ⟨⟨ok.log, ok.listed, ok.placed, fun _ => ok.drained nofun, ok.one, fun _ => ok.none nofun, ok.numbers, ok.published⟩, id⟩
  | indexed allRecords => exact flush_truncate compressedLen held ok kept nowUs

theorem flush_published (ok : FlushOk e pc) (nowUs : Int) :
    lastFlushedSeq (flushStep compressedLen nowUs e pc).2 = lastFlushedSeq e ∨
      ∃ sstId allRecords, pc = .written sstId allRecords ∧
        lastFlushedSeq (flushStep compressedLen nowUs e pc).2 = max (lastFlushedSeq e) (lastSeq allRecords) := by
  cases pc with
  | written sstId allRecords =>
    obtain ⟨fresh, -⟩ := ok.placed
    have inactive : sstId ∉ e.tables.activeIds := fresh ▸ nextSstId_inactive ok.listed
    have flushed := (registered_state compressedLen e.config e.tables sstId allRecords inactive).2.2
    exact Or.inr ⟨sstId, allRecords, rfl, flushed⟩
  | frozen =>
    refine Or.inl ?_
    simp only [flushStep]
    split
    · rfl
    · split_ifs <;> rfl
  | _ => exact Or.inl rfl

theorem flush_fixed (e : Engine) (pc : FlushPc) (nowUs : Int) :
    (flushStep compressedLen nowUs e pc).2.config = e.config ∧
      (flushStep compressedLen nowUs e pc).2.seqCounter = e.seqCounter := by
  cases pc with
  | frozen =>
    simp only [flushStep]
    split
    · exact ⟨rfl, rfl⟩
    · split_ifs <;> exact ⟨rfl, rfl⟩
  | _ => exact ⟨rfl, rfl⟩

end

/-! ### Runs -/

section
variable {Writer : Type} (r : InternalRecord)

/-- What a writer has of `r` is safe to the extent of what it has done. -/
def PcOk (s : Shared Writer) (k : Writer) : WriterPc → Prop
  | .idle => True
  | .numbered records =>
      (∀ x ∈ records, x.Fits ∧ x.seq ≤ batchMaxSeq records ∧ x.seq < s.engine.seqCounter) ∧
        (r ∈ records → lastFlushedSeq s.engine < r.seq)
  | .appended records =>
      s.worker = .inserting k ∧ (∀ x ∈ records, x.seq < s.engine.seqCounter) ∧
        (r ∈ records → lastFlushedSeq s.engine < r.seq ∧ Logged r.dropEmptyEnd s.engine.wal)
  | .inserted records => r ∈ records → Safe (Logged r.dropEmptyEnd) r s.engine s.flush
  | .synced records => r ∈ records → Safe (Durable r.dropEmptyEnd) r s.engine s.flush

structure InStep (s : Shared Writer) : Prop where
  ok : FlushOk s.engine s.flush
  always : s.engine.config.walSyncMode = .always
  busy : s.worker ≠ .free → s.flush = .idle
  writers : ∀ k, PcOk r s k (s.writer k)
  acked : r ∈ s.acked → Safe (Durable r.dropEmptyEnd) r s.engine s.flush

variable {r} {s s' : Shared Writer}

theorem PcOk.carry {k : Writer} {pc : WriterPc} (ok : PcOk r s k pc)
    (counter : s.engine.seqCounter ≤ s'.engine.seqCounter)
    (published : r ∈ unwritten pc → lastFlushedSeq s.engine < r.seq → lastFlushedSeq s'.engine < r.seq)
    (working : s.worker = .inserting k → s'.worker = .inserting k ∧ s'.engine.wal = s.engine.wal ∧
      lastFlushedSeq s'.engine = lastFlushedSeq s.engine)
    (logged : Safe (Logged r.dropEmptyEnd) r s.engine s.flush → Safe (Logged r.dropEmptyEnd) r s'.engine s'.flush)
    (durable : Safe (Durable r.dropEmptyEnd) r s.engine s.flush → Safe (Durable r.dropEmptyEnd) r s'.engine s'.flush) :
    PcOk r s' k pc := by
  cases pc with
  | idle => trivial
  | numbered records =>
    obtain ⟨ready, above⟩ := ok
    exact ⟨fun x member => ⟨(ready x member).1, (ready x member).2.1, (ready x member).2.2.trans_le counter⟩,
      fun member => published member (above member)⟩
  | appended records =>
    obtain ⟨mine, numbers, held⟩ := ok
    obtain ⟨still, wal, same⟩ := working mine
    refine ⟨still, fun x member => (numbers x member).trans_le counter, fun member => ?_⟩
    rw [same, wal]
    exact held member
  | inserted records => exact fun member => logged (ok member)
  | synced records => exact fun member => durable (ok member)

theorem inStep_start (start : Start s) : InStep r s := by
  have log := start.log
  refine ⟨⟨start.log, start.listed, ?_, fun other => absurd start.flush other, ?_, fun _ => start.frozen, fun x member => ?_,
    start.published⟩, start.always, fun _ => start.flush, fun k => ?_, fun member => ?_⟩
  · rw [start.flush]
    trivial
  · rw [start.frozen]
    exact Nat.zero_le 1
  · rw [start.flush] at member
    simp only [inMemory, start.frozen, unregistered, List.flatMap_nil, List.append_nil] at member
    exact start.numbers x member
  · rw [start.writer k]
    trivial
  · rw [start.acked] at member
    cases member

theorem inStep_sync (inStep : InStep r s) (group : s.worker = .group) :
    InStep r { s with
      engine := { s.engine with
        wal := if s.engine.config.walSyncMode = .always then s.engine.wal.syncAll else s.engine.wal }
      worker := .free
      writer := fun k => afterSync (s.writer k) } := by
  obtain ⟨ok, always, busy, writers, acked⟩ := inStep
  have idle : s.flush = .idle := busy (by simp [group])
  rw [if_pos always]
  have synced : Safe (Logged r.dropEmptyEnd) r s.engine s.flush →
      Safe (Durable r.dropEmptyEnd) r { s.engine with wal := s.engine.wal.syncAll } s.flush :=
    Or.imp_right fun ⟨above, logged, member⟩ => ⟨above, logged.syncAll, member⟩
  have logged : Safe (Durable r.dropEmptyEnd) r s.engine s.flush → Safe (Logged r.dropEmptyEnd) r s.engine s.flush :=
    Or.imp_right fun ⟨above, durable, member⟩ => ⟨above, durable.logged, member⟩
  refine ⟨⟨sound_syncAll ok.log, ok.listed, ?_, ok.drained, ok.one, ok.none, ok.numbers, ok.published⟩, always,
    fun other => absurd rfl other, fun k => ?_, fun member => synced (logged (acked member))⟩
  · rw [idle]
    trivial
  · have here := writers k
    dsimp only
    cases place : s.writer k with
    | idle => trivial
    | numbered records =>
      rw [place] at here
      exact here
    | appended records =>
      rw [place] at here
      exact absurd (here.1.symm.trans group) nofun
    | inserted records =>
      rw [place] at here
      exact fun member => synced (here member)
    | synced records =>
      rw [place] at here
      exact fun member => synced (logged (here member))

theorem inStep_flush (compressedLen : Bytes → Nat) (inStep : InStep r s) {nowUs : Int} (free : s.worker = .free)
    (unexpired : nowUs < r.expireAt) (behind : Behind r s s.flush) :
    InStep r { s with
      flush := (flushStep compressedLen nowUs s.engine s.flush).1
      engine := (flushStep compressedLen nowUs s.engine s.flush).2 } := by
  obtain ⟨ok, always, busy, writers, acked⟩ := inStep
  obtain ⟨config, counter⟩ := flush_fixed compressedLen s.engine s.flush nowUs
  have logged := flush_step compressedLen (Logged r.dropEmptyEnd) ok unexpired
    fun seq below held => (held.truncateBefore ok.log below).syncAll.logged
  have durable := flush_step compressedLen (Durable r.dropEmptyEnd) ok unexpired
    fun seq below held => (held.logged.truncateBefore ok.log below).syncAll
  refine ⟨logged.1, config ▸ always, fun other => absurd free other, fun k => ?_, fun member => durable.2 (acked member)⟩
  refine (writers k).carry counter.ge (fun waiting above => ?_) (fun working => ?_) logged.2 durable.2
  · rcases flush_published compressedLen ok nowUs with same | ⟨sstId, allRecords, place, published⟩
    · exact same ▸ above
    · rw [place] at behind
      exact published ▸ max_lt above (behind k waiting)
  · exact absurd (free.symm.trans working) nofun

variable [DecidableEq Writer]

theorem writers_update {writer : Writer → WriterPc} {k : Writer} {pc : WriterPc}
    (others : ∀ k', k' ≠ k → PcOk r s' k' (writer k')) (mine : PcOk r s' k pc) :
    ∀ k', PcOk r s' k' (Function.update writer k pc k') := by
  intro k'
  by_cases same : k' = k
  · subst same
    rwa [Function.update_self]
  · rw [Function.update_of_ne same]
    exact others k' same

theorem inStep_take (inStep : InStep r s) {k : Writer} {records : List InternalRecord}
    (fits : ∀ x ∈ assignSeqs s.engine.seqCounter records, x.Fits) :
    InStep r { s with
      engine := { s.engine with seqCounter := s.engine.seqCounter + records.length }
      writer := Function.update s.writer k (.numbered (assignSeqs s.engine.seqCounter records)) } := by
  obtain ⟨ok, always, busy, writers, acked⟩ := inStep
  have range := mem_assignSeqs s.engine.seqCounter records
  refine ⟨⟨ok.log, ok.listed, ?_, ok.drained, ok.one, ok.none, fun x member => Nat.lt_add_right _ (ok.numbers x member),
    Nat.lt_add_right _ ok.published⟩, always, busy, ?_, acked⟩
  · exact ok.placed.congr rfl rfl
  · apply writers_update
    · exact fun k' _ => (writers k').carry (Nat.le_add_right _ _) (fun _ above => above) (fun mine => ⟨mine, rfl, rfl⟩) id id
    · refine ⟨fun x member => ⟨fits x member, ?_, (range x member).2.1⟩, fun member => ?_⟩
      · exact WalRuns.le_batchMaxSeq _ (assignSeqs_increasing _ _) x member
      · exact ok.published.trans_le (range r member).1

theorem inStep_append (inStep : InStep r s) {k : Writer} {records : List InternalRecord} (group : s.worker = .group)
    (here : s.writer k = .numbered records) :
    InStep r { s with
      engine := { s.engine with wal := s.engine.wal.writeEncoded (encodeBatch records) (batchMaxSeq records) }
      worker := .inserting k
      writer := Function.update s.writer k (.appended records) } := by
  obtain ⟨ok, always, busy, writers, acked⟩ := inStep
  have idle : s.flush = .idle := busy (by simp [group])
  have mine := writers k
  rw [here] at mine
  obtain ⟨ready, above⟩ := mine
  have log := WalRuns.sound_writeEncoded ok.log records (batchMaxSeq records) (fun x member => (ready x member).1)
    fun x member => (ready x member).2.1
  have keeps {held : Wal → Prop} (kept : held s.engine.wal →
      held (s.engine.wal.writeEncoded (encodeBatch records) (batchMaxSeq records))) :
      Safe held r s.engine s.flush → Safe held r
        { s.engine with wal := s.engine.wal.writeEncoded (encodeBatch records) (batchMaxSeq records) } s.flush :=
    Or.imp_right fun ⟨above, logged, member⟩ => ⟨above, kept logged, member⟩
  refine ⟨⟨log, ok.listed, ?_, ok.drained, ok.one, ok.none, ok.numbers, ok.published⟩, always, fun _ => idle, ?_,
    fun member => keeps (fun held => held.writeEncoded _ _) (acked member)⟩
  · rw [idle]
    trivial
  · apply writers_update
    · refine fun k' _ => (writers k').carry le_rfl (fun _ above => above) (fun working => ?_)
        (keeps fun held => held.writeEncoded _ _) (keeps fun held => held.writeEncoded _ _)
      rw [group] at working
      cases working
    · exact ⟨rfl, fun x member => (ready x member).2.2, fun member => ⟨above member,
        logged_batch ok.log (fun x member => (ready x member).1) member _⟩⟩

theorem inStep_insert (inStep : InStep r s) {k : Writer} {records : List InternalRecord}
    (here : s.writer k = .appended records) :
    InStep r { s with
      engine := { s.engine with memtables := records.foldl MemTables.insert s.engine.memtables }
      worker := .group
      writer := Function.update s.writer k (.inserted records) } := by
  obtain ⟨ok, always, busy, writers, acked⟩ := inStep
  have mine := writers k
  rw [here] at mine
  obtain ⟨working, numbers, held⟩ := mine
  have idle : s.flush = .idle := busy (by simp [working])
  obtain ⟨active, frozen, _⟩ := foldl_insert records s.engine.memtables
  have memory (x : InternalRecord) :
      x ∈ inMemory { s.engine with memtables := records.foldl MemTables.insert s.engine.memtables } s.flush ↔
        x ∈ inMemory s.engine s.flush ∨ x ∈ records := by
    simp only [inMemory, active, frozen, List.mem_append]
    grind
  have keeps {held : Wal → Prop} : Safe held r s.engine s.flush → Safe held r
      { s.engine with memtables := records.foldl MemTables.insert s.engine.memtables } s.flush :=
    Or.imp_right fun kept => ⟨kept.1, kept.2.1, (memory r).mpr (Or.inl kept.2.2)⟩
  refine ⟨⟨ok.log, ok.listed, ?_, fun other => absurd idle other, ?_, fun other => ?_, fun x member => ?_, ok.published⟩,
    always, fun _ => idle, ?_, fun member => keeps (acked member)⟩
  · rw [idle]
    trivial
  · exact frozen ▸ ok.one
  · exact frozen.trans (ok.none other)
  · rcases (memory x).mp member with old | new
    · exact ok.numbers x old
    · exact numbers x new
  · apply writers_update
    · refine fun k' other => (writers k').carry le_rfl (fun _ above => above) (fun theirs => ?_) keeps keeps
      exact absurd (Worker.inserting.inj (theirs.symm.trans working)) other
    · exact fun member => Or.inr ⟨(held member).1, (held member).2, (memory r).mpr (Or.inr member)⟩

theorem inStep_acknowledge (inStep : InStep r s) {k : Writer} {records : List InternalRecord}
    (here : s.writer k = .synced records) :
    InStep r { s with writer := Function.update s.writer k .idle, acked := s.acked ++ records } := by
  obtain ⟨ok, always, busy, writers, acked⟩ := inStep
  have mine := writers k
  rw [here] at mine
  refine ⟨ok, always, busy, ?_, fun member => (List.mem_append.mp member).elim acked mine⟩
  apply writers_update
  · exact fun k' _ => (writers k').carry le_rfl (fun _ above => above) (fun working => ⟨working, rfl, rfl⟩) id id
  · trivial

theorem inStep_next (compressedLen : Bytes → Nat) (inStep : InStep r s) {choice : Choice Writer}
    (orderly : Orderly r s choice) (moved : s.next compressedLen choice = some s') : InStep r s' := by
  cases choice with
  | take k records =>
    simp only [Shared.next] at moved
    split at moved
    · obtain rfl := Option.some.inj moved
      exact inStep_take inStep orderly
    · cases moved
  | lead =>
    simp only [Shared.next] at moved
    split at moved
    · next free idle =>
      obtain rfl := Option.some.inj moved
      refine ⟨inStep.ok, inStep.always, fun _ => idle, fun k => ?_, inStep.acked⟩
      refine (inStep.writers k).carry le_rfl (fun _ above => above) (fun working => ?_) id id
      exact absurd (free.symm.trans working) nofun
    · cases moved
  | append k =>
    simp only [Shared.next] at moved
    split at moved
    · next group here =>
      obtain rfl := Option.some.inj moved
      exact inStep_append inStep group here
    · cases moved
  | insert =>
    simp only [Shared.next] at moved
    split at moved
    · split at moved
      · next here =>
        obtain rfl := Option.some.inj moved
        exact inStep_insert inStep here
      · cases moved
    · cases moved
  | sync =>
    simp only [Shared.next] at moved
    split at moved
    · next group =>
      obtain rfl := Option.some.inj moved
      exact inStep_sync inStep group
    · cases moved
  | acknowledge k =>
    simp only [Shared.next] at moved
    split at moved
    · next here =>
      obtain rfl := Option.some.inj moved
      exact inStep_acknowledge inStep here
    · cases moved
  | flush nowUs =>
    simp only [Shared.next] at moved
    split at moved
    · next free =>
      obtain rfl := Option.some.inj moved
      exact inStep_flush compressedLen inStep free orderly.1 orderly.2
    · cases moved

/-- In every run in which no flush publishes a number at or above one taken for `r` and
not yet written, `r`, once acknowledged, survives a crash in every state reached. -/
theorem acknowledged_recovered (compressedLen : Bytes → Nat) (r : InternalRecord) (s : Shared Writer)
    (reached : Reachable (Shared.next compressedLen) (Orderly r) Start s) (acked : r ∈ s.acked)
    (files : List (Nat × Bytes)) (crash : Crash s.engine.wal files) : Recovered s.engine files r := by
  have inStep : InStep r s := by
    refine Reachable.invariant (fun s start => ?_) (fun s choice s' inStep orderly moved => ?_) reached
    · exact inStep_start start
    · exact inStep_next compressedLen inStep orderly moved
  rcases inStep.acked acked with live | ⟨above, durable, _⟩
  · exact Or.inl live
  · exact Or.inr (replayed_of_durable durable crash _ above)

end

/-! Two writers and a flush. -/

instance {Writer : Type} [Fintype Writer] (r : InternalRecord) (s : Shared Writer) (pc : FlushPc) :
    Decidable (Behind r s pc) :=
  match pc with
  | .written _ allRecords =>
      inferInstanceAs (Decidable (∀ k, r ∈ unwritten (s.writer k) → lastSeq allRecords < r.seq))
  | .idle | .frozen => isTrue trivial
  | .popped _ | .indexed _ => isTrue trivial
  | .numbered .. | .registered .. => isTrue trivial

instance (r : InternalRecord) : Decidable r.Fits :=
  decidable_of_iff (r.seq < 2 ^ 64 ∧ r.key.length < 2 ^ 16 ∧ InI64 r.ts ∧ InI64 r.expireAt ∧
    (∀ re ∈ r.rangeEnd, re.length < 2 ^ 32) ∧ r.value.length < 2 ^ 32)
    ⟨fun ⟨seq, key, ts, expireAt, rangeEnd, value⟩ => ⟨seq, key, ts, expireAt, rangeEnd, value⟩,
      fun fits => ⟨fits.seq, fits.key, fits.ts, fits.expireAt, fits.rangeEnd, fits.value⟩⟩

instance {Writer : Type} [Fintype Writer] (r : InternalRecord) (s : Shared Writer) (choice : Choice Writer) :
    Decidable (Orderly r s choice) :=
  match choice with
  | .take _ records => inferInstanceAs (Decidable (∀ x ∈ assignSeqs s.engine.seqCounter records, x.Fits))
  | .flush nowUs => inferInstanceAs (Decidable (nowUs < r.expireAt ∧ Behind r s s.flush))
  | .lead | .insert | .sync => isTrue trivial
  | .append _ | .acknowledge _ => isTrue trivial

def opened : Shared Bool := ⟨fresh {}, .idle, .free, fun _ => .idle, []⟩

theorem opened_start : Start opened :=
  ⟨rfl, rfl, fun _ => rfl, rfl, rfl, WalRuns.sound_new _, rfl, nofun, nofun, by decide⟩

def putOf (key : UInt8) : InternalRecord := .fromRecord (.new [key] 1 [1]) 0

/-- Numbers taken, submitted and acknowledged without a pause. -/
def submit (k : Bool) : List (Choice Bool) := [.lead, .append k, .insert, .sync, .acknowledge k]

def flushed : List (Choice Bool) := List.replicate 7 (.flush 0)

/-- What each of the two writers puts, under the number it takes here. -/
def first : InternalRecord := { putOf 97 with seq := 1000000 }

def second : InternalRecord := { putOf 98 with seq := 1000001 }

/-- Both put; the second is flushed after the first has been acknowledged. -/
theorem acknowledged_recovered_both :
    ∃ s : Shared Bool, Reachable (Shared.next List.length) (Orderly first) Start s ∧ first ∈ s.acked ∧
      second ∈ s.acked ∧ second ∈ s.engine.tables.records ∧
      ∀ files, Crash s.engine.wal files → Recovered s.engine files first := by
  have ran : ∃ s : Shared Bool, Reachable (Shared.next List.length) (Orderly first) Start s ∧
      decide (first ∈ s.acked ∧ second ∈ s.acked ∧ second ∈ s.engine.tables.records) = true :=
    reachable_of_follow opened ([.take true [putOf 97], .take false [putOf 98]] ++ submit true ++ submit false ++ flushed)
      (fun s => first ∈ s.acked ∧ second ∈ s.acked ∧ second ∈ s.engine.tables.records) opened_start (by decide +kernel)
  obtain ⟨s, reached, passed⟩ := ran
  obtain ⟨acked, other, live⟩ := of_decide_eq_true passed
  exact ⟨s, reached, acked, other, live, acknowledged_recovered List.length first s reached acked⟩

theorem crash_files (w : Wal) : Crash w w.files := by
  unfold Crash Wal.files
  induction w.segments with
  | nil => exact .nil
  | cons s rest ih => exact .cons ⟨rfl, List.prefix_rfl, List.take_prefix _ _⟩ ih

/-- The second takes its number later and is flushed before the first submits. -/
theorem acknowledged_lost :
    ∃ s : Shared Bool, Reachable (Shared.next List.length) anyStep Start s ∧ first ∈ s.acked ∧
      s.flush = .idle ∧ Crash s.engine.wal s.engine.wal.files ∧ ¬ Recovered s.engine s.engine.wal.files first := by
  have ran : ∃ s : Shared Bool, Reachable (Shared.next List.length) anyStep Start s ∧
      decide (first ∈ s.acked ∧ s.flush = .idle ∧ first ∉ s.engine.tables.records ∧
        first.dropEmptyEnd ∉ (Wal.openDir s.engine.wal.files s.engine.config.walSegmentSizeMb).replayFrom
          (lastFlushedSeq s.engine)) = true :=
    reachable_of_follow opened ([.take true [putOf 97], .take false [putOf 98]] ++ submit false ++ flushed ++ submit true)
      (fun s => first ∈ s.acked ∧ s.flush = .idle ∧ first ∉ s.engine.tables.records ∧
        first.dropEmptyEnd ∉ (Wal.openDir s.engine.wal.files s.engine.config.walSegmentSizeMb).replayFrom
          (lastFlushedSeq s.engine)) opened_start (by decide +kernel)
  obtain ⟨s, reached, passed⟩ := ran
  obtain ⟨acked, idle, notLive, notReplayed⟩ := of_decide_eq_true passed
  exact ⟨s, reached, acked, idle, crash_files _, fun recovered => recovered.elim notLive notReplayed⟩

end FlowDb.CrashedWriters
