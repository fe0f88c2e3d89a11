import FlowDb.Compaction
import FlowDb.CrashedWriters

/-! Sessions of one thread, each ended by a crash. The next open restarts
`seq_counter` above the largest table id it finds, times a million; a replay keeps
the numbers above the largest one a flush ever published. Nothing ties the two
together but the numbers that happen to be in the tables. -/
namespace FlowDb.CrashRecovery
open ByteString OrderedMap Records WalCodec WalLog Sstable ManifestLog ManifestState TableStore MemoryTables
open EngineOps EngineRuns MaintenanceSteps Interleaving CrashedWriters

/-- The directory with the engine on it. `clock` is the latest reading taken,
`acked` are all records acknowledged, in order, and `dropped` the deletes that
compactions took out of the tables when nothing was left for them to hide. -/
structure World where
  engine : Engine
  clock : Int
  acked : List InternalRecord
  dropped : List InternalRecord
  deriving DecidableEq

/-- `popped` is the order in which the heap of a compaction pops what its iterators
return; `config` is the one of the session after the crash. -/
inductive Choice where
  | command (c : Command) (nowUs : Int)
  | compact (nowUs : Int) (popped : List InternalRecord)
  | gc (nowUs : Int)
  | crash (config : Config)

/-- `Engine::open` on what the engine's directory holds. -/
def reopened (config : Config) (e : Engine) : Engine :=
  Engine.open config e.wal.files e.tables.manifest e.tables.files

/-- A table keeps no numbers: a record is in one if it has the same other fields. -/
def InTables (r : InternalRecord) (t : Tables) : Prop := stored r ∈ t.records.map stored

instance (r : InternalRecord) (t : Tables) : Decidable (InTables r t) :=
  inferInstanceAs (Decidable (stored r ∈ t.records.map stored))

/-- A delete may go when no put of its slot is left in a table. -/
def takenOut (before after : Tables) : List InternalRecord :=
  before.records.filter fun d =>
    decide (d.op = .delete ∧ ¬ InTables d after ∧ ∀ p ∈ after.records, p.slot = d.slot → p.op ≠ .put)

def World.numbered (s : World) (c : Command) : List InternalRecord :=
  assignSeqs s.engine.seqCounter (c.records s.engine.config)

def World.exec (compressedLen : Bytes → Nat) (s : World) : Choice → World
  | .command c nowUs =>
      { engine := c.exec compressedLen s.engine nowUs
        clock := max s.clock nowUs
        acked := s.acked ++ s.numbered c
        dropped := s.dropped.filter fun d => decide (∀ x ∈ s.numbered c, x.slot ≠ d.slot) }
  | .compact nowUs popped =>
      let tables := CompactionRunner.run s.engine.config compressedLen s.engine.tables popped
      { s with
        engine := withTables s.engine tables
        clock := max s.clock nowUs
        dropped := s.dropped ++ takenOut s.engine.tables tables }
  | .gc nowUs =>
      { s with
        engine := withTables s.engine (GcRunner.run s.engine.tables nowUs)
        clock := max s.clock nowUs }
  | .crash config => { s with engine := reopened config s.engine }

def World.next (compressedLen : Bytes → Nat) (s : World) (choice : Choice) : Option World :=
  some (s.exec compressedLen choice)

/-- An order in which the heap over the candidates' iterators can pop. -/
def HeapOrder (t : Tables) (nowUs : Int) (popped : List InternalRecord) : Prop :=
  ∃ pops : List (Fin t.candidates.length × InternalRecord),
    Merge.Run heapRank (fun i => iterated nowUs (t.file (t.candidates.get i))) pops ∧ pops.map Prod.snd = popped

/-- What can happen: `Config::validate` refuses to open without room for a frozen table.
The crash comes when every byte of the log is on disk. -/
def Possible (s : World) : Choice → Prop
  | .compact nowUs popped => HeapOrder s.engine.tables nowUs popped
  | .crash config => 0 < config.maxFrozenMemtables
  | _ => True

/-- The heap pops `x` behind no other record of its slot. -/
def Leads (popped : List InternalRecord) (x : InternalRecord) : Prop :=
  ∃ front back, popped = front ++ x :: back ∧ Merge.lastKey InternalRecord.slot none front ≠ some x.slot

/-- A merge that keeps `r`: another table has it as well, or as a put it is the
first of its slot to be popped, or as a delete it has no put left to hide. -/
def Spares (r : InternalRecord) (t : Tables) (popped : List InternalRecord) : Prop :=
  stored r ∈ t.keptRecords.map stored ∨ (r.op = .put ∧ Leads popped (stored r)) ∨
    (r.op = .delete ∧ (∀ k ∈ t.keptRecords, k.slot = r.slot → k.op ≠ .put) ∧
      ∀ x, Leads popped x → x.slot = r.slot → x.op ≠ .put)

/-- The records fit the encodings, `r` gets a number above the published one, and a
compaction that merges `r` while it is the last of its slot spares it. -/
def Careful (r : InternalRecord) (s : World) : Choice → Prop
  | .command c _ =>
      (∀ x ∈ s.numbered c, x.Fits ∧ TableFits x) ∧ (r ∈ s.numbered c → lastFlushedSeq s.engine < r.seq)
  | .compact _ popped =>
      s.engine.config.compactionThreshold ≤ s.engine.tables.manifest.state.sstables.entries.length →
        lastVersion s.acked r.slot = some r → stored r ∈ popped → Spares r s.engine.tables popped
  | _ => True

/-- An empty directory, opened. -/
structure Start (s : World) : Prop where
  engine : ∃ config : Config, 0 < config.maxFrozenMemtables ∧ s.engine = fresh config
  acked : s.acked = []
  dropped : s.dropped = []

/-! ### Tables and what the manifest says of them -/

theorem tableFits_stored {r : InternalRecord} (fits : TableFits r) : TableFits (stored r) := by
  refine ⟨fits.key, fits.ts, fits.expireAt, fun re held => ?_, fits.value⟩
  simp only [stored, InternalRecord.dropEmptyEnd] at held
  split_ifs at held
  exact fits.rangeEnd re held

theorem tableFits_dropEmptyEnd {r : InternalRecord} (fits : TableFits r) : TableFits r.dropEmptyEnd :=
  ⟨fits.key, fits.ts, fits.expireAt, (tableFits_stored fits).rangeEnd, fits.value⟩

@[simp] theorem stored_stored (r : InternalRecord) : stored (stored r) = stored r := by
  simp only [stored, InternalRecord.dropEmptyEnd]
  split_ifs <;> simp_all

/-- The manifest lists every live table, none expires before a record in it, and the
records can be read back. -/
def Described (t : Tables) : Prop :=
  ∀ id ∈ t.activeIds, ∃ info, t.manifest.state.sstables.get? id = some info ∧
    ∀ x ∈ (t.file id).records, x.expireAt ≤ info.maxExpire ∧ TableFits x

namespace Described

theorem fresh {t : Tables} (described : Described t) : t.manifest.state.nextSstId ∉ t.activeIds := by
  refine nextSstId_inactive fun id active => ?_
  obtain ⟨info, there, _⟩ := described id active
  rw [there]
  rfl

theorem fits {t : Tables} (described : Described t) {x : InternalRecord} (member : x ∈ t.records) : TableFits x := by
  obtain ⟨id, active, inside⟩ := List.mem_flatMap.mp member
  obtain ⟨_, _, each⟩ := described id active
  exact (each x inside).2

theorem publish {t : Tables} (described : Described t) {m : Manifest} {info : SstInfo} (f : SstFile)
    (bloom : Bloom.BloomFilter) (sstables : m.state.sstables = t.manifest.state.sstables.insert info.id info)
    (active : m.state.activeSstIds = (t.manifest.state.addActive info.id).activeSstIds)
    (new : ∀ x ∈ f.records, x.expireAt ≤ info.maxExpire ∧ TableFits x) : Described (publishSst t m info f bloom) := by
  intro id member
  rw [file_publishSst, show (publishSst t m info f bloom).manifest.state.sstables = m.state.sstables from rfl, sstables,
    get?_insert]
  split_ifs with same
  · exact ⟨info, rfl, new⟩
  · have old : id = info.id ∨ id ∈ t.activeIds := by
      rw [show (publishSst t m info f bloom).activeIds = m.state.activeSstIds from rfl, active] at member
      exact (mem_addActive _ _ _).mp member
    exact described id (old.resolve_left same)

theorem addFlushed {t : Tables} (described : Described t) (config : Config) (compressedLen : Bytes → Nat)
    {records : List InternalRecord} (fits : ∀ x ∈ records, TableFits x) :
    Described (addFlushed config compressedLen t records) := by
  have entry := fun info => applyEntry_flush t.manifest.state (lastSeq records) info
    (SstWriter.write records config.blockSize config.bloomBitsPerKey).1.blockInfos
  refine described.publish _ _ ?_ ?_ fun x member => ?_
  · simp only [state_append]
    exact (entry _).1
  · simp only [state_append]
    exact (entry _).2.2.1
  · rw [SstFile.records, SstWriter.write, chunks_flatten] at member
    exact ⟨le_maximum (List.mem_map.mpr ⟨x, member, rfl⟩), fits x member⟩

theorem deleteSsts {t : Tables} (described : Described t) (ids : List Nat) : Described (deleteSsts t ids) := by
  intro id member
  rw [activeIds_deleteSsts] at member
  obtain ⟨active, kept⟩ := List.mem_filter.mp member
  have stays : id ∉ ids := by simpa using kept
  obtain ⟨info, there, each⟩ := described id active
  refine ⟨info, ?_, file_deleteSsts t ids id stays ▸ each⟩
  rw [TableStore.deleteSsts, deletes_state, (removes_get? ids _ id).1, if_neg stays, there]

theorem run {t : Tables} (described : Described t) (config : Config) (compressedLen : Bytes → Nat)
    {popped : List InternalRecord} (fits : ∀ x ∈ popped, TableFits x) :
    Described (CompactionRunner.run config compressedLen t popped) := by
  simp only [CompactionRunner.run]
  split_ifs
  · exact described
  · exact described
  · exact described.deleteSsts _
  · have state := deletes_state t.candidates t.manifest
    have entry := fun info blocks => applyEntry_compaction t.manifest.state t.candidates info blocks
    refine (described.deleteSsts t.candidates).publish _ _ ?_ ?_ fun x member => ?_
    · rw [state_append, (entry _ _).1, TableStore.deleteSsts, state]
    · rw [state_append, (entry _ _).2.2.1, TableStore.deleteSsts, state]
    · rw [SstFile.records, SstStreamWriter.write, chunks_flatten] at member
      refine ⟨le_maximum (List.mem_map.mpr ⟨x, member, rfl⟩), fits x ?_⟩
      exact (Merge.firsts_sublist _ _ _).subset (List.mem_of_mem_filter member)

end Described

/-! ### A compaction -/

section
variable {t : Tables} {nowUs : Int} {popped : List InternalRecord}

theorem mem_heapOrder (described : Described t) (order : HeapOrder t nowUs popped) (x : InternalRecord) :
    x ∈ popped ↔ ∃ id ∈ t.candidates, ∃ y ∈ (t.file id).records, nowUs < y.expireAt ∧ stored y = x := by
  obtain ⟨pops, run, rfl⟩ := order
  have source (i : Fin t.candidates.length) : x ∈ iterated nowUs (t.file (t.candidates.get i)) ↔
      ∃ y ∈ (t.file (t.candidates.get i)).records, nowUs < y.expireAt ∧ stored y = x := by
    have fits : ∀ y ∈ (t.file (t.candidates.get i)).records, TableFits y := fun y member =>
      described.fits (Compaction.mem_records (Compaction.candidate_active i) member)
    simp only [Compaction.iterated_eq nowUs _ fits, List.mem_map, Compaction.mem_numbered, and_assoc]
  constructor
  · intro member
    obtain ⟨⟨i, _⟩, inside, rfl⟩ := List.mem_map.mp member
    exact ⟨t.candidates.get i, List.get_mem _ _, (source i).mp (Merge.mem_of_popped run inside)⟩
  · rintro ⟨id, candidate, found⟩
    obtain ⟨i, rfl⟩ := List.get_of_mem candidate
    exact List.mem_map.mpr ⟨(i, x), Merge.popped_of_mem run ((source i).mpr found), rfl⟩

theorem tableFits_popped (described : Described t) (order : HeapOrder t nowUs popped) :
    ∀ x ∈ popped, TableFits x := by
  intro x member
  obtain ⟨id, candidate, y, inside, _, rfl⟩ := (mem_heapOrder described order x).mp member
  exact tableFits_stored (described.fits (Compaction.mem_records ((candidates_subperm t).subset candidate) inside))

theorem leads_of_written {x : InternalRecord} (member : x ∈ written popped) : Leads popped x :=
  (Merge.mem_firsts_iff _ _ _ _).mp (List.mem_of_mem_filter member)

/-- What a merge spares is still there, or was a delete with nothing left to hide. -/
theorem run_spares (described : Described t) (config : Config) (compressedLen : Bytes → Nat) {r : InternalRecord}
    (order : HeapOrder t nowUs popped) (unexpired : nowUs < r.expireAt) (live : InTables r t)
    (spares : config.compactionThreshold ≤ t.manifest.state.sstables.entries.length → stored r ∈ popped →
      Spares r t popped) :
    let after := CompactionRunner.run config compressedLen t popped
    InTables r after ∨ (r.op = .delete ∧ stored r ∈ (takenOut t after).map stored) := by
  intro after
  by_cases few : t.manifest.state.sstables.entries.length < config.compactionThreshold
  · have same : after = t := if_pos few
    rw [same]
    exact Or.inl live
  · have members : ∀ x, x ∈ after.records ↔ x ∈ t.keptRecords ∨ x ∈ written popped := by
      refine records_run config compressedLen t described.fresh popped (not_lt.mp few) fun none => ?_
      refine List.eq_nil_iff_forall_not_mem.mpr fun x member => ?_
      obtain ⟨id, candidate, y, inside, _⟩ := (mem_heapOrder described order x).mp member
      rw [none id candidate] at inside
      cases inside
    have stays (kept : stored r ∈ t.keptRecords.map stored) : InTables r after := by
      obtain ⟨k, there, same⟩ := List.mem_map.mp kept
      exact List.mem_map.mpr ⟨k, (members k).mpr (Or.inl there), same⟩
    obtain ⟨y, there, same⟩ := List.mem_map.mp live
    obtain ⟨id, active, inside⟩ := List.mem_flatMap.mp there
    by_cases candidate : id ∈ t.candidates
    · have expire : (stored y).expireAt = (stored r).expireAt := congrArg InternalRecord.expireAt same
      have merged : stored r ∈ popped :=
        (mem_heapOrder described order _).mpr ⟨id, candidate, y, inside, unexpired.trans_eq expire.symm, same⟩
      rcases spares (not_lt.mp few) merged with kept | ⟨put, first⟩ | ⟨delete, others, behind⟩
      · exact Or.inl (stays kept)
      · refine Or.inl (List.mem_map.mpr ⟨stored r, (members _).mpr (Or.inr ?_), stored_stored r⟩)
        exact List.mem_filter.mpr ⟨(Merge.mem_firsts_iff _ _ _ _).mpr first, by simp [put]⟩
      · by_cases still : InTables r after
        · exact Or.inl still
        · have op : y.op = .delete := (congrArg InternalRecord.op same).trans delete
          have slot : (stored y).slot = (stored r).slot := congrArg InternalRecord.slot same
          refine Or.inr ⟨delete, List.mem_map.mpr ⟨y, List.mem_filter.mpr ⟨there, decide_eq_true ⟨op, ?_, ?_⟩⟩, same⟩⟩
          · rwa [InTables, same]
          · intro p member here
            rcases (members p).mp member with old | new
            · exact others p old (here.trans slot)
            · exact behind p (leads_of_written new) (here.trans slot)
    · refine Or.inl (stays (List.mem_map.mpr ⟨y, List.mem_flatMap.mpr ⟨id, List.mem_filter.mpr ⟨active, ?_⟩, inside⟩, same⟩))
      simpa using candidate

theorem run_lastFlushedSeq (config : Config) (compressedLen : Bytes → Nat) (t : Tables) (popped : List InternalRecord) :
    (CompactionRunner.run config compressedLen t popped).manifest.state.lastFlushedSeq =
      t.manifest.state.lastFlushedSeq := by
  have deleted : (TableStore.deleteSsts t t.candidates).manifest.state.lastFlushedSeq = t.manifest.state.lastFlushedSeq := by
    rw [TableStore.deleteSsts, deletes_state, removes_lastFlushedSeq]
  simp only [CompactionRunner.run]
  split_ifs
  · rfl
  · rfl
  · exact deleted
  · rw [publishSst, state_append]
    exact (applyEntry_compaction t.manifest.state t.candidates _ _).2.2.2

end

/-! ### The engine between two operations -/

structure EngineOk (e : Engine) : Prop where
  frozen : e.memtables.frozen = []
  roomy : 0 < e.memtables.maxFrozen
  log : WalRuns.Sound e.wal
  tables : Described e.tables
  memory : ∀ x ∈ e.memtables.active.records, TableFits x
  logged : ∀ x ∈ e.wal.logged, TableFits x

/-- In a table, or in memory and in the log under a number that a replay keeps. -/
def Held (r : InternalRecord) (e : Engine) : Prop :=
  InTables r e.tables ∨ (lastFlushedSeq e < r.seq ∧ Logged r e.wal ∧ r ∈ e.memtables.active.records)

theorem inTables_append {r : InternalRecord} {t t' : Tables} {new : List InternalRecord}
    (records : t'.records = t.records ++ new) : InTables r t' ↔ InTables r t ∨ stored r ∈ new.map stored := by
  rw [InTables, records, List.map_append, List.mem_append]
  rfl

theorem logged_syncAll (w : Wal) : w.syncAll.logged = w.logged := by
  simp only [logged_eq, Wal.syncAll, List.flatMap_map]

theorem logged_truncateBefore (w : Wal) (seq : Nat) : (w.truncateBefore seq).logged ⊆ w.logged := by
  rw [Wal.truncateBefore, ensureSegment_logged, logged_eq, logged_eq]
  intro x member
  obtain ⟨s, kept, inside⟩ := List.mem_flatMap.mp member
  exact List.mem_flatMap.mpr ⟨s, List.mem_of_mem_filter kept, inside⟩

theorem foldl_insert_maxFrozen (records : List InternalRecord) (m : MemTables) :
    (records.foldl MemTables.insert m).maxFrozen = m.maxFrozen := by
  induction records generalizing m with
  | nil => rfl
  | cons x rest ih => exact ih (m.insert x)

section
variable (compressedLen : Bytes → Nat) {r : InternalRecord} {e : Engine}

theorem engineOk_syncAll (ok : EngineOk e) : EngineOk { e with wal := e.wal.syncAll } :=
  ⟨ok.frozen, ok.roomy, sound_syncAll ok.log, ok.tables, ok.memory, (logged_syncAll e.wal).symm ▸ ok.logged⟩

theorem held_syncAll (held : Held r e) : Held r { e with wal := e.wal.syncAll } :=
  held.imp_right fun ⟨above, logged, member⟩ => ⟨above, logged.syncAll.logged, member⟩

theorem engineOk_doFlush (ok : EngineOk e) (nowUs : Int) : EngineOk (e.doFlush compressedLen nowUs) := by
  rcases doFlush_cases compressedLen e nowUs ok.frozen with ⟨_, same⟩ | ⟨_, dropped⟩ | flushed
  · rwa [same]
  · rw [dropped]
    exact ⟨ok.frozen, ok.roomy, ok.log, ok.tables, nofun, ok.logged⟩
  · rw [flushed]
    have fits : ∀ x ∈ flushable e.memtables.active.records nowUs, TableFits x := fun x member =>
      ok.memory x ((mem_flushable _ nowUs x).mp member).1
    refine ⟨ok.frozen, ok.roomy, ?_, ?_, nofun, fun x member => ?_⟩
    · exact sound_syncAll (WalRuns.sound_truncateBefore ok.log _)
    · exact ok.tables.addFlushed e.config compressedLen fits
    · rw [logged_syncAll] at member
      exact ok.logged x (logged_truncateBefore _ _ member)

/-- A flush writes a record that has not expired, before it publishes its number. -/
theorem held_doFlush (ok : EngineOk e) {nowUs : Int} (unexpired : nowUs < r.expireAt) (held : Held r e) :
    Held r (e.doFlush compressedLen nowUs) := by
  rcases doFlush_cases compressedLen e nowUs ok.frozen with ⟨_, same⟩ | ⟨expired, dropped⟩ | flushed
  · rwa [same]
  · rw [dropped]
    refine held.imp_right fun ⟨_, _, member⟩ => ?_
    have kept := (mem_flushable _ nowUs r).mpr ⟨member, unexpired⟩
    rw [expired] at kept
    cases kept
  · rw [flushed]
    refine Or.inl ((inTables_append (records_addFlushed e.config compressedLen e.tables ok.tables.fresh _)).mpr ?_)
    refine held.imp_right fun ⟨_, _, member⟩ => ?_
    exact List.mem_map.mpr ⟨r, (mem_flushable _ nowUs r).mpr ⟨member, unexpired⟩, rfl⟩

theorem submit_eq (ok : EngineOk e) (records : List InternalRecord) (nowUs : Int) :
    e.submit compressedLen records nowUs =
      ((({ e with seqCounter := e.seqCounter + records.length } : Engine).processBatchInner
        (assignSeqs e.seqCounter records)).syncGroup [assignSeqs e.seqCounter records]).flushIfFull compressedLen nowUs := by
  have room : e.memtables.frozenBackpressure = false := by
    rw [MemTables.frozenBackpressure, ok.frozen]
    exact decide_eq_false (not_le.mpr ok.roomy)
  rw [Engine.submit, Engine.processBatchGroup, Engine.drainBacklog]
  simp only [room, Bool.false_eq_true, if_false, List.foldl_cons, List.foldl_nil]

theorem engineOk_processBatchInner (ok : EngineOk e) {base : Nat} {records : List InternalRecord}
    (fits : ∀ x ∈ assignSeqs base records, x.Fits ∧ TableFits x) :
    EngineOk (e.processBatchInner (assignSeqs base records)) := by
  obtain ⟨active, frozen, _⟩ := foldl_insert (assignSeqs base records) e.memtables
  have batch : ∀ x ∈ assignSeqs base records, x.Fits := fun x member => (fits x member).1
  have increasing := assignSeqs_increasing base records
  refine ⟨frozen.trans ok.frozen, ok.roomy.trans_eq (foldl_insert_maxFrozen _ _).symm, ?_, ok.tables, fun x member => ?_,
    fun x member => ?_⟩
  · exact WalRuns.sound_writeEncoded ok.log _ _ batch (WalRuns.le_batchMaxSeq _ increasing)
  · rw [Engine.processBatchInner, active] at member
    exact (List.mem_append.mp member).elim (ok.memory x) fun new => (fits x new).2
  · rw [Engine.processBatchInner, WalRuns.writeEncoded_batch ok.log _ _ batch] at member
    rcases List.mem_append.mp member with old | new
    · exact ok.logged x old
    · obtain ⟨y, there, rfl⟩ := List.mem_map.mp new
      exact tableFits_dropEmptyEnd (fits y there).2

theorem held_processBatchInner (held : Held r e) (records : List InternalRecord) :
    Held r (e.processBatchInner records) := by
  obtain ⟨active, _, _⟩ := foldl_insert records e.memtables
  refine held.imp_right fun ⟨above, logged, member⟩ => ⟨above, logged.writeEncoded _ _, ?_⟩
  rw [Engine.processBatchInner, active]
  exact List.mem_append_left _ member

/-- A record of the batch is held if the number it got is above the published one. -/
theorem held_new (ok : EngineOk e) {records : List InternalRecord} (fits : ∀ x ∈ records, x.Fits)
    (member : r ∈ records) (whole : r.dropEmptyEnd = r) (above : lastFlushedSeq e < r.seq) :
    Held r (e.processBatchInner records) := by
  obtain ⟨active, _, _⟩ := foldl_insert records e.memtables
  refine Or.inr ⟨above, whole ▸ logged_batch ok.log fits member _, ?_⟩
  rw [Engine.processBatchInner, active]
  exact List.mem_append_right _ member

theorem engineOk_submit (ok : EngineOk e) {records : List InternalRecord} (nowUs : Int)
    (fits : ∀ x ∈ assignSeqs e.seqCounter records, x.Fits ∧ TableFits x) :
    EngineOk (e.submit compressedLen records nowUs) := by
  have counted : EngineOk { e with seqCounter := e.seqCounter + records.length } :=
    ⟨ok.frozen, ok.roomy, ok.log, ok.tables, ok.memory, ok.logged⟩
  have inserted := engineOk_processBatchInner counted fits
  rw [submit_eq compressedLen ok, Engine.flushIfFull, Engine.syncGroup]
  split_ifs
  · exact engineOk_doFlush compressedLen (engineOk_syncAll inserted) nowUs
  · exact engineOk_syncAll inserted
  · exact engineOk_doFlush compressedLen inserted nowUs
  · exact inserted

theorem held_submit (ok : EngineOk e) {records : List InternalRecord} {nowUs : Int}
    (fits : ∀ x ∈ assignSeqs e.seqCounter records, x.Fits ∧ TableFits x) (unexpired : nowUs < r.expireAt)
    (source : Held r e ∨ (r ∈ assignSeqs e.seqCounter records ∧ r.dropEmptyEnd = r ∧ lastFlushedSeq e < r.seq)) :
    Held r (e.submit compressedLen records nowUs) := by
  have counted : EngineOk { e with seqCounter := e.seqCounter + records.length } :=
    ⟨ok.frozen, ok.roomy, ok.log, ok.tables, ok.memory, ok.logged⟩
  have inserted := engineOk_processBatchInner counted fits
  have held : Held r (({ e with seqCounter := e.seqCounter + records.length } : Engine).processBatchInner
      (assignSeqs e.seqCounter records)) := by
    rcases source with old | ⟨member, whole, above⟩
    · exact held_processBatchInner old _
    · exact held_new counted (fun x inside => (fits x inside).1) member whole above
  rw [submit_eq compressedLen ok, Engine.flushIfFull, Engine.syncGroup]
  split_ifs
  · exact held_doFlush compressedLen (engineOk_syncAll inserted) unexpired (held_syncAll held)
  · exact held_syncAll held
  · exact held_doFlush compressedLen inserted unexpired held
  · exact held

/-! ### Steps of a run -/

theorem exec_cases (c : Command) (e : Engine) (nowUs : Int) :
    (c.records e.config = [] ∧
        (c.exec compressedLen e nowUs = e ∨ c.exec compressedLen e nowUs = e.doFlush compressedLen nowUs)) ∨
      c.exec compressedLen e nowUs = e.submit compressedLen (c.records e.config) nowUs := by
  cases c with
  | writeBatch batch ttlSecs =>
    by_cases empty : batch = []
    · exact Or.inl ⟨by rw [Command.records, putRecords, empty]; rfl, Or.inl (if_pos empty)⟩
    · exact Or.inr (if_neg empty)
  | deleteBatch keysTs =>
    by_cases empty : keysTs = []
    · exact Or.inl ⟨by rw [Command.records, empty]; rfl, Or.inl (if_pos empty)⟩
    · exact Or.inr (if_neg empty)
  | deleteRange startKey endKey => exact Or.inr rfl
  | flush => exact Or.inl ⟨rfl, Or.inr rfl⟩

/-- Only a range delete has a range end. -/
theorem whole_of_numbered {s : World} {c : Command} (member : r ∈ s.numbered c) (plain : r.op ≠ .deleteRange) :
    r.dropEmptyEnd = r := by
  obtain ⟨_, _, x, there, shape⟩ := mem_assignSeqs _ _ r member
  have none : x.rangeEnd = none := by
    rw [shape] at plain
    rcases mem_records there with ⟨_, none, _⟩ | ⟨_, none, _⟩ | ⟨range, _⟩
    · exact none
    · exact none
    · exact absurd range plain
  rw [shape]
  simp [InternalRecord.dropEmptyEnd, none]

/-- The state of the record `r` of a run. -/
structure Carried (r : InternalRecord) (s : World) : Prop where
  ok : EngineOk s.engine
  kept : lastVersion s.acked r.slot = some r → s.clock < r.expireAt →
    Held r s.engine ∨ (r.op = .delete ∧ stored r ∈ s.dropped.map stored)

variable {s : World} {nowUs : Int}

theorem carried_start (start : Start s) : Carried r s := by
  obtain ⟨config, roomy, opened⟩ := start.engine
  refine ⟨?_, fun last => ?_⟩
  · rw [opened]
    refine ⟨rfl, roomy, WalRuns.sound_new _, nofun, nofun, fun x member => ?_⟩
    simp [fresh, Engine.open, Wal.openDir, Wal.createNewSegment, Wal.logged, Wal.files, replaySegment, replayLoop] at member
  · rw [start.acked] at last
    cases last

theorem carried_command (plain : r.op ≠ .deleteRange) (carried : Carried r s) {c : Command}
    (careful : Careful r s (.command c nowUs)) : Carried r (s.exec compressedLen (.command c nowUs)) := by
  obtain ⟨ok, kept⟩ := carried
  obtain ⟨fits, above⟩ := careful
  -- A record that stays the last of its slot was there before.
  have before (last : lastVersion (s.acked ++ s.numbered c) r.slot = some r) (other : r ∉ s.numbered c)
      (unexpired : max s.clock nowUs < r.expireAt) : Held r s.engine ∨ (r.op = .delete ∧
        stored r ∈ (s.dropped.filter fun d => decide (∀ x ∈ s.numbered c, x.slot ≠ d.slot)).map stored) := by
    rw [lastVersion_append_list, Option.or_eq_some_iff] at last
    rcases last with new | ⟨none, old⟩
    · exact absurd (mem_of_lastVersion new).1 other
    · refine (kept old ((le_max_left _ _).trans_lt unexpired)).imp_right fun ⟨delete, gone⟩ => ⟨delete, ?_⟩
      obtain ⟨d, there, same⟩ := List.mem_map.mp gone
      have slot : (stored d).slot = (stored r).slot := congrArg InternalRecord.slot same
      refine List.mem_map.mpr ⟨d, List.mem_filter.mpr ⟨there, decide_eq_true fun x member here => ?_⟩, same⟩
      exact (lastVersion_eq_none _ _).mp none x member (here.trans slot)
  have late (unexpired : max s.clock nowUs < r.expireAt) : nowUs < r.expireAt := (le_max_right _ _).trans_lt unexpired
  rcases exec_cases compressedLen c s.engine nowUs with ⟨nothing, idle | flushed⟩ | submitted
  · have silent : s.numbered c = [] := by rw [World.numbered, nothing]; rfl
    refine ⟨?_, fun last unexpired => ?_⟩
    · exact (congrArg EngineOk idle).mpr ok
    · refine (before last (by simp [silent]) unexpired).imp_left fun held => ?_
      exact (congrArg (Held r) idle).mpr held
  · have silent : s.numbered c = [] := by rw [World.numbered, nothing]; rfl
    refine ⟨?_, fun last unexpired => ?_⟩
    · exact (congrArg EngineOk flushed).mpr (engineOk_doFlush compressedLen ok nowUs)
    · refine (before last (by simp [silent]) unexpired).imp_left fun held => ?_
      exact (congrArg (Held r) flushed).mpr (held_doFlush compressedLen ok (late unexpired) held)
  · refine ⟨?_, fun last unexpired => ?_⟩
    · exact (congrArg EngineOk submitted).mpr (engineOk_submit compressedLen ok nowUs fits)
    · have goal := congrArg (Held r) submitted
      by_cases new : r ∈ s.numbered c
      · refine Or.inl (goal.mpr (held_submit compressedLen ok fits (late unexpired) (Or.inr ⟨new, ?_, above new⟩)))
        exact whole_of_numbered new plain
      · exact (before last new unexpired).imp_left fun held =>
          goal.mpr (held_submit compressedLen ok fits (late unexpired) (Or.inl held))

theorem carried_compact (carried : Carried r s) {popped : List InternalRecord}
    (order : HeapOrder s.engine.tables nowUs popped) (careful : Careful r s (.compact nowUs popped)) :
    Carried r (s.exec compressedLen (.compact nowUs popped)) := by
  obtain ⟨ok, kept⟩ := carried
  have flushed := run_lastFlushedSeq s.engine.config compressedLen s.engine.tables popped
  refine ⟨⟨ok.frozen, ok.roomy, ok.log, ?_, ok.memory, ok.logged⟩, fun last unexpired => ?_⟩
  · exact ok.tables.run s.engine.config compressedLen (tableFits_popped ok.tables order)
  · have grown (more : List InternalRecord) (gone : stored r ∈ s.dropped.map stored ∨ stored r ∈ more.map stored) :
        stored r ∈ (s.dropped ++ more).map stored := by
      rwa [List.map_append, List.mem_append]
    rcases kept last ((le_max_left _ _).trans_lt unexpired) with (live | ⟨above, logged, member⟩) | ⟨delete, gone⟩
    · have result := run_spares ok.tables s.engine.config compressedLen order ((le_max_right _ _).trans_lt unexpired) live
        fun enough merged => careful enough last merged
      rcases result with still | ⟨delete, taken⟩
      · exact Or.inl (Or.inl still)
      · exact Or.inr ⟨delete, grown _ (Or.inr taken)⟩
    · exact Or.inl (Or.inr ⟨flushed.trans_lt above, logged, member⟩)
    · exact Or.inr ⟨delete, grown _ (Or.inl gone)⟩

/-- A table that goes in a garbage collection held nothing unexpired. -/
theorem inTables_gc {t : Tables} (described : Described t) (unexpired : nowUs < r.expireAt) (live : InTables r t) :
    InTables r (GcRunner.run t nowUs) := by
  obtain ⟨y, there, same⟩ := List.mem_map.mp live
  obtain ⟨id, active, inside⟩ := List.mem_flatMap.mp there
  have expire : (stored y).expireAt = (stored r).expireAt := congrArg InternalRecord.expireAt same
  have kept : id ∉ expiredSsts t.manifest.state nowUs := by
    intro expired
    obtain ⟨⟨_, info⟩, member, rfl⟩ := List.mem_map.mp expired
    obtain ⟨listed, past⟩ := List.mem_filter.mp member
    obtain ⟨info', held, each⟩ := described _ active
    obtain rfl : info' = info := Option.some.inj (held.symm.trans ((get?_eq_some_iff _ _ _).mpr listed))
    have bound := (each y inside).1
    simp only [stored_expireAt, decide_eq_true_eq] at expire past
    omega
  refine List.mem_map.mpr ⟨y, ?_, same⟩
  rw [GcRunner.run, records_deleteSsts]
  exact List.mem_flatMap.mpr ⟨id, List.mem_filter.mpr ⟨active, decide_eq_true kept⟩, inside⟩

theorem carried_gc (carried : Carried r s) : Carried r (s.exec compressedLen (.gc nowUs)) := by
  obtain ⟨ok, kept⟩ := carried
  have flushed : (GcRunner.run s.engine.tables nowUs).manifest.state.lastFlushedSeq = lastFlushedSeq s.engine := by
    rw [GcRunner.run, deleteSsts, deletes_state, removes_lastFlushedSeq]
    rfl
  refine ⟨⟨ok.frozen, ok.roomy, ok.log, ok.tables.deleteSsts _, ok.memory, ok.logged⟩, fun last unexpired => ?_⟩
  refine (kept last ((le_max_left _ _).trans_lt unexpired)).imp_left fun held => ?_
  rcases held with live | ⟨above, logged, member⟩
  · exact Or.inl (inTables_gc ok.tables ((le_max_right _ _).trans_lt unexpired) live)
  · exact Or.inr ⟨flushed.trans_lt above, logged, member⟩

theorem logged_reopened (ok : EngineOk e) (config : Config) : (reopened config e).wal.logged = e.wal.logged :=
  (WalRuns.sound_openDir ok.log config.walSegmentSizeMb).2

/-- A record in memory and in the log is replayed into memory again. -/
theorem carried_crash (carried : Carried r s) {config : Config} (roomy : 0 < config.maxFrozenMemtables) :
    Carried r (s.exec compressedLen (.crash config)) := by
  obtain ⟨ok, kept⟩ := carried
  have log := WalRuns.sound_openDir ok.log config.walSegmentSizeMb
  have same := logged_reopened ok config
  have memory : (reopened config s.engine).memtables.active.records =
      (reopened config s.engine).wal.replayFrom (lastFlushedSeq s.engine) := (foldl_insert _ _).1
  have room : (reopened config s.engine).memtables.maxFrozen = config.maxFrozenMemtables := foldl_insert_maxFrozen _ _
  refine ⟨⟨(foldl_insert _ _).2.1, room.symm ▸ roomy, log.1, ok.tables, fun x member => ?_, fun x member => ?_⟩,
    fun last unexpired => (kept last unexpired).imp_left ?_⟩
  · rw [show (s.exec compressedLen (.crash config)).engine = reopened config s.engine from rfl, memory] at member
    obtain ⟨_, logged⟩ := (mem_replayFrom_iff _ _ x).mp member
    exact ok.logged x (same ▸ (logged_iff x _).mp logged)
  · exact ok.logged x (same ▸ member)
  · rintro (live | ⟨above, logged, _⟩)
    · exact Or.inl live
    · have again : Logged r (reopened config s.engine).wal := (logged_iff r _).mpr (same ▸ (logged_iff r _).mp logged)
      exact Or.inr ⟨above, again, memory ▸ (mem_replayFrom_iff _ _ r).mpr ⟨above, again⟩⟩

/-- In every run whose steps are careful with `r`, an acknowledged `r` that has not
expired and that nothing on its slot followed is in a live table or replayed by the
next open, or it is a delete that a compaction took out with nothing left to hide. -/
theorem acknowledged_kept (r : InternalRecord) (plain : r.op ≠ .deleteRange) (s : World)
    (reached : Reachable (World.next compressedLen) (fun s choice => Possible s choice ∧ Careful r s choice) Start s)
    (last : lastVersion s.acked r.slot = some r) (unexpired : s.clock < r.expireAt) (config : Config) :
    let e := reopened config s.engine
    InTables r e.tables ∨ r ∈ e.wal.replayFrom (lastFlushedSeq e) ∨
      (r.op = .delete ∧ stored r ∈ s.dropped.map stored) := by
  have carried : Carried r s := by
    refine Reachable.invariant (fun s start => ?_) (fun s choice s' carried allowed moved => ?_) reached
    · exact carried_start start
    · obtain ⟨possible, careful⟩ := allowed
      obtain rfl := Option.some.inj moved
      cases choice with
      | command c nowUs => exact carried_command compressedLen plain carried careful
      | compact nowUs popped => exact carried_compact compressedLen carried possible careful
      | gc nowUs => exact carried_gc compressedLen carried
      | crash config => exact carried_crash compressedLen carried possible
  intro e
  rcases carried.kept last unexpired with (live | ⟨above, logged, _⟩) | dropped
  · exact Or.inl live
  · refine Or.inr (Or.inl ((mem_replayFrom_iff _ _ r).mpr ⟨above, (logged_iff r _).mpr ?_⟩))
    rw [logged_reopened carried.ok config]
    exact (logged_iff r _).mp logged
  · exact Or.inr (Or.inr dropped)

end

/-! Two sessions on one directory. -/

def opened : World := ⟨fresh {}, 0, [], []⟩

theorem roomy : 0 < Config.maxFrozenMemtables {} := by decide

theorem opened_start : Start opened := ⟨⟨{}, roomy, rfl⟩, rfl, rfl⟩

def put (key : UInt8) : Choice := .command (.writeBatch [.new [key] 1 [1]] none) 0

theorem reachable_exec {compressedLen : Bytes → Nat} {allowed : World → Choice → Prop} {s : World}
    (reached : Reachable (World.next compressedLen) allowed Start s) {choice : Choice} (fine : allowed s choice) :
    Reachable (World.next compressedLen) allowed Start (s.exec compressedLen choice) :=
  .step _ _ reached ⟨choice, fine, rfl⟩

def keptRun : World := [put 97, .command .flush 0, put 98, .crash {}].foldl (World.exec List.length) opened

/-- A put is flushed, the next one is not, and the session crashes. -/
theorem acknowledged_kept_behind_flush :
    second ∈ keptRun.acked ∧ let e := reopened {} keptRun.engine
      InTables second e.tables ∨ second ∈ e.wal.replayFrom (CrashedWriters.lastFlushedSeq e) ∨
        (second.op = .delete ∧ stored second ∈ keptRun.dropped.map stored) := by
  have reached : Reachable (World.next List.length) (fun s choice => Possible s choice ∧ Careful second s choice) Start
      keptRun := by
    simp only [keptRun, List.foldl_cons, List.foldl_nil]
    refine reachable_exec (reachable_exec (reachable_exec (reachable_exec (.start opened opened_start) ?_) ?_) ?_) ?_
    · exact ⟨trivial, by decide +kernel, by decide +kernel⟩
    · exact ⟨trivial, by decide +kernel, by decide +kernel⟩
    · exact ⟨trivial, by decide +kernel, by decide +kernel⟩
    · exact ⟨roomy, trivial⟩
  exact ⟨by decide +kernel,
    acknowledged_kept List.length second (by decide) keptRun reached (by decide +kernel) (by decide +kernel) {}⟩

def forgottenRun : World := [put 97, .crash {}, .command .flush 0, put 98].foldl (World.exec List.length) opened

/-- The record put last: the second session starts with the number of the first. -/
def forgotten : InternalRecord := { putOf 98 with seq := 1000000 }

/-- The first session crashes before a flush, the second flushes what it replayed and
then acknowledges a put under a number that is already published. -/
theorem acknowledged_forgotten :
    Reachable (World.next List.length) Possible Start forgottenRun ∧ forgotten.op = .put ∧
      lastVersion forgottenRun.acked forgotten.slot = some forgotten ∧ forgottenRun.clock < forgotten.expireAt ∧
      let e := reopened {} forgottenRun.engine
      ¬ InTables forgotten e.tables ∧ forgotten ∉ e.wal.replayFrom (CrashedWriters.lastFlushedSeq e) := by
  refine ⟨?_, rfl, by decide +kernel, by decide +kernel, by decide +kernel, by decide +kernel⟩
  simp only [forgottenRun, List.foldl_cons, List.foldl_nil]
  refine reachable_exec (reachable_exec (reachable_exec (reachable_exec (.start opened opened_start) ?_) ?_) ?_) ?_
  · trivial
  · exact roomy
  · trivial
  · trivial

end FlowDb.CrashRecovery
