import FlowDb.IoFailures
import FlowDb.EngineRuns

/-! What a flush that fails takes from the reads of the same engine. The frozen table
leaves the memtables before anything is written, and its table enters the index after
everything is: between the two its records are in the log only. -/
namespace FlowDb.FailedFlushes
open ByteString OrderedMap Records WalLog Sstable ManifestLog ManifestState BlockIndex BlockMetaIndex TableStore
open MemoryTables Reads PointReads EngineOps MaintenanceSteps IoFailures

/-- An operation on an engine, with the error it meets if any. -/
inductive Step where
  | group (submissions : List (List InternalRecord)) (fault : Option GroupFault) (nowUs : Int)
  | flush (fault : Option FlushFault) (nowUs : Int)
  | compact (popped : List InternalRecord)
  | gc (nowUs : Int)
  deriving DecidableEq

/-- An engine and the records whose writes returned Ok. -/
structure Live where
  engine : Engine
  acked : List InternalRecord

section
variable (compressedLen : Bytes → Nat)

def Live.step (s : Live) : Step → Live
  | .group submissions fault nowUs =>
      let run := tryGroup compressedLen fault nowUs submissions s.engine
      ⟨run.engine, if run.error = none then s.acked ++ submissions.flatten else s.acked⟩
  | .flush fault nowUs => { s with engine := (tryFlush compressedLen s.engine fault nowUs).2 }
  | .compact popped =>
      { s with engine := withTables s.engine (CompactionRunner.run s.engine.config compressedLen s.engine.tables popped) }
  | .gc nowUs => { s with engine := withTables s.engine (GcRunner.run s.engine.tables nowUs) }

end

/-! ### What every state has -/

/-- The index lists tables of the manifest only. -/
def Listed (t : Tables) : Prop :=
  ∀ id blocks, t.index.sstBlocks.get? id = some blocks →
    (t.manifest.state.sstables.get? id).isSome ∧ ∀ m ∈ blocks, m.sstId = id

structure Settled (e : Engine) : Prop where
  frozen : e.memtables.frozen = []
  indexed : Indexed e.memtables.active
  listed : Listed e.tables

section
variable {t : Tables} (listed : Listed t)
include listed

theorem listed_addSst {t' : Tables} (info : SstInfo) (blocks : List BlockInfo)
    (index : t'.index.sstBlocks = (t.index.addSst info.id blocks).sstBlocks)
    (manifest : t'.manifest.state.sstables = t.manifest.state.sstables.insert info.id info) : Listed t' := by
  intro id found held
  rw [index, sstBlocks_addSst, get?_insert] at held
  rw [manifest, get?_insert]
  split_ifs at held ⊢ with new
  · obtain rfl := Option.some.inj held
    refine ⟨rfl, fun m member => ?_⟩
    obtain ⟨bi, _, rfl⟩ := List.mem_map.mp member
    exact new.symm
  · exact listed id found held

theorem listed_addFlushed (config : Config) (compressedLen : Bytes → Nat) (records : List InternalRecord) :
    Listed (addFlushed config compressedLen t records) := by
  refine listed_addSst listed (sstInfo t.manifest.state.nextSstId
    ((flushedSst config records).1.totalBytes compressedLen) records (flushedSst config records).2)
    (flushedSst config records).1.blockInfos rfl ?_
  simp only [addFlushed, publishSst, state_append]
  exact (applyEntry_flush _ _ _ (flushedSst config records).1.blockInfos).1

theorem listed_failedTables (config : Config) (compressedLen : Bytes → Nat) (records : List InternalRecord)
    (fault : FlushFault) : Listed (failedTables compressedLen config t records fault) := by
  cases fault with
  | createDir | write | rename => exact listed
  | openDir | syncDir | flushEntry => exact listed
  | checkpointEntry =>
    intro id blocks held
    obtain ⟨there, own⟩ := listed id blocks held
    refine ⟨?_, own⟩
    simp only [failedTables, state_append]
    rw [(applyEntry_flush _ _ _ _).1, get?_insert]
    split_ifs
    · rfl
    · exact there

theorem listed_deleteSsts (ids : List Nat) : Listed (deleteSsts t ids) := by
  intro id blocks held
  simp only [deleteSsts] at held ⊢
  rw [(removeSsts_fields ids t.index).1] at held
  rw [deletes_state, (removes_get? ids _ id).1]
  split_ifs at held ⊢ with gone
  exact listed id blocks held

theorem listed_compaction (config : Config) (compressedLen : Bytes → Nat) (popped : List InternalRecord) :
    Listed (CompactionRunner.run config compressedLen t popped) := by
  simp only [CompactionRunner.run]
  split_ifs
  · exact listed
  · exact listed
  · exact listed_deleteSsts listed _
  · refine listed_addSst (listed_deleteSsts listed t.candidates) (sstInfo t.manifest.state.nextSstId _ _ _) _ rfl ?_
    simp only [publishSst, state_append, deleteSsts, deletes_state]
    exact (applyEntry_compaction _ _ _ _).1

end

theorem listed_indexing (state : ManifestState) (ids : List Nat) (idx : BlockMetaIndex)
    (before : ∀ id blocks, idx.sstBlocks.get? id = some blocks →
      (state.sstables.get? id).isSome ∧ ∀ m ∈ blocks, m.sstId = id) :
    ∀ id blocks, (ids.foldl (fun idx id =>
      match state.sstables.get? id, state.blockInfos.get? id with
      | some info, some blocks =>
          let idx := idx.addSst id blocks
          match info.bloom with
          | some bloom => idx.setBloom id bloom
          | none => idx
      | _, _ => idx) idx).sstBlocks.get? id = some blocks →
      (state.sstables.get? id).isSome ∧ ∀ m ∈ blocks, m.sstId = id := by
  induction ids generalizing idx with
  | nil => exact before
  | cons first rest ih =>
    refine ih _ fun id blocks held => ?_
    dsimp only at held
    split at held
    · rename_i info infos known listed
      have added : (idx.addSst first infos).sstBlocks.get? id = some blocks := by
        split at held
        · exact held
        · exact held
      rw [sstBlocks_addSst, get?_insert] at added
      split_ifs at added with same
      · obtain rfl := Option.some.inj added
        subst same
        refine ⟨Option.isSome_of_mem known, fun m member => ?_⟩
        obtain ⟨bi, _, rfl⟩ := List.mem_map.mp member
        rfl
      · exact before id blocks added
    · exact before id blocks held

theorem settled_open (config : Config) (segments : List (Nat × Bytes)) (manifest : Manifest) (files : OMap Nat SstFile) :
    Settled (Engine.open config segments manifest files) := by
  obtain ⟨_, frozen, indexed⟩ := foldl_insert
    ((Wal.openDir segments config.walSegmentSizeMb).replayFrom manifest.state.lastFlushedSeq)
    (MemTables.new config.maxFrozenMemtables (config.memtableSizeMb * 1024 * 1024))
  exact ⟨frozen, indexed indexed_new, listed_indexing manifest.state manifest.state.activeSstIds _ nofun⟩

section
variable (compressedLen : Bytes → Nat) {e : Engine} (settled : Settled e)
include settled

theorem settled_doFlush (nowUs : Int) : Settled (e.doFlush compressedLen nowUs) := by
  rcases doFlush_cases compressedLen e nowUs settled.frozen with ⟨_, same⟩ | ⟨_, dropped⟩ | written
  · rwa [same]
  · rw [dropped]
    exact ⟨settled.frozen, indexed_new, settled.listed⟩
  · rw [written]
    exact ⟨settled.frozen, indexed_new, listed_addFlushed settled.listed _ _ _⟩

theorem settled_tryFlush (fault : Option FlushFault) (nowUs : Int) :
    Settled (tryFlush compressedLen e fault nowUs).2 := by
  rcases tryFlush_cases compressedLen e fault nowUs settled.frozen with ⟨_, ok⟩ | ⟨_, failed, _, left⟩
  · rw [ok]
    exact settled_doFlush compressedLen settled nowUs
  · rw [left]
    exact ⟨settled.frozen, indexed_new, listed_failedTables settled.listed _ _ _ failed⟩

omit settled in
theorem settled_andThen {run : GroupRun} (before : Settled run.engine) {step : GroupRun → GroupRun}
    (after : Settled (step run).engine) : Settled (run.andThen step).engine := by
  unfold GroupRun.andThen
  split
  · exact before
  · exact after

theorem settled_tryDrain (fault : Option GroupFault) (nowUs : Int) (round fuel : Nat) :
    Settled (tryDrain compressedLen fault nowUs round fuel e).engine := by
  induction fuel generalizing round e with
  | zero => exact settled
  | succ fuel ih =>
    have flushed := settled_tryFlush compressedLen settled (fault.bind (·.atRound round)) nowUs
    rw [tryDrain]
    split_ifs
    · split
      · rename_i failed left shape
        rwa [shape] at flushed
      · rename_i left shape
        rw [shape] at flushed
        exact ih flushed (round + 1)
    · exact settled

omit settled in
theorem settled_tryAppend (fault : Option GroupFault) (position : Nat) (records : List InternalRecord) {run : GroupRun}
    (settled : Settled run.engine) : Settled (tryAppend fault position records run).engine := by
  unfold tryAppend
  split
  · exact ⟨settled.frozen, settled.indexed, settled.listed⟩
  · obtain ⟨_, frozen, indexed⟩ := foldl_insert records run.engine.memtables
    exact ⟨frozen.trans settled.frozen, indexed settled.indexed, settled.listed⟩

omit settled in
theorem settled_tryAppends (fault : Option GroupFault) (position : Nat) (submissions : List (List InternalRecord))
    {run : GroupRun} (settled : Settled run.engine) : Settled (tryAppends fault position submissions run).engine := by
  induction submissions generalizing position run with
  | nil => exact settled
  | cons records rest ih =>
    have next := settled_tryAppend fault position records settled
    exact settled_andThen next (ih (position + 1) next)

omit settled in
theorem settled_trySync (fault : Option GroupFault) (submissions : List (List InternalRecord)) {run : GroupRun}
    (settled : Settled run.engine) : Settled (trySync fault submissions run).engine := by
  unfold trySync
  split_ifs
  · split <;> exact ⟨settled.frozen, settled.indexed, settled.listed⟩
  · exact settled

omit settled in
theorem settled_tryFlushIfFull (fault : Option GroupFault) (nowUs : Int) {run : GroupRun} (settled : Settled run.engine) :
    Settled (tryFlushIfFull compressedLen fault nowUs run).engine := by
  have flushed := settled_tryFlush compressedLen settled (fault.bind (·.atFlush)) nowUs
  unfold tryFlushIfFull
  split_ifs
  · split <;> rename_i shape <;> rwa [shape] at flushed
  · exact settled

theorem settled_tryGroup (fault : Option GroupFault) (nowUs : Int) (submissions : List (List InternalRecord)) :
    Settled (tryGroup compressedLen fault nowUs submissions e).engine := by
  have drained := settled_tryDrain compressedLen settled fault nowUs 0 (e.memtables.frozen.length + 2)
  have appended := settled_andThen drained (settled_tryAppends fault 0 submissions drained)
  have synced := settled_andThen appended (settled_trySync fault submissions appended)
  exact settled_andThen synced (settled_tryFlushIfFull compressedLen fault nowUs synced)

end

section
variable (compressedLen : Bytes → Nat)

theorem settled_step {s : Live} (settled : Settled s.engine) (step : Step) : Settled (s.step compressedLen step).engine := by
  cases step with
  | group submissions fault nowUs => exact settled_tryGroup compressedLen settled fault nowUs submissions
  | flush fault nowUs => exact settled_tryFlush compressedLen settled fault nowUs
  | compact popped => exact ⟨settled.frozen, settled.indexed, listed_compaction settled.listed _ _ popped⟩
  | gc nowUs => exact ⟨settled.frozen, settled.indexed, listed_deleteSsts settled.listed _⟩

theorem settled_run {s : Live} (settled : Settled s.engine) (steps : List Step) :
    Settled (steps.foldl (Live.step compressedLen) s).engine := by
  induction steps generalizing s with
  | nil => exact settled
  | cons step rest ih => exact ih (settled_step compressedLen settled step)

end

/-! ### Reads -/

section
variable (search : SlotSearch)

/-- What a point read does where the memtables have nothing. -/
def tableRead (t : Tables) (key : Bytes) (ts nowUs : Int) : Option Record :=
  match t.index.singleSstPoint key nowUs with
  | some found => blockSearch search t key ts nowUs found
  | none => t.index.queryPointInline key nowUs (blockSearch search t key ts nowUs)

/-- Reads of the tables do not see files the index does not list. -/
theorem tableRead_congr {t t' : Tables} (listed : Listed t) (index : t'.index = t.index)
    (files : ∀ id, (t.manifest.state.sstables.get? id).isSome → t'.file id = t.file id) (key : Bytes) (ts nowUs : Int) :
    tableRead search t' key ts nowUs = tableRead search t key ts nowUs := by
  have each : ∀ entry ∈ t.index.sstBlocks.entries, ∀ found, searchedBlock entry.2 key nowUs = some found →
      blockSearch search t' key ts nowUs found = blockSearch search t key ts nowUs found := by
    rintro ⟨id, blocks⟩ member found searched
    obtain ⟨there, own⟩ := listed id blocks ((get?_eq_some_iff _ _ _).mpr member)
    rw [blockSearch, blockSearch, own found (searchedBlock_mem _ _ _ found searched), files id there]
  have inline : t.index.queryPointInline key nowUs (blockSearch search t' key ts nowUs) =
      t.index.queryPointInline key nowUs (blockSearch search t key ts nowUs) := by
    rw [queryPointInline, queryPointInline]
    refine findSome?_congr fun entry member => ?_
    split_ifs
    · cases searched : searchedBlock entry.2 key nowUs with
      | none => rfl
      | some found => exact each entry member found searched
    · rfl
  rw [tableRead, tableRead, index, inline]
  cases single : t.index.singleSstPoint key nowUs with
  | none => rfl
  | some found =>
    unfold singleSstPoint at single
    split at single
    · rename_i entry shape
      exact each entry (shape ▸ List.mem_singleton_self entry) found single
    · cases single

theorem tableRead_failed {t : Tables} (listed : Listed t) (compressedLen : Bytes → Nat) (config : Config)
    (allRecords : List InternalRecord) (fault : FlushFault) (key : Bytes) (ts nowUs : Int) :
    tableRead search (failedTables compressedLen config t allRecords fault) key ts nowUs = tableRead search t key ts nowUs := by
  have other : ∀ id, (t.manifest.state.sstables.get? id).isSome →
      (withFile t t.manifest.state.nextSstId (flushedSst config allRecords).1).file id = t.file id := by
    intro id there
    have new := nextSstId_fresh _ id there
    simp only [withFile, Tables.file, get?_insert, if_neg new.ne]
  have same : (failedTables compressedLen config t allRecords fault).index = t.index ∧
      ∀ id, (t.manifest.state.sstables.get? id).isSome → (failedTables compressedLen config t allRecords fault).file id = t.file id := by
    cases fault with
    | createDir | write | rename => exact ⟨rfl, fun _ _ => rfl⟩
    | openDir | syncDir | flushEntry | checkpointEntry => exact ⟨rfl, other⟩
  exact tableRead_congr search listed same.1 same.2 key ts nowUs

/-- A point read returns the record. -/
def Readable (e : Engine) (nowUs : Int) (r : InternalRecord) : Prop :=
  getSync search e.memtables e.tables r.key r.ts nowUs = some r.toRecord

/-- The tables return the record. -/
def InTables (e : Engine) (nowUs : Int) (r : InternalRecord) : Prop :=
  tableRead search e.tables r.key r.ts nowUs = some r.toRecord

/-- The active memtable returns the record. -/
def Buffered (e : Engine) (r : InternalRecord) : Prop :=
  ∃ l, lastVersion e.memtables.active.records r.slot = some l ∧ l.op ≠ .delete ∧ l.toRecord = r.toRecord

/-- A point read returns what the memtable has, and what the tables have where it has nothing. -/
theorem readable_tables {e : Engine} (settled : Settled e) {nowUs : Int} {r : InternalRecord}
    (readable : Readable search e nowUs r) : Buffered e r ∨ InTables search e nowUs r := by
  have got := get_eq e.memtables settled.frozen settled.indexed r.key r.ts nowUs
  unfold Readable at readable
  rw [getSync, got] at readable
  cases last : (lastVersion e.memtables.active.records (toLex (r.key, r.ts))).filter fun r => decide (nowUs ≤ r.expireAt) with
  | none =>
    rw [last] at readable
    exact Or.inr readable
  | some l =>
    rw [last] at readable
    dsimp only at readable
    split_ifs at readable with kept
    exact Or.inl ⟨l, (Option.filter_eq_some_iff.mp last).1, kept, Option.some.inj readable⟩

theorem readable_buffered {e : Engine} (settled : Settled e) {nowUs : Int} {r : InternalRecord} (unexpired : nowUs < r.expireAt)
    (buffered : Buffered e r) : Readable search e nowUs r := by
  obtain ⟨l, last, kept, same⟩ := buffered
  have expires : l.expireAt = r.expireAt := congrArg Record.expireAt same
  have got : e.memtables.get r.key r.ts nowUs = some l := by
    rw [get_eq e.memtables settled.frozen settled.indexed]
    exact Option.filter_eq_some_iff.mpr ⟨last, decide_eq_true (expires ▸ unexpired.le)⟩
  rw [Readable, getSync, got]
  simp only [kept, not_false_eq_true, if_true, same, ne_eq]

/-- Behind a failed flush the reads are those of the tables. -/
theorem readable_failed {e : Engine} (settled : Settled e) (compressedLen : Bytes → Nat) (fault : FlushFault) (flushUs nowUs : Int)
    (writes : Writes e flushUs) (r : InternalRecord) :
    Readable search (tryFlush compressedLen e (some fault) flushUs).2 nowUs r ↔ InTables search e nowUs r := by
  have failed := (tryFlush_error_iff compressedLen e fault flushUs).mpr writes
  rcases tryFlush_cases compressedLen e (some fault) flushUs settled.frozen with ⟨_, ok⟩ | ⟨_, failing, _, left⟩
  · rw [ok] at failed
    cases failed
  · rw [left]
    have nothing : (cleared e.memtables).get r.key r.ts nowUs = none := by
      rw [get_eq (cleared e.memtables) settled.frozen indexed_new]
      rfl
    rw [Readable, getSync, nothing, InTables, ← tableRead_failed search settled.listed compressedLen e.config
      (flushable e.memtables.active.records flushUs) failing r.key r.ts nowUs]
    rfl

end

/-- Of some records, those that can be read and have not expired can still be read. -/
def Kept (records : List InternalRecord) (before after : Engine) (nowUs : Int) : Prop :=
  ∀ search, ∀ r ∈ records, nowUs < r.expireAt → Readable search before nowUs r → Readable search after nowUs r

/-- Of some records, those that the memtable returns and that have not expired are returned by the tables as well. -/
def Backed (records : List InternalRecord) (e : Engine) (nowUs : Int) : Prop :=
  ∀ r ∈ records, nowUs < r.expireAt → Buffered e r → ∀ search, InTables search e nowUs r

theorem kept_iff {e : Engine} (settled : Settled e) (compressedLen : Bytes → Nat) (fault : FlushFault) (flushUs nowUs : Int)
    (writes : Writes e flushUs) (records : List InternalRecord) :
    Kept records e (tryFlush compressedLen e (some fault) flushUs).2 nowUs ↔ Backed records e nowUs := by
  simp only [Kept, readable_failed _ settled compressedLen fault flushUs nowUs writes]
  constructor
  · intro kept r member unexpired buffered search
    exact kept search r member unexpired (readable_buffered search settled unexpired buffered)
  · intro backed search r member unexpired readable
    rcases readable_tables search settled readable with buffered | inside
    · exact backed r member unexpired buffered search
    · exact inside

/-- In every state that writes, flushes, compactions and collections reach, with the
flushes and writes among them that failed: a flush that fails at any of its points takes no
acknowledged record from the reads exactly if the tables have what the memtable has of them. -/
theorem failed_flush_keeps_iff (compressedLen : Bytes → Nat) (config : Config) (segments : List (Nat × Bytes))
    (manifest : Manifest) (files : OMap Nat SstFile) (acked : List InternalRecord) (steps : List Step) (fault : FlushFault)
    (flushUs nowUs : Int) :
    let s := steps.foldl (Live.step compressedLen) ⟨Engine.open config segments manifest files, acked⟩
    ((tryFlush compressedLen s.engine (some fault) flushUs).1 = some fault →
        Kept s.acked s.engine (tryFlush compressedLen s.engine (some fault) flushUs).2 nowUs) ↔
      (Writes s.engine flushUs → Backed s.acked s.engine nowUs) := by
  intro s
  have settled : Settled s.engine := settled_run compressedLen (settled_open config segments manifest files) steps
  rw [tryFlush_error_iff]
  exact imp_congr_right fun writes => kept_iff settled compressedLen fault flushUs nowUs writes s.acked

/-! One put, and a flush that cannot create its directory. -/

def onePut : List InternalRecord := [{ InternalRecord.fromRecord (.new [107] 1 [2]) 1000000 with expireAt := 100 }]

theorem failed_flush_loses :
    let s := Live.step List.length ⟨Engine.open {} [] ⟨[]⟩ ∅, []⟩ (.group [onePut] none 5)
    (tryFlush List.length s.engine (some .createDir) 6).1 = some .createDir ∧
      ¬ Kept s.acked s.engine (tryFlush List.length s.engine (some .createDir) 6).2 6 := by
  refine ⟨by decide +kernel, fun kept => ?_⟩
  have lost := kept .first { InternalRecord.fromRecord (.new [107] 1 [2]) 1000000 with expireAt := 100 }
    (by decide +kernel) (by decide) (by unfold Readable; decide +kernel)
  unfold Readable at lost
  revert lost
  decide +kernel

end FlowDb.FailedFlushes
