import FlowDb.FailedFlushes
import FlowDb.TtlArithmetic
import FlowDb.CrashRecovery
import FlowDb.JsonValue
import FlowDb.SstFormat

/-! `Engine::patch_record`: a point read, the two changes, and `write_batch` with the record
as it then is. The write path applies the default TTL, so what is stored need not be what is
returned; and a write that fills the memtable flushes it, with what that does to the reads. -/
namespace FlowDb.PatchRecord
open ByteString OrderedMap Records WalLog Sstable ManifestLog ManifestState BlockIndex BlockMetaIndex TableStore
open MemoryTables Reads PointReads EngineOps MaintenanceSteps IoFailures FailedFlushes TtlArithmetic JsonValue

/-- `binary_search_by` returns the position of a match only. -/
structure ExactSearch extends SlotSearch where
  exact : ∀ records slot i, find records slot = some i → ∃ r, records[i]? = some r ∧ r.slot = slot

/-- The search that returns the first match. -/
def ExactSearch.first : ExactSearch where
  toSlotSearch := SlotSearch.first
  exact records slot i position := by
    obtain ⟨bound, here, _⟩ := List.findIdx?_eq_some_iff_getElem.mp position
    exact ⟨records[i], List.getElem?_eq_getElem bound, by simpa using here⟩

section
variable (search : SlotSearch) (compressedLen : Bytes → Nat)

def patchRecord (e : Engine) (key : String) (ts : Int) (newValue : Option Bytes) (newTtlSecs : Option Nat)
    (nowUs flushUs : Int) : Except SstFormat.FlowError Record × Engine :=
  match getSync search e.memtables e.tables (utf8 key) ts nowUs with
  | none => (.error (.other ("record not found: key=" ++ key ++ ", ts=" ++ toString ts)), e)
  | some existing =>
      let rec' := patch newValue newTtlSecs existing
      (.ok rec', e.writeBatchTtl compressedLen [rec'] none flushUs)

end

/-- The record as the write path stores it. -/
def restamped (e : Engine) (rec : Record) : InternalRecord := writeBatchTtlRecord e.config e.seqCounter none rec

/-! ### What the write leaves -/

theorem syncGroup_wal (e : Engine) (submissions : List (List InternalRecord)) :
    ∃ wal, e.syncGroup submissions = { e with wal } := by
  unfold Engine.syncGroup
  split_ifs
  · exact ⟨_, rfl⟩
  · exact ⟨_, rfl⟩

section
variable (compressedLen : Bytes → Nat) {e : Engine} (settled : Settled e) (roomy : 0 < e.memtables.maxFrozen)
include settled roomy

/-- The write puts the record into the memtable and flushes that if it is full. -/
theorem writeBatchTtl_one (rec : Record) (flushUs : Int) : ∃ wal,
    e.writeBatchTtl compressedLen [rec] none flushUs =
      ({ e with
          wal
          memtables := e.memtables.insert (restamped e rec)
          seqCounter := e.seqCounter + 1 } : Engine).flushIfFull compressedLen flushUs := by
  have calm : ∀ fuel (e' : Engine), e'.memtables = e.memtables → e'.drainBacklog compressedLen flushUs fuel = e' := by
    intro fuel e' same
    cases fuel with
    | zero => rfl
    | succ fuel =>
      have room : e'.memtables.frozenBackpressure = false := by
        simp [MemTables.frozenBackpressure, same, settled.frozen, roomy.ne']
      rw [Engine.drainBacklog, room]
      rfl
  have record : assignSeqs e.seqCounter (putRecords e.config [rec] none) = [restamped e rec] :=
    assignSeqs_putRecords e.config e.seqCounter [rec] none
  simp only [Engine.writeBatchTtl, List.cons_ne_nil, if_false, Engine.submit, record, Engine.processBatchGroup]
  rw [calm _ { e with seqCounter := e.seqCounter + (putRecords e.config [rec] none).length } rfl]
  obtain ⟨wal, synced⟩ := syncGroup_wal ([[restamped e rec]].foldl Engine.processBatchInner
    { e with seqCounter := e.seqCounter + (putRecords e.config [rec] none).length }) [[restamped e rec]]
  rw [synced]
  exact ⟨wal, rfl⟩

end

/-! ### Reads behind the flush -/

section
variable (search : SlotSearch)

/-- What a point read finds in the table that a flush makes of the records. The filter is not
asked where the table is the only one. -/
def flushedRead (config : Config) (t : Tables) (records : List InternalRecord) (key : Bytes) (ts nowUs : Int) :
    Option Record :=
  let sst := flushedSst config records
  if t.index.sstBlocks.entries = [] ∨ sst.2.mayContain key = true then
    (searchedBlock (sst.1.blockInfos.map (BlockMeta.fromBlockInfo t.manifest.state.nextSstId)) key nowUs).bind fun m =>
      findInRecords search (sst.1.readBlock m.blockIdx) key ts nowUs
  else none

/-- A key above all others goes to the end. -/
theorem insertSorted_last {ν : Type} (k : Nat) (v : ν) (l : List (Nat × ν)) (above : ∀ e ∈ l, e.1 < k) :
    insertSorted k v l = l ++ [(k, v)] := by
  induction l with
  | nil => rfl
  | cons e rest ih =>
    have below := above e List.mem_cons_self
    rw [insertSorted, if_neg below.le.not_gt, if_pos below, ih fun x member => above x (List.mem_cons_of_mem e member)]
    rfl

theorem file_addFlushed (config : Config) (compressedLen : Bytes → Nat) (t : Tables) (records : List InternalRecord)
    (id : Nat) : (addFlushed config compressedLen t records).file id =
      if id = t.manifest.state.nextSstId then (flushedSst config records).1 else t.file id :=
  file_publishSst _ _ _ _ _ _

section
variable {t : Tables} (listed : Listed t) (config : Config) (compressedLen : Bytes → Nat)
  (records : List InternalRecord)
include listed

theorem entry_below {e : Nat × List BlockMeta} (member : e ∈ t.index.sstBlocks.entries) :
    e.1 < t.manifest.state.nextSstId :=
  nextSstId_fresh _ _ (listed e.1 e.2 ((get?_eq_some_iff _ _ _).mpr member)).1

theorem entries_addFlushed : (addFlushed config compressedLen t records).index.sstBlocks.entries =
    t.index.sstBlocks.entries ++ [(t.manifest.state.nextSstId,
      (flushedSst config records).1.blockInfos.map (BlockMeta.fromBlockInfo t.manifest.state.nextSstId))] := by
  have blocks : (addFlushed config compressedLen t records).index.sstBlocks =
      t.index.sstBlocks.insert t.manifest.state.nextSstId
        ((flushedSst config records).1.blockInfos.map (BlockMeta.fromBlockInfo t.manifest.state.nextSstId)) :=
    sstBlocks_addSst _ _ _
  rw [blocks]
  exact insertSorted_last _ _ _ fun e member => entry_below listed member

theorem blockSearch_old {e : Nat × List BlockMeta} (member : e ∈ t.index.sstBlocks.entries) (key : Bytes)
    (ts nowUs : Int) {m : BlockMeta} (searched : searchedBlock e.2 key nowUs = some m) :
    blockSearch search (addFlushed config compressedLen t records) key ts nowUs m = blockSearch search t key ts nowUs m := by
  have own := (listed e.1 e.2 ((get?_eq_some_iff _ _ _).mpr member)).2 m (searchedBlock_mem _ _ _ m searched)
  have other : m.sstId ≠ t.manifest.state.nextSstId := own ▸ (entry_below listed member).ne
  rw [blockSearch, blockSearch, file_addFlushed, if_neg other]

theorem bloomMayContain_old {e : Nat × List BlockMeta} (member : e ∈ t.index.sstBlocks.entries) (key : Bytes) :
    (addFlushed config compressedLen t records).index.bloomMayContain e.1 key = t.index.bloomMayContain e.1 key := by
  have other := (entry_below listed member).ne
  simp only [bloomMayContain, addFlushed, publishSst, setBloom, blooms_addSst, get?_insert, sstInfo, if_neg other]

/-- The older tables are asked first, then the one just written. -/
theorem tableRead_addFlushed (key : Bytes) (ts nowUs : Int) :
    tableRead search (addFlushed config compressedLen t records) key ts nowUs =
      (t.index.queryPointInline key nowUs (blockSearch search t key ts nowUs)).or
        (flushedRead search config t records key ts nowUs) := by
  let t' := addFlushed config compressedLen t records
  let metas := (flushedSst config records).1.blockInfos.map (BlockMeta.fromBlockInfo t.manifest.state.nextSstId)
  have entries : t'.index.sstBlocks.entries = t.index.sstBlocks.entries ++ [(t.manifest.state.nextSstId, metas)] :=
    entries_addFlushed listed config compressedLen records
  have older : t.index.sstBlocks.entries.findSome? (fun e => if t'.index.bloomMayContain e.1 key then
      (searchedBlock e.2 key nowUs).bind (blockSearch search t' key ts nowUs) else none) =
      t.index.queryPointInline key nowUs (blockSearch search t key ts nowUs) := by
    rw [queryPointInline]
    refine findSome?_congr fun e member => ?_
    rw [bloomMayContain_old listed config compressedLen records member]
    cases searched : searchedBlock e.2 key nowUs with
    | none => rfl
    | some m =>
      rw [Option.bind_some, Option.bind_some, blockSearch_old search listed config compressedLen records member key ts nowUs searched]
  have newer : (searchedBlock metas key nowUs).bind (blockSearch search t' key ts nowUs) =
      (searchedBlock metas key nowUs).bind fun m =>
        findInRecords search ((flushedSst config records).1.readBlock m.blockIdx) key ts nowUs := by
    cases searched : searchedBlock metas key nowUs with
    | none => rfl
    | some m =>
      obtain ⟨info, -, rfl⟩ := List.mem_map.mp (searchedBlock_mem _ _ _ m searched)
      rw [Option.bind_some, Option.bind_some, blockSearch, file_addFlushed]
      exact congrArg (fun file : SstFile => findInRecords search (file.readBlock info.blockIdx) key ts nowUs) (if_pos rfl)
  have asked : t'.index.bloomMayContain t.manifest.state.nextSstId key =
      (flushedSst config records).2.mayContain key := by
    simp only [t', bloomMayContain, addFlushed, publishSst, setBloom, get?_insert, sstInfo, if_true]
    rfl
  have inline : t'.index.queryPointInline key nowUs (blockSearch search t' key ts nowUs) =
      (t.index.queryPointInline key nowUs (blockSearch search t key ts nowUs)).or
        (if (flushedSst config records).2.mayContain key then
          (searchedBlock metas key nowUs).bind fun m =>
            findInRecords search ((flushedSst config records).1.readBlock m.blockIdx) key ts nowUs
        else none) := by
    rw [← older, queryPointInline, entries, List.findSome?_append, List.findSome?_singleton, asked, newer]
  -- The table just written is asked by the single-table shortcut if it is the only one, else as the last of the loop.
  cases alone : t.index.sstBlocks.entries with
  | nil =>
    have single : t'.index.singleSstPoint key nowUs = searchedBlock metas key nowUs := by
      rw [singleSstPoint, entries, alone]
      rfl
    have nothing : t.index.queryPointInline key nowUs (blockSearch search t key ts nowUs) = none := by
      rw [queryPointInline, alone]
      rfl
    rw [tableRead, single, inline, nothing, flushedRead, if_pos (Or.inl alone), Option.none_or, Option.none_or, ← newer]
    cases searchedBlock metas key nowUs with
    | none => exact ite_self _
    | some m => rfl
  | cons first rest =>
    have single : t'.index.singleSstPoint key nowUs = none := by
      rw [singleSstPoint, entries, alone]
      cases rest <;> rfl
    have more : ¬ t.index.sstBlocks.entries = [] := by
      rw [alone]
      exact List.cons_ne_nil _ _
    rw [tableRead, single, inline, flushedRead]
    simp only [more, false_or]
    rfl

end

/-- What a point read finds once the records of the memtable were flushed. -/
def behind (e : Engine) (records : List InternalRecord) (flushUs readUs : Int) (key : Bytes) (ts : Int) : Option Record :=
  let kept := flushable records flushUs
  if kept = [] then tableRead search e.tables key ts readUs
  else
    (e.tables.index.queryPointInline key readUs (blockSearch search e.tables key ts readUs)).or
      (flushedRead search e.config e.tables kept key ts readUs)

/-- A read behind an empty memtable is one of the tables. -/
theorem getSync_cleared {m : MemTables} (frozen : m.frozen = []) (t : Tables) (key : Bytes) (ts nowUs : Int) :
    getSync search (cleared m) t key ts nowUs = tableRead search t key ts nowUs := by
  have nothing : (cleared m).get key ts nowUs = none := by
    rw [get_eq (cleared m) frozen indexed_new]
    rfl
  rw [getSync, nothing]
  rfl

section
variable (compressedLen : Bytes → Nat) {e : Engine} (settled : Settled e)
include settled

omit settled in
theorem doFlush_eq (frozen : e.memtables.frozen = []) (some_record : e.memtables.active.records ≠ []) (flushUs : Int) :
    e.doFlush compressedLen flushUs =
      if flushable e.memtables.active.records flushUs = [] then { e with memtables := cleared e.memtables }
      else
        { e with
          memtables := cleared e.memtables
          tables := addFlushed e.config compressedLen e.tables (flushable e.memtables.active.records flushUs)
          wal := (e.wal.truncateBefore (lastSeq (flushable e.memtables.active.records flushUs))).syncAll } := by
  obtain ⟨config, wal, ⟨active, _, maxFrozen, limit⟩, tables, seqCounter⟩ := e
  obtain rfl : _ = [] := frozen
  simp only [Engine.doFlush, MemTables.freeze, if_neg some_record, MemTables.popFrozen, List.nil_append]
  rfl

theorem getSync_doFlush (some_record : e.memtables.active.records ≠ []) (flushUs readUs : Int) (key : Bytes) (ts : Int) :
    getSync search (e.doFlush compressedLen flushUs).memtables (e.doFlush compressedLen flushUs).tables key ts readUs =
      behind search e e.memtables.active.records flushUs readUs key ts := by
  rw [doFlush_eq compressedLen settled.frozen some_record, behind]
  split_ifs
  · exact getSync_cleared search settled.frozen e.tables key ts readUs
  · rw [← tableRead_addFlushed search settled.listed]
    exact getSync_cleared search settled.frozen _ key ts readUs

/-- Reads after the write of one record. -/
theorem getSync_written (roomy : 0 < e.memtables.maxFrozen) (rec : Record) (flushUs readUs : Int) (key : Bytes) (ts : Int) :
    getSync search (e.writeBatchTtl compressedLen [rec] none flushUs).memtables
        (e.writeBatchTtl compressedLen [rec] none flushUs).tables key ts readUs =
      if (e.memtables.insert (restamped e rec)).shouldFlush then
        behind search e (e.memtables.active.records ++ [restamped e rec]) flushUs readUs key ts
      else getSync search (e.memtables.insert (restamped e rec)) e.tables key ts readUs := by
  obtain ⟨wal, shape⟩ := writeBatchTtl_one compressedLen settled roomy rec flushUs
  rw [shape, Engine.flushIfFull]
  split_ifs with full
  · have inserted : Settled
        { e with wal, memtables := e.memtables.insert (restamped e rec), seqCounter := e.seqCounter + 1 } :=
      ⟨settled.frozen, indexed_insert _ settled.indexed _, settled.listed⟩
    exact getSync_doFlush search compressedLen inserted (by simp [MemTables.insert, MemTable.insert]) flushUs readUs key ts
  · rfl

/-- What a record put into the memtable does to a read. -/
theorem getSync_insert {w : InternalRecord} (put : w.op = .put) (readUs : Int) (key : Bytes) (ts : Int) :
    getSync search (e.memtables.insert w) e.tables key ts readUs =
      if w.slot = toLex (key, ts) then
        if readUs ≤ w.expireAt then some w.toRecord else tableRead search e.tables key ts readUs
      else getSync search e.memtables e.tables key ts readUs := by
  have found : (e.memtables.insert w).get key ts readUs =
      (lastVersion (e.memtables.active.records ++ [w]) (toLex (key, ts))).filter fun r => decide (readUs ≤ r.expireAt) :=
    get_eq (e.memtables.insert w) settled.frozen (indexed_insert _ settled.indexed w) key ts readUs
  rw [lastVersion_append] at found
  split_ifs with here unexpired
  · rw [if_pos here, Option.filter_some, if_pos (decide_eq_true unexpired)] at found
    rw [getSync, found]
    simp [put]
  · rw [if_pos here, Option.filter_some, if_neg (by simpa using unexpired)] at found
    rw [getSync, found]
    rfl
  · rw [if_neg here, ← get_eq e.memtables settled.frozen settled.indexed] at found
    rw [getSync, found]
    rfl

end

end

/-! ### What is read has the slot asked for -/

section
variable (search : ExactSearch)

theorem findInRecords_slot {records : List InternalRecord} {key : Bytes} {ts nowUs : Int} {rec : Record}
    (found : findInRecords search.toSlotSearch records key ts nowUs = some rec) : rec.key = key ∧ rec.ts = ts := by
  simp only [findInRecords, Option.bind_eq_bind, Option.bind_eq_some_iff] at found
  obtain ⟨i, position, r, held, made⟩ := found
  obtain ⟨x, there, slot⟩ := search.exact records _ i position
  obtain rfl := Option.some.inj (held.symm.trans there)
  split_ifs at made
  obtain rfl := Option.some.inj made
  exact ⟨rfl, congrArg (fun s => (ofLex s).2) slot⟩

theorem tableRead_slot {t : Tables} {key : Bytes} {ts nowUs : Int} {rec : Record}
    (found : tableRead search.toSlotSearch t key ts nowUs = some rec) : rec.key = key ∧ rec.ts = ts := by
  unfold tableRead at found
  split at found
  · exact findInRecords_slot search found
  · obtain ⟨e, _, answer⟩ := List.exists_of_findSome?_eq_some found
    split_ifs at answer
    obtain ⟨m, _, here⟩ := Option.bind_eq_some_iff.mp answer
    exact findInRecords_slot search here

theorem getSync_slot {e : Engine} (settled : Settled e) {key : Bytes} {ts nowUs : Int} {rec : Record}
    (found : getSync search.toSlotSearch e.memtables e.tables key ts nowUs = some rec) : rec.key = key ∧ rec.ts = ts := by
  rw [getSync, get_eq e.memtables settled.frozen settled.indexed] at found
  cases last : (lastVersion e.memtables.active.records (toLex (key, ts))).filter fun r => decide (nowUs ≤ r.expireAt) with
  | none =>
    rw [last] at found
    exact tableRead_slot search found
  | some l =>
    rw [last] at found
    have slot := (mem_of_lastVersion (Option.filter_eq_some_iff.mp last).1).2
    dsimp only at found
    split_ifs at found
    obtain rfl := Option.some.inj found
    exact ⟨congrArg (fun s => (ofLex s).1) slot, congrArg (fun s => (ofLex s).2) slot⟩

end

/-! ### The room for frozen tables -/

section
variable (compressedLen : Bytes → Nat)

theorem maxFrozen_doFlush {e : Engine} (settled : Settled e) (nowUs : Int) :
    (e.doFlush compressedLen nowUs).memtables.maxFrozen = e.memtables.maxFrozen := by
  rcases doFlush_cases compressedLen e nowUs settled.frozen with ⟨_, same⟩ | ⟨_, dropped⟩ | written
  · rw [same]
  · rw [dropped]
    rfl
  · rw [written]
    rfl

theorem maxFrozen_tryFlush {e : Engine} (settled : Settled e) (fault : Option FlushFault) (nowUs : Int) :
    (tryFlush compressedLen e fault nowUs).2.memtables.maxFrozen = e.memtables.maxFrozen := by
  rcases tryFlush_cases compressedLen e fault nowUs settled.frozen with ⟨_, ok⟩ | ⟨_, failed, _, left⟩
  · rw [ok]
    exact maxFrozen_doFlush compressedLen settled nowUs
  · rw [left]
    rfl

theorem maxFrozen_tryDrain {e : Engine} (settled : Settled e) (fault : Option GroupFault) (nowUs : Int) (round fuel : Nat) :
    (tryDrain compressedLen fault nowUs round fuel e).engine.memtables.maxFrozen = e.memtables.maxFrozen := by
  induction fuel generalizing round e with
  | zero => rfl
  | succ fuel ih =>
    have flushed := settled_tryFlush compressedLen settled (fault.bind (·.atRound round)) nowUs
    have room := maxFrozen_tryFlush compressedLen settled (fault.bind (·.atRound round)) nowUs
    rw [tryDrain]
    split_ifs
    · split
      · rename_i failed left shape
        rwa [shape] at room
      · rename_i left shape
        rw [shape] at room flushed
        exact (ih flushed (round + 1)).trans room
    · rfl

theorem maxFrozen_andThen {run : GroupRun} {step : GroupRun → GroupRun}
    (same : (step run).engine.memtables.maxFrozen = run.engine.memtables.maxFrozen) :
    (run.andThen step).engine.memtables.maxFrozen = run.engine.memtables.maxFrozen := by
  unfold GroupRun.andThen
  split
  · rfl
  · exact same

theorem maxFrozen_tryAppends (fault : Option GroupFault) (position : Nat) (submissions : List (List InternalRecord))
    (run : GroupRun) :
    (tryAppends fault position submissions run).engine.memtables.maxFrozen = run.engine.memtables.maxFrozen := by
  induction submissions generalizing position run with
  | nil => rfl
  | cons records rest ih =>
    have next : (tryAppend fault position records run).engine.memtables.maxFrozen = run.engine.memtables.maxFrozen := by
      unfold tryAppend
      split
      · rfl
      · exact CrashRecovery.foldl_insert_maxFrozen records run.engine.memtables
    exact (maxFrozen_andThen (ih (position + 1) _)).trans next

theorem maxFrozen_trySync (fault : Option GroupFault) (submissions : List (List InternalRecord)) (run : GroupRun) :
    (trySync fault submissions run).engine.memtables.maxFrozen = run.engine.memtables.maxFrozen := by
  unfold trySync
  split_ifs
  · split <;> rfl
  · rfl

theorem maxFrozen_tryFlushIfFull (fault : Option GroupFault) (nowUs : Int) {run : GroupRun}
    (settled : Settled run.engine) :
    (tryFlushIfFull compressedLen fault nowUs run).engine.memtables.maxFrozen = run.engine.memtables.maxFrozen := by
  have room := maxFrozen_tryFlush compressedLen settled (fault.bind (·.atFlush)) nowUs
  unfold tryFlushIfFull
  split_ifs
  · split <;> rename_i shape <;> rwa [shape] at room
  · rfl

theorem maxFrozen_tryGroup {e : Engine} (settled : Settled e) (fault : Option GroupFault) (nowUs : Int)
    (submissions : List (List InternalRecord)) :
    (tryGroup compressedLen fault nowUs submissions e).engine.memtables.maxFrozen = e.memtables.maxFrozen := by
  have drained := settled_tryDrain compressedLen settled fault nowUs 0 (e.memtables.frozen.length + 2)
  have appended := settled_andThen drained (settled_tryAppends fault 0 submissions drained)
  have synced := settled_andThen appended (settled_trySync fault submissions appended)
  rw [tryGroup, maxFrozen_andThen (maxFrozen_tryFlushIfFull compressedLen fault nowUs synced),
    maxFrozen_andThen (maxFrozen_trySync fault submissions _), maxFrozen_andThen (maxFrozen_tryAppends fault 0 submissions _),
    maxFrozen_tryDrain compressedLen settled]

theorem maxFrozen_run {s : Live} (settled : Settled s.engine) (steps : List Step) :
    (steps.foldl (Live.step compressedLen) s).engine.memtables.maxFrozen = s.engine.memtables.maxFrozen := by
  induction steps generalizing s with
  | nil => rfl
  | cons step rest ih =>
    refine (ih (settled_step compressedLen settled step)).trans ?_
    cases step with
    | group submissions fault nowUs => exact maxFrozen_tryGroup compressedLen settled fault nowUs submissions
    | flush fault nowUs => exact maxFrozen_tryFlush compressedLen settled fault nowUs
    | compact popped => rfl
    | gc nowUs => rfl

end

/-! ### What a patch stores -/

section
variable (search : SlotSearch)

/-- A read of the slot returns the record, and every other slot reads as before. -/
def Stores (before after : Engine) (rec : Record) (key : Bytes) (ts readUs : Int) : Prop :=
  (readUs < rec.expireAt → getSync search after.memtables after.tables key ts readUs = some rec) ∧
    ∀ key' ts', (key', ts') ≠ (key, ts) →
      getSync search after.memtables after.tables key' ts' readUs = getSync search before.memtables before.tables key' ts' readUs

/-- The default TTL gives the record the expiry that it has, or one that has passed while the
tables have the record anyway. -/
def KeepsExpiry (e : Engine) (rec : Record) (key : Bytes) (ts readUs : Int) : Prop :=
  expireAtOf e.config.defaultTtlSecs rec = rec.expireAt ∨
    (expireAtOf e.config.defaultTtlSecs rec < readUs ∧ tableRead search e.tables key ts readUs = some rec)

/-- Older tables and the flushed one give the record for its slot, and for each other slot what
memtable and tables gave. -/
def KeepsReads (e : Engine) (rec : Record) (key : Bytes) (ts flushUs readUs : Int) : Prop :=
  let records := e.memtables.active.records ++ [restamped e rec]
  (readUs < rec.expireAt → behind search e records flushUs readUs key ts = some rec) ∧
    ∀ key' ts', (key', ts') ≠ (key, ts) →
      behind search e records flushUs readUs key' ts' = getSync search e.memtables e.tables key' ts' readUs

theorem stores_iff (compressedLen : Bytes → Nat) {e : Engine} (settled : Settled e) (roomy : 0 < e.memtables.maxFrozen)
    (rec : Record) (flushUs readUs : Int) :
    Stores search e (e.writeBatchTtl compressedLen [rec] none flushUs) rec rec.key rec.ts readUs ↔
      if (e.memtables.insert (restamped e rec)).shouldFlush then
        KeepsReads search e rec rec.key rec.ts flushUs readUs
      else readUs < rec.expireAt → KeepsExpiry search e rec rec.key rec.ts readUs := by
  simp only [Stores, getSync_written search compressedLen settled roomy]
  split_ifs with full
  · exact Iff.rfl
  · have put : (restamped e rec).op = .put := rfl
    have slot : (restamped e rec).slot = toLex (rec.key, rec.ts) := rfl
    have others : ∀ key' ts', (key', ts') ≠ (rec.key, rec.ts) →
        getSync search (e.memtables.insert (restamped e rec)) e.tables key' ts' readUs =
          getSync search e.memtables e.tables key' ts' readUs := by
      intro key' ts' other
      rw [getSync_insert search settled put, if_neg (by rw [slot]; exact fun same => other (toLex.injective same.symm))]
    rw [and_iff_left others]
    refine imp_congr_right fun unexpired => ?_
    rw [getSync_insert search settled put, if_pos slot]
    have expires : (restamped e rec).expireAt = expireAtOf e.config.defaultTtlSecs rec := rfl
    have returned : (restamped e rec).toRecord = { rec with expireAt := expireAtOf e.config.defaultTtlSecs rec } := rfl
    rw [expires, returned, KeepsExpiry]
    split_ifs with read
    · rw [or_iff_left fun passed => absurd passed.1 (not_lt.mpr read), Option.some.injEq]
      exact ⟨congrArg Record.expireAt, fun same => by rw [same]⟩
    · rw [or_iff_right fun same => read (unexpired.le.trans_eq same.symm), and_iff_right (not_le.mp read)]

end

/-- In every state that writes, flushes, compactions and collections reach under an accepted
configuration: what `patch_record` returns is stored exactly where the default TTL leaves its
expiry and a flush in the call leaves the reads. -/
theorem patch_record_iff (search : ExactSearch) (compressedLen : Bytes → Nat) (config : Config) (blockCacheCapacityMb : Nat)
    (valid : validate config blockCacheCapacityMb = .ok ()) (segments : List (Nat × Bytes)) (manifest : Manifest)
    (files : OMap Nat SstFile) (steps : List Step) (key : String) (ts : Int) (newValue : Option Bytes)
    (newTtlSecs : Option Nat) (nowUs flushUs readUs : Int) (rec : Record) :
    let e := (steps.foldl (Live.step compressedLen) ⟨Engine.open config segments manifest files, []⟩).engine
    let call := patchRecord search.toSlotSearch compressedLen e key ts newValue newTtlSecs nowUs flushUs
    call.1 = .ok rec →
      (Stores search.toSlotSearch e call.2 rec (utf8 key) ts readUs ↔
        if (e.memtables.insert (restamped e rec)).shouldFlush then
          KeepsReads search.toSlotSearch e rec (utf8 key) ts flushUs readUs
        else readUs < rec.expireAt → KeepsExpiry search.toSlotSearch e rec (utf8 key) ts readUs) := by
  intro e call ok
  have settled : Settled e := settled_run compressedLen (settled_open config segments manifest files) steps
  have room : e.memtables.maxFrozen = config.maxFrozenMemtables :=
    (maxFrozen_run compressedLen (settled_open config segments manifest files) steps).trans
      (CrashRecovery.foldl_insert_maxFrozen _ _)
  have roomy : 0 < e.memtables.maxFrozen := room ▸ (accepted_of_validate valid).maxFrozen
  simp only [call, patchRecord] at ok ⊢
  cases existing : getSync search.toSlotSearch e.memtables e.tables (utf8 key) ts nowUs with
  | none =>
    rw [existing] at ok
    cases ok
  | some found =>
    rw [existing] at ok
    obtain rfl := Except.ok.inj ok
    obtain ⟨sameKey, sameTs⟩ := getSync_slot search settled existing
    have slot : (patch newValue newTtlSecs found).key = utf8 key ∧ (patch newValue newTtlSecs found).ts = ts := by
      cases newTtlSecs <;> exact ⟨sameKey, sameTs⟩
    have stores := stores_iff search.toSlotSearch compressedLen settled roomy (patch newValue newTtlSecs found) flushUs readUs
    rw [slot.1, slot.2] at stores
    exact stores

/-! A put that is patched to expire after a minute, without and with a default TTL of an hour. -/

def patchedPut : List InternalRecord :=
  [{ InternalRecord.fromRecord (.new (utf8 "k") 1 [2]) 1000000 with expireAt := 100000000 }]

def minute : Record := ⟨utf8 "k", 1, 60000001, [3]⟩

/-- The engine with the put, under a configuration. -/
def putEngine (config : Config) : Engine :=
  ([Step.group [patchedPut] none 5].foldl (Live.step List.length) ⟨Engine.open config [] ⟨[]⟩ ∅, []⟩).engine

theorem patch_record_minute :
    Stores SlotSearch.first (putEngine {})
      (patchRecord SlotSearch.first List.length (putEngine {}) "k" 1 (some [3]) (some 60) 6 7).2 minute (utf8 "k") 1 8 := by
  refine (patch_record_iff .first List.length {} 128 rfl [] ⟨[]⟩ ∅ [.group [patchedPut] none 5] "k" 1 (some [3]) (some 60)
    6 7 8 minute (by decide +kernel)).mpr ?_
  split_ifs with full
  · exact absurd full (by decide +kernel)
  · exact fun _ => .inl rfl

def hourly : Config := { defaultTtlSecs := some 3600 }

theorem patch_record_restamped :
    (patchRecord SlotSearch.first List.length (putEngine hourly) "k" 1 (some [3]) (some 60) 6 7).1 = .ok minute ∧
      ¬ Stores SlotSearch.first (putEngine hourly)
        (patchRecord SlotSearch.first List.length (putEngine hourly) "k" 1 (some [3]) (some 60) 6 7).2 minute (utf8 "k") 1 8 := by
  refine ⟨by decide +kernel, fun stores => ?_⟩
  have read := stores.1 (by decide)
  revert read
  decide +kernel

end FlowDb.PatchRecord
