import FlowDb.WalLog
import FlowDb.MemoryTables
import FlowDb.TableStore

/-! The engine of engine.rs with its write worker (write_worker.rs), used by one
thread at a time and without I/O errors. A clock reading is an argument of each
operation that takes one. -/
namespace FlowDb.EngineOps
open ByteString OrderedMap Records WalCodec WalLog Sstable ManifestLog BlockIndex BlockMetaIndex TableStore MemoryTables

structure Engine where
  config : Config
  wal : Wal
  memtables : MemTables
  tables : Tables
  seqCounter : Nat
  deriving DecidableEq

def saturate (n : Int) : Int := max (-2 ^ 63) (min i64Max n)

/-- `as i64` on an unsigned 64-bit number. -/
def u64AsI64 (n : Nat) : Int := if n < 2 ^ 63 then n else n - 2 ^ 64

def expireAtOf (ttl : Option Nat) (rec : Record) : Int :=
  match ttl with
  | some t => saturate (rec.ts + saturate (u64AsI64 t * 1000000))
  | none => rec.expireAt

/-- `Engine::open` on a directory with these log segments, manifest and table files.
Persisted filters are taken to carry the current hash version. -/
def Engine.open (config : Config) (segments : List (Nat × Bytes)) (manifest : Manifest)
    (files : OMap Nat SstFile) : Engine :=
  let wal := Wal.openDir segments config.walSegmentSizeMb
  let state := manifest.state
  let index := state.activeSstIds.foldl (fun idx id =>
    match state.sstables.get? id, state.blockInfos.get? id with
    | some info, some blocks =>
        let idx := idx.addSst id blocks
        match info.bloom with
        | some bloom => idx.setBloom id bloom
        | none => idx
    | _, _ => idx) (BlockMetaIndex.new config.timeBucketSecs)
  let memtables := (wal.replayFrom state.lastFlushedSeq).foldl MemTables.insert
    (MemTables.new config.maxFrozenMemtables (config.memtableSizeMb * 1024 * 1024))
  { config, wal, memtables
    tables := ⟨manifest, index, files⟩
    seqCounter := (state.sstables.keys.foldl max 0 + 1) * 1000000 }

section
variable (compressedLen : Bytes → Nat)

/-- `WriteWorker::do_flush`. -/
def Engine.doFlush (e : Engine) (nowUs : Int) : Engine :=
  match e.memtables.freeze.popFrozen with
  | none => { e with memtables := e.memtables.freeze }
  | some (frozen, memtables) =>
      let allRecords := frozen.records.filter fun r => decide (nowUs < r.expireAt)
      if allRecords = [] then { e with memtables }
      else
        { e with
          memtables
          tables := addFlushed e.config compressedLen e.tables allRecords
          wal := (e.wal.truncateBefore (lastSeq allRecords)).syncAll }

/-- What a flush writes of a table's records. -/
def flushable (records : List InternalRecord) (nowUs : Int) : List InternalRecord :=
  (records.insertionSort byVersion).filter fun r => decide (nowUs < r.expireAt)

/-- The memtables without the records of the active one. -/
def cleared (m : MemTables) : MemTables := { m with active := .new }

/-- With no backlog a flush has nothing to do, drops expired records only, or writes a table. -/
theorem doFlush_cases (e : Engine) (nowUs : Int) (frozen : e.memtables.frozen = []) :
    (e.memtables.active.records = [] ∧ e.doFlush compressedLen nowUs = e) ∨
      (flushable e.memtables.active.records nowUs = [] ∧
        e.doFlush compressedLen nowUs = { e with memtables := cleared e.memtables }) ∨
      e.doFlush compressedLen nowUs =
        { e with
          memtables := cleared e.memtables
          tables := addFlushed e.config compressedLen e.tables (flushable e.memtables.active.records nowUs)
          wal := (e.wal.truncateBefore (lastSeq (flushable e.memtables.active.records nowUs))).syncAll } := by
  obtain ⟨config, wal, ⟨active, _, maxFrozen, limit⟩, tables, seqCounter⟩ := e
  obtain rfl : _ = [] := frozen
  by_cases empty : active.records = []
  · exact Or.inl ⟨empty, by simp [Engine.doFlush, MemTables.freeze, MemTables.popFrozen, empty]⟩
  · refine Or.inr ?_
    by_cases expired : flushable active.records nowUs = []
    · exact Or.inl ⟨expired, by
        simp_all [Engine.doFlush, MemTables.freeze, MemTables.popFrozen, MemTable.sort, flushable, cleared]⟩
    · exact Or.inr (by
        simp_all [Engine.doFlush, MemTables.freeze, MemTables.popFrozen, MemTable.sort, flushable, cleared])

def batchMaxSeq (records : List InternalRecord) : Nat := (records.getLast?.map (·.seq)).getD 0

def Engine.processBatchInner (e : Engine) (records : List InternalRecord) : Engine :=
  { e with
    wal := e.wal.writeEncoded (encodeBatch records) (batchMaxSeq records)
    memtables := records.foldl MemTables.insert e.memtables }

-- Each flush takes a table off the backlog; `max_frozen_memtables` is at least 1.
def Engine.drainBacklog (nowUs : Int) : Nat → Engine → Engine
  | 0, e => e
  | fuel + 1, e =>
      if e.memtables.frozenBackpressure then Engine.drainBacklog nowUs fuel (e.doFlush compressedLen nowUs) else e

-- One fsync for the group, if any of its batches asks for it.
def Engine.syncGroup (e : Engine) (submissions : List (List InternalRecord)) : Engine :=
  if e.config.walSyncMode = .always ∧ submissions ≠ [] then { e with wal := e.wal.syncAll } else e

def Engine.flushIfFull (e : Engine) (nowUs : Int) : Engine :=
  if e.memtables.shouldFlush then e.doFlush compressedLen nowUs else e

/-- `WriteWorker::process_batch_group`. -/
def Engine.processBatchGroup (e : Engine) (submissions : List (List InternalRecord)) (nowUs : Int) : Engine :=
  let e := Engine.drainBacklog compressedLen nowUs (e.memtables.frozen.length + 2) e
  let e := submissions.foldl Engine.processBatchInner e
  (e.syncGroup submissions).flushIfFull compressedLen nowUs

/-- Takes sequence numbers for `records` and submits them as one batch. -/
def Engine.submit (e : Engine) (records : List InternalRecord) (nowUs : Int) : Engine :=
  ({ e with seqCounter := e.seqCounter + records.length }).processBatchGroup compressedLen
    [assignSeqs e.seqCounter records] nowUs

def putRecords (config : Config) (batch : List Record) (ttlSecs : Option Nat) : List InternalRecord :=
  batch.map fun rec =>
    { InternalRecord.fromRecord rec 0 with expireAt := expireAtOf (ttlSecs.or config.defaultTtlSecs) rec }

def Engine.writeBatchTtl (e : Engine) (batch : List Record) (ttlSecs : Option Nat) (nowUs : Int) : Engine :=
  if batch = [] then e else e.submit compressedLen (putRecords e.config batch ttlSecs) nowUs

def Engine.deleteBatch (e : Engine) (keysTs : List (Bytes × Int)) (nowUs : Int) : Engine :=
  if keysTs = [] then e else e.submit compressedLen (keysTs.map fun k => InternalRecord.delete k.1 k.2 0) nowUs

def Engine.deleteRange (e : Engine) (startKey endKey : Bytes) (nowUs : Int) : Engine :=
  e.submit compressedLen [InternalRecord.deleteRange startKey endKey 0] nowUs

end

end FlowDb.EngineOps
