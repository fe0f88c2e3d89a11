import FlowDb.MaintenanceSteps

/-! `do_flush` and `process_batch_group` of write_worker.rs where the I/O fails. The
error a call meets is given; `?` makes it the result of the call and leaves in the
engine what the steps before it did. -/
namespace FlowDb.IoFailures
open ByteString Records WalLog Sstable ManifestLog ManifestState TableStore MemoryTables EngineOps MaintenanceSteps

/-- The places where an error ends `do_flush`. -/
inductive FlushFault where
  | createDir
  | write
  | rename
  | openDir
  | syncDir
  | flushEntry
  | checkpointEntry
  deriving DecidableEq, Repr

section
variable (compressedLen : Bytes → Nat)

-- The temporary file is no table's. A failed append leaves the manifest's state: what
-- of its line is in the log matters to a later open only.
def failedTables (config : Config) (t : Tables) (allRecords : List InternalRecord) : FlushFault → Tables
  | .createDir | .write | .rename => t
  | .openDir | .syncDir | .flushEntry => withFile t t.manifest.state.nextSstId (flushedSst config allRecords).1
  | .checkpointEntry =>
      let sstId := t.manifest.state.nextSstId
      let sst := flushedSst config allRecords
      { withFile t sstId sst.1 with
        manifest := t.manifest.append
          (.flush (lastSeq allRecords) (flushedInfo config compressedLen sstId allRecords) sst.1.blockInfos) }

/-- `do_flush`: its error, and the engine it leaves. -/
def tryFlush (e : Engine) (fault : Option FlushFault) (nowUs : Int) : Option FlushFault × Engine :=
  match e.memtables.freeze.popFrozen with
  | none => (none, { e with memtables := e.memtables.freeze })
  | some (frozen, memtables) =>
      let allRecords := frozen.records.filter fun r => decide (nowUs < r.expireAt)
      if allRecords = [] then (none, { e with memtables })
      else
        match fault with
        | none => (none, e.doFlush compressedLen nowUs)
        | some fault => (some fault, { e with memtables, tables := failedTables compressedLen e.config e.tables allRecords fault })

/-- A flush that has something to write. -/
def Writes (e : Engine) (nowUs : Int) : Prop :=
  ∃ frozen memtables, e.memtables.freeze.popFrozen = some (frozen, memtables) ∧ ∃ r ∈ frozen.records, nowUs < r.expireAt

theorem tryFlush_none (e : Engine) (nowUs : Int) :
    tryFlush compressedLen e none nowUs = (none, e.doFlush compressedLen nowUs) := by
  cases popped : e.memtables.freeze.popFrozen with
  | none => simp only [tryFlush, Engine.doFlush, popped]
  | some pair =>
    simp only [tryFlush, Engine.doFlush, popped]
    split_ifs <;> rfl

theorem writes_iff {e : Engine} {frozen : MemTable} {memtables : MemTables}
    (popped : e.memtables.freeze.popFrozen = some (frozen, memtables)) (nowUs : Int) :
    Writes e nowUs ↔ (frozen.records.filter fun r => decide (nowUs < r.expireAt)) ≠ [] := by
  have unexpired : (frozen.records.filter fun r => decide (nowUs < r.expireAt)) ≠ [] ↔
      ∃ r ∈ frozen.records, nowUs < r.expireAt := by simp
  rw [unexpired]
  constructor
  · rintro ⟨_, _, same, something⟩
    obtain ⟨rfl, rfl⟩ := Prod.mk.inj (Option.some.inj (popped.symm.trans same))
    exact something
  · exact fun something => ⟨frozen, memtables, popped, something⟩

/-- Only a flush that writes can fail. -/
theorem tryFlush_error_iff (e : Engine) (fault : FlushFault) (nowUs : Int) :
    (tryFlush compressedLen e (some fault) nowUs).1 = some fault ↔ Writes e nowUs := by
  cases popped : e.memtables.freeze.popFrozen with
  | none => simp [tryFlush, Writes, popped]
  | some pair =>
    simp only [tryFlush, popped, writes_iff popped]
    split_ifs with nothing
    · simp [nothing]
    · simp [nothing]

theorem tryFlush_ok_iff (e : Engine) (fault : Option FlushFault) (nowUs : Int) :
    (tryFlush compressedLen e fault nowUs).1 = none ↔ Writes e nowUs → fault = none := by
  cases fault with
  | none => simp [tryFlush_none]
  | some fault =>
    cases popped : e.memtables.freeze.popFrozen with
    | none => simp [tryFlush, Writes, popped]
    | some pair =>
      simp only [tryFlush, popped, writes_iff popped]
      split_ifs with nothing
      · simp [nothing]
      · simp [nothing]

/-- Without a backlog a flush that writes fails or succeeds, and clears the active table either way. -/
theorem tryFlush_cases (e : Engine) (fault : Option FlushFault) (nowUs : Int) (frozen : e.memtables.frozen = []) :
    (flushable e.memtables.active.records nowUs = [] ∨ fault = none) ∧
        tryFlush compressedLen e fault nowUs = (none, e.doFlush compressedLen nowUs) ∨
      flushable e.memtables.active.records nowUs ≠ [] ∧ ∃ failed, fault = some failed ∧
        tryFlush compressedLen e fault nowUs = (some failed,
          { e with
            memtables := cleared e.memtables
            tables := failedTables compressedLen e.config e.tables (flushable e.memtables.active.records nowUs) failed }) := by
  cases fault with
  | none => exact Or.inl ⟨Or.inr rfl, tryFlush_none compressedLen e nowUs⟩
  | some failed =>
    obtain ⟨config, wal, ⟨active, _, maxFrozen, limit⟩, tables, seqCounter⟩ := e
    obtain rfl : _ = [] := frozen
    by_cases empty : active.records = []
    · refine Or.inl ⟨Or.inl ?_, ?_⟩
      · simp [flushable, empty]
      · simp [tryFlush, Engine.doFlush, MemTables.freeze, MemTables.popFrozen, empty]
    · by_cases expired : flushable active.records nowUs = []
      · refine Or.inl ⟨Or.inl expired, ?_⟩
        simp_all [tryFlush, Engine.doFlush, MemTables.freeze, MemTables.popFrozen, MemTable.sort, flushable]
      · refine Or.inr ⟨expired, failed, rfl, ?_⟩
        simp_all [tryFlush, MemTables.freeze, MemTables.popFrozen, MemTable.sort, flushable, cleared]

/-- A failed flush leaves what the steps up to its error leave. -/
theorem failed_flush_stops (e : Engine) (fault : FlushFault) (nowUs : Int) (writes : Writes e nowUs)
    (early : fault ≠ .checkpointEntry) : ∃ pc, LeadsTo (fun s : FlushPc × Engine => flushStep compressedLen nowUs s.2 s.1)
      (.idle, e) (pc, (tryFlush compressedLen e (some fault) nowUs).2) := by
  obtain ⟨frozen, memtables, popped, _⟩ := id writes
  have something := (writes_iff popped nowUs).mp writes
  generalize kept : (frozen.records.filter fun r => decide (nowUs < r.expireAt)) = allRecords at something
  have numbered : LeadsTo (fun s : FlushPc × Engine => flushStep compressedLen nowUs s.2 s.1) (.idle, e)
      (.numbered e.tables.manifest.state.nextSstId allRecords, { e with memtables }) := by
    refine ⟨3, ?_⟩
    simp only [Function.iterate_succ, Function.iterate_zero, Function.comp_apply, id, flushStep, popped, kept, something, if_false]
  cases fault with
  | createDir | write | rename =>
    refine ⟨.numbered e.tables.manifest.state.nextSstId allRecords, numbered.trans ⟨0, ?_⟩⟩
    simp only [tryFlush, popped, kept, something, if_false, failedTables]
    rfl
  | openDir | syncDir | flushEntry =>
    refine ⟨.written e.tables.manifest.state.nextSstId allRecords, numbered.trans ⟨1, ?_⟩⟩
    simp only [tryFlush, popped, kept, something, if_false, failedTables]
    rfl
  | checkpointEntry => exact absurd rfl early

end

/-! ### Groups -/

/-- The first error of a call of `process_batch_group`. A failed append or fsync leaves
some part of the log written. -/
inductive GroupFault where
  | backpressure (round : Nat) (fault : FlushFault)
  | append (position : Nat) (left : Wal)
  | sync (left : Wal)
  | flush (fault : FlushFault)
  deriving DecidableEq

namespace GroupFault

def atRound (round : Nat) : GroupFault → Option FlushFault
  | .backpressure n fault => if n = round then some fault else none
  | _ => none

def atAppend (position : Nat) : GroupFault → Option Wal
  | .append n left => if n = position then some left else none
  | _ => none

def atSync : GroupFault → Option Wal
  | .sync left => some left
  | _ => none

def atFlush : GroupFault → Option FlushFault
  | .flush fault => some fault
  | _ => none

end GroupFault

/-- A call under way: its error, the engine, and as bookkeeping the records that have
entered the active table, each with the position of its submission. -/
structure GroupRun where
  error : Option GroupFault
  engine : Engine
  inserted : List (Nat × InternalRecord)
  deriving DecidableEq

/-- The `?` behind a step. -/
def GroupRun.andThen (run : GroupRun) (step : GroupRun → GroupRun) : GroupRun :=
  match run.error with
  | some _ => run
  | none => step run

theorem andThen_ok {run : GroupRun} (ok : run.error = none) (step : GroupRun → GroupRun) : run.andThen step = step run := by
  rw [GroupRun.andThen, ok]

theorem andThen_error {run : GroupRun} (failed : run.error ≠ none) (step : GroupRun → GroupRun) : run.andThen step = run := by
  obtain ⟨fault, error⟩ := Option.ne_none_iff_exists'.mp failed
  rw [GroupRun.andThen, error]

section
variable (compressedLen : Bytes → Nat) (fault : Option GroupFault) (nowUs : Int)

def tryDrain : Nat → Nat → Engine → GroupRun
  | _, 0, e => ⟨none, e, []⟩
  | round, fuel + 1, e =>
      if e.memtables.frozenBackpressure then
        match tryFlush compressedLen e (fault.bind (·.atRound round)) nowUs with
        | (some _, e) => ⟨fault, e, []⟩
        | (none, e) => tryDrain (round + 1) fuel e
      else ⟨none, e, []⟩

def tryAppend (position : Nat) (records : List InternalRecord) (run : GroupRun) : GroupRun :=
  match fault.bind (·.atAppend position) with
  | some left => { run with error := fault, engine := { run.engine with wal := left } }
  | none =>
      { run with
        engine := run.engine.processBatchInner records
        inserted := run.inserted ++ records.map (Prod.mk position) }

def tryAppends : Nat → List (List InternalRecord) → GroupRun → GroupRun
  | _, [], run => run
  | position, records :: rest, run => (tryAppend fault position records run).andThen (tryAppends (position + 1) rest)

def trySync (submissions : List (List InternalRecord)) (run : GroupRun) : GroupRun :=
  if run.engine.config.walSyncMode = .always ∧ submissions ≠ [] then
    match fault.bind (·.atSync) with
    | some left => { run with error := fault, engine := { run.engine with wal := left } }
    | none => { run with engine := { run.engine with wal := run.engine.wal.syncAll } }
  else run

def tryFlushIfFull (run : GroupRun) : GroupRun :=
  if run.engine.memtables.shouldFlush then
    match tryFlush compressedLen run.engine (fault.bind (·.atFlush)) nowUs with
    | (some _, e) => { run with error := fault, engine := e }
    | (none, e) => { run with engine := e }
  else run

/-- `process_batch_group`. -/
def tryGroup (submissions : List (List InternalRecord)) (e : Engine) : GroupRun :=
  (((tryDrain compressedLen fault nowUs 0 (e.memtables.frozen.length + 2) e).andThen
    (tryAppends fault 0 submissions)).andThen (trySync fault submissions)).andThen (tryFlushIfFull compressedLen fault nowUs)

end

section
variable (compressedLen : Bytes → Nat) (nowUs : Int)

theorem tryDrain_none (round fuel : Nat) (e : Engine) :
    tryDrain compressedLen none nowUs round fuel e = ⟨none, e.drainBacklog compressedLen nowUs fuel, []⟩ := by
  induction fuel generalizing round e with
  | zero => rfl
  | succ fuel ih =>
    rw [tryDrain, Engine.drainBacklog, Option.bind_none, tryFlush_none]
    split_ifs
    · exact ih (round + 1) _
    · rfl

theorem tryAppends_none (position : Nat) (submissions : List (List InternalRecord)) (run : GroupRun) (ok : run.error = none) :
    (tryAppends none position submissions run).error = none ∧
      (tryAppends none position submissions run).engine = submissions.foldl Engine.processBatchInner run.engine := by
  induction submissions generalizing position run with
  | nil => exact ⟨ok, rfl⟩
  | cons records rest ih =>
    have next : (tryAppend none position records run).error = none := ok
    rw [tryAppends, andThen_ok next]
    exact ih (position + 1) _ next

/-- Without an error a group is what it is where the I/O does not fail. -/
theorem tryGroup_none (submissions : List (List InternalRecord)) (e : Engine) :
    (tryGroup compressedLen none nowUs submissions e).error = none ∧
      (tryGroup compressedLen none nowUs submissions e).engine = e.processBatchGroup compressedLen submissions nowUs := by
  obtain ⟨appended, inserted⟩ := tryAppends_none 0 submissions
    ⟨none, e.drainBacklog compressedLen nowUs (e.memtables.frozen.length + 2), []⟩ rfl
  rw [tryGroup, tryDrain_none, @andThen_ok ⟨none, _, []⟩ rfl, Engine.processBatchGroup]
  dsimp only at inserted ⊢
  rw [← inserted]
  generalize tryAppends none 0 submissions
    ⟨none, e.drainBacklog compressedLen nowUs (e.memtables.frozen.length + 2), []⟩ = run at appended ⊢
  have synced : (trySync none submissions run).error = none ∧
      (trySync none submissions run).engine = run.engine.syncGroup submissions := by
    unfold trySync Engine.syncGroup
    split_ifs
    · exact ⟨appended, rfl⟩
    · exact ⟨appended, rfl⟩
  have flushed : (tryFlushIfFull compressedLen none nowUs (trySync none submissions run)).error = none ∧
      (tryFlushIfFull compressedLen none nowUs (trySync none submissions run)).engine =
        (run.engine.syncGroup submissions).flushIfFull compressedLen nowUs := by
    rw [tryFlushIfFull, synced.2, Option.bind_none, tryFlush_none, Engine.flushIfFull]
    split_ifs
    · exact ⟨synced.1, rfl⟩
    · exact synced
  rw [andThen_ok appended, andThen_ok synced.1]
  exact flushed

end

end FlowDb.IoFailures
