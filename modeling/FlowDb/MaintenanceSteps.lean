import FlowDb.EngineOps

/-! `do_flush` (write_worker.rs), `CompactionRunner::run` (compaction.rs) and
`GcRunner::run` (gc.rs) taken apart where another thread can come in between: a
step is one critical section of a lock or one operation on a table file. Taken
without interruption the steps are the operations of the sequential engine. -/
namespace FlowDb.MaintenanceSteps
open ByteString OrderedMap Records WalLog Sstable ManifestLog ManifestState BlockIndex BlockMetaIndex TableStore
open MemoryTables EngineOps

/-- Where a flush stands; it carries the records it has taken out of the memtables. -/
inductive FlushPc where
  | idle
  | frozen
  | popped (allRecords : List InternalRecord)
  | numbered (sstId : Nat) (allRecords : List InternalRecord)
  | written (sstId : Nat) (allRecords : List InternalRecord)
  | registered (sstId : Nat) (allRecords : List InternalRecord)
  | indexed (allRecords : List InternalRecord)
  deriving DecidableEq, Repr

/-- Where a garbage collection stands, and the tables it has still to delete. -/
inductive GcPc where
  | idle
  | deleting (toDelete : List Nat)
  | unindexed (sstId : Nat) (toDelete : List Nat)
  | unregistered (sstId : Nat) (toDelete : List Nat)
  deriving DecidableEq, Repr

/-- Where a compaction stands. The last three states are those of a run whose
merge kept no record. -/
inductive CompactPc where
  | idle
  | checked
  | listed (sstIds : List Nat)
  | opening (candidates todo : List Nat) (opened : List SstFile)
  | merged (candidates : List Nat) (records : List InternalRecord)
  | numbered (newSstId : Nat) (candidates : List Nat) (records : List InternalRecord) (estimated : Nat)
  | written (newSstId : Nat) (candidates : List Nat) (records : List InternalRecord) (estimated : Nat)
  | swapped (newSstId : Nat) (candidates : List Nat) (records : List InternalRecord) (estimated : Nat)
  | removing (todo : List Nat)
  | dropping (todo : List Nat)
  | unlinked (sstId : Nat) (todo : List Nat)
  | unindexed (sstId : Nat) (todo : List Nat)
  deriving DecidableEq, Repr

/-- The table file the next step removes. -/
def unlinks : CompactPc → Option Nat
  | .removing (id :: _) => some id
  | .dropping (id :: _) => some id
  | _ => none

/-- The table side of a shared engine. -/
def withTables (e : Engine) (tables : Tables) : Engine := { e with tables }

def withFile (t : Tables) (id : Nat) (file : SstFile) : Tables := { t with files := t.files.insert id file }

def withoutFile (t : Tables) (id : Nat) : Tables := { t with files := t.files.erase id }

section
variable (config : Config) (compressedLen : Bytes → Nat)

def flushedSst (allRecords : List InternalRecord) : SstFile × Bloom.BloomFilter :=
  SstWriter.write allRecords config.blockSize config.bloomBitsPerKey

def flushedInfo (sstId : Nat) (allRecords : List InternalRecord) : SstInfo :=
  let sst := flushedSst config allRecords
  sstInfo sstId (sst.1.totalBytes compressedLen) allRecords sst.2

/-- One step of `do_flush` by the holder of the worker lock. -/
def flushStep (nowUs : Int) (e : Engine) : FlushPc → FlushPc × Engine
  | .idle => (.frozen, { e with memtables := e.memtables.freeze })
  | .frozen =>
      match e.memtables.popFrozen with
      | none => (.idle, e)
      | some (frozen, memtables) =>
          let allRecords := frozen.records.filter fun r => decide (nowUs < r.expireAt)
          if allRecords = [] then (.idle, { e with memtables }) else (.popped allRecords, { e with memtables })
  | .popped allRecords => (.numbered e.tables.manifest.state.nextSstId allRecords, e)
  | .numbered sstId allRecords =>
      (.written sstId allRecords, withTables e (withFile e.tables sstId (flushedSst e.config allRecords).1))
  | .written sstId allRecords =>
      let sst := flushedSst e.config allRecords
      let m := e.tables.manifest.append
        (.flush (lastSeq allRecords) (flushedInfo e.config compressedLen sstId allRecords) sst.1.blockInfos)
      (.registered sstId allRecords,
        withTables e { e.tables with manifest := m.append (.checkpoint (lastSeq allRecords)) })
  | .registered sstId allRecords =>
      let sst := flushedSst e.config allRecords
      (.indexed allRecords,
        withTables e { e.tables with index := (e.tables.index.addSst sstId sst.1.blockInfos).setBloom sstId sst.2 })
  | .indexed allRecords => (.idle, { e with wal := (e.wal.truncateBefore (lastSeq allRecords)).syncAll })

/-- One step of `GcRunner::run`. -/
def gcStep (nowUs : Int) (t : Tables) : GcPc → GcPc × Tables
  | .idle => (.deleting (expiredSsts t.manifest.state nowUs), t)
  | .deleting [] => (.idle, t)
  | .deleting (id :: rest) => (.unindexed id rest, { t with index := t.index.removeSst id })
  | .unindexed id rest => (.unregistered id rest, { t with manifest := t.manifest.append (.gcDeleteSst id) })
  | .unregistered id rest => (.deleting rest, withoutFile t id)

def compactedSst (records : List InternalRecord) (estimated : Nat) : SstFile × Bloom.BloomFilter :=
  SstStreamWriter.write records config.blockSize estimated config.bloomBitsPerKey

/-- One step of `CompactionRunner::run`. The files opened do not change any more,
so the merge is taken in one step with the last of them: `popped` is the order in
which its heap pops the records. -/
def compactStep (popped : List InternalRecord) (t : Tables) : CompactPc → CompactPc × Tables
  | .idle => if t.manifest.state.sstables.entries.length < config.compactionThreshold then (.idle, t) else (.checked, t)
  | .checked =>
      let sstIds := t.activeIds.insertionSort (· ≤ ·)
      if sstIds = [] then (.idle, t) else (.listed sstIds, t)
  | .listed sstIds =>
      let candidates := pickCompactionCandidates t.manifest.state sstIds
      if candidates = [] then (.idle, t) else (.opening candidates candidates [], t)
  | .opening candidates (id :: todo) opened => (.opening candidates todo (opened ++ [t.file id]), t)
  | .opening candidates [] opened =>
      if opened.all fun file => file.blocks.isEmpty then (.idle, t) else (.merged candidates (written popped), t)
  | .merged candidates records =>
      let state := t.manifest.state
      let estimated := (candidates.filterMap fun id => (state.sstables.get? id).map (·.records)).sum
      (.numbered state.nextSstId candidates records estimated, t)
  | .numbered newSstId candidates records estimated =>
      if records = [] then (.dropping candidates, t)
      else (.written newSstId candidates records estimated,
        withFile t newSstId (compactedSst config records estimated).1)
  | .written newSstId candidates records estimated =>
      let sst := compactedSst config records estimated
      (.swapped newSstId candidates records estimated,
        { t with index := ((candidates.foldl removeSst t.index).addSst newSstId sst.1.blockInfos).setBloom newSstId sst.2 })
  | .swapped newSstId candidates records estimated =>
      let sst := compactedSst config records estimated
      let info := sstInfo newSstId (sst.1.totalBytes compressedLen) records sst.2
      (.removing candidates,
        { t with manifest := t.manifest.append (.compaction candidates [info] [(newSstId, sst.1.blockInfos)]) })
  | .removing (id :: todo) => (.removing todo, withoutFile t id)
  | .removing [] => (.idle, t)
  | .dropping (id :: todo) => (.unlinked id todo, withoutFile t id)
  | .unlinked id todo => (.unindexed id todo, { t with index := t.index.removeSst id })
  | .unindexed id todo => (.dropping todo, { t with manifest := t.manifest.append (.gcDeleteSst id) })
  | .dropping [] => (.idle, t)

end

/-! Without interruption. -/

/-- Some number of steps leads from `s` to `s'`. -/
def LeadsTo {State : Type} (step : State → State) (s s' : State) : Prop := ∃ n, step^[n] s = s'

theorem LeadsTo.refl {State : Type} (step : State → State) (s : State) : LeadsTo step s s := ⟨0, rfl⟩

theorem LeadsTo.step {State : Type} {step : State → State} {s s' : State} (later : LeadsTo step (step s) s') :
    LeadsTo step s s' := by
  obtain ⟨n, same⟩ := later
  exact ⟨n + 1, by rwa [Function.iterate_succ_apply]⟩

theorem LeadsTo.trans {State : Type} {step : State → State} {a b c : State} (first : LeadsTo step a b)
    (second : LeadsTo step b c) : LeadsTo step a c := by
  obtain ⟨n, rfl⟩ := first
  obtain ⟨m, rfl⟩ := second
  exact ⟨m + n, Function.iterate_add_apply step m n a⟩

section
variable (config : Config) (compressedLen : Bytes → Nat) (nowUs : Int)

theorem flush_undisturbed (e : Engine) :
    LeadsTo (fun s : FlushPc × Engine => flushStep compressedLen nowUs s.2 s.1)
      (flushStep compressedLen nowUs e .idle) (.idle, e.doFlush compressedLen nowUs) := by
  cases popped : e.memtables.freeze.popFrozen with
  | none => exact ⟨1, by simp [flushStep, Engine.doFlush, popped]⟩
  | some pair =>
    obtain ⟨frozen, memtables⟩ := pair
    by_cases nothing : (frozen.records.filter fun r => decide (nowUs < r.expireAt)) = []
    · refine ⟨1, ?_⟩
      simp only [Function.iterate_succ, Function.iterate_zero, Function.comp_apply, id, flushStep, popped, nothing,
        if_true, Engine.doFlush]
    · refine ⟨6, ?_⟩
      simp only [Function.iterate_succ, Function.iterate_zero, Function.comp_apply, id, flushStep, popped, nothing,
        if_false, Engine.doFlush, withTables, withFile, addFlushed, publishSst, flushedInfo, flushedSst]
      rfl

/-- A file that stays may as well be added after the others are gone. -/
theorem filter_insert_kept (files : OMap Nat SstFile) (id : Nat) (file : SstFile) (keep : Nat → SstFile → Bool)
    (kept : keep id file = true) : (files.insert id file).filter keep = (files.filter keep).insert id file := by
  apply ext_get?
  intro k
  rw [get?_filter, get?_insert, get?_insert, get?_filter]
  by_cases same : k = id
  · subst same
    simp [Option.filter, kept]
  · simp [same]

theorem withoutFiles (t : Tables) (ids : List Nat) :
    ids.foldl withoutFile t = { t with files := t.files.filter fun id _ => decide (id ∉ ids) } := by
  induction ids generalizing t with
  | nil =>
    have all : t.files.filter (fun id _ => decide (id ∉ ([] : List Nat))) = t.files := by
      apply ext_get?
      intro k
      rw [get?_filter]
      cases t.files.get? k <;> simp [Option.filter]
    rw [all]
    rfl
  | cons id rest ih =>
    rw [List.foldl_cons, ih]
    have files : (t.files.erase id).filter (fun k _ => decide (k ∉ rest)) =
        t.files.filter fun k _ => decide (k ∉ id :: rest) := by
      apply ext_get?
      intro k
      rw [get?_filter, get?_erase, get?_filter]
      by_cases same : k = id
      · cases t.files.get? k <;> simp [same, Option.filter]
      · cases t.files.get? k <;> simp [same, Option.filter]
    simp only [withoutFile, files]

/-- Dropping one table and then the rest is dropping them all. -/
theorem deleteSsts_cons (t : Tables) (id : Nat) (rest : List Nat) :
    deleteSsts ({ withoutFile t id with index := t.index.removeSst id, manifest := t.manifest.append (.gcDeleteSst id) })
      rest = deleteSsts t (id :: rest) := by
  have files := congrArg Tables.files (withoutFiles (withoutFile t id) rest)
  have all := congrArg Tables.files (withoutFiles t (id :: rest))
  rw [List.foldl_cons, files] at all
  simp only [deleteSsts, withoutFile, List.foldl_cons, Tables.mk.injEq, true_and]
  exact all

/-- A loop that drops one table after another, in whatever places its steps are. -/
theorem deleting_leads {Pc : Type} {step : Pc × Tables → Pc × Tables} {deleting : List Nat → Pc} {idle : Pc}
    (last : ∀ t, LeadsTo step (deleting [], t) (idle, t))
    (round : ∀ id rest t, LeadsTo step (deleting (id :: rest), t) (deleting rest,
      { withoutFile t id with index := t.index.removeSst id, manifest := t.manifest.append (.gcDeleteSst id) }))
    (todo : List Nat) (t : Tables) : LeadsTo step (deleting todo, t) (idle, deleteSsts t todo) := by
  induction todo generalizing t with
  | nil =>
    have nothing : deleteSsts t [] = t := (withoutFiles t []).symm
    rw [nothing]
    exact last t
  | cons id rest ih =>
    have done := ih { withoutFile t id with index := t.index.removeSst id, manifest := t.manifest.append (.gcDeleteSst id) }
    rw [deleteSsts_cons] at done
    exact LeadsTo.trans (round id rest t) done

theorem gc_deleting (toDelete : List Nat) (t : Tables) :
    LeadsTo (fun s : GcPc × Tables => gcStep nowUs s.2 s.1) (.deleting toDelete, t) (.idle, deleteSsts t toDelete) :=
  deleting_leads (fun _ => ⟨1, rfl⟩) (fun _ _ _ => ⟨3, rfl⟩) toDelete t

theorem gc_undisturbed (t : Tables) :
    LeadsTo (fun s : GcPc × Tables => gcStep nowUs s.2 s.1) (gcStep nowUs t .idle) (.idle, GcRunner.run t nowUs) :=
  gc_deleting nowUs (expiredSsts t.manifest.state nowUs) t

section
variable (popped : List InternalRecord)

/-- A compaction and its tables, one step at a time. -/
def compactOn (s : CompactPc × Tables) : CompactPc × Tables := compactStep config compressedLen popped s.2 s.1

theorem compact_opening (candidates todo : List Nat) (opened : List SstFile) (t : Tables) :
    LeadsTo (compactOn config compressedLen popped) (.opening candidates todo opened, t)
      (.opening candidates [] (opened ++ todo.map t.file), t) := by
  induction todo generalizing opened with
  | nil =>
    rw [List.map_nil, List.append_nil]
    exact LeadsTo.refl _ _
  | cons id rest ih =>
    have later := ih (opened ++ [t.file id])
    rw [List.append_assoc] at later
    exact LeadsTo.step later

theorem compact_removing (todo : List Nat) (t : Tables) :
    LeadsTo (compactOn config compressedLen popped) (.removing todo, t) (.idle, todo.foldl withoutFile t) := by
  induction todo generalizing t with
  | nil => exact ⟨1, rfl⟩
  | cons id rest ih => exact LeadsTo.step (ih (withoutFile t id))

theorem compact_dropping (todo : List Nat) (t : Tables) :
    LeadsTo (compactOn config compressedLen popped) (.dropping todo, t) (.idle, deleteSsts t todo) :=
  deleting_leads (fun _ => ⟨1, rfl⟩) (fun _ _ _ => ⟨3, rfl⟩) todo t

theorem candidates_registered (state : ManifestState) (ids : List Nat) :
    ∀ id ∈ pickCompactionCandidates state ids, (state.sstables.get? id).isSome := by
  have sized := (List.perm_insertionSort byBytes (ids.filterMap fun id =>
    (state.sstables.get? id).map fun info => (id, info.bytes))).map Prod.fst
  rw [sized_ids] at sized
  have known : ∀ l : List (Nat × Nat), l.Sublist ((ids.filterMap fun id =>
      (state.sstables.get? id).map fun info => (id, info.bytes)).insertionSort byBytes) →
      ∀ id ∈ l.map Prod.fst, (state.sstables.get? id).isSome := by
    intro l inside id member
    have there := sized.subset ((inside.map Prod.fst).subset member)
    exact (List.mem_filter.mp there).2
  simp only [pickCompactionCandidates]
  split_ifs
  · exact known _ (List.Sublist.refl _)
  · exact known _ (List.takeWhile_sublist _)
  · exact known _ (List.take_sublist _ _)

theorem no_candidates (state : ManifestState) : pickCompactionCandidates state [] = [] := by
  simp [pickCompactionCandidates]

theorem compact_checked (t : Tables) (enough : ¬ t.manifest.state.sstables.entries.length < config.compactionThreshold) :
    compactStep config compressedLen popped t .idle = (.checked, t) := if_neg enough

theorem compact_opened (t : Tables) (some : t.candidates ≠ []) :
    LeadsTo (compactOn config compressedLen popped) (.checked, t)
      (.opening t.candidates [] (t.candidates.map t.file), t) := by
  have listed : t.activeIds.insertionSort (· ≤ ·) ≠ [] := by
    intro empty
    exact some (by rw [Tables.candidates, empty, no_candidates])
  have ids : compactOn config compressedLen popped (.checked, t) = (.listed (t.activeIds.insertionSort (· ≤ ·)), t) := by
    simp only [compactOn, compactStep, if_neg listed]
  have picked : compactOn config compressedLen popped (.listed (t.activeIds.insertionSort (· ≤ ·)), t) =
      (.opening t.candidates t.candidates [], t) := by
    have chosen : pickCompactionCandidates t.manifest.state (t.activeIds.insertionSort (· ≤ ·)) ≠ [] := some
    simp only [compactOn, compactStep, if_neg chosen]
    rfl
  have opened := compact_opening config compressedLen popped t.candidates t.candidates [] t
  rw [List.nil_append] at opened
  exact LeadsTo.trans ⟨2, by simp only [Function.iterate_succ, Function.iterate_zero, Function.comp_apply, id, ids,
    picked]⟩ opened

/-- Candidates without a block end the run. -/
theorem compact_nothing (t : Tables) (none : t.candidates.all fun id => (t.file id).blocks.isEmpty) :
    LeadsTo (compactOn config compressedLen popped) (.checked, t) (.idle, t) := by
  by_cases empty : t.candidates = []
  · by_cases listed : t.activeIds.insertionSort (· ≤ ·) = []
    · exact ⟨1, by simp only [Function.iterate_succ, Function.iterate_zero, Function.comp_apply, id, compactOn,
        compactStep, listed, if_true]⟩
    · refine ⟨2, ?_⟩
      have chosen : pickCompactionCandidates t.manifest.state (t.activeIds.insertionSort (· ≤ ·)) = [] := empty
      simp only [Function.iterate_succ, Function.iterate_zero, Function.comp_apply, id, compactOn, compactStep,
        if_neg listed, chosen, if_true]
  · refine (compact_opened config compressedLen popped t empty).trans ⟨1, ?_⟩
    have closed : (t.candidates.map t.file).all fun file => file.blocks.isEmpty := by simpa using none
    simp only [Function.iterate_succ, Function.iterate_zero, Function.comp_apply, id, compactOn, compactStep, closed,
      if_true]

theorem compact_merged (t : Tables) (some : ¬ (t.candidates.all fun id => (t.file id).blocks.isEmpty) = true) :
    LeadsTo (compactOn config compressedLen popped) (.checked, t) (.merged t.candidates (written popped), t) := by
  have nonempty : t.candidates ≠ [] := by
    intro empty
    exact some (by rw [empty]; rfl)
  refine (compact_opened config compressedLen popped t nonempty).trans ⟨1, ?_⟩
  have blocks : ¬ ((t.candidates.map t.file).all fun file => file.blocks.isEmpty) = true := by simpa using some
  simp only [Function.iterate_succ, Function.iterate_zero, Function.comp_apply, id, compactOn, compactStep, if_neg blocks]

theorem compact_undisturbed (t : Tables) :
    LeadsTo (compactOn config compressedLen popped) (compactStep config compressedLen popped t .idle)
      (.idle, CompactionRunner.run config compressedLen t popped) := by
  simp only [CompactionRunner.run]
  split_ifs with few none empty
  · rw [compactStep, if_pos few]
    exact LeadsTo.refl _ _
  · rw [compact_checked config compressedLen popped t few]
    exact compact_nothing config compressedLen popped t none
  · rw [compact_checked config compressedLen popped t few]
    refine (compact_merged config compressedLen popped t none).trans
      (LeadsTo.trans ⟨2, ?_⟩ (compact_dropping config compressedLen popped t.candidates t))
    simp only [Function.iterate_succ, Function.iterate_zero, Function.comp_apply, id, compactOn, compactStep, empty,
      if_true]
  · rw [compact_checked config compressedLen popped t few]
    refine (compact_merged config compressedLen popped t none).trans ?_
    have fresh : t.manifest.state.nextSstId ∉ t.candidates := by
      intro inside
      have registered := candidates_registered _ _ _ inside
      rw [get?_nextSstId] at registered
      cases registered
    have numbered : compactOn config compressedLen popped (.merged t.candidates (written popped), t) =
        (.numbered t.manifest.state.nextSstId t.candidates (written popped)
          (t.candidates.filterMap fun id => (t.manifest.state.sstables.get? id).map (·.records)).sum, t) := rfl
    refine LeadsTo.step ?_
    rw [numbered]
    refine LeadsTo.step ?_
    simp only [compactOn, compactStep, if_neg empty]
    refine LeadsTo.trans ⟨2, rfl⟩ ((compact_removing config compressedLen popped t.candidates _).trans ⟨0, ?_⟩)
    rw [withoutFiles]
    exact congrArg (CompactPc.idle, ·) (congrArg (Tables.mk _ _) (filter_insert_kept _ _ _ _ (by simpa using fresh)))

end

end

end FlowDb.MaintenanceSteps
