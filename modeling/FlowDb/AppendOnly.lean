import FlowDb.BlockLookup
import FlowDb.BlockPruning
import FlowDb.Restarts

/-! An append-only history: every put has a slot of its own and nothing is deleted, as time series
are written. Whatever flushes, collections, crashes and restarts come in between, prefix and key
range scans give back what was acknowledged. -/
namespace FlowDb.AppendOnly
open ByteString OrderedMap Records WalLog Sstable ManifestLog ManifestState BlockIndex BlockMetaIndex TableStore MemoryTables
open EngineOps EngineRuns Reads PointReads Scans MaintenanceSteps Interleaving CrashedWriters CrashRecovery
open BackgroundMaintenance IndexAgreement BlockPruning Restarts

/-! ### Tables sorted by slot -/

section
variable {t : Tables}

/-- An index built anew from the manifest is one of the same tables. -/
theorem sorted_reindexed (sorted : Sorted t) (synced : Synced t) {idx : BlockMetaIndex}
    (built : Built idx t.manifest.state t.activeIds) : Sorted { t with index := idx } :=
  ⟨ok_reindexed sorted.ok synced built, sorted.slots, sorted.fits⟩

theorem sorted_deleteSsts (sorted : Sorted t) (ids : List Nat) : Sorted (deleteSsts t ids) := by
  have kept : ∀ id ∈ (deleteSsts t ids).activeIds, id ∈ t.activeIds ∧ (deleteSsts t ids).file id = t.file id := by
    intro id member
    rw [activeIds_deleteSsts] at member
    obtain ⟨active, stays⟩ := List.mem_filter.mp member
    exact ⟨active, file_deleteSsts t ids id (by simpa using stays)⟩
  refine ⟨ok_deleteSsts t sorted.ok ids, fun id member => ?_, fun id member => ?_⟩
  · obtain ⟨active, same⟩ := kept id member
    rw [same]
    exact sorted.slots id active
  · obtain ⟨active, same⟩ := kept id member
    rw [same]
    exact sorted.fits id active

/-- What holds of the records of each live table and of what a compaction writes holds of each table after it. -/
theorem eachFile_run (config : Config) (compressedLen : Bytes → Nat) {popped : List InternalRecord}
    (P : List InternalRecord → Prop) (old : ∀ id ∈ t.activeIds, P (t.file id).records) (new : P (written popped)) :
    ∀ id ∈ (CompactionRunner.run config compressedLen t popped).activeIds,
      P ((CompactionRunner.run config compressedLen t popped).file id).records := by
  have kept : ∀ id ∈ (deleteSsts t t.candidates).activeIds, P ((deleteSsts t t.candidates).file id).records := by
    intro id member
    rw [activeIds_deleteSsts] at member
    obtain ⟨active, stays⟩ := List.mem_filter.mp member
    rw [file_deleteSsts t t.candidates id (by simpa using stays)]
    exact old id active
  simp only [CompactionRunner.run]
  split_ifs
  · exact old
  · exact old
  · exact kept
  · intro id member
    rw [file_publishSst]
    split_ifs with same
    · rw [SstFile.records, SstStreamWriter.write, chunks_flatten]
      exact new
    · apply kept
      have entry := fun info blocks => (applyEntry_compaction t.manifest.state t.candidates info blocks).2.2.1
      simp only [publishSst, Tables.activeIds, state_append, entry, mem_addActive] at member
      rw [Tables.activeIds, deleteSsts, deletes_state]
      exact member.resolve_left same

/-- A compaction that writes ascending slots leaves sorted tables. -/
theorem sorted_run (sorted : Sorted t) (config : Config) (compressedLen : Bytes → Nat) {popped : List InternalRecord}
    (slots : (written popped).Pairwise fun a b => a.slot ≤ b.slot) (fits : ∀ x ∈ popped, TableFits x) :
    Sorted (CompactionRunner.run config compressedLen t popped) where
  ok := ok_run config compressedLen t sorted.ok popped
  slots := eachFile_run config compressedLen (fun l => l.Pairwise fun a b => a.slot ≤ b.slot) sorted.slots slots
  fits := eachFile_run config compressedLen (fun l => ∀ r ∈ l, TableFits r) sorted.fits fun r member =>
    fits r ((Merge.firsts_sublist _ _ _).subset (List.mem_of_mem_filter member))

/-! ### The blocks a scan visits -/

/-- A filter by key under which no block is left out. -/
def Lossless : KeyFilter → Prop
  | .keyPrefix p => ∃ b ∈ p, b ≠ 255
  | .range _ stop => ∃ b ∈ stop, b ≠ 255
  | .all => False

theorem collected {idx : BlockMetaIndex} {all : List BlockMeta} (byKey : Buckets idx.byKey (·.minKey) all)
    {keyFilter : KeyFilter} (lossless : Lossless keyFilter) {nowUs : Int} {m : BlockMeta} (member : m ∈ all)
    (unexpired : m.isExpired nowUs = false) {k : Bytes} (low : m.minKey ≤ k) (high : k ≤ m.maxKey)
    (matched : keyFilter.matchesKey k = true) : m ∈ idx.collectByKey keyFilter nowUs := by
  cases keyFilter with
  | keyPrefix p =>
    obtain ⟨b, inside, small⟩ := lossless
    have front : p <+: k := List.isPrefixOf_iff_prefix.mp matched
    obtain ⟨above, below⟩ := (increment_increasing inside small).mpr front
    refine List.mem_filter.mpr ⟨(mem_bucket byKey _ m).mpr ⟨member, decide_eq_true (low.trans_lt below)⟩, ?_⟩
    rw [unexpired, BlockMeta.overlapsKeyPrefix, decide_eq_true ⟨low.trans_lt below, above.trans high⟩]
    rfl
  | range start stop =>
    obtain ⟨b, inside, small⟩ := lossless
    obtain ⟨above, below⟩ := of_decide_eq_true matched
    have limit := ((increment_increasing inside small).mpr (List.prefix_refl stop)).2
    refine List.mem_filter.mpr ⟨(mem_bucket byKey _ m).mpr ⟨member, ?_⟩, ?_⟩
    · exact decide_eq_true ((low.trans below).trans_lt limit)
    · rw [unexpired, BlockMeta.overlapsKeyRange, decide_eq_true ⟨low.trans below, above.trans high⟩]
      rfl
  | all => exact lossless.elim

/-- An unexpired put of a table that the filter asks for heads its slot in some block a scan visits. -/
theorem blockHead_exists (sorted : Sorted t) (synced : Synced t) {keyFilter : KeyFilter} (lossless : Lossless keyFilter)
    {nowUs : Int} {y : InternalRecord} (member : y ∈ t.records) (put : y.op = .put) (unexpired : nowUs < y.expireAt)
    (matched : keyFilter.matchesKey y.key = true) :
    ∃ h, BlockHead t ⟨keyFilter, none⟩ nowUs (t.index.collectByKey keyFilter nowUs) y.slot h := by
  obtain ⟨id, active, inside⟩ := List.mem_flatMap.mp member
  obtain ⟨chunk, block, there⟩ := List.mem_flatten.mp inside
  obtain ⟨i, below, rfl⟩ := List.getElem_of_mem block
  have slots := (List.pairwise_flatten.mp (sorted.slots id active)).1 _ (List.getElem_mem below)
  have bounds := SstFormat.blockInfo_bounds i _ slots y there
  have visited : BlockMeta.fromBlockInfo id (blockInfo i (t.file id).blocks[i]) ∈ t.index.collectByKey keyFilter nowUs := by
    refine collected synced.built.byKey lossless ((mem_listed sorted.ok _).mpr ⟨id, active, ?_⟩) ?_ bounds.minKey
      bounds.maxKey matched
    · exact List.mem_map_of_mem (List.mem_mapIdx.mpr ⟨i, below, rfl⟩)
    · exact decide_eq_false (not_lt.mpr (unexpired.le.trans bounds.maxExpire))
  have read : (t.file id).readBlock i = (t.file id).blocks[i].map stored := by
    rw [readBlock_eq _ (sorted.fits id active), List.getElem?_eq_getElem below, Option.getD_some]
  have kept : stored y ∈ blockSource ⟨keyFilter, none⟩ ((t.file id).readBlock i) nowUs := by
    have live : stored y ∈ liveRecords nowUs ((t.file id).readBlock i) :=
      List.mem_filter.mpr ⟨read ▸ List.mem_map_of_mem there, decide_eq_true unexpired⟩
    unfold blockSource
    split_ifs
    · exact List.mem_filter.mpr ⟨live, by simp [put]⟩
    · refine List.mem_map.mpr ⟨stored y, List.mem_filter.mpr ⟨live, ?_⟩, rfl⟩
      simp [put, matched, inTimeRange]
  obtain ⟨h, first⟩ : ∃ h, slotFirst (blockSource ⟨keyFilter, none⟩ ((t.file id).readBlock i) nowUs) y.slot = some h := by
    apply Option.isSome_iff_exists.mp
    exact List.find?_isSome.mpr ⟨stored y, kept, decide_eq_true rfl⟩
  exact ⟨h, _, List.mem_map.mpr ⟨_, visited, rfl⟩, first⟩

end

/-! ### Where records come from -/

/-- Everything in the engine is among the acknowledged records; tables drop the numbers. -/
structure Sourced (acked : List InternalRecord) (e : Engine) : Prop where
  sorted : Sorted e.tables
  memory : ∀ x ∈ e.memtables.active.records, x ∈ acked
  logged : ∀ x ∈ e.wal.logged, x ∈ acked
  tables : ∀ y ∈ e.tables.records, ∃ x ∈ acked, stored x = stored y

section
variable {compressedLen : Bytes → Nat} {acked : List InternalRecord} {e : Engine}

theorem Sourced.mono {acked' : List InternalRecord} (sourced : Sourced acked e) (more : acked ⊆ acked') :
    Sourced acked' e := by
  refine ⟨sourced.sorted, fun x member => more (sourced.memory x member), fun x member => more (sourced.logged x member),
    fun y member => ?_⟩
  obtain ⟨x, known, same⟩ := sourced.tables y member
  exact ⟨x, more known, same⟩

theorem sourced_syncAll (sourced : Sourced acked e) : Sourced acked { e with wal := e.wal.syncAll } :=
  ⟨sourced.sorted, sourced.memory, fun x member => sourced.logged x (logged_syncAll e.wal ▸ member), sourced.tables⟩

theorem sourced_doFlush (ok : EngineOk e) (sourced : Sourced acked e) (nowUs : Int) :
    Sourced acked (e.doFlush compressedLen nowUs) := by
  have none (x : InternalRecord) (member : x ∈ (cleared e.memtables).active.records) : x ∈ acked := by cases member
  rcases doFlush_cases compressedLen e nowUs ok.frozen with ⟨_, same⟩ | ⟨_, dropped⟩ | flushed
  · rwa [same]
  · rw [dropped]
    exact ⟨sourced.sorted, none, sourced.logged, sourced.tables⟩
  · rw [flushed]
    have held (x : InternalRecord) (member : x ∈ flushable e.memtables.active.records nowUs) :
        x ∈ e.memtables.active.records := ((mem_flushable _ nowUs x).mp member).1
    have slots : (flushable e.memtables.active.records nowUs).Pairwise fun a b => a.slot ≤ b.slot :=
      ((List.pairwise_insertionSort byVersion _).imp versionRank_slot_le).filter _
    refine ⟨sorted_addFlushed _ _ sourced.sorted _ slots fun x member => ok.memory x (held x member), none,
      fun x member => ?_, fun y member => ?_⟩
    · rw [logged_syncAll] at member
      exact sourced.logged x (logged_truncateBefore _ _ member)
    · rw [records_addFlushed _ _ _ ok.tables.fresh] at member
      rcases List.mem_append.mp member with old | new
      · exact sourced.tables y old
      · exact ⟨y, sourced.memory y (held y new), rfl⟩

theorem sourced_append (ok : EngineOk e) (sourced : Sourced acked e) {records : List InternalRecord}
    (fits : ∀ x ∈ records, x.Fits) (whole : ∀ x ∈ records, x.dropEmptyEnd = x) :
    Sourced (acked ++ records) (e.processBatchInner records) := by
  have old := sourced.mono (List.subset_append_left acked records)
  refine ⟨old.sorted, fun x member => ?_, fun x member => ?_, old.tables⟩
  · rw [Engine.processBatchInner, (foldl_insert _ _).1] at member
    rcases List.mem_append.mp member with before | new
    · exact old.memory x before
    · exact List.mem_append_right _ new
  · rw [Engine.processBatchInner, WalRuns.writeEncoded_batch ok.log _ _ fits, (List.map_congr_left whole).trans (List.map_id _)]
      at member
    rcases List.mem_append.mp member with before | new
    · exact old.logged x before
    · exact List.mem_append_right _ new

theorem sourced_submit (ok : EngineOk e) (sourced : Sourced acked e) {records : List InternalRecord} (nowUs : Int)
    (fits : ∀ x ∈ assignSeqs e.seqCounter records, x.Fits ∧ TableFits x)
    (whole : ∀ x ∈ assignSeqs e.seqCounter records, x.dropEmptyEnd = x) :
    Sourced (acked ++ assignSeqs e.seqCounter records) (e.submit compressedLen records nowUs) := by
  have counted : EngineOk { e with seqCounter := e.seqCounter + records.length } :=
    ⟨ok.frozen, ok.roomy, ok.log, ok.tables, ok.memory, ok.logged⟩
  have numbered : Sourced acked { e with seqCounter := e.seqCounter + records.length } :=
    ⟨sourced.sorted, sourced.memory, sourced.logged, sourced.tables⟩
  have inserted := engineOk_processBatchInner counted fits
  have appended := sourced_append counted numbered (fun x member => (fits x member).1) whole
  rw [submit_eq compressedLen ok, Engine.flushIfFull, Engine.syncGroup]
  split_ifs
  · exact sourced_doFlush (engineOk_syncAll inserted) (sourced_syncAll appended) nowUs
  · exact sourced_syncAll appended
  · exact sourced_doFlush inserted appended nowUs
  · exact appended

theorem sourced_compact (ok : EngineOk e) (sourced : Sourced acked e) {nowUs : Int} {popped : List InternalRecord}
    (order : HeapOrder e.tables nowUs popped) (ascends : (written popped).Pairwise fun a b => a.slot ≤ b.slot) :
    Sourced acked (withTables e (CompactionRunner.run e.config compressedLen e.tables popped)) := by
  refine ⟨sorted_run sourced.sorted _ _ ascends (tableFits_popped ok.tables order), sourced.memory, sourced.logged,
    fun y member => ?_⟩
  by_cases few : e.tables.manifest.state.sstables.entries.length < e.config.compactionThreshold
  · have same : CompactionRunner.run e.config compressedLen e.tables popped = e.tables := if_pos few
    exact sourced.tables y (same ▸ member)
  · have members := records_run e.config compressedLen e.tables ok.tables.fresh popped (not_lt.mp few) fun none => by
      refine List.eq_nil_iff_forall_not_mem.mpr fun x there => ?_
      obtain ⟨id, candidate, y, inside, _⟩ := (mem_heapOrder ok.tables order x).mp there
      rw [none id candidate] at inside
      cases inside
    rcases (members y).mp member with kept | merged
    · obtain ⟨id, stays, inside⟩ := List.mem_flatMap.mp kept
      exact sourced.tables y (Compaction.mem_records (List.mem_of_mem_filter stays) inside)
    · have there : y ∈ popped := (Merge.firsts_sublist _ _ _).subset (List.mem_of_mem_filter merged)
      obtain ⟨id, candidate, z, inside, _, rfl⟩ := (mem_heapOrder ok.tables order y).mp there
      obtain ⟨x, known, same⟩ := sourced.tables z
        (Compaction.mem_records ((candidates_subperm e.tables).subset candidate) inside)
      exact ⟨x, known, same.trans (stored_stored z).symm⟩

theorem sourced_gc (sourced : Sourced acked e) (nowUs : Int) :
    Sourced acked (withTables e (GcRunner.run e.tables nowUs)) := by
  refine ⟨sorted_deleteSsts sourced.sorted _, sourced.memory, sourced.logged, fun y member => sourced.tables y ?_⟩
  have left : y ∈ (deleteSsts e.tables (expiredSsts e.tables.manifest.state nowUs)).records := member
  rw [records_deleteSsts] at left
  obtain ⟨id, stays, inside⟩ := List.mem_flatMap.mp left
  exact Compaction.mem_records (List.mem_of_mem_filter stays) inside

theorem sourced_reopened (ok : EngineOk e) (synced : Synced e.tables) (sourced : Sourced acked e) (config : Config) :
    Sourced acked (reopened config e) := by
  have built := (built_open config e.wal.files e.tables.manifest e.tables.files synced.consistent).1
  have memory : (reopened config e).memtables.active.records =
      (reopened config e).wal.replayFrom (CrashedWriters.lastFlushedSeq e) := (foldl_insert _ _).1
  have same := logged_reopened ok config
  refine ⟨sorted_reindexed sourced.sorted synced built, fun x member => ?_, fun x member => ?_, sourced.tables⟩
  · rw [memory] at member
    exact sourced.logged x (same ▸ (SequenceNumbers.mem_replayed.mp member).2)
  · exact sourced.logged x (same ▸ member)

end

/-! ### Runs -/

/-- A step of an append-only history: every put has a slot of its own, no number is handed out twice, and a compaction
that starts writes ascending slots. -/
def Appends (w : World) (choice : CrashRecovery.Choice) : Prop :=
  Orderly w choice ∧
    (∀ c nowUs, choice = .command c nowUs → ((w.acked ++ w.numbered c).map InternalRecord.slot).Nodup ∧
      ∀ x ∈ w.numbered c, x.op = .put) ∧
    ∀ nowUs popped, choice = .compact nowUs popped → (written popped).Pairwise fun a b => a.slot ≤ b.slot

structure Appended (w : World) : Prop where
  ready : Ready w
  replayable : Replayable w.engine w.clock
  distinct : (w.acked.map InternalRecord.slot).Nodup
  puts : ∀ x ∈ w.acked, x.op = .put
  sourced : Sourced w.acked w.engine
  carried : ∀ r : InternalRecord, r.op = .put → Carried r w

theorem slot_stored {x y : InternalRecord} (same : stored x = stored y) : x.slot = y.slot := by
  have slots : (stored x).slot = (stored y).slot := congrArg InternalRecord.slot same
  exact slots

/-- Where a slot has but one record, that record leads. -/
theorem leads_of_only {popped : List InternalRecord} {x : InternalRecord} (member : x ∈ popped)
    (only : ∀ y ∈ popped, y.slot = x.slot → y = x) : Leads popped x := by
  obtain ⟨front, back, rfl, first⟩ := List.eq_append_cons_of_mem member
  refine ⟨front, back, rfl, fun last => ?_⟩
  cases end' : front.getLast? with
  | none =>
    rw [Merge.lastKey, end'] at last
    cases last
  | some y =>
    rw [Merge.lastKey, end'] at last
    have inside : y ∈ front := List.mem_of_getLast? end'
    obtain rfl := only y (List.mem_append_left _ inside) (Option.some.inj last)
    exact first inside

/-- A table's record differs from the one it was made of in no field that a read returns. -/
theorem record_stored {x y : InternalRecord} (same : stored x = stored y) :
    x.toRecord = y.toRecord ∧ x.key = y.key ∧ x.expireAt = y.expireAt := by
  have record : (stored x).toRecord = (stored y).toRecord := congrArg InternalRecord.toRecord same
  have key : (stored x).key = (stored y).key := congrArg InternalRecord.key same
  have expireAt : (stored x).expireAt = (stored y).expireAt := congrArg InternalRecord.expireAt same
  exact ⟨record, key, expireAt⟩

theorem shown_put {h : InternalRecord} (put : h.op = .put) : shownAs [] h = some h.toRecord := by
  simp [shownAs, isShown, isTombstoned, put]

/-- What a scan takes of the memtables. -/
theorem mem_memResults_iff {m : MemTables} (frozen : m.frozen = []) {keyFilter : KeyFilter} (lossless : Lossless keyFilter)
    {nowUs : Int} {r : InternalRecord} : r ∈ memResults m ⟨keyFilter, none⟩ nowUs ↔
      r ∈ m.active.records ∧ keyFilter.matchesKey r.key = true ∧ nowUs ≤ r.expireAt := by
  have proper : memFilter ⟨keyFilter, none⟩ = keyFilter := by
    refine if_neg fun all => ?_
    have every : keyFilter = .all := all.1
    rw [every] at lossless
    exact lossless
  rw [Scans.memResults_eq, MemTables.gather, frozen, List.flatMap_nil, List.append_nil, MemTable.queryWhere, proper,
    List.mem_filter]
  simp [inTimeRange]

section
variable {compressedLen : Bytes → Nat} {w : World}

namespace Appended
variable (appended : Appended w)
include appended

theorem eq_of_slot {x y : InternalRecord} (first : x ∈ w.acked) (second : y ∈ w.acked) (same : x.slot = y.slot) : x = y :=
  List.inj_on_of_nodup_map appended.distinct first second same

theorem last {r : InternalRecord} (known : r ∈ w.acked) : lastVersion w.acked r.slot = some r := by
  cases found : lastVersion w.acked r.slot with
  | none => exact absurd rfl ((lastVersion_eq_none _ _).mp found r known)
  | some x =>
    obtain ⟨member, here⟩ := mem_of_lastVersion found
    rw [appended.eq_of_slot member known here]

/-- A merge pops nothing of the slot of `r` but `r`. -/
theorem spares {r : InternalRecord} (put : r.op = .put) (known : r ∈ w.acked) {nowUs : Int} {popped : List InternalRecord}
    (order : HeapOrder w.engine.tables nowUs popped) (merged : stored r ∈ popped) : Spares r w.engine.tables popped := by
  refine Or.inr (Or.inl ⟨put, leads_of_only merged fun y member here => ?_⟩)
  obtain ⟨id, candidate, z, inside, _, rfl⟩ := (mem_heapOrder appended.ready.ok.tables order y).mp member
  obtain ⟨x, source, same⟩ := appended.sourced.tables z
    (Compaction.mem_records ((candidates_subperm w.engine.tables).subset candidate) inside)
  obtain rfl := appended.eq_of_slot source known ((slot_stored same).trans here)
  exact same.symm

end Appended

theorem appended_start (start : Start w) : Appended w := by
  refine ⟨ready_start start, replayable_start start, ?_, ?_, ?_, fun r _ => carried_start start⟩
  · rw [start.acked]
    exact List.nodup_nil
  · rw [start.acked]
    rintro x ⟨⟩
  · obtain ⟨config, _, opened⟩ := start.engine
    have memory : (fresh config).memtables.active.records =
        (fresh config).wal.replayFrom (CrashedWriters.lastFlushedSeq (fresh config)) := (foldl_insert _ _).1
    rw [opened]
    refine ⟨sorted_new config.timeBucketSecs, fun x member => ?_, fun x member => ?_, nofun⟩
    · rw [memory, SequenceNumbers.mem_replayed, logged_fresh] at member
      cases member.2
    · rw [logged_fresh] at member
      cases member

theorem appended_step (appended : Appended w) {choice : CrashRecovery.Choice} (appends : Appends w choice) :
    Appended (w.exec compressedLen choice) := by
  obtain ⟨orderly, fresh, ascends⟩ := appends
  obtain ⟨fitting, whole, ahead⟩ := orderly
  have ready := @ready_step compressedLen w appended.ready _ fitting
  have replayable := @replayable_step compressedLen w appended.ready appended.replayable _ ⟨fitting, whole, ahead⟩
  have ok := appended.ready.ok
  cases choice with
  | command c nowUs =>
    obtain ⟨distinct, puts⟩ := fresh c nowUs rfl
    refine ⟨ready, replayable, distinct, fun x member => ?_, ?_, fun r put => ?_⟩
    · exact (List.mem_append.mp member).elim (appended.puts x) (puts x)
    · show Sourced (w.acked ++ w.numbered c) (c.exec compressedLen w.engine nowUs)
      rcases exec_cases compressedLen c w.engine nowUs with ⟨_, same | flushed⟩ | submitted
      · rw [same]
        exact appended.sourced.mono (List.subset_append_left _ _)
      · rw [flushed]
        exact (sourced_doFlush ok appended.sourced nowUs).mono (List.subset_append_left _ _)
      · rw [submitted]
        exact sourced_submit ok appended.sourced nowUs (fitting.2 c nowUs rfl) (whole c nowUs rfl)
    · have plain : r.op ≠ .deleteRange := by simp [put]
      refine carried_command compressedLen plain (appended.carried r put) ⟨fitting.2 c nowUs rfl, fun member => ?_⟩
      exact appended.replayable.ahead.1.trans_le (mem_assignSeqs _ _ r member).1
  | compact nowUs popped =>
    refine ⟨ready, replayable, appended.distinct, appended.puts, ?_, fun r put => ?_⟩
    · exact sourced_compact ok appended.sourced fitting.1 (ascends nowUs popped rfl)
    · refine carried_compact compressedLen (appended.carried r put) fitting.1 fun _ last merged => ?_
      exact appended.spares put (mem_of_lastVersion last).1 fitting.1 merged
  | gc nowUs =>
    exact ⟨ready, replayable, appended.distinct, appended.puts, sourced_gc appended.sourced nowUs,
      fun r put => carried_gc compressedLen (appended.carried r put)⟩
  | crash config =>
    exact ⟨ready, replayable, appended.distinct, appended.puts,
      sourced_reopened ok appended.ready.synced appended.sourced config,
      fun r put => carried_crash compressedLen (appended.carried r put) fitting.1⟩

theorem appended_reachable (reached : Reachable (World.next compressedLen) Appends Start w) : Appended w := by
  apply reached.invariant
  · exact fun w start => appended_start start
  · intro w choice w' appended appends moved
    obtain rfl := Option.some.inj moved
    exact appended_step appended appends

/-! ### Scans -/

/-- What the scan of a filter should yield: ascending slots, every acknowledged record the filter asks for that has not
expired, and nothing else but records that expire at this very reading. -/
structure Exact (acked : List InternalRecord) (keyFilter : KeyFilter) (nowUs : Int) (out : List Record) : Prop where
  ascending : out.Pairwise fun a b => slotOf a < slotOf b
  complete : ∀ r ∈ acked, keyFilter.matchesKey r.key = true → nowUs < r.expireAt → r.toRecord ∈ out
  sound : ∀ x ∈ out, ∃ r ∈ acked, r.toRecord = x ∧ keyFilter.matchesKey r.key = true ∧ nowUs ≤ r.expireAt

namespace Appended
variable (appended : Appended w) {keyFilter : KeyFilter} {nowUs : Int}
include appended

/-- No put has the number 0, which a record read from a table carries. -/
theorem numbered {query : Query} : ∀ r ∈ memResults w.engine.memtables query nowUs, 0 < r.seq := by
  intro r member
  obtain ⟨past, shape, _⟩ := appended.replayable.mirrored
  have inMemory := mem_memResults appended.ready.ok.frozen member
  have replayed : r ∈ w.engine.wal.replayFrom (CrashedWriters.lastFlushedSeq w.engine) :=
    shape ▸ List.mem_append_right past inMemory
  exact Nat.zero_lt_of_lt (SequenceNumbers.mem_replayed.mp replayed).1

theorem no_tombstones : scanTombstones w.engine.memtables w.engine.tables ⟨keyFilter, none⟩ nowUs
    (w.engine.tables.index.collectByKey keyFilter nowUs) = [] := by
  refine List.eq_nil_iff_forall_not_mem.mpr fun range visible => ?_
  obtain ⟨r, source, op, _⟩ := mem_scanTombstones appended.sourced.sorted rfl visible
  have put : r.op = .put := by
    rcases source with inMemory | inTable
    · exact appended.puts r (appended.sourced.memory r (mem_memResults appended.ready.ok.frozen inMemory))
    · obtain ⟨x, known, same⟩ := appended.sourced.tables r inTable
      have ops : (stored x).op = (stored r).op := congrArg InternalRecord.op same
      exact ops.symm.trans (appended.puts x known)
  simp [put] at op

/-- What a scan may take first of a slot is an acknowledged record of it, shown as it is. -/
theorem seen (lossless : Lossless keyFilter) {slot : Bytes ×ₗ Int} {h : InternalRecord}
    (sees : Sees w.engine.memtables w.engine.tables ⟨keyFilter, none⟩ nowUs
      (w.engine.tables.index.collectByKey keyFilter nowUs) slot h) :
    ∃ r ∈ w.acked, r.slot = slot ∧ shownAs [] h = some r.toRecord ∧ keyFilter.matchesKey r.key = true ∧
      nowUs ≤ r.expireAt := by
  unfold Sees at sees
  cases newest : newestMem w.engine.memtables ⟨keyFilter, none⟩ nowUs slot with
  | some r =>
    simp only [newest] at sees
    subst sees
    have result := (List.mem_insertionSort _).mp (List.mem_of_find?_eq_some newest)
    have known := appended.sourced.memory h (mem_memResults appended.ready.ok.frozen result)
    obtain ⟨matched, live⟩ := (mem_memResults_iff appended.ready.ok.frozen lossless).mp result |>.2
    exact ⟨h, known, slotFirst_slot newest, shown_put (appended.puts h known), matched, live⟩
  | none =>
    simp only [newest] at sees
    obtain ⟨y, inTable, rfl, op, shown, live, _, matched, _⟩ := blockHead_record appended.sourced.sorted rfl sees
    obtain ⟨x, known, same⟩ := appended.sourced.tables y inTable
    have put : (stored y).op = .put := by
      rw [← same]
      exact appended.puts x known
    obtain ⟨record, key, expire⟩ := record_stored same
    refine ⟨x, known, slot_stored same, ?_, ?_, ?_⟩
    · rw [shown_put (op.trans put), shown, record]
    · rw [key]
      exact matched
    · rw [expire]
      exact live.le

/-- An acknowledged record that has not expired is in memory or in a block that the scan visits. -/
theorem found (lossless : Lossless keyFilter) {r : InternalRecord} (known : r ∈ w.acked)
    (matched : keyFilter.matchesKey r.key = true) (unexpired : nowUs < r.expireAt) (clock : w.clock ≤ nowUs) :
    ∃ h, Sees w.engine.memtables w.engine.tables ⟨keyFilter, none⟩ nowUs
      (w.engine.tables.index.collectByKey keyFilter nowUs) r.slot h := by
  unfold Sees
  cases newest : newestMem w.engine.memtables ⟨keyFilter, none⟩ nowUs r.slot with
  | some x => exact ⟨x, rfl⟩
  | none =>
    have carried := appended.carried r (appended.puts r known)
    rcases carried.kept (appended.last known) (clock.trans_lt unexpired) with (inTable | ⟨_, _, inMemory⟩) | ⟨delete, _⟩
    · obtain ⟨y, there, same⟩ := List.mem_map.mp inTable
      have put : (stored y).op = .put := by
        rw [same]
        exact appended.puts r known
      obtain ⟨_, key, expire⟩ := record_stored same
      have live : nowUs < y.expireAt := expire.symm ▸ unexpired
      have asked : keyFilter.matchesKey y.key = true := key.symm ▸ matched
      obtain ⟨h, head⟩ := blockHead_exists appended.sourced.sorted appended.ready.synced lossless there put live asked
      exact ⟨h, slot_stored same ▸ head⟩
    · have result := (mem_memResults_iff appended.ready.ok.frozen lossless).mpr ⟨inMemory, matched, unexpired.le⟩
      have inside := (List.mem_insertionSort byVersion).mpr result
      exact absurd (decide_eq_true rfl) (List.find?_eq_none.mp newest r inside)
    · exact absurd delete (by simp [appended.puts r known])

end Appended

namespace Appended
variable (appended : Appended w) {key : Bytes} {ts nowUs : Int}
include appended

theorem memory_get {r : InternalRecord} (held : w.engine.memtables.get key ts nowUs = some r) :
    r ∈ w.engine.memtables.active.records ∧ r.slot = toLex (key, ts) ∧ nowUs ≤ r.expireAt := by
  rw [get_eq _ appended.ready.ok.frozen appended.ready.indexed] at held
  obtain ⟨last, live⟩ := Option.filter_eq_some_iff.mp held
  obtain ⟨member, here⟩ := mem_of_lastVersion last
  exact ⟨member, here, of_decide_eq_true live⟩

theorem memory_found {r : InternalRecord} (member : r ∈ w.engine.memtables.active.records)
    (slot : r.slot = toLex (key, ts)) (live : nowUs ≤ r.expireAt) : w.engine.memtables.get key ts nowUs ≠ none := by
  rw [get_eq _ appended.ready.ok.frozen appended.ready.indexed, ← slot]
  cases last : lastVersion w.engine.memtables.active.records r.slot with
  | none => exact absurd rfl ((lastVersion_eq_none _ _).mp last r member)
  | some x =>
    obtain ⟨inside, here⟩ := mem_of_lastVersion last
    obtain rfl := appended.eq_of_slot (appended.sourced.memory x inside) (appended.sourced.memory r member) here
    simp [Option.filter, live]

/-- A searched block holds acknowledged records, less their numbers. -/
theorem searched {id : Nat} (active : id ∈ w.engine.tables.activeIds) {q : InternalRecord}
    (inside : q ∈ searchedRecords w.engine.tables key nowUs id) : ∃ r ∈ w.acked, q = stored r := by
  obtain ⟨read, shape, sublist⟩ := searchedRecords_stored appended.sourced.sorted active key nowUs
  obtain ⟨y, there, rfl⟩ := List.mem_map.mp (shape ▸ inside)
  obtain ⟨r, known, same⟩ := appended.sourced.tables y (Compaction.mem_records active (sublist.subset there))
  exact ⟨r, known, same.symm⟩

theorem answered {search : SlotSearch} {id : Nat} {q : InternalRecord}
    (answers : Answers search w.engine.tables key ts nowUs id q) : ∃ r ∈ w.acked, q = stored r ∧ r.slot = toLex (key, ts) ∧
      q ∈ searchedRecords w.engine.tables key nowUs id ∧ id ∈ w.engine.tables.activeIds := by
  have active := (mem_tableIds _ appended.sourced.sorted.ok id).mp answers.live
  obtain ⟨inside, here⟩ := hit_slot search (searchedRecords_sorted appended.sourced.sorted active key nowUs) answers.picked
  obtain ⟨r, known, rfl⟩ := appended.searched active inside
  exact ⟨r, known, rfl, here, inside, active⟩

/-- A table whose searched block holds an acknowledged record that has not expired answers. -/
theorem answers_searched (search : SlotSearch) {id : Nat} (active : id ∈ w.engine.tables.activeIds) {r : InternalRecord}
    (known : r ∈ w.acked) (slot : r.slot = toLex (key, ts)) (unexpired : nowUs < r.expireAt) {q : InternalRecord}
    (inside : q ∈ searchedRecords w.engine.tables key nowUs id) (here : q.slot = r.slot) :
    Answers search w.engine.tables key ts nowUs id (stored r) := by
  have ordered := searchedRecords_sorted appended.sourced.sorted active key nowUs
  cases picked : hit search (searchedRecords w.engine.tables key nowUs id) (toLex (key, ts)) with
  | none => exact absurd (here.trans slot) (hit_none search ordered picked q inside)
  | some x =>
    obtain ⟨there, same⟩ := hit_slot search ordered picked
    obtain ⟨r', known', rfl⟩ := appended.searched active there
    obtain rfl : r' = r := appended.eq_of_slot known' known (same.trans slot.symm)
    have op : (stored r').op ≠ .delete := by simp [appended.puts r' known]
    exact ⟨(mem_tableIds _ appended.sourced.sorted.ok id).mpr active, picked, unexpired, op⟩

end Appended

end

/-! Two sessions of one series. -/

def point (ts : Int) : CrashRecovery.Choice := .command (.writeBatch [.new [97] ts [1]] none) 0

def series : World := [point 1, .command .flush 0, point 2, .crash {}, point 3].foldl (World.exec List.length) CrashRecovery.opened

theorem appends_command {w : World} {c : Command} {nowUs : Int}
    (fits : ∀ x ∈ w.numbered c, (x.Fits ∧ TableFits x) ∧ x.dropEmptyEnd = x ∧ x.op = .put)
    (distinct : ((w.acked ++ w.numbered c).map InternalRecord.slot).Nodup) : Appends w (.command c nowUs) := by
  refine ⟨⟨⟨trivial, ?_⟩, ?_, ?_⟩, ?_, ?_⟩
  · rintro c' nowUs' ⟨⟩ x member
    exact (fits x member).1
  · rintro c' nowUs' ⟨⟩ x member
    exact (fits x member).2.1
  · rintro config ⟨⟩
  · rintro c' nowUs' ⟨⟩
    exact ⟨distinct, fun x member => (fits x member).2.2⟩
  · rintro nowUs' popped ⟨⟩

theorem series_reachable : Reachable (World.next List.length) Appends Start series := by
  simp only [series, List.foldl_cons, List.foldl_nil]
  refine reachable_exec (reachable_exec (reachable_exec (reachable_exec (reachable_exec
    (.start CrashRecovery.opened CrashRecovery.opened_start) ?_) ?_) ?_) ?_) ?_
  · exact appends_command (by decide +kernel) (by decide +kernel)
  · exact appends_command (by decide +kernel) (by decide +kernel)
  · exact appends_command (by decide +kernel) (by decide +kernel)
  · refine ⟨⟨⟨CrashRecovery.roomy, ?_⟩, ?_, ?_⟩, ?_, ?_⟩
    · rintro c nowUs ⟨⟩
    · rintro c nowUs ⟨⟩
    · rintro config ⟨⟩
      unfold SequenceNumbers.Ahead
      decide +kernel
    · rintro c nowUs ⟨⟩
    · rintro nowUs popped ⟨⟩
  · exact appends_command (by decide +kernel) (by decide +kernel)

end FlowDb.AppendOnly
