import FlowDb.BlockIndex
import FlowDb.Merge
import Mathlib.Data.List.Sort

/-! The table side of the engine: manifest, block index and table files, and the
three things that change them, the table part of do_flush (write_worker.rs),
`CompactionRunner::run` (compaction.rs) and `GcRunner::run` (gc.rs). -/
namespace FlowDb.TableStore
open ByteString OrderedMap Records Bloom Sstable ManifestLog ManifestState BlockIndex BlockMetaIndex

structure Tables where
  manifest : Manifest
  index : BlockMetaIndex
  files : OMap Nat SstFile
  deriving DecidableEq

namespace Tables

def new (timeBucketSecs : Nat) : Tables := ⟨⟨[]⟩, .new timeBucketSecs, ∅⟩

/-- The file of a table; readers pass over a missing file as over an empty one. -/
def file (t : Tables) (id : Nat) : SstFile := (t.files.get? id).getD ⟨[]⟩

def activeIds (t : Tables) : List Nat := t.manifest.state.activeSstIds

/-- The records of all live tables, as written. -/
def records (t : Tables) : List InternalRecord := t.activeIds.flatMap fun id => (t.file id).records

def metas (t : Tables) (id : Nat) : List BlockMeta := (t.file id).blockInfos.map (BlockMeta.fromBlockInfo id)

end Tables

open Tables

def sstInfo (id bytes : Nat) (records : List InternalRecord) (bloom : BloomFilter) : SstInfo :=
  { id
    records := records.length
    bytes
    minTs := minimum (records.map (·.ts))
    maxTs := maximum (records.map (·.ts))
    minExpire := minimum (records.map (·.expireAt))
    maxExpire := maximum (records.map (·.expireAt))
    bloom := some bloom }

/-- A written table enters the manifest by `m`, then the index. -/
def publishSst (t : Tables) (m : Manifest) (info : SstInfo) (file : SstFile) (bloom : BloomFilter) : Tables :=
  { manifest := m
    index := (t.index.addSst info.id file.blockInfos).setBloom info.id bloom
    files := t.files.insert info.id file }

def lastSeq (records : List InternalRecord) : Nat := (records.map (·.seq)).foldl max 0

section
variable (config : Config) (compressedLen : Bytes → Nat)

/-- do_flush behind its `retain`: the table is written, published in the manifest and indexed. -/
def addFlushed (t : Tables) (allRecords : List InternalRecord) : Tables :=
  let sst := SstWriter.write allRecords config.blockSize config.bloomBitsPerKey
  let info := sstInfo t.manifest.state.nextSstId (sst.1.totalBytes compressedLen) allRecords sst.2
  let m := t.manifest.append (.flush (lastSeq allRecords) info sst.1.blockInfos)
  publishSst t (m.append (.checkpoint (lastSeq allRecords))) info sst.1 sst.2

/-! ### Compaction -/

def byBytes (a b : Nat × Nat) : Prop := a.2 ≤ b.2

instance : DecidableRel byBytes := fun a b => inferInstanceAs (Decidable (a.2 ≤ b.2))

def pickCompactionCandidates (state : ManifestState) (allIds : List Nat) : List Nat :=
  let sized := (allIds.filterMap fun id =>
    (state.sstables.get? id).map fun info => (id, info.bytes)).insertionSort byBytes
  if sized.length < 2 then sized.map Prod.fst
  else
    let minSize := (sized.head?.map Prod.snd).getD 0
    let threshold := max minSize 1 * 4
    let candidates := sized.takeWhile fun s => decide (s.2 ≤ threshold)
    if candidates.length ≥ 2 then candidates.map Prod.fst else (sized.take 2).map Prod.fst

def Tables.candidates (t : Tables) : List Nat :=
  pickCompactionCandidates t.manifest.state (t.activeIds.insertionSort (· ≤ ·))

def bySlotDesc (a b : InternalRecord) : Prop := b.slot ≤ a.slot

instance : DecidableRel bySlotDesc := fun a b => inferInstanceAs (Decidable (b.slot ≤ a.slot))

/-- `SstBlockIterator::next_record` on one block: expired records go, sequence
numbers are set to 0, and the block is sorted, largest slot first. -/
def blockRecords (nowUs : Int) (records : List InternalRecord) : List InternalRecord :=
  ((records.filter fun r => decide (nowUs < r.expireAt)).map fun r => { r with seq := 0 }).insertionSort bySlotDesc

/-- All records an `SstBlockIterator` returns, blocks in file order. -/
def iterated (nowUs : Int) (file : SstFile) : List InternalRecord :=
  (List.range file.blocks.length).flatMap fun i => blockRecords nowUs (file.readBlock i)

/-- The order of `HeapEntry` turned over: what the max-heap pops has least rank. -/
def heapRank (r : InternalRecord) : (Bytes ×ₗ Int)ᵒᵈ ×ₗ Nat := toLex (OrderDual.toDual r.slot, r.seq)

-- The heap loop keeps the first of each run of one slot, and of these the puts.
def written (popped : List InternalRecord) : List InternalRecord :=
  (Merge.firsts InternalRecord.slot none popped).filter fun r => r.op != .delete && r.op != .deleteRange

/-- The tables without some of them: both ways of dropping tables do this. -/
def deleteSsts (t : Tables) (ids : List Nat) : Tables :=
  { manifest := ids.foldl (fun m id => m.append (.gcDeleteSst id)) t.manifest
    index := ids.foldl removeSst t.index
    files := t.files.filter fun id _ => decide (id ∉ ids) }

/-- `CompactionRunner::run`, for the order in which its heap popped the records of
the candidates. -/
def CompactionRunner.run (t : Tables) (popped : List InternalRecord) : Tables :=
  let state := t.manifest.state
  let candidates := t.candidates
  if state.sstables.entries.length < config.compactionThreshold then t
  else if candidates.all fun id => (t.file id).blocks.isEmpty then t
  else
    let records := written popped
    if records = [] then deleteSsts t candidates
    else
      let estimated := (candidates.filterMap fun id => (state.sstables.get? id).map (·.records)).sum
      let sst := SstStreamWriter.write records config.blockSize estimated config.bloomBitsPerKey
      let info := sstInfo state.nextSstId (sst.1.totalBytes compressedLen) records sst.2
      let m := t.manifest.append (.compaction candidates [info] [(info.id, sst.1.blockInfos)])
      publishSst (deleteSsts t candidates) m info sst.1 sst.2

end

/-! ### Garbage collection -/

def expiredSsts (state : ManifestState) (nowUs : Int) : List Nat :=
  (state.sstables.entries.filter fun e => decide (e.2.maxExpire < nowUs)).map Prod.fst

def GcRunner.run (t : Tables) (nowUs : Int) : Tables := deleteSsts t (expiredSsts t.manifest.state nowUs)

/-- What manifest, index and files agree on: which tables there are, and their blocks. -/
structure Ok (t : Tables) : Prop where
  nodup : t.activeIds.Nodup
  listed : ∀ id, id ∈ t.activeIds ↔ (t.manifest.state.sstables.get? id).isSome
  filed : ∀ id, id ∈ t.activeIds ↔ (t.files.get? id).isSome
  infos : ∀ id ∈ t.activeIds, t.manifest.state.blockInfos.get? id = some (t.file id).blockInfos
  indexed : ∀ id, t.index.sstBlocks.get? id = if id ∈ t.activeIds then some (t.metas id) else none
  scanned : ∀ m, m ∈ t.index.metas ↔ ∃ id ∈ t.activeIds, m ∈ t.metas id
  blooms : ∀ id f, t.index.blooms.get? id = some f → ∀ r ∈ (t.file id).records, f.mayContain r.key = true


theorem ok_new (timeBucketSecs : Nat) : Ok (Tables.new timeBucketSecs) := by
  constructor <;> simp [Tables.new, activeIds, ManifestState.empty, BlockMetaIndex.new, BlockMetaIndex.metas,
    OMap.values]

theorem file_publishSst (t : Tables) (m : Manifest) (info : SstInfo) (f : SstFile) (bloom : BloomFilter) (k : Nat) :
    (publishSst t m info f bloom).file k = if k = info.id then f else t.file k := by
  simp only [Tables.file, publishSst, get?_insert]
  split_ifs <;> rfl

/-- A table published under a fresh id. -/
theorem ok_publish (t : Tables) (ok : Ok t) (m : Manifest) (info : SstInfo) (f : SstFile) (bloom : BloomFilter)
    (fresh : t.manifest.state.sstables.get? info.id = none)
    (sstables : m.state.sstables = t.manifest.state.sstables.insert info.id info)
    (blockInfos : m.state.blockInfos = t.manifest.state.blockInfos.insert info.id f.blockInfos)
    (active : m.state.activeSstIds = (t.manifest.state.addActive info.id).activeSstIds)
    (answers : ∀ r ∈ f.records, bloom.mayContain r.key = true) :
    Ok (publishSst t m info f bloom) := by
  have absent : info.id ∉ t.activeIds := by simp [ok.listed, fresh]
  have member : ∀ id, id ∈ m.state.activeSstIds ↔ id = info.id ∨ id ∈ t.activeIds := by
    intro id
    rw [active, mem_addActive]
    rfl
  have other : ∀ id ∈ t.activeIds, id ≠ info.id := fun id there same => absent (same ▸ there)
  have ids : (publishSst t m info f bloom).activeIds = m.state.activeSstIds := rfl
  constructor
  · rw [ids, active]
    exact addActive_nodup _ _ ok.nodup
  · intro id
    rw [ids, member, show (publishSst t m info f bloom).manifest.state.sstables = m.state.sstables from rfl,
      sstables, get?_insert]
    split_ifs with same
    · simp [same]
    · simp [same, ok.listed]
  · intro id
    rw [ids, member, publishSst, get?_insert]
    split_ifs with same
    · simp [same]
    · simp [same, ok.filed]
  · intro id inside
    rw [file_publishSst, show (publishSst t m info f bloom).manifest.state.blockInfos = m.state.blockInfos from rfl,
      blockInfos, get?_insert]
    split_ifs with same
    · rfl
    · exact ok.infos id (((member id).mp inside).resolve_left same)
  · intro id
    rw [ids]
    simp only [member, Tables.metas, file_publishSst]
    simp only [publishSst, setBloom, sstBlocks_addSst, get?_insert]
    split_ifs with same inside
    · rw [same]
    · exact absurd (Or.inl same) inside
    · rw [ok.indexed, if_pos (by tauto)]
      rfl
    · rw [ok.indexed, if_neg (by tauto)]
  · intro b
    change b ∈ (t.index.addSst info.id f.blockInfos).metas ↔ _
    rw [mem_metas_addSst, ok.scanned]
    simp only [ids, member, Tables.metas, file_publishSst]
    constructor
    · rintro (new | ⟨id, inside, old⟩)
      · exact ⟨info.id, Or.inl rfl, by simpa using new⟩
      · exact ⟨id, Or.inr inside, by simpa [other id inside] using old⟩
    · rintro ⟨id, rfl | inside, held⟩
      · exact Or.inl (by simpa using held)
      · exact Or.inr ⟨id, inside, by simpa [other id inside] using held⟩
  · intro id filter held r inside
    simp only [publishSst, setBloom, blooms_addSst, get?_insert] at held
    rw [file_publishSst] at inside
    split_ifs at held inside with same
    · obtain rfl := Option.some.inj held
      exact answers r inside
    · exact ok.blooms id filter held r inside

theorem records_publish (t : Tables) (m : Manifest) (info : SstInfo) (f : SstFile) (bloom : BloomFilter)
    (absent : info.id ∉ t.activeIds)
    (active : m.state.activeSstIds = (t.manifest.state.addActive info.id).activeSstIds) :
    (publishSst t m info f bloom).records = t.records ++ f.records := by
  have ids : (publishSst t m info f bloom).activeIds = t.activeIds ++ [info.id] := by
    rw [show (publishSst t m info f bloom).activeIds = m.state.activeSstIds from rfl, active, addActive,
      if_neg (show info.id ∉ t.manifest.state.activeSstIds from absent)]
    rfl
  have old : t.activeIds.flatMap (fun k => (if k = info.id then f else t.file k).records) = t.records :=
    List.flatMap_congr fun k member => by
      have other : k ≠ info.id := by
        rintro rfl
        exact absent member
      rw [if_neg other]
  rw [Tables.records, ids, List.flatMap_append]
  simp only [file_publishSst, old, List.flatMap_cons, List.flatMap_nil, List.append_nil, if_true]

theorem deletes_state (ids : List Nat) (m : Manifest) :
    (ids.foldl (fun m id => m.append (.gcDeleteSst id)) m).state = ids.foldl ManifestState.remove m.state := by
  induction ids generalizing m with
  | nil => rfl
  | cons id rest ih => rw [List.foldl_cons, ih, state_append, List.foldl_cons]; rfl

theorem activeIds_deleteSsts (t : Tables) (ids : List Nat) :
    (deleteSsts t ids).activeIds = t.activeIds.filter fun id => id ∉ ids := by
  rw [activeIds, deleteSsts, deletes_state, removes_active]
  rfl

theorem file_deleteSsts (t : Tables) (ids : List Nat) (id : Nat) (kept : id ∉ ids) :
    (deleteSsts t ids).file id = t.file id := by
  cases held : t.files.get? id <;> simp [Tables.file, deleteSsts, get?_filter, kept, held, Option.filter]

theorem ok_deleteSsts (t : Tables) (ok : Ok t) (ids : List Nat) : Ok (deleteSsts t ids) := by
  have state := deletes_state ids t.manifest
  have active := activeIds_deleteSsts t ids
  have member : ∀ id, id ∈ (deleteSsts t ids).activeIds ↔ id ∈ t.activeIds ∧ id ∉ ids := by
    intro id
    rw [active]
    simp
  have blocks := removeSsts_fields ids t.index
  constructor
  · exact active ▸ ok.nodup.filter _
  · intro id
    rw [member, ok.listed, deleteSsts, state, (removes_get? ids _ id).1]
    split_ifs with gone <;> simp [gone]
  · intro id
    rw [member, ok.filed]
    simp only [deleteSsts, get?_filter]
    by_cases gone : id ∈ ids <;> cases t.files.get? id <;> simp [gone, Option.filter]
  · intro id inside
    obtain ⟨there, kept⟩ := (member id).mp inside
    rw [file_deleteSsts t ids id kept, deleteSsts, state, (removes_get? ids _ id).2, if_neg kept]
    exact ok.infos id there
  · intro id
    have index : (deleteSsts t ids).index.sstBlocks.get? id = _ := blocks.1 id
    rw [index, ok.indexed]
    by_cases kept : id ∈ ids
    · rw [if_pos kept, if_neg fun inside => ((member id).mp inside).2 kept]
    · rw [if_neg kept]
      simp only [member, kept, not_false_eq_true, and_true, Tables.metas, file_deleteSsts t ids id kept]
  · intro b
    have index : b ∈ (deleteSsts t ids).index.metas ↔ _ := blocks.2.2 b
    rw [index, ok.scanned]
    constructor
    · rintro ⟨⟨id, there, held⟩, kept⟩
      have here : b.sstId = id := by
        obtain ⟨bi, _, rfl⟩ := List.mem_map.mp held
        rfl
      rw [here] at kept
      exact ⟨id, (member id).mpr ⟨there, kept⟩, by rwa [Tables.metas, file_deleteSsts t ids id kept]⟩
    · rintro ⟨id, inside, held⟩
      obtain ⟨there, kept⟩ := (member id).mp inside
      rw [Tables.metas, file_deleteSsts t ids id kept] at held
      have here : b.sstId = id := by
        obtain ⟨bi, _, rfl⟩ := List.mem_map.mp held
        rfl
      exact ⟨⟨id, there, held⟩, here ▸ kept⟩
  · intro id filter held r inside
    have index : (deleteSsts t ids).index.blooms.get? id = _ := blocks.2.1 id
    rw [index] at held
    split_ifs at held with gone
    exact ok.blooms id filter held r (by rwa [file_deleteSsts t ids id gone] at inside)

theorem records_deleteSsts (t : Tables) (ids : List Nat) :
    (deleteSsts t ids).records = (t.activeIds.filter fun id => id ∉ ids).flatMap fun id => (t.file id).records := by
  rw [Tables.records, activeIds_deleteSsts]
  exact List.flatMap_congr fun id member => by
    rw [file_deleteSsts t ids id (by simpa using (List.mem_filter.mp member).2)]

section
variable (config : Config) (compressedLen : Bytes → Nat)

theorem ok_addFlushed (t : Tables) (ok : Ok t) (records : List InternalRecord) :
    Ok (addFlushed config compressedLen t records) := by
  have entry := fun info => applyEntry_flush t.manifest.state (lastSeq records) info
    (SstWriter.write records config.blockSize config.bloomBitsPerKey).1.blockInfos
  refine ok_publish t ok _ _ _ _ (get?_nextSstId _) ?_ ?_ ?_ fun r member => ?_
  · simp only [state_append]
    exact (entry _).1
  · simp only [state_append]
    exact (entry _).2.1
  · simp only [state_append]
    exact (entry _).2.2.1
  · rw [SstFile.records, SstWriter.write, chunks_flatten] at member
    exact write_mayContain records config.blockSize config.bloomBitsPerKey r member

/-- The next id is no live table's if the manifest lists all live ones. -/
theorem nextSstId_inactive {t : Tables} (listed : ∀ id ∈ t.activeIds, (t.manifest.state.sstables.get? id).isSome) :
    t.manifest.state.nextSstId ∉ t.activeIds := by
  intro active
  have there := listed _ active
  rw [get?_nextSstId] at there
  cases there

theorem nextSstId_absent (t : Tables) (ok : Ok t) : t.manifest.state.nextSstId ∉ t.activeIds :=
  nextSstId_inactive fun id => (ok.listed id).mp

theorem records_addFlushed (t : Tables) (fresh : t.manifest.state.nextSstId ∉ t.activeIds)
    (records : List InternalRecord) :
    (addFlushed config compressedLen t records).records = t.records ++ records := by
  have entry := fun info => applyEntry_flush t.manifest.state (lastSeq records) info
    (SstWriter.write records config.blockSize config.bloomBitsPerKey).1.blockInfos
  refine (records_publish t _ _ _ _ fresh ?_).trans ?_
  · simp only [state_append]
    exact (entry _).2.2.1
  · rw [SstFile.records, SstWriter.write, chunks_flatten]

/-- What holds of the records of each live table and of the flushed ones holds of each table after the flush. -/
theorem eachFile_addFlushed (t : Tables) (P : List InternalRecord → Prop)
    (old : ∀ id ∈ t.activeIds, P (t.file id).records) (records : List InternalRecord) (new : P records) :
    ∀ id ∈ (addFlushed config compressedLen t records).activeIds,
      P ((addFlushed config compressedLen t records).file id).records := by
  intro id active
  rw [addFlushed, file_publishSst]
  split_ifs with same
  · rw [SstFile.records, SstWriter.write, chunks_flatten]
    exact new
  · have entry := (applyEntry_flush t.manifest.state (lastSeq records) (sstInfo t.manifest.state.nextSstId
      ((SstWriter.write records config.blockSize config.bloomBitsPerKey).1.totalBytes compressedLen) records
      (SstWriter.write records config.blockSize config.bloomBitsPerKey).2)
      (SstWriter.write records config.blockSize config.bloomBitsPerKey).1.blockInfos).2.2.1
    simp only [addFlushed, publishSst, Tables.activeIds, state_append] at active
    have inside := (mem_addActive _ _ id).mp (entry ▸ active)
    exact old id (inside.resolve_left same)

/-! The candidates are live tables, each once. -/

theorem sized_ids (state : ManifestState) (ids : List Nat) :
    (ids.filterMap fun id => (state.sstables.get? id).map fun info => (id, info.bytes)).map Prod.fst =
      ids.filter fun id => (state.sstables.get? id).isSome := by
  induction ids with
  | nil => rfl
  | cons id rest ih => cases held : state.sstables.get? id <;> simp [held, ih]

theorem candidates_subperm (t : Tables) : t.candidates.Subperm t.activeIds := by
  have sized := (List.perm_insertionSort byBytes ((t.activeIds.insertionSort (· ≤ ·)).filterMap fun id =>
    (t.manifest.state.sstables.get? id).map fun info => (id, info.bytes))).map Prod.fst
  rw [sized_ids] at sized
  have all := sized.subperm.trans
    (List.filter_sublist.subperm.trans (List.perm_insertionSort (· ≤ ·) t.activeIds).subperm)
  refine List.Subperm.trans ?_ all
  simp only [Tables.candidates, pickCompactionCandidates]
  split_ifs
  · exact (List.Sublist.refl _).subperm
  · exact ((List.takeWhile_sublist _).map Prod.fst).subperm
  · exact ((List.take_sublist _ _).map Prod.fst).subperm

theorem candidates_nodup (t : Tables) (ok : Ok t) : t.candidates.Nodup := by
  obtain ⟨ids, perm, sublist⟩ := candidates_subperm t
  exact perm.nodup_iff.mp (ok.nodup.sublist sublist)

theorem ok_run (t : Tables) (ok : Ok t) (popped : List InternalRecord) :
    Ok (CompactionRunner.run config compressedLen t popped) := by
  simp only [CompactionRunner.run]
  split_ifs
  · exact ok
  · exact ok
  · exact ok_deleteSsts t ok _
  · have state := deletes_state t.candidates t.manifest
    have entry := fun info blocks => applyEntry_compaction t.manifest.state t.candidates info blocks
    refine ok_publish _ (ok_deleteSsts t ok _) _ _ _ _ ?_ ?_ ?_ ?_ fun r member => ?_
    · rw [deleteSsts, state, (removes_get? _ _ _).1, sstInfo, get?_nextSstId, ite_self]
    · rw [state_append, (entry _ _).1, deleteSsts, state]
    · rw [state_append, (entry _ _).2.1, deleteSsts, state]
    · rw [state_append, (entry _ _).2.2.1, deleteSsts, state]
    · rw [SstFile.records, SstStreamWriter.write, chunks_flatten] at member
      exact streamWrite_mayContain _ _ _ _ r member

/-- What the tables that were no candidates hold. -/
def Tables.keptRecords (t : Tables) : List InternalRecord :=
  (t.activeIds.filter fun id => id ∉ t.candidates).flatMap fun id => (t.file id).records

theorem records_run (t : Tables) (fresh : t.manifest.state.nextSstId ∉ t.activeIds) (popped : List InternalRecord)
    (enough : config.compactionThreshold ≤ t.manifest.state.sstables.entries.length)
    (drained : (∀ id ∈ t.candidates, (t.file id).records = []) → popped = []) (r : InternalRecord) :
    r ∈ (CompactionRunner.run config compressedLen t popped).records ↔
      r ∈ t.keptRecords ∨ r ∈ written popped := by
  simp only [CompactionRunner.run, if_neg (not_lt.mpr enough)]
  split_ifs with none empty
  · have nothing : ∀ id ∈ t.candidates, (t.file id).records = [] := by
      intro id member
      have : (t.file id).blocks = [] := by simpa using List.all_eq_true.mp none id member
      simp [SstFile.records, this]
    rw [drained nothing, Tables.records, Tables.keptRecords]
    simp only [List.mem_flatMap, List.mem_filter, decide_eq_true_eq, written, Merge.firsts, List.filter_nil,
      List.not_mem_nil, or_false]
    constructor
    · rintro ⟨id, member, inside⟩
      exact ⟨id, ⟨member, fun candidate => by simp [nothing id candidate] at inside⟩, inside⟩
    · rintro ⟨id, ⟨member, _⟩, inside⟩
      exact ⟨id, member, inside⟩
  · rw [records_deleteSsts, empty]
    simp [Tables.keptRecords]
  · have state := deletes_state t.candidates t.manifest
    have entry := fun info blocks => applyEntry_compaction t.manifest.state t.candidates info blocks
    rw [records_publish, records_deleteSsts, List.mem_append, SstFile.records, SstStreamWriter.write, chunks_flatten]
    · exact Iff.rfl
    · rw [activeIds_deleteSsts]
      exact fun inside => fresh (List.mem_of_mem_filter inside)
    · rw [state_append, (entry _ _).2.2.1, deleteSsts, state]

end

theorem ok_gc (t : Tables) (ok : Ok t) (nowUs : Int) : Ok (GcRunner.run t nowUs) := ok_deleteSsts t ok _

end FlowDb.TableStore
