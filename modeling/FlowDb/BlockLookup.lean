import FlowDb.EngineRuns
import FlowDb.PointSearch

/-! The point lookup inside one table. A table's blocks are cut at every `block_size` records
and searched by key only, and inside a block the search may stop at any record of the slot. -/
namespace FlowDb.BlockLookup
open ByteString OrderedMap Records Sstable BlockIndex BlockMetaIndex TableStore MemoryTables EngineOps Reads PointReads
open GcVisibility PointSearch

/-! ### Which block -/

section
variable {records : List InternalRecord} (strict : records.Pairwise fun a b => a.slot < b.slot) {n : Nat} (positive : 1 ≤ n)
include strict positive

/-- The record at a position lies in the block of that position and in no other. -/
theorem mem_block_iff {i : Nat} (bound : i < records.length) (b : Nat) :
    (∃ chunk, (chunks n records)[b]? = some chunk ∧ records[i] ∈ chunk) ↔ b = i / n := by
  rw [SstFormat.chunks_slices, max_eq_left positive, SstFormat.slices_at n positive]
  have distinct : records.Nodup := strict.imp fun less same => absurd (same ▸ less) (lt_irrefl _)
  have within : b * n ≤ i ∧ i < b * n + n ↔ b = i / n := by
    rw [eq_comm, Nat.div_eq_iff positive]
    omega
  rw [← within]
  constructor
  · rintro ⟨chunk, there, inside⟩
    split_ifs at there
    obtain rfl := Option.some.inj there
    obtain ⟨j, held⟩ := List.mem_iff_getElem?.mp inside
    rw [List.getElem?_take] at held
    split_ifs at held with short
    rw [List.getElem?_drop] at held
    obtain ⟨below, same⟩ := List.getElem?_eq_some_iff.mp held
    have here := (List.Nodup.getElem_inj_iff distinct).mp same
    omega
  · rintro ⟨low, high⟩
    refine ⟨_, if_pos (low.trans_lt bound), List.mem_iff_getElem?.mpr ⟨i - b * n, ?_⟩⟩
    rw [List.getElem?_take_of_lt (by omega), List.getElem?_drop, Nat.add_sub_cancel' low, List.getElem?_eq_getElem bound]

end

section
variable (idx : BlockMetaIndex) (sstId : Nat) (records : List InternalRecord) (blockSize bloomBits : Nat)

/-- The file that `SstWriter::write` makes of the records. -/
def written : SstFile := (SstWriter.write records blockSize bloomBits).1

/-- The key search of the table, added to the index, returns the block that contains the record. -/
structure Reached (r : InternalRecord) (m : BlockMeta) : Prop where
  found : (((idx.addSst sstId (written records blockSize bloomBits).blockInfos).sstBlocks.get? sstId).bind fun blocks =>
    binarySearchBlock blocks r.key) = some m
  table : m.sstId = sstId
  holds : ∃ chunk, (written records blockSize bloomBits).blocks[m.blockIdx]? = some chunk ∧ r ∈ chunk

variable {idx sstId records blockSize bloomBits}

theorem searched_eq (key : Bytes) :
    (((idx.addSst sstId (written records blockSize bloomBits).blockInfos).sstBlocks.get? sstId).bind fun blocks =>
      binarySearchBlock blocks key) =
      binarySearchBlock ((written records blockSize bloomBits).blockInfos.map (BlockMeta.fromBlockInfo sstId)) key := by
  rw [sstBlocks_addSst, get?_insert, if_pos rfl, Option.bind_some]

variable (strict : records.Pairwise fun a b => a.slot < b.slot)
include strict

theorem reached_block (positive : 1 ≤ blockSize) {i : Nat} (bound : i < records.length) {m : BlockMeta}
    (reached : Reached idx sstId records blockSize bloomBits records[i] m) : m.blockIdx = i / blockSize :=
  (mem_block_iff strict positive bound m.blockIdx).mp reached.holds

/-- A key whose records lie in one block is found there. -/
theorem reached_of_one_block (positive : 1 ≤ blockSize) {i : Nat} (bound : i < records.length)
    (together : ∀ j (other : j < records.length), records[j].key = records[i].key → j / blockSize = i / blockSize) :
    ∃ m, Reached idx sstId records blockSize bloomBits records[i] m := by
  have whole : (written records blockSize bloomBits).records = records := chunks_flatten blockSize records
  have sorted : (written records blockSize bloomBits).records.Pairwise fun a b => a.slot ≤ b.slot := by
    rw [whole]
    exact strict.imp le_of_lt
  have filled : ∀ chunk ∈ (written records blockSize bloomBits).blocks, chunk ≠ [] := chunksFrom_filled _ [] records
  obtain ⟨chunk, there, inside⟩ := (mem_block_iff strict positive bound (i / blockSize)).mpr rfl
  obtain ⟨own, rfl⟩ := List.getElem?_eq_some_iff.mp there
  have limits := SstFormat.blockInfo_bounds (i / blockSize) _
    ((List.pairwise_flatten.mp sorted).1 _ (List.getElem_mem own)) _ inside
  obtain ⟨m, found, spans⟩ := binarySearch_spans (metas_consecutive sorted filled sstId)
    (List.mem_map.mpr ⟨_, List.mem_mapIdx.mpr ⟨i / blockSize, own, rfl⟩, rfl⟩) ⟨limits.minKey, limits.maxKey⟩
  obtain ⟨info, listed, rfl⟩ := List.mem_map.mp (searchLoop_mem _ _ _ _ _ _ found)
  obtain ⟨b, below, rfl⟩ := List.mem_mapIdx.mp listed
  -- The block found has a record of the key, and so it is the block of all of them.
  obtain ⟨x, held, same⟩ := spanning_block sorted filled below (whole.symm ▸ List.getElem_mem bound) spans
  have member : x ∈ (written records blockSize bloomBits).records := List.mem_flatten.mpr ⟨_, List.getElem_mem below, held⟩
  rw [whole] at member
  obtain ⟨j, other, rfl⟩ := List.getElem_of_mem member
  have number : b = j / blockSize :=
    (mem_block_iff strict positive other b).mp ⟨_, List.getElem?_eq_getElem below, held⟩
  refine ⟨_, (searched_eq _).trans found, rfl, ?_⟩
  exact (mem_block_iff strict positive bound b).mpr (number.trans (together j other same))

/-- In the block that contains it, a record that has not expired is what every lookup of its slot finds. -/
theorem reached_found {r : InternalRecord} {m : BlockMeta} (reached : Reached idx sstId records blockSize bloomBits r m)
    {nowUs : Int} (unexpired : ∀ r ∈ records, nowUs < r.expireAt) (fits : ∀ r ∈ records, TableFits r) (search : SlotSearch) :
    m.isExpired nowUs = false ∧
      findInRecords search ((written records blockSize bloomBits).readBlock m.blockIdx) r.key r.ts nowUs =
        if r.op = .delete then none else some r.toRecord := by
  have whole : (written records blockSize bloomBits).records = records := chunks_flatten blockSize records
  obtain ⟨chunk, there, inside⟩ := reached.holds
  have part : chunk.Sublist records := by
    have cut := List.sublist_flatten_of_mem (List.mem_of_getElem? there)
    exact whole ▸ cut
  have slots := strict.sublist part
  have live := unexpired r (part.subset inside)
  constructor
  · have found := reached.found
    rw [searched_eq] at found
    obtain ⟨info, listed, rfl⟩ := List.mem_map.mp (searchLoop_mem _ _ _ _ _ _ found)
    obtain ⟨b, below, rfl⟩ := List.mem_mapIdx.mp listed
    obtain rfl : (written records blockSize bloomBits).blocks[b] = chunk :=
      Option.some.inj ((List.getElem?_eq_getElem below).symm.trans there)
    have limit := (SstFormat.blockInfo_bounds b _ (slots.imp le_of_lt) r inside).maxExpire
    exact decide_eq_false (not_lt.mpr (live.le.trans limit))
  · rw [readBlock_eq _ (whole.symm ▸ fits), there, Option.getD_some]
    have strictStored : (chunk.map stored).Pairwise fun a b => a.slot < b.slot := List.pairwise_map.mpr slots
    have ordered := strictStored.imp (S := fun a b : InternalRecord => a.slot ≤ b.slot) le_of_lt
    rw [findInRecords_eq search ordered]
    have member : stored r ∈ chunk.map stored := List.mem_map_of_mem inside
    cases picked : hit search (chunk.map stored) (toLex (r.key, r.ts)) with
    | none => exact absurd rfl (hit_none search ordered picked (stored r) member)
    | some x =>
      obtain ⟨held, here⟩ := hit_slot search ordered picked
      obtain rfl : x = stored r := eq_of_slot strictStored held member here
      by_cases op : r.op = .delete <;> simp [op, live]

/-- The records of a key are all reached, exactly if they lie in one block; and a lookup finds what is reached. -/
theorem block_lookup_reaches_iff (positive : 1 ≤ blockSize) :
    (∀ key, (∀ r ∈ records, r.key = key → ∃ m, Reached idx sstId records blockSize bloomBits r m) ↔
      ∀ i j, (records[i]?.map (·.key)) = some key → (records[j]?.map (·.key)) = some key → i / blockSize = j / blockSize) ∧
    ∀ r m, Reached idx sstId records blockSize bloomBits r m → ∀ nowUs, (∀ r ∈ records, nowUs < r.expireAt) →
      (∀ r ∈ records, TableFits r) → m.isExpired nowUs = false ∧ ∀ search : SlotSearch,
        findInRecords search ((written records blockSize bloomBits).readBlock m.blockIdx) r.key r.ts nowUs =
          if r.op = .delete then none else some r.toRecord := by
  have position : ∀ i key, (records[i]?.map (·.key)) = some key ↔ ∃ bound : i < records.length, records[i].key = key := by
    intro i key
    rw [Option.map_eq_some_iff]
    constructor
    · rintro ⟨r, there, same⟩
      obtain ⟨bound, rfl⟩ := List.getElem?_eq_some_iff.mp there
      exact ⟨bound, same⟩
    · rintro ⟨bound, same⟩
      exact ⟨_, List.getElem?_eq_getElem bound, same⟩
  refine ⟨fun key => ⟨fun all i j first second => ?_, fun together r member same => ?_⟩, fun r m reached nowUs unexpired fits => ?_⟩
  · obtain ⟨bound, here⟩ := (position i key).mp first
    obtain ⟨other, there⟩ := (position j key).mp second
    obtain ⟨m, reached⟩ := all _ (List.getElem_mem bound) here
    obtain ⟨m', reached'⟩ := all _ (List.getElem_mem other) there
    -- The search has one answer for the key.
    have once := reached.found
    rw [here, ← there] at once
    obtain rfl := Option.some.inj (once.symm.trans reached'.found)
    exact (reached_block strict positive bound reached).symm.trans (reached_block strict positive other reached')
  · obtain ⟨i, bound, rfl⟩ := List.getElem_of_mem member
    refine reached_of_one_block strict positive bound fun j other again => ?_
    exact together j i ((position j key).mpr ⟨other, again.trans same⟩) ((position i key).mpr ⟨bound, same⟩)
  · have found := reached_found strict reached unexpired fits
    exact ⟨(found .first).1, fun search => (found search).2⟩

end

/-- Two timestamps of one key, at one record a block. -/
def twoTimes : List InternalRecord := [.fromRecord (.new [107] 0 [1]) 1, .fromRecord (.new [107] 1 [2]) 2]

theorem block_lookup_reaches_iff_times :
    ∃ m, Reached (.new 3600) 1 twoTimes 2 10 (.fromRecord (.new [107] 0 [1]) 1) m := by
  have small : ∀ i, (twoTimes[i]?.map (·.key)) = some ([107] : Bytes) → i / 2 = 0 := by
    intro i there
    obtain ⟨r, held, _⟩ := Option.map_eq_some_iff.mp there
    obtain ⟨bound, _⟩ := List.getElem?_eq_some_iff.mp held
    exact Nat.div_eq_of_lt bound
  have strict : twoTimes.Pairwise fun a b => a.slot < b.slot := by decide
  have reached := ((@block_lookup_reaches_iff (.new 3600) 1 twoTimes 2 10 strict (by decide)).1 [107]).mpr
    fun i j first second => (small i first).trans (small j second).symm
  exact reached (.fromRecord (.new [107] 0 [1]) 1) (by decide) rfl

theorem earlier_time_missed : ¬ ∀ r ∈ twoTimes, ∃ m, Reached (.new 3600) 1 twoTimes 1 10 r m := by
  intro all
  obtain ⟨m, found, _, chunk, there, inside⟩ := all (.fromRecord (.new [107] 0 [1]) 1) (by decide)
  obtain rfl : m = ⟨1, 1, [107], [107], 1, 1, i64Max⟩ := Option.some.inj (found.symm.trans (by decide +kernel))
  obtain rfl : chunk = [.fromRecord (.new [107] 1 [2]) 2] := Option.some.inj (there.symm.trans (by decide))
  exact absurd inside (by decide)

/-! ### Which record -/

/-- A search that stops at a given record of the slot. -/
def stoppingAt (records : List InternalRecord) (slot : Bytes ×ₗ Int) (i : Nat) (r : InternalRecord)
    (held : records[i]? = some r) (here : r.slot = slot) : SlotSearch where
  find l s := if l = records ∧ s = slot then some i else SlotSearch.first.find l s
  found l s j sorted position := by
    split_ifs at position with asked
    · obtain rfl := Option.some.inj position
      exact ⟨r, asked.1 ▸ held, here.trans asked.2.symm⟩
    · exact SlotSearch.first.found l s j sorted position
  complete l s sorted missed := by
    split_ifs at missed
    exact SlotSearch.first.complete l s sorted missed

/-- What holds wherever a search may stop holds of every record of the slot. -/
theorem every_search_iff {records : List InternalRecord} (sorted : records.Pairwise fun a b => a.slot ≤ b.slot)
    (slot : Bytes ×ₗ Int) (Q : Option InternalRecord → Prop) : (∀ search : SlotSearch, Q (hit search records slot)) ↔
      (∀ x ∈ records, x.slot = slot → Q (some x)) ∧ ((∀ x ∈ records, x.slot ≠ slot) → Q none) := by
  constructor
  · refine fun every => ⟨fun x inside here => ?_, fun absent => ?_⟩
    · obtain ⟨i, position⟩ := List.mem_iff_getElem?.mp inside
      have stopped := every (stoppingAt records slot i x position here)
      rwa [show hit (stoppingAt records slot i x position here) records slot = some x by simp [hit, stoppingAt, position]]
        at stopped
    · cases found : hit .first records slot with
      | none => exact found ▸ every .first
      | some x => exact absurd (hit_slot .first sorted found).2 (absent x (hit_slot .first sorted found).1)
  · rintro ⟨each, absent⟩ search
    cases found : hit search records slot with
    | none => exact absent (hit_none search sorted found)
    | some x => exact each x (hit_slot search sorted found).1 (hit_slot search sorted found).2

/-- The version of a slot with the highest sequence number. -/
structure Newest (contents : List InternalRecord) (slot : Bytes ×ₗ Int) (top : InternalRecord) : Prop where
  held : top ∈ contents
  here : top.slot = slot
  highest : ∀ r ∈ contents, r.slot = slot → r.seq ≤ top.seq

theorem exists_newest {contents : List InternalRecord} {r : InternalRecord} (held : r ∈ contents) :
    ∃ top, Newest contents r.slot top := by
  have member : r ∈ contents.filter fun x => decide (x.slot = r.slot) := List.mem_filter.mpr ⟨held, decide_eq_true rfl⟩
  cases last : (contents.filter fun x => decide (x.slot = r.slot)).argmax (·.seq) with
  | none => exact absurd (List.argmax_eq_none.mp last) (List.ne_nil_of_mem member)
  | some top =>
    obtain ⟨inside, here⟩ := List.mem_filter.mp (List.argmax_mem last)
    refine ⟨top, inside, of_decide_eq_true here, fun x there same => ?_⟩
    exact List.le_of_mem_argmax (List.mem_filter.mpr ⟨there, decide_eq_true same⟩) last

section
variable (config : Config) (compressedLen : Bytes → Nat) (t : Tables) {contents : List InternalRecord} {flushUs : Int}

theorem flushable_slots (contents : List InternalRecord) (flushUs : Int) :
    ((flushable contents flushUs).map stored).Pairwise fun a b => a.slot ≤ b.slot := by
  have sorted := ((List.pairwise_insertionSort byVersion contents).imp fun le => Prod.Lex.monotone_fst _ _ le).filter
    fun r => decide (flushUs < r.expireAt)
  exact List.pairwise_map.mpr sorted

/-- The block that a flush of the contents as one block writes, as it reads back. -/
theorem single_block (single : (SstWriter.write (flushable contents flushUs) config.blockSize config.bloomBitsPerKey).1.blocks =
      [flushable contents flushUs]) (fits : ∀ r ∈ contents, TableFits r) :
    ((addFlushed config compressedLen t (flushable contents flushUs)).file t.manifest.state.nextSstId).readBlock 0 =
      (flushable contents flushUs).map stored := by
  have file : (addFlushed config compressedLen t (flushable contents flushUs)).file t.manifest.state.nextSstId =
      (SstWriter.write (flushable contents flushUs) config.blockSize config.bloomBitsPerKey).1 := by
    rw [addFlushed, file_publishSst]
    exact if_pos rfl
  rw [file, readBlock_eq, single]
  · rfl
  · intro r member
    rw [SstFile.records, single, List.flatten_singleton] at member
    exact fits r ((EngineRuns.mem_flushable contents flushUs r).mp member).1

/-- What a search of a block shows of the version `r`. -/
def shownValue (r : InternalRecord) : Option Bytes := if r.op = .put then some r.value else none

section
variable {nowUs : Int} (ops : ∀ r ∈ contents, r.op = .put ∨ r.op = .delete)
  (unexpired : ∀ r ∈ contents, flushUs < r.expireAt ∧ nowUs < r.expireAt)
include ops unexpired

/-- Wherever a search of the block may stop, it shows one value, if all versions of the slot show that one. -/
theorem searches_show_iff (key : Bytes) (ts : Int) (value : Option Bytes)
    (written : ∃ r ∈ contents, r.slot = toLex (key, ts)) :
    (∀ search, (findInRecords search ((flushable contents flushUs).map stored) key ts nowUs).map (·.value) = value) ↔
      ∀ x ∈ contents, x.slot = toLex (key, ts) → shownValue x = value := by
  have flushes : ∀ x ∈ contents, x ∈ flushable contents flushUs :=
    fun x held => (EngineRuns.mem_flushable contents flushUs x).mpr ⟨held, (unexpired x held).1⟩
  have shows : ∀ x ∈ contents, (((some (stored x)).filter fun r => decide (nowUs < r.expireAt ∧ r.op ≠ .delete)).map
      InternalRecord.toRecord).map (·.value) = shownValue x := by
    intro x held
    rcases ops x held with put | delete
    · simp [shownValue, put, (unexpired x held).2, InternalRecord.toRecord]
    · simp [shownValue, delete]
  have every := every_search_iff (flushable_slots contents flushUs) (toLex (key, ts)) fun o =>
    ((o.filter fun r => decide (nowUs < r.expireAt ∧ r.op ≠ .delete)).map InternalRecord.toRecord).map (·.value) = value
  simp only [findInRecords_eq _ (flushable_slots contents flushUs)]
  rw [every]
  constructor
  · rintro ⟨each, -⟩ x held here
    exact shows x held ▸ each (stored x) (List.mem_map_of_mem (flushes x held)) here
  · intro each
    refine ⟨fun y inside here => ?_, fun absent => ?_⟩
    · obtain ⟨x, member, rfl⟩ := List.mem_map.mp inside
      have held := ((EngineRuns.mem_flushable contents flushUs x).mp member).1
      exact (shows x held).trans (each x held here)
    · obtain ⟨r, held, here⟩ := written
      exact absurd here (absent (stored r) (List.mem_map_of_mem (flushes r held)))

end

end

end FlowDb.BlockLookup
