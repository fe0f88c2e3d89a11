import FlowDb.GcVisibility
import FlowDb.SstFormat

/-! The block that a point read searches. The blocks of a table lie in key order, so the
binary search finds one that spans the key if there is any; and where the table has the
key at all, every block that spans it has it. -/
namespace FlowDb.PointSearch
open ByteString OrderedMap Records Sstable BlockIndex BlockMetaIndex TableStore Reads PointReads GcVisibility

def Spans (m : BlockMeta) (key : Bytes) : Prop := m.minKey ≤ key ∧ key ≤ m.maxKey

/-- Each block ends before the next begins. -/
structure Consecutive (blocks : List BlockMeta) : Prop where
  proper : ∀ b ∈ blocks, b.minKey ≤ b.maxKey
  ordered : blocks.Pairwise fun a b => a.maxKey ≤ b.minKey

theorem Consecutive.maxKey_le {blocks : List BlockMeta} (consecutive : Consecutive blocks) {i j : Nat}
    (order : i ≤ j) (within : i < blocks.length) (bound : j < blocks.length) : blocks[i].maxKey ≤ blocks[j].maxKey := by
  rcases order.lt_or_eq with before | rfl
  · exact (List.pairwise_iff_getElem.mp consecutive.ordered i j _ bound before).trans
      (consecutive.proper _ (List.getElem_mem bound))
  · exact le_refl _

theorem Consecutive.minKey_le {blocks : List BlockMeta} (consecutive : Consecutive blocks) {i j : Nat}
    (order : i ≤ j) (within : i < blocks.length) (bound : j < blocks.length) : blocks[i].minKey ≤ blocks[j].minKey := by
  rcases order.lt_or_eq with before | rfl
  · exact (consecutive.proper _ (List.getElem_mem _)).trans
      (List.pairwise_iff_getElem.mp consecutive.ordered i j _ bound before)
  · exact le_refl _

-- The block at `i` stays between `lo` and `hi`: the halves that are given up end before the key or begin after it.
theorem searchLoop_spans {blocks : List BlockMeta} (consecutive : Consecutive blocks) {key : Bytes} {i : Nat}
    (bound : i < blocks.length) (spans : Spans blocks[i] key) (fuel lo hi : Nat) (low : lo ≤ i) (high : i < hi)
    (inside : hi ≤ blocks.length) (enough : hi - lo < fuel) :
    ∃ m, searchLoop blocks key fuel lo hi = some m ∧ Spans m key := by
  induction fuel generalizing lo hi with
  | zero => exact absurd enough (Nat.not_lt_zero _)
  | succ fuel ih =>
    have middle : lo + (hi - lo) / 2 < hi := by omega
    have within : lo + (hi - lo) / 2 < blocks.length := middle.trans_le inside
    have here : blocks[lo + (hi - lo) / 2]? = some blocks[lo + (hi - lo) / 2] := List.getElem?_eq_getElem within
    simp only [searchLoop, if_pos (low.trans_lt high), here]
    split_ifs with ends begins
    · refine ih _ hi ?_ high inside (by omega)
      by_contra before
      exact absurd (spans.2.trans (consecutive.maxKey_le (by omega) bound within)) (not_le.mpr ends)
    · refine ih lo _ low ?_ (middle.le.trans inside) (by omega)
      by_contra behind
      exact absurd ((consecutive.minKey_le (by omega) within bound).trans spans.1) (not_le.mpr begins)
    · exact ⟨_, rfl, not_lt.mp begins, not_lt.mp ends⟩

theorem binarySearch_spans {blocks : List BlockMeta} (consecutive : Consecutive blocks) {key : Bytes} {m : BlockMeta}
    (member : m ∈ blocks) (spans : Spans m key) : ∃ found, binarySearchBlock blocks key = some found ∧ Spans found key := by
  obtain ⟨i, bound, rfl⟩ := List.getElem_of_mem member
  exact searchLoop_spans consecutive bound spans _ 0 blocks.length (Nat.zero_le i) bound (le_refl _) (by omega)

/-! ### The blocks of a table -/

theorem limits_held (i : Nat) {chunk : List InternalRecord} (filled : chunk ≠ []) :
    (∃ r ∈ chunk, (blockInfo i chunk).minKey = r.key) ∧ ∃ r ∈ chunk, (blockInfo i chunk).maxKey = r.key := by
  refine ⟨⟨chunk.head filled, List.head_mem filled, ?_⟩, chunk.getLast filled, List.getLast_mem filled, ?_⟩
  · simp [blockInfo, List.head?_eq_some_head filled]
  · simp [blockInfo, List.getLast?_eq_some_getLast filled]

section
variable {file : SstFile} (sorted : file.records.Pairwise fun a b => a.slot ≤ b.slot)
include sorted

theorem key_le_between {i j : Nat} (bound : j < file.blocks.length) (order : i < j) {x y : InternalRecord}
    (first : x ∈ file.blocks[i]) (second : y ∈ file.blocks[j]) : x.key ≤ y.key :=
  SstFormat.key_le_of_slot (List.pairwise_iff_getElem.mp (List.pairwise_flatten.mp sorted).2 i j _ bound order x first y second)

variable (filled : ∀ chunk ∈ file.blocks, chunk ≠ [])
include filled

theorem metas_consecutive (id : Nat) : Consecutive (file.blockInfos.map (BlockMeta.fromBlockInfo id)) := by
  have each := (List.pairwise_flatten.mp sorted).1
  refine ⟨fun b member => ?_, List.pairwise_iff_getElem.mpr fun i j below above order => ?_⟩
  · obtain ⟨info, listed, rfl⟩ := List.mem_map.mp member
    obtain ⟨i, bound, rfl⟩ := List.mem_mapIdx.mp listed
    have inside := List.getElem_mem bound
    obtain ⟨r, held, same⟩ := (limits_held i (filled _ inside)).1
    exact same.le.trans (SstFormat.blockInfo_bounds i _ (each _ inside) r held).maxKey
  · simp only [List.length_map, SstFile.blockInfos, List.length_mapIdx] at below above
    obtain ⟨x, first, last⟩ := (limits_held i (filled _ (List.getElem_mem below))).2
    obtain ⟨y, second, least⟩ := (limits_held j (filled _ (List.getElem_mem above))).1
    simp only [SstFile.blockInfos, List.getElem_map, List.getElem_mapIdx, BlockMeta.fromBlockInfo]
    rw [last, least]
    exact key_le_between sorted above order first second

/-- A block that spans a key of the table has it: those before end with it, those behind begin with it. -/
theorem spanning_block {id i : Nat} (bound : i < file.blocks.length) {y : InternalRecord} (member : y ∈ file.records)
    (spans : Spans (BlockMeta.fromBlockInfo id (blockInfo i file.blocks[i])) y.key) :
    ∃ x ∈ file.blocks[i], x.key = y.key := by
  obtain ⟨chunk, listed, inside⟩ := List.mem_flatten.mp member
  obtain ⟨j, there, rfl⟩ := List.getElem_of_mem listed
  obtain ⟨⟨low, lowHeld, least⟩, high, highHeld, last⟩ := limits_held i (filled _ (List.getElem_mem bound))
  rcases Nat.lt_trichotomy i j with before | rfl | behind
  · refine ⟨high, highHeld, le_antisymm (key_le_between sorted there before highHeld inside) ?_⟩
    exact last ▸ spans.2
  · exact ⟨y, inside, rfl⟩
  · refine ⟨low, lowHeld, le_antisymm ?_ (key_le_between sorted bound behind inside lowHeld)⟩
    exact least ▸ spans.1

end

/-- A point read searches a block that has the key, where the table has it and the block is not taken for expired. -/
theorem searched_key {t : Tables} (sorted : Sorted t) (recorded : Recorded t) {id : Nat} (active : id ∈ t.activeIds)
    {nowUs : Int} (live : ∀ r ∈ (t.file id).records, nowUs ≤ r.expireAt) {y : InternalRecord}
    (member : y ∈ (t.file id).records) : ∃ x ∈ searchedRecords t y.key nowUs id, x.key = y.key := by
  obtain ⟨info, known⟩ := Option.isSome_iff_exists.mp ((sorted.ok.listed id).mp active)
  have filled := (recorded id info _ known (sorted.ok.infos id active)).filled
  have slots := sorted.slots id active
  obtain ⟨chunk, listed, inside⟩ := List.mem_flatten.mp member
  obtain ⟨j, there, rfl⟩ := List.getElem_of_mem listed
  have own := SstFormat.blockInfo_bounds j _ ((List.pairwise_flatten.mp slots).1 _ listed) y inside
  obtain ⟨m, found, spans⟩ := binarySearch_spans (metas_consecutive slots filled id)
    (List.mem_map.mpr ⟨_, List.mem_mapIdx.mpr ⟨j, there, rfl⟩, rfl⟩) ⟨own.minKey, own.maxKey⟩
  obtain ⟨bi, listed', rfl⟩ := List.mem_map.mp (searchLoop_mem _ _ _ _ _ _ found)
  obtain ⟨i, bound, rfl⟩ := List.mem_mapIdx.mp listed'
  obtain ⟨x, held, same⟩ := spanning_block slots filled bound member spans
  have unexpired : ¬ (blockInfo i (t.file id).blocks[i]).maxExpire < nowUs := by
    have within := (SstFormat.blockInfo_bounds i _ ((List.pairwise_flatten.mp slots).1 _ (List.getElem_mem bound)) x held).maxExpire
    exact not_lt.mpr ((live x (List.mem_flatten.mpr ⟨_, List.getElem_mem bound, held⟩)).trans within)
  have searched : searchedBlock (t.metas id) y.key nowUs =
      some (BlockMeta.fromBlockInfo id (blockInfo i (t.file id).blocks[i])) := by
    rw [searchedBlock, Tables.metas, found, Option.filter_some, if_pos]
    simp [BlockMeta.isExpired, BlockMeta.fromBlockInfo, unexpired]
  refine ⟨stored x, ?_, same⟩
  rw [searchedRecords, searched]
  change stored x ∈ (t.file id).readBlock i
  rw [readBlock_eq _ (sorted.fits id active), List.getElem?_eq_getElem bound]
  exact List.mem_map_of_mem held

end FlowDb.PointSearch
