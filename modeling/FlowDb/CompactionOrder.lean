import FlowDb.RangeCompaction
import FlowDb.DescendingMerge
import FlowDb.PointSearch

/-! The order in which a compaction writes. Blocks are visited in file order, each is read
from its largest slot down, and the heap pops the largest slot first, while the table that
is written is searched as one in ascending order. -/
namespace FlowDb.CompactionOrder
open ByteString Records Sstable BlockIndex ManifestLog TableStore EngineOps EngineRuns GcVisibility PointSearch Compaction
open Merge MergeStretches DescendingMerge

/-- The records that `CompactionRunner::run` passes to its writer. -/
def passedOn (config : Config) (t : Tables) (popped : List InternalRecord) : List InternalRecord :=
  if t.manifest.state.sstables.entries.length < config.compactionThreshold then [] else written popped

/-- What the searches of a table rest on: its records ascend, and so does each block, and
no block begins before the last one ends. -/
structure WellFormed (config : Config) (records : List InternalRecord) : Prop where
  ascending : records.Pairwise fun a b => a.slot < b.slot
  blocks : ∀ chunk ∈ chunks config.blockSize records, chunk.Pairwise fun a b => a.slot < b.slot
  consecutive : ∀ id estimated, Consecutive ((SstStreamWriter.write records config.blockSize estimated
    config.bloomBitsPerKey).1.blockInfos.map (BlockMeta.fromBlockInfo id))

theorem wellFormed_iff (config : Config) (records : List InternalRecord) :
    WellFormed config records ↔ records.Pairwise fun a b => a.slot < b.slot := by
  refine ⟨WellFormed.ascending, fun ascending => ⟨ascending, ?_, fun id estimated => ?_⟩⟩
  · exact (List.pairwise_flatten.mp (by rwa [chunks_flatten])).1
  · refine metas_consecutive ?_ (chunksFrom_filled _ [] records) id
    have whole : SstFile.records ⟨chunks config.blockSize records⟩ = records := chunks_flatten config.blockSize records
    exact whole.symm ▸ ascending.imp le_of_lt

def isPut (r : InternalRecord) : Bool := r.op != .delete && r.op != .deleteRange

/-- The candidates' read orders, cut in front of every record that has no smaller slot
before it in its file: what the stretches may write ascends. -/
def Ascends (t : Tables) (nowUs : Int) : Prop :=
  Falls isPut fun i => stretches slotRank (readOrder t nowUs i)

theorem slotRank_lt_iff (a b : InternalRecord) : slotRank b < slotRank a ↔ a.slot < b.slot := by
  simp [slotRank, heapRank, Prod.Lex.toLex_lt_toLex]

theorem written_eq (popped : List InternalRecord) : written popped = (firsts slotRank none popped).filter isPut := by
  have same := firsts_congr (fun a b => (slotRank_eq_iff a b).symm) none popped
  rw [written]
  exact congrArg (List.filter isPut) same

/-- What a compaction passes to its writer makes a well-formed table, however the heap
breaks ties, exactly when it does not start or the stretches ascend. -/
theorem compaction_ascends_iff (config : Config) (t : Tables) (nowUs : Int) (fits : ∀ r ∈ t.records, TableFits r) :
    (∀ popped, Merges t nowUs popped → WellFormed config (passedOn config t (popped.map Prod.snd))) ↔
      t.manifest.state.sstables.entries.length < config.compactionThreshold ∨ Ascends t nowUs := by
  by_cases idle : t.manifest.state.sstables.entries.length < config.compactionThreshold
  · refine iff_of_true (fun popped _ => (wellFormed_iff config _).mpr ?_) (Or.inl idle)
    rw [passedOn, if_pos idle]
    exact .nil
  · simp only [passedOn, idle, if_false, false_or, wellFormed_iff, merges_iff fits, written_eq]
    rw [Ascends, ← merge_falls_iff]
    simp only [slotRank_lt_iff]

/-- Among unexpired puts of distinct slots it takes one candidate that holds them all, read in ascending order. -/
theorem ascends_distinct_iff {t : Tables} {nowUs : Int} (distinct : Distinct slotRank isPut (readOrder t nowUs)) :
    Ascends t nowUs ↔ (∀ i j, readOrder t nowUs i ≠ [] → readOrder t nowUs j ≠ [] → i = j) ∧
      ∀ i, (readOrder t nowUs i).Pairwise fun a b => a.slot < b.slot := by
  rw [Ascends, falls_distinct_iff isPut distinct]
  simp only [slotRank_lt_iff]

instance : Std.Total bySlotDesc := ⟨fun a b => le_total b.slot a.slot⟩

instance : IsTrans InternalRecord bySlotDesc := ⟨fun _ _ _ first second => second.trans first⟩

/-- An ascending file is read in ascending order if no block has two unexpired records. -/
theorem numbered_ascends_iff {nowUs : Int} {file : SstFile} (sorted : file.records.Pairwise fun a b => a.slot < b.slot) :
    (numbered nowUs file).Pairwise (fun a b => a.slot < b.slot) ↔
      ∀ chunk ∈ file.blocks, (chunk.filter fun r => decide (nowUs < r.expireAt)).length ≤ 1 := by
  obtain ⟨_, across⟩ := List.pairwise_flatten.mp sorted
  rw [numbered, List.pairwise_flatMap]
  constructor
  · rintro ⟨within, _⟩ chunk member
    have rising := within chunk member
    have falling := List.pairwise_insertionSort bySlotDesc (chunk.filter fun r => decide (nowUs < r.expireAt))
    rw [← List.length_insertionSort bySlotDesc]
    cases shape : (chunk.filter fun r => decide (nowUs < r.expireAt)).insertionSort bySlotDesc with
    | nil => simp
    | cons a rest =>
      cases rest with
      | nil => simp
      | cons b rest =>
        rw [shape] at rising falling
        have larger := (List.pairwise_cons.mp rising).1 b List.mem_cons_self
        exact absurd ((List.pairwise_cons.mp falling).1 b List.mem_cons_self) (not_le.mpr larger)
  · intro few
    refine ⟨fun chunk member => ?_, across.imp fun apart a first b second => ?_⟩
    · have short := few chunk member
      rw [← List.length_insertionSort bySlotDesc] at short
      cases shape : (chunk.filter fun r => decide (nowUs < r.expireAt)).insertionSort bySlotDesc with
      | nil => exact .nil
      | cons a rest =>
        have alone : rest = [] := by simpa [shape] using short
        exact alone ▸ List.pairwise_singleton _ a
    · exact apart a (List.mem_of_mem_filter ((List.mem_insertionSort _).mp first)) b
        (List.mem_of_mem_filter ((List.mem_insertionSort _).mp second))

/-! Two keys flushed together and a third one flushed later come out backwards. -/

def threeKeys : List (Command × Int) :=
  [(.writeBatch [.new [97] 1 [], .new [98] 1 []] none, 0), (.flush, 0), (.writeBatch [.new [99] 1 []] none, 0), (.flush, 0)]

def threeKeysTables : Tables := (run List.length (fresh {}) threeKeys).tables

def keyAt (byte : UInt8) (seq : Nat) : InternalRecord := .fromRecord (.new [byte] 1 []) seq

theorem threeKeys_fits : ∀ r ∈ threeKeysTables.records, TableFits r := by
  have written : threeKeysTables.records = [keyAt 97 1000000, keyAt 98 1000001, keyAt 99 1000002] := by decide +kernel
  rw [written]
  decide

theorem compaction_ascends_iff_keys :
    (∀ popped, Merges threeKeysTables 0 popped → WellFormed {} (passedOn {} threeKeysTables (popped.map Prod.snd))) ↔
      threeKeysTables.manifest.state.sstables.entries.length < Config.compactionThreshold {} ∨ Ascends threeKeysTables 0 :=
  compaction_ascends_iff {} threeKeysTables 0 threeKeys_fits

def largestFirst : List (Fin threeKeysTables.candidates.length × InternalRecord) :=
  [(⟨0, by decide +kernel⟩, keyAt 99 1000002), (⟨1, by decide +kernel⟩, keyAt 98 1000001),
    (⟨1, by decide +kernel⟩, keyAt 97 1000000)]

theorem keys_descend : Merges threeKeysTables 0 largestFirst ∧
    (passedOn {} threeKeysTables (largestFirst.map Prod.snd)).map (·.key) = [[99], [98], [97]] ∧
    ¬ WellFormed {} (passedOn {} threeKeysTables (largestFirst.map Prod.snd)) := by
  refine ⟨(merges_iff threeKeys_fits).mpr ((run_iff_interleaves ?_ _).mpr ⟨?_, ?_⟩), ?_, ?_⟩
  · decide +kernel
  · unfold Interleaves
    decide +kernel
  · decide +kernel
  · decide +kernel
  · rw [wellFormed_iff]
    decide +kernel

end FlowDb.CompactionOrder
