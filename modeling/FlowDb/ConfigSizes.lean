import FlowDb.BlockCaches
import FlowDb.CheckedReads
import FlowDb.TtlArithmetic

/-! The units of a configuration. `Config::validate` refuses zeros and bounds the seconds that
become microseconds; the megabytes and the block size have no upper bound, and opening an engine
multiplies them as they are. -/
namespace FlowDb.ConfigSizes
open ByteString OrderedMap CheckedReads Records WalLog ManifestLog BlockIndex TableStore MemoryTables EngineOps
open TtlArithmetic BlockCaches

/-- `size_mb * 1024 * 1024` -/
def mbToBytes (sizeMb : Nat) : Checked Nat := do
  let sizeKb ← mul sizeMb 1024
  mul sizeKb 1024

-- `Wal::open`
def maxSegmentBytes (segmentSizeMb : Nat) : Checked Nat := mbToBytes segmentSizeMb

-- `BlockMetaIndex::new`
def timeBucketUs (timeBucketSecs : Nat) : Checked Int := mulSigned (u64AsI64 timeBucketSecs) 1000000

-- `Engine::open`, for `MemTables::new`
def memtableSizeLimit (memtableSizeMb : Nat) : Checked Nat := mbToBytes memtableSizeMb

structure CacheSizes where
  bytesPerEntry : Nat
  totalEntries : Nat
  perShard : Nat

/-- `BlockCache::with_block_size`, where `stackSize` is the size of an `InternalRecord` in memory. -/
def cacheSizes (stackSize capacityMb blockSize : Nat) : Checked CacheSizes := do
  let perRecord ← add stackSize 64
  let bytesPerEntry ← mul blockSize perRecord
  let capacity ← mbToBytes capacityMb
  let totalEntries := max (capacity / max bytesPerEntry 1) 1
  .ok ⟨bytesPerEntry, totalEntries, max (totalEntries / 64) 1⟩

/-- The same in numbers of any size. -/
def exactCache (stackSize capacityMb blockSize : Nat) : CacheSizes :=
  let bytesPerEntry := blockSize * (stackSize + 64)
  let totalEntries := max (capacityMb * 1024 * 1024 / max bytesPerEntry 1) 1
  ⟨bytesPerEntry, totalEntries, max (totalEntries / 64) 1⟩

structure Sizes where
  maxSegmentBytes : Nat
  timeBucketUs : Int
  memtableSizeLimit : Nat
  cache : CacheSizes

/-- What `Engine::open` computes of its configuration, in its order. -/
def openSizes (stackSize : Nat) (config : Config) (blockCacheCapacityMb : Nat) : Checked (Except String Sizes) :=
  match validate config blockCacheCapacityMb with
  | .error msg => .ok (.error msg)
  | .ok () => do
      let maxSegmentBytes ← maxSegmentBytes config.walSegmentSizeMb
      let timeBucketUs ← timeBucketUs config.timeBucketSecs
      let memtableSizeLimit ← memtableSizeLimit config.memtableSizeMb
      let cache ← cacheSizes stackSize blockCacheCapacityMb config.blockSize
      .ok (.ok ⟨maxSegmentBytes, timeBucketUs, memtableSizeLimit, cache⟩)

section
variable (stackSize : Nat) (config : Config) (blockCacheCapacityMb : Nat)

/-- No conversion overflows, and what is divided by later is not zero. -/
def Converts : Prop := ∃ sizes, openSizes stackSize config blockCacheCapacityMb = .ok (.ok sizes) ∧
  sizes.timeBucketUs ≠ 0 ∧ sizes.cache.bytesPerEntry ≠ 0

def exactSizes : Sizes where
  maxSegmentBytes := config.walSegmentSizeMb * 1024 * 1024
  timeBucketUs := config.timeBucketSecs * 1000000
  memtableSizeLimit := config.memtableSizeMb * 1024 * 1024
  cache := exactCache stackSize blockCacheCapacityMb config.blockSize

/-- The bounds that `validate` does not ask for. -/
structure Bounded : Prop where
  walSegment : config.walSegmentSizeMb < 2 ^ 44
  memtable : config.memtableSizeMb < 2 ^ 44
  blockCache : blockCacheCapacityMb < 2 ^ 44
  block : config.blockSize ≤ (2 ^ 64 - 1) / (stackSize + 64)

end

variable {stackSize blockCacheCapacityMb : Nat} {config : Config}

/-! ### One conversion -/

theorem mbToBytes_ok_iff {sizeMb n : Nat} : mbToBytes sizeMb = .ok n ↔ sizeMb < 2 ^ 44 ∧ n = sizeMb * 1024 * 1024 := by
  rw [mbToBytes, bind_ok_iff]
  constructor
  · rintro ⟨sizeKb, first, second⟩
    obtain ⟨_, rfl⟩ := mul_ok_iff.mp first
    obtain ⟨fits, rfl⟩ := mul_ok_iff.mp second
    exact ⟨by omega, rfl⟩
  · rintro ⟨small, rfl⟩
    exact ⟨sizeMb * 1024, mul_ok_iff.mpr ⟨by omega, rfl⟩, mul_ok_iff.mpr ⟨by omega, rfl⟩⟩

/-- The check on the width of a bucket is enough. -/
theorem timeBucketUs_eq {timeBucketSecs : Nat} (small : timeBucketSecs ≤ maxSecs) :
    timeBucketUs timeBucketSecs = .ok (timeBucketSecs * 1000000) := by
  rw [maxSecs] at small
  have cast : u64AsI64 timeBucketSecs = timeBucketSecs := if_pos (by omega)
  rw [timeBucketUs, cast]
  apply mulSigned_eq
  · omega
  · omega

theorem cacheSizes_ok_iff {capacityMb blockSize : Nat} (some_records : 0 < blockSize) {sizes : CacheSizes} :
    cacheSizes stackSize capacityMb blockSize = .ok sizes ↔ blockSize ≤ (2 ^ 64 - 1) / (stackSize + 64) ∧
      capacityMb < 2 ^ 44 ∧ sizes = exactCache stackSize capacityMb blockSize := by
  have product : blockSize ≤ (2 ^ 64 - 1) / (stackSize + 64) ↔ blockSize * (stackSize + 64) < 2 ^ 64 := by
    rw [Nat.le_div_iff_mul_le (by omega)]
    omega
  rw [cacheSizes, bind_ok_iff, product]
  constructor
  · rintro ⟨perRecord, sum, rest⟩
    obtain ⟨_, rfl⟩ := add_ok_iff.mp sum
    obtain ⟨bytesPerEntry, entry, rest⟩ := bind_ok_iff.mp rest
    obtain ⟨fits, rfl⟩ := mul_ok_iff.mp entry
    obtain ⟨capacity, bytes, rest⟩ := bind_ok_iff.mp rest
    obtain ⟨small, rfl⟩ := mbToBytes_ok_iff.mp bytes
    exact ⟨fits, small, (Except.ok.inj rest).symm⟩
  · rintro ⟨fits, small, rfl⟩
    -- A block has a record, so the size of one record fits where that of the block does.
    have record : stackSize + 64 ≤ blockSize * (stackSize + 64) := Nat.le_mul_of_pos_left _ some_records
    refine ⟨stackSize + 64, add_ok_iff.mpr ⟨by omega, rfl⟩, ?_⟩
    rw [mul_ok_iff.mpr ⟨fits, rfl⟩, ok_bind, mbToBytes_ok_iff.mpr ⟨small, rfl⟩]
    rfl

/-! ### Opening -/

theorem validated_sizes (valid : validate config blockCacheCapacityMb = .ok ()) :
    0 < config.blockSize ∧ 0 < config.timeBucketSecs ∧ config.timeBucketSecs ≤ maxSecs := by
  simp only [validate, check_iff] at valid
  obtain ⟨_, _, block, bucket, _, _, _, _, _, _, large, _⟩ := valid
  exact ⟨Nat.pos_of_ne_zero block, Nat.pos_of_ne_zero bucket, not_lt.mp large⟩

/-- Opening comes to its sizes within the bounds alone, and then they are the exact ones. -/
theorem openSizes_ok_iff (valid : validate config blockCacheCapacityMb = .ok ()) {sizes : Sizes} :
    openSizes stackSize config blockCacheCapacityMb = .ok (.ok sizes) ↔
      Bounded stackSize config blockCacheCapacityMb ∧ sizes = exactSizes stackSize config blockCacheCapacityMb := by
  obtain ⟨some_records, _, small⟩ := validated_sizes valid
  rw [openSizes, valid]
  simp only [timeBucketUs_eq small, ok_bind]
  constructor
  · intro opened
    obtain ⟨segmentBytes, segment, opened⟩ := bind_ok_iff.mp opened
    obtain ⟨walSegment, rfl⟩ := mbToBytes_ok_iff.mp segment
    obtain ⟨limit, limited, opened⟩ := bind_ok_iff.mp opened
    obtain ⟨memtable, rfl⟩ := mbToBytes_ok_iff.mp limited
    obtain ⟨cache, cached, opened⟩ := bind_ok_iff.mp opened
    obtain ⟨block, blockCache, rfl⟩ := (cacheSizes_ok_iff some_records).mp cached
    exact ⟨⟨walSegment, memtable, blockCache, block⟩, (Except.ok.inj (Except.ok.inj opened)).symm⟩
  · rintro ⟨bounded, rfl⟩
    rw [maxSegmentBytes, mbToBytes_ok_iff.mpr ⟨bounded.walSegment, rfl⟩, ok_bind, memtableSizeLimit,
      mbToBytes_ok_iff.mpr ⟨bounded.memtable, rfl⟩, ok_bind,
      (cacheSizes_ok_iff some_records).mpr ⟨bounded.block, bounded.blockCache, rfl⟩]
    rfl

/-! The engine and the cache of the other modules, whose numbers have no bound, have the exact sizes. -/

theorem addBlocks_width (metas : List BlockMeta) (idx : BlockMetaIndex) :
    (metas.foldl BlockMetaIndex.addBlock idx).timeBucketUs = idx.timeBucketUs := by
  induction metas generalizing idx with
  | nil => rfl
  | cons first rest ih => exact ih (idx.addBlock first)

theorem indexSsts_width (s : ManifestState) (ids : List Nat) (idx : BlockMetaIndex) :
    (ids.foldl (IndexAgreement.indexSst s) idx).timeBucketUs = idx.timeBucketUs := by
  induction ids generalizing idx with
  | nil => rfl
  | cons id rest ih =>
    rw [List.foldl_cons, ih, IndexAgreement.indexSst]
    cases s.sstables.get? id with
    | none => rfl
    | some info =>
      cases s.blockInfos.get? id with
      | none => rfl
      | some blocks =>
        dsimp only
        cases info.bloom with
        | none => exact addBlocks_width _ idx
        | some bloom => exact addBlocks_width _ idx

theorem inserts_limit (records : List InternalRecord) (m : MemTables) :
    (records.foldl MemTables.insert m).memtableSizeLimit = m.memtableSizeLimit := by
  induction records generalizing m with
  | nil => rfl
  | cons first rest ih => exact ih (m.insert first)

theorem openDir_limit (segments : List (Nat × Bytes)) (segmentSizeMb : Nat) :
    (Wal.openDir segments segmentSizeMb).maxSegmentBytes = segmentSizeMb * 1024 * 1024 := by
  rw [Wal.openDir]
  split_ifs
  · rfl
  · rfl

theorem open_sizes (stackSize : Nat) (config : Config) (blockCacheCapacityMb : Nat) (segments : List (Nat × Bytes))
    (manifest : Manifest) (files : OMap Nat Sstable.SstFile) :
    let e := Engine.open config segments manifest files
    let cache := BlockCache.withBlockSize stackSize blockCacheCapacityMb config.blockSize
    let sizes := exactSizes stackSize config blockCacheCapacityMb
    e.wal.maxSegmentBytes = sizes.maxSegmentBytes ∧ e.tables.index.timeBucketUs = sizes.timeBucketUs ∧
      e.memtables.memtableSizeLimit = sizes.memtableSizeLimit ∧
      ∀ shard, (cache.shards shard).capacity = sizes.cache.perShard := by
  intro e cache sizes
  refine ⟨?_, ?_, ?_, fun _ => rfl⟩
  · exact openDir_limit segments config.walSegmentSizeMb
  · exact indexSsts_width manifest.state manifest.state.activeSstIds (.new config.timeBucketSecs)
  · exact inserts_limit _ _

/-- A validated configuration is converted without overflow, and divides by no zero, exactly where
its sizes keep to the bounds that are not checked. -/
theorem conversions_whole_iff (stackSize : Nat) (config : Config) (blockCacheCapacityMb : Nat)
    (valid : validate config blockCacheCapacityMb = .ok ()) :
    Converts stackSize config blockCacheCapacityMb ↔ Bounded stackSize config blockCacheCapacityMb := by
  obtain ⟨some_records, some_width, _⟩ := validated_sizes valid
  constructor
  · rintro ⟨sizes, opened, _⟩
    exact ((openSizes_ok_iff valid).mp opened).1
  · intro bounded
    refine ⟨_, (openSizes_ok_iff valid).mpr ⟨bounded, rfl⟩, ?_, ?_⟩
    · dsimp only [exactSizes]
      omega
    · dsimp only [exactSizes, exactCache]
      exact (Nat.mul_pos some_records (by omega)).ne'

theorem conversions_whole_iff_default : validate {} 128 = .ok () ∧ Converts 104 {} 128 :=
  ⟨rfl, (conversions_whole_iff 104 {} 128 rfl).mpr ⟨by decide, by decide, by decide, by decide⟩⟩

/-- 2^44 megabytes for the memtable are accepted, and are 2^64 bytes. -/
theorem memtable_limit_overflows : validate { memtableSizeMb := 2 ^ 44 } 128 = .ok () ∧
    ∀ stackSize, ¬ Converts stackSize { memtableSizeMb := 2 ^ 44 } 128 := by
  refine ⟨rfl, ?_⟩
  rintro stackSize ⟨sizes, opened, _⟩
  have small := ((openSizes_ok_iff rfl).mp opened).1.memtable
  exact absurd small (by decide)

end FlowDb.ConfigSizes
