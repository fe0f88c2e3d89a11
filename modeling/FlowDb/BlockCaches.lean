import FlowDb.DirectoryRuns
import FlowDb.FailedFlushes
import FlowDb.IndexAgreement
import FlowDb.LatestReads
import FlowDb.LruCache
import FlowDb.ReadsDuringCompaction
import Mathlib.Logic.Function.Basic

/-! The block cache (cache.rs) and the map of open readers (engine.rs), and what fills
and empties them: gets, scans, compactions and GC runs, on any directory and with any
table ids used again. -/
namespace FlowDb.BlockCaches
open ByteString OrderedMap LruCache Records Sstable ManifestLog ManifestState BlockIndex BlockMetaIndex TableStore
open MemoryTables EngineOps EngineRuns MaintenanceSteps DirectoryRuns SstLedger FailedFlushes
open Reads (SlotSearch ScanIterator findInRecords isFullScan blockSource fullScanBlock filterSstBlock liveRecords tombstoneOf)

/-! ### The block cache -/

structure CacheKey where
  sstId : Nat
  blockIdx : Nat
  deriving DecidableEq, Repr

/-- The shard of a key, by 32-bit arithmetic. -/
def CacheKey.shard (key : CacheKey) : Fin 64 := Fin.ofNat 64 ((key.sstId * 0x9e3779b9 % 2 ^ 32) ^^^ key.blockIdx)

structure BlockCache where
  shards : Fin 64 → Lru CacheKey (List InternalRecord)

namespace BlockCache

/-- `stackSize` is the size of an `InternalRecord` in memory. -/
def withBlockSize (stackSize capacityMb blockSize : Nat) : BlockCache :=
  let bytesPerEntry := blockSize * (stackSize + 64)
  let totalEntries := max (capacityMb * 1024 * 1024 / max bytesPerEntry 1) 1
  ⟨fun _ => .new (max (totalEntries / 64) 1)⟩

def get (c : BlockCache) (key : CacheKey) : Option (List InternalRecord) × BlockCache :=
  let found := (c.shards key.shard).get key
  (found.1, ⟨Function.update c.shards key.shard found.2⟩)

def insert (c : BlockCache) (key : CacheKey) (records : List InternalRecord) : BlockCache :=
  ⟨Function.update c.shards key.shard ((c.shards key.shard).put key records)⟩

def invalidateSst (c : BlockCache) (sstId : Nat) : BlockCache :=
  ⟨fun shard =>
    let cache := c.shards shard
    let keysToRemove := (cache.entries.filter fun e => decide (e.1.sstId = sstId)).map Prod.fst
    keysToRemove.foldl Lru.pop cache⟩

/-- Some shard has the entry. -/
def Holds (c : BlockCache) (key : CacheKey) (records : List InternalRecord) : Prop :=
  ∃ shard, (key, records) ∈ (c.shards shard).entries

theorem holds_withBlockSize (stackSize capacityMb blockSize : Nat) (key : CacheKey) (records : List InternalRecord) :
    ¬ (withBlockSize stackSize capacityMb blockSize).Holds key records := by
  rintro ⟨_, member⟩
  cases member

/-- A lookup answers from the cache, and leaves no new entry behind. -/
theorem get_spec (c : BlockCache) (key : CacheKey) :
    (∀ records, (c.get key).1 = some records → c.Holds key records) ∧
      ∀ k records, (c.get key).2.Holds k records → c.Holds k records := by
  obtain ⟨answers, keeps⟩ := Lru.get_spec (c.shards key.shard) key
  refine ⟨fun records found => ⟨key.shard, answers records found⟩, ?_⟩
  rintro k records ⟨shard, member⟩
  by_cases here : shard = key.shard
  · subst here
    simp only [get, Function.update_self] at member
    exact ⟨_, keeps _ member⟩
  · simp only [get, Function.update_of_ne here] at member
    exact ⟨shard, member⟩

theorem holds_insert {c : BlockCache} {key k : CacheKey} {records held : List InternalRecord}
    (holds : (c.insert key records).Holds k held) : k = key ∧ held = records ∨ c.Holds k held := by
  obtain ⟨shard, member⟩ := holds
  by_cases here : shard = key.shard
  · subst here
    simp only [insert, Function.update_self] at member
    rcases Lru.mem_put member with new | old
    · exact Or.inl ⟨congrArg Prod.fst new, congrArg Prod.snd new⟩
    · exact Or.inr ⟨_, old⟩
  · simp only [insert, Function.update_of_ne here] at member
    exact Or.inr ⟨shard, member⟩

theorem holds_invalidateSst (c : BlockCache) (sstId : Nat) (key : CacheKey) (records : List InternalRecord) :
    (c.invalidateSst sstId).Holds key records ↔ c.Holds key records ∧ key.sstId ≠ sstId := by
  have each : ∀ shard, (key, records) ∈ ((c.invalidateSst sstId).shards shard).entries ↔
      (key, records) ∈ (c.shards shard).entries ∧ key.sstId ≠ sstId := fun shard => by
    rw [invalidateSst, Lru.mem_pops, and_congr_right_iff]
    intro member
    rw [not_iff_not]
    constructor
    · intro removed
      obtain ⟨e, inside, same⟩ := List.mem_map.mp removed
      have own : e.1.sstId = sstId := of_decide_eq_true (List.mem_filter.mp inside).2
      rwa [show e.1 = key from same] at own
    · exact fun own => List.mem_map.mpr ⟨_, List.mem_filter.mpr ⟨member, decide_eq_true own⟩, rfl⟩
  simp only [Holds, each, exists_and_right]

theorem holds_invalidateSsts (ids : List Nat) (c : BlockCache) (key : CacheKey) (records : List InternalRecord) :
    (ids.foldl invalidateSst c).Holds key records ↔ c.Holds key records ∧ key.sstId ∉ ids := by
  induction ids generalizing c with
  | nil => simp
  | cons id rest ih => rw [List.foldl_cons, ih, holds_invalidateSst, List.mem_cons, not_or, and_assoc]

end BlockCache

/-! ### Reads through the caches -/

/-- `readers` maps ids to the files as they were opened. -/
structure Caches where
  blocks : BlockCache
  readers : OMap Nat SstFile

/-- `read_block_inner`; an index past the last block is an error. -/
def readBlockInner (reader : SstFile) (blockIdx : Nat) : Option (List InternalRecord) :=
  (reader.blocks[blockIdx]?).map fun chunk => decodeRecords chunk.length (encodeRecords chunk)

theorem readBlock_inner (file : SstFile) (blockIdx : Nat) :
    file.readBlock blockIdx = (readBlockInner file blockIdx).getD [] := by
  unfold SstFile.readBlock readBlockInner
  cases file.blocks[blockIdx]? <;> rfl

def readBlockArc (reader : SstFile) (key : CacheKey) (cache : BlockCache) : Option (List InternalRecord) × BlockCache :=
  match cache.get key with
  | (some cached, cache) => (some cached, cache)
  | (none, cache) =>
      match readBlockInner reader key.blockIdx with
      | some rawRecords => (some rawRecords, cache.insert key rawRecords)
      | none => (none, cache)

section
variable (search : SlotSearch) (m : MemTables) (t : Tables)

/-- `get_reader`, which leaves a reader it opens in the map. -/
def getReader (sstId : Nat) (c : Caches) : Option SstFile × Caches :=
  match c.readers.get? sstId with
  | some reader => (some reader, c)
  | none =>
      match t.files.get? sstId with
      | some reader => (some reader, { c with readers := c.readers.insert sstId reader })
      | none => (none, c)

def getReaderFromMap (readers : OMap Nat SstFile) (sstId : Nat) : Option SstFile :=
  match readers.get? sstId with
  | some reader => some reader
  | none => t.files.get? sstId

-- `read_block_cached`, and on a miss `read_block_decompress` and an insert.
def blockSearch (key : Bytes) (ts nowUs : Int) (b : BlockMeta) (c : Caches) : Option Record × Caches :=
  match getReader t b.sstId c with
  | (none, c) => (none, c)
  | (some reader, c) =>
      let (records, blocks) := readBlockArc reader ⟨b.sstId, b.blockIdx⟩ c.blocks
      (records.bind fun records => findInRecords search records key ts nowUs, { c with blocks })

/-- Looks past the block cache. -/
def blockSearchLatest (key : Bytes) (nowUs : Int) (b : BlockMeta) (c : Caches) : Option Record × Caches :=
  match getReader t b.sstId c with
  | (none, c) => (none, c)
  | (some reader, c) =>
      (((readBlockInner reader b.blockIdx).bind fun records => LatestReads.latestOfBlock records key nowUs).map
        fun r => ⟨key, r.ts, r.expireAt, r.value⟩, c)

/-- The loop of `query_point_inline`. -/
def queryTables (key : Bytes) (nowUs : Int) (f : BlockMeta → Caches → Option Record × Caches) :
    List (Nat × List BlockMeta) → Caches → Option Record × Caches
  | [], c => (none, c)
  | e :: rest, c =>
      match if t.index.bloomMayContain e.1 key then searchedBlock e.2 key nowUs else none with
      | none => queryTables key nowUs f rest c
      | some b =>
          match f b c with
          | (some found, c) => (some found, c)
          | (none, c) => queryTables key nowUs f rest c

def queryPointInline (key : Bytes) (nowUs : Int) (f : BlockMeta → Caches → Option Record × Caches) (c : Caches) :
    Option Record × Caches :=
  queryTables t key nowUs f t.index.sstBlocks.entries c

/-- `Engine::get_sync`. -/
def getSync (key : Bytes) (ts nowUs : Int) (c : Caches) : Option Record × Caches :=
  match m.get key ts nowUs with
  | some r => (if r.op ≠ .delete then some r.toRecord else none, c)
  | none =>
      match t.index.singleSstPoint key nowUs with
      | some found => blockSearch search t key ts nowUs found c
      | none => queryPointInline t key nowUs (blockSearch search t key ts nowUs) c

/-- `Engine::get_latest`. -/
def getLatest (key : Bytes) (nowUs : Int) (c : Caches) : Option Record × Caches :=
  let (sstLatest, c) := queryPointInline t key nowUs (blockSearchLatest t key nowUs) c
  (match LatestReads.memTablesLatest m key nowUs, sstLatest with
  | some m, some s => if s.ts ≤ m.ts then some m.toRecord else some s
  | some m, none => some m.toRecord
  | none, some s => some s
  | none, none => none, c)

/-- The blocks a scan loads. Its readers are those of the map as it was, it leaves none
there, and a full scan looks past the block cache. -/
def loadBlocks (snapshot : OMap Nat SstFile) (fullScan : Bool) :
    List BlockMeta → Caches → List (List InternalRecord) × Caches
  | [], c => ([], c)
  | b :: rest, c =>
      match getReaderFromMap t snapshot b.sstId with
      | none => loadBlocks snapshot fullScan rest c
      | some reader =>
          let (records, blocks) :=
            if fullScan then (readBlockInner reader b.blockIdx, c.blocks)
            else readBlockArc reader ⟨b.sstId, b.blockIdx⟩ c.blocks
          let (loaded, c) := loadBlocks snapshot fullScan rest { c with blocks }
          (records.toList ++ loaded, c)

/-- `ScanIterator::build`. -/
def build (query : Query) (nowUs : Int) (c : Caches) : Option ScanIterator × Caches :=
  match t.index.query query.keyFilter query.timeRange nowUs with
  | none => (none, c)
  | some candidates =>
      let (blocks, c) := loadBlocks t c.readers (isFullScan query) candidates c
      (some (ReadsDuringCompaction.assemble query m blocks nowUs), c)

end

/-! ### Runs -/

/-- `evict_stale_readers`. -/
def Caches.evictStaleReaders (c : Caches) (t : Tables) : Caches :=
  { c with readers := c.readers.filter fun sstId _ => decide (Registered t sstId) }

def Caches.invalidate (c : Caches) (sstIds : List Nat) : Caches :=
  { c with blocks := sstIds.foldl BlockCache.invalidateSst c.blocks }

/-- The tables a compaction replaces. -/
def replacedSsts (config : Config) (t : Tables) : List Nat :=
  if t.manifest.state.sstables.entries.length < config.compactionThreshold then []
  else if t.candidates.all fun id => (t.file id).blocks.isEmpty then []
  else t.candidates

structure Store where
  engine : Engine
  caches : Caches

/-- `popped` is the order in which the heap of a compaction pops. An open starts with
empty caches, on a manifest that may be another than the engine left. -/
inductive Choice where
  | command (c : Command) (nowUs : Int)
  | triggerCompaction (popped : List InternalRecord)
  | triggerGc (nowUs : Int)
  | get (key : Bytes) (ts nowUs : Int)
  | getLatest (key : Bytes) (nowUs : Int)
  | scan (query : Query) (nowUs : Int)
  | reopen (config : Config) (manifest : Manifest) (unreadable : List Nat) (blockCacheCapacityMb : Nat)

section
variable (compressedLen : Bytes → Nat) (search : SlotSearch) (stackSize : Nat)

def Store.open (config : Config) (segments : List (Nat × Bytes)) (manifest : Manifest) (files : OMap Nat SstFile)
    (unreadable : List Nat) (blockCacheCapacityMb : Nat) : Store :=
  { engine := openMigrating config segments manifest files unreadable
    caches := ⟨.withBlockSize stackSize blockCacheCapacityMb config.blockSize, ∅⟩ }

def Store.step (s : Store) : Choice → Store
  | .command c nowUs => { s with engine := c.exec compressedLen s.engine nowUs }
  | .triggerCompaction popped =>
      let tables := CompactionRunner.run s.engine.config compressedLen s.engine.tables popped
      { engine := { s.engine with tables }
        caches := (s.caches.invalidate (replacedSsts s.engine.config s.engine.tables)).evictStaleReaders tables }
  | .triggerGc nowUs =>
      let tables := GcRunner.run s.engine.tables nowUs
      { engine := { s.engine with tables }
        caches := (s.caches.invalidate (expiredSsts s.engine.tables.manifest.state nowUs)).evictStaleReaders tables }
  | .get key ts nowUs => { s with caches := (getSync search s.engine.memtables s.engine.tables key ts nowUs s.caches).2 }
  | .getLatest key nowUs => { s with caches := (getLatest s.engine.memtables s.engine.tables key nowUs s.caches).2 }
  | .scan query nowUs => { s with caches := (build s.engine.memtables s.engine.tables query nowUs s.caches).2 }
  | .reopen config manifest unreadable blockCacheCapacityMb =>
      .open stackSize config s.engine.wal.files manifest s.engine.tables.files unreadable blockCacheCapacityMb

end

section
variable {α β γ : Type} (read : α → Option (List β))

theorem sources_missing (f : List β → List γ) (nothing : f [] = []) (l : List α) :
    ((l.filterMap read).map f).filter (fun s => !s.isEmpty) =
      ((l.map fun a => (read a).getD []).map f).filter fun s => !s.isEmpty := by
  induction l with
  | nil => rfl
  | cons a rest ih =>
    rw [List.map_cons, List.map_cons, List.filter_cons, ← ih, List.filterMap_cons]
    cases read a with
    | none => simp [nothing]
    | some records => rw [List.map_cons, List.filter_cons, Option.getD_some]

theorem flatMap_missing (f : List β → List γ) (nothing : f [] = []) (l : List α) :
    (l.filterMap read).flatMap f = (l.map fun a => (read a).getD []).flatMap f := by
  induction l with
  | nil => rfl
  | cons a rest ih =>
    rw [List.map_cons, List.flatMap_cons, ← ih, List.filterMap_cons]
    cases read a with
    | none => rw [Option.getD_none, nothing, List.nil_append]
    | some records => rw [List.flatMap_cons, Option.getD_some]

end

/-! ### Reads answer as from the files -/

/-- Every cached block and every open reader is of a registered table, and as in its file. -/
structure Current (t : Tables) (c : Caches) : Prop where
  blocks : ∀ key records, c.blocks.Holds key records → Registered t key.sstId ∧
    ∃ file, t.files.get? key.sstId = some file ∧ readBlockInner file key.blockIdx = some records
  readers : ∀ id file, c.readers.get? id = some file → Registered t id ∧ t.files.get? id = some file

/-- The index names tables of the manifest only. -/
structure Indexes (t : Tables) : Prop where
  bySst : Listed t
  byKey : ∀ b ∈ t.index.metas, Registered t b.sstId

/-- The read answers `a` whatever is cached, and keeps the caches current. -/
def Returns {α : Type} (t : Tables) (read : Caches → α × Caches) (a : α) : Prop :=
  ∀ c, Current t c → (read c).1 = a ∧ Current t (read c).2

section
variable {t : Tables}

theorem getReader_returns {id : Nat} (registered : Registered t id) : Returns t (getReader t id) (t.files.get? id) := by
  intro c current
  unfold getReader
  cases held : c.readers.get? id with
  | some reader => exact ⟨(current.readers id reader held).2.symm, current⟩
  | none =>
    cases filed : t.files.get? id with
    | none => exact ⟨rfl, current⟩
    | some reader =>
      refine ⟨rfl, current.blocks, fun k file there => ?_⟩
      rw [get?_insert] at there
      split_ifs at there with same
      · obtain rfl := Option.some.inj there
        exact same ▸ ⟨registered, filed⟩
      · exact current.readers k file there

theorem getReaderFromMap_eq {snapshot : OMap Nat SstFile}
    (opened : ∀ id file, snapshot.get? id = some file → t.files.get? id = some file) (id : Nat) :
    getReaderFromMap t snapshot id = t.files.get? id := by
  unfold getReaderFromMap
  cases held : snapshot.get? id with
  | some reader => exact (opened id reader held).symm
  | none => rfl

theorem readBlockArc_current {c : Caches} (current : Current t c) (key : CacheKey) {reader : SstFile}
    (registered : Registered t key.sstId) (filed : t.files.get? key.sstId = some reader) :
    (readBlockArc reader key c.blocks).1 = readBlockInner reader key.blockIdx ∧
      Current t { c with blocks := (readBlockArc reader key c.blocks).2 } := by
  obtain ⟨answers, keeps⟩ := c.blocks.get_spec key
  have kept : ∀ k records, (c.blocks.get key).2.Holds k records → _ := fun k records holds =>
    current.blocks k records (keeps k records holds)
  unfold readBlockArc
  rcases looked : c.blocks.get key with ⟨found, cache⟩
  rw [looked] at answers kept
  cases found with
  | some cached =>
    obtain ⟨_, file, there, same⟩ := current.blocks key cached (answers cached rfl)
    obtain rfl := Option.some.inj (filed.symm.trans there)
    exact ⟨same.symm, kept, current.readers⟩
  | none =>
    cases read : readBlockInner reader key.blockIdx with
    | none => exact ⟨rfl, kept, current.readers⟩
    | some rawRecords =>
      refine ⟨rfl, fun k records holds => ?_, current.readers⟩
      rcases BlockCache.holds_insert holds with ⟨rfl, rfl⟩ | old
      · exact ⟨registered, reader, filed, read⟩
      · exact kept k records old

theorem findInRecords_nil (search : SlotSearch) (key : Bytes) (ts nowUs : Int) :
    findInRecords search [] key ts nowUs = none := by
  unfold findInRecords
  cases search.find [] (toLex (key, ts)) <;> rfl

/-- Past the end of a file there is nothing to find. -/
theorem bind_readBlockInner {α : Type} (file : SstFile) (blockIdx : Nat) (f : List InternalRecord → Option α)
    (nothing : f [] = none) : (readBlockInner file blockIdx).bind f = f (file.readBlock blockIdx) := by
  rw [readBlock_inner]
  cases readBlockInner file blockIdx with
  | none => exact nothing.symm
  | some records => rfl

theorem blockSearch_returns (search : SlotSearch) (key : Bytes) (ts nowUs : Int) {b : BlockMeta}
    (registered : Registered t b.sstId) :
    Returns t (blockSearch search t key ts nowUs b) (Reads.blockSearch search t key ts nowUs b) := by
  intro c current
  obtain ⟨answer, after⟩ := getReader_returns registered c current
  unfold blockSearch
  rcases opened : getReader t b.sstId c with ⟨reader, c'⟩
  rw [opened] at answer after
  obtain rfl : reader = t.files.get? b.sstId := answer
  cases filed : t.files.get? b.sstId with
  | none =>
    refine ⟨?_, after⟩
    rw [Reads.blockSearch, Tables.file, filed]
    exact (findInRecords_nil search key ts nowUs).symm
  | some file =>
    obtain ⟨records, next⟩ := readBlockArc_current after ⟨b.sstId, b.blockIdx⟩ registered filed
    refine ⟨?_, next⟩
    have block := bind_readBlockInner file b.blockIdx (fun records => findInRecords search records key ts nowUs)
      (findInRecords_nil search key ts nowUs)
    rw [Reads.blockSearch, Tables.file, filed, Option.getD_some, ← block, ← records]

theorem blockSearchLatest_returns (key : Bytes) (nowUs : Int) {b : BlockMeta} (registered : Registered t b.sstId) :
    Returns t (blockSearchLatest t key nowUs b) (LatestReads.blockSearchLatest t key nowUs b) := by
  intro c current
  obtain ⟨answer, after⟩ := getReader_returns registered c current
  unfold blockSearchLatest
  rcases opened : getReader t b.sstId c with ⟨reader, c'⟩
  rw [opened] at answer after
  obtain rfl : reader = t.files.get? b.sstId := answer
  cases filed : t.files.get? b.sstId with
  | none =>
    refine ⟨?_, after⟩
    rw [LatestReads.blockSearchLatest, Tables.file, filed]
    rfl
  | some file =>
    refine ⟨?_, after⟩
    rw [LatestReads.blockSearchLatest, Tables.file, filed, Option.getD_some,
      ← bind_readBlockInner file b.blockIdx (fun records => LatestReads.latestOfBlock records key nowUs) rfl]

theorem queryTables_returns (key : Bytes) (nowUs : Int) {f : BlockMeta → Caches → Option Record × Caches}
    {g : BlockMeta → Option Record} (each : ∀ b, Registered t b.sstId → Returns t (f b) (g b))
    (entries : List (Nat × List BlockMeta)) (known : ∀ e ∈ entries, ∀ b ∈ e.2, Registered t b.sstId) :
    Returns t (queryTables t key nowUs f entries) (entries.findSome? fun e =>
      if t.index.bloomMayContain e.1 key then (searchedBlock e.2 key nowUs).bind g else none) := by
  induction entries with
  | nil => exact fun c current => ⟨rfl, current⟩
  | cons e rest ih =>
    intro c current
    have later := ih fun e member => known e (List.mem_cons_of_mem _ member)
    rw [List.findSome?_cons, queryTables]
    split_ifs with may
    · cases searched : searchedBlock e.2 key nowUs with
      | none => exact later c current
      | some b =>
        have registered := known e List.mem_cons_self b (PointReads.searchedBlock_mem _ _ _ b searched)
        obtain ⟨answer, after⟩ := each b registered c current
        rw [Option.bind_some, ← answer]
        dsimp only
        rcases found : f b c with ⟨r, c'⟩
        rw [found] at after
        cases r with
        | some r => exact ⟨rfl, after⟩
        | none => exact later c' after
    · exact later c current

variable (indexes : Indexes t)
include indexes

theorem Indexes.entries : ∀ e ∈ t.index.sstBlocks.entries, ∀ b ∈ e.2, Registered t b.sstId := by
  intro e member b inside
  obtain ⟨there, own⟩ := indexes.bySst e.1 e.2 ((get?_eq_some_iff _ _ _).mpr member)
  rw [own b inside]
  exact there

theorem Indexes.single {key : Bytes} {nowUs : Int} {found : BlockMeta}
    (single : t.index.singleSstPoint key nowUs = some found) : Registered t found.sstId := by
  unfold singleSstPoint at single
  split at single
  · rename_i e shape
    exact indexes.entries e (shape ▸ List.mem_singleton_self e) found (PointReads.searchedBlock_mem _ _ _ _ single)
  · cases single

/-- A get through the caches returns what it would read from the files. -/
theorem getSync_returns (search : SlotSearch) (m : MemTables) (key : Bytes) (ts nowUs : Int) :
    Returns t (getSync search m t key ts nowUs) (Reads.getSync search m t key ts nowUs) := by
  intro c current
  unfold getSync Reads.getSync
  cases m.get key ts nowUs with
  | some r => exact ⟨rfl, current⟩
  | none =>
    cases single : t.index.singleSstPoint key nowUs with
    | some found => exact blockSearch_returns search key ts nowUs (indexes.single single) c current
    | none =>
      exact queryTables_returns key nowUs (fun b registered => blockSearch_returns search key ts nowUs registered)
        t.index.sstBlocks.entries indexes.entries c current

theorem getLatest_returns (m : MemTables) (key : Bytes) (nowUs : Int) :
    Returns t (getLatest m t key nowUs) (LatestReads.getLatest m t key nowUs) := by
  intro c current
  obtain ⟨answer, after⟩ := queryTables_returns key nowUs
    (fun b registered => blockSearchLatest_returns key nowUs registered) t.index.sstBlocks.entries indexes.entries c current
  refine ⟨?_, after⟩
  rw [LatestReads.getLatest, BlockMetaIndex.queryPointInline, ← answer]
  rfl

omit indexes in
theorem loadBlocks_returns {snapshot : OMap Nat SstFile} (fullScan : Bool)
    (opened : ∀ id file, snapshot.get? id = some file → t.files.get? id = some file) (candidates : List BlockMeta)
    (known : ∀ b ∈ candidates, Registered t b.sstId) :
    Returns t (loadBlocks t snapshot fullScan candidates)
      (candidates.filterMap fun b => (t.files.get? b.sstId).bind fun file => readBlockInner file b.blockIdx) := by
  induction candidates with
  | nil => exact fun c current => ⟨rfl, current⟩
  | cons b rest ih =>
    intro c current
    have later := ih fun b member => known b (List.mem_cons_of_mem _ member)
    rw [loadBlocks, getReaderFromMap_eq opened]
    cases filed : t.files.get? b.sstId with
    | none =>
      rw [List.filterMap_cons_none (by rw [filed]; rfl)]
      exact later c current
    | some reader =>
      have block : (if fullScan then (readBlockInner reader b.blockIdx, c.blocks)
          else readBlockArc reader ⟨b.sstId, b.blockIdx⟩ c.blocks).1 = readBlockInner reader b.blockIdx ∧
          Current t { c with blocks := (if fullScan then (readBlockInner reader b.blockIdx, c.blocks)
            else readBlockArc reader ⟨b.sstId, b.blockIdx⟩ c.blocks).2 } := by
        split_ifs
        · exact ⟨rfl, current⟩
        · exact readBlockArc_current current ⟨b.sstId, b.blockIdx⟩ (known b List.mem_cons_self) filed
      obtain ⟨answer, after⟩ := later _ block.2
      refine ⟨?_, after⟩
      dsimp only
      rw [answer, block.1, List.filterMap_cons, filed, Option.bind_some]
      cases readBlockInner reader b.blockIdx <;> rfl

omit indexes in
/-- A block that cannot be read counts as one without records. -/
theorem assemble_missing (query : Query) (m : MemTables) (nowUs : Int) (candidates : List BlockMeta) :
    ReadsDuringCompaction.assemble query m (candidates.filterMap fun b =>
        (t.files.get? b.sstId).bind fun file => readBlockInner file b.blockIdx) nowUs =
      ReadsDuringCompaction.assemble query m (candidates.map fun b => (t.file b.sstId).readBlock b.blockIdx) nowUs := by
  have block : ∀ b : BlockMeta, (t.file b.sstId).readBlock b.blockIdx =
      ((t.files.get? b.sstId).bind fun file => readBlockInner file b.blockIdx).getD [] := fun b => by
    rw [Tables.file, readBlock_inner]
    cases t.files.get? b.sstId <;> rfl
  have nothing : blockSource query [] nowUs = [] := by simp [blockSource, fullScanBlock, filterSstBlock, liveRecords]
  simp only [ReadsDuringCompaction.assemble, block]
  rw [sources_missing _ (fun records => blockSource query records nowUs) nothing,
    flatMap_missing _ (fun records => (liveRecords nowUs records).filterMap tombstoneOf) rfl]

/-- A scan through the caches merges the sources it would have read from the files. -/
theorem build_returns (m : MemTables) (query : Query) (nowUs : Int) :
    Returns t (build m t query nowUs) (ScanIterator.build query m t nowUs) := by
  intro c current
  unfold build ScanIterator.build
  cases listed : t.index.query query.keyFilter query.timeRange nowUs with
  | none => exact ⟨rfl, current⟩
  | some candidates =>
    have known : ∀ b ∈ candidates, Registered t b.sstId := fun b member =>
      indexes.byKey b (mem_query t.index _ _ nowUs candidates listed b member)
    obtain ⟨answer, after⟩ := loadBlocks_returns (isFullScan query) (fun id file held => (current.readers id file held).2)
      candidates known c current
    refine ⟨?_, after⟩
    dsimp only
    rw [answer, assemble_missing]
    rfl

end

/-! ### The index names registered tables -/

section
variable {t : Tables} (indexes : Indexes t)
include indexes

theorem Indexes.publish (m : Manifest) (info : SstInfo) (f : SstFile) (bloom : Bloom.BloomFilter)
    (sstables : m.state.sstables = t.manifest.state.sstables.insert info.id info) :
    Indexes (publishSst t m info f bloom) := by
  refine ⟨listed_addSst indexes.bySst info f.blockInfos rfl sstables, fun b member => ?_⟩
  have inside := (mem_metas_addSst t.index info.id f.blockInfos b).mp member
  rw [Registered, show (publishSst t m info f bloom).manifest = m from rfl, sstables, get?_insert]
  split_ifs with new
  · rfl
  · rcases inside with added | old
    · obtain ⟨bi, _, rfl⟩ := List.mem_map.mp added
      exact absurd rfl new
    · exact indexes.byKey b old

theorem Indexes.deleteSsts (ids : List Nat) : Indexes (deleteSsts t ids) := by
  refine ⟨listed_deleteSsts indexes.bySst ids, fun b member => ?_⟩
  obtain ⟨old, kept⟩ := ((removeSsts_fields ids t.index).2.2 b).mp member
  simp only [Registered, TableStore.deleteSsts]
  rw [deletes_state, (removes_get? ids _ b.sstId).1, if_neg kept]
  exact indexes.byKey b old

theorem Indexes.flush (config : Config) (compressedLen : Bytes → Nat) (records : List InternalRecord) :
    Indexes (addFlushed config compressedLen t records) := by
  refine indexes.publish _ _ _ _ ?_
  simp only [state_append]
  exact (applyEntry_flush _ _ _ (flushedSst config records).1.blockInfos).1

theorem Indexes.compact (config : Config) (compressedLen : Bytes → Nat) (popped : List InternalRecord) :
    Indexes (CompactionRunner.run config compressedLen t popped) := by
  simp only [CompactionRunner.run]
  split_ifs
  · exact indexes
  · exact indexes
  · exact indexes.deleteSsts _
  · refine (indexes.deleteSsts t.candidates).publish _ _ _ _ ?_
    rw [state_append, (applyEntry_compaction _ _ _ _).1, TableStore.deleteSsts, deletes_state]

/-- A rebuilt filter changes nothing but filters. -/
theorem Indexes.migrateBloom (unreadable : List Nat) (bitsPerKey : Nat) (id : Nat) :
    Indexes (migrateBloom unreadable bitsPerKey t id) := by
  have dropped : Indexes { t with index := t.index.removeBloom id } := ⟨indexes.bySst, indexes.byKey⟩
  have rebuilt : ∀ f, Indexes { t with
      manifest := t.manifest.append (.updateBloom id f)
      index := t.index.setBloom id f } := fun f => by
    have registered : ∀ k, Registered t k → ((t.manifest.append (.updateBloom id f)).state.sstables.get? k).isSome := by
      intro k there
      rw [state_append, ManifestState.applyEntry]
      split
      · rw [get?_insert]
        split_ifs
        · rfl
        · exact there
      · exact there
    refine ⟨fun k blocks held => ?_, fun b member => registered _ (indexes.byKey b member)⟩
    obtain ⟨there, own⟩ := indexes.bySst k blocks held
    exact ⟨registered k there, own⟩
  unfold DirectoryRuns.migrateBloom rebuildBloomForSst
  cases t.files.get? id with
  | none => exact dropped
  | some file =>
    dsimp only
    split_ifs
    · exact dropped
    · exact rebuilt _

theorem Indexes.migrateBlooms (unreadable : List Nat) (bitsPerKey : Nat) :
    Indexes (migrateBlooms unreadable bitsPerKey t) := by
  unfold DirectoryRuns.migrateBlooms
  generalize staleSsts t.manifest.state = ids
  induction ids generalizing t with
  | nil => exact indexes
  | cons id rest ih => exact ih (indexes.migrateBloom unreadable bitsPerKey id)

end

theorem indexed_tables (state : ManifestState) (ids : List Nat) (idx : BlockMetaIndex)
    (before : ∀ b ∈ idx.metas, (state.sstables.get? b.sstId).isSome) :
    ∀ b ∈ (ids.foldl (IndexAgreement.indexSst state) idx).metas, (state.sstables.get? b.sstId).isSome := by
  induction ids generalizing idx with
  | nil => exact before
  | cons id rest ih =>
    refine ih _ fun b member => ?_
    unfold IndexAgreement.indexSst at member
    split at member
    · rename_i info blocks known listed
      have added : b ∈ (idx.addSst id blocks).metas := by
        split at member
        · exact member
        · exact member
      rcases (mem_metas_addSst idx id blocks b).mp added with new | old
      · obtain ⟨bi, _, rfl⟩ := List.mem_map.mp new
        exact Option.isSome_of_mem known
      · exact before b old
    · exact before b member

theorem indexes_open (config : Config) (segments : List (Nat × Bytes)) (manifest : Manifest) (files : OMap Nat SstFile)
    (unreadable : List Nat) : Indexes (openMigrating config segments manifest files unreadable).tables := by
  refine Indexes.migrateBlooms ⟨?_, ?_⟩ unreadable config.bloomBitsPerKey
  · exact (settled_open config segments manifest files).listed
  · exact indexed_tables manifest.state manifest.state.activeSstIds _ (by simp [BlockMetaIndex.new, metas, OMap.values])

/-! ### Caches stay current as tables come and go -/

section
variable {t t' : Tables} {c : Caches} {gone : List Nat}

/-- Every table but those of `gone` stays registered, with its file. -/
def Keeps (gone : List Nat) (t t' : Tables) : Prop :=
  ∀ id, Registered t id → id ∉ gone → Registered t' id ∧ t'.files.get? id = t.files.get? id

theorem Current.keeps (current : Current t c) (keeps : Keeps gone t t') {c' : Caches}
    (blocks : ∀ key records, c'.blocks.Holds key records → c.blocks.Holds key records ∧ key.sstId ∉ gone)
    (readers : ∀ id file, c'.readers.get? id = some file → c.readers.get? id = some file ∧ id ∉ gone) :
    Current t' c' := by
  constructor
  · intro key records holds
    obtain ⟨held, here⟩ := blocks key records holds
    obtain ⟨registered, file, filed, read⟩ := current.blocks key records held
    obtain ⟨still, same⟩ := keeps key.sstId registered here
    exact ⟨still, file, same.trans filed, read⟩
  · intro id file opened
    obtain ⟨held, here⟩ := readers id file opened
    obtain ⟨registered, filed⟩ := current.readers id file held
    obtain ⟨still, same⟩ := keeps id registered here
    exact ⟨still, same.trans filed⟩

/-- What `trigger_compaction` and `trigger_gc` do: the blocks of the tables that go are invalidated,
and then the readers of tables no longer registered are evicted. -/
theorem Current.removed (current : Current t c) (keeps : Keeps gone t t') (unregistered : ∀ id ∈ gone, ¬ Registered t' id) :
    Current t' ((c.invalidate gone).evictStaleReaders t') := by
  refine current.keeps keeps (fun key records => (BlockCache.holds_invalidateSsts gone c.blocks key records).mp) ?_
  intro id file opened
  rw [Caches.evictStaleReaders, get?_filter, Option.filter_eq_some_iff] at opened
  exact ⟨opened.1, fun inside => unregistered id inside (of_decide_eq_true opened.2)⟩

/-- A table published under a fresh id disturbs no other. -/
theorem keeps_publish (m : Manifest) (info : SstInfo) (f : SstFile) (bloom : Bloom.BloomFilter)
    (sstables : m.state.sstables = t.manifest.state.sstables.insert info.id info) (fresh : ¬ Registered t info.id) :
    Keeps [] t (publishSst t m info f bloom) := by
  intro id registered _
  have other : id ≠ info.id := fun same => fresh (same ▸ registered)
  simp only [Registered, publishSst, sstables, get?_insert, if_neg other]
  exact ⟨registered, trivial⟩

theorem registered_deleteSsts (t : Tables) (ids : List Nat) (id : Nat) :
    Registered (deleteSsts t ids) id ↔ Registered t id ∧ id ∉ ids := by
  simp only [Registered, deleteSsts]
  rw [deletes_state, (removes_get? ids _ id).1]
  split_ifs with there <;> simp [there]

theorem keeps_deleteSsts (t : Tables) (ids : List Nat) : Keeps ids t (deleteSsts t ids) := by
  intro id registered here
  refine ⟨(registered_deleteSsts t ids id).mpr ⟨registered, here⟩, ?_⟩
  simp only [deleteSsts, get?_filter]
  cases t.files.get? id <;> simp [Option.filter, here]

theorem keeps_addFlushed (config : Config) (compressedLen : Bytes → Nat) (t : Tables) (records : List InternalRecord) :
    Keeps [] t (addFlushed config compressedLen t records) := by
  refine keeps_publish _ _ _ _ ?_ (nextId_not_registered t)
  simp only [state_append]
  exact (applyEntry_flush _ _ _ (flushedSst config records).1.blockInfos).1

/-- One table in the place of others, under an id that none of them has. -/
theorem keeps_replaced (t : Tables) (ids : List Nat) (info : SstInfo) (f : SstFile) (bloom : Bloom.BloomFilter)
    (blocks : List BlockInfo) (registered : ∀ id ∈ ids, Registered t id) (fresh : ¬ Registered t info.id) :
    let t' := publishSst (deleteSsts t ids) (t.manifest.append (.compaction ids [info] [(info.id, blocks)])) info f bloom
    Keeps ids t t' ∧ ∀ id ∈ ids, ¬ Registered t' id := by
  intro t'
  have sstables : t'.manifest.state.sstables = (deleteSsts t ids).manifest.state.sstables.insert info.id info := by
    show (t.manifest.append (.compaction ids [info] [(info.id, blocks)])).state.sstables = _
    rw [state_append, (applyEntry_compaction _ _ _ _).1, deleteSsts, deletes_state]
  have absent : ¬ Registered (deleteSsts t ids) info.id := fun there =>
    fresh ((registered_deleteSsts t ids info.id).mp there).1
  refine ⟨fun id there here => ?_, fun id inside => ?_⟩
  · obtain ⟨still, same⟩ := keeps_deleteSsts t ids id there here
    obtain ⟨published, file⟩ := keeps_publish _ info f bloom sstables absent id still List.not_mem_nil
    exact ⟨published, file.trans same⟩
  · have other : id ≠ info.id := fun same => fresh (same ▸ registered id inside)
    rw [Registered, sstables, get?_insert, if_neg other]
    exact fun there => ((registered_deleteSsts t ids id).mp there).2 inside

/-- A compaction takes away the tables it replaces and no others, and does not write under their ids. -/
theorem compaction_replaces (config : Config) (compressedLen : Bytes → Nat) (t : Tables) (popped : List InternalRecord) :
    Keeps (replacedSsts config t) t (CompactionRunner.run config compressedLen t popped) ∧
      ∀ id ∈ replacedSsts config t, ¬ Registered (CompactionRunner.run config compressedLen t popped) id := by
  simp only [CompactionRunner.run, replacedSsts]
  split_ifs with few none empty
  · exact ⟨fun id registered _ => ⟨registered, rfl⟩, by simp⟩
  · exact ⟨fun id registered _ => ⟨registered, rfl⟩, by simp⟩
  · exact ⟨keeps_deleteSsts t _, fun id inside there => ((registered_deleteSsts t _ id).mp there).2 inside⟩
  · exact keeps_replaced t t.candidates (sstInfo t.manifest.state.nextSstId _ _ _) _ _ _
      (fun id inside => candidates_registered _ _ id inside) (nextId_not_registered t)

theorem gc_replaces (t : Tables) (nowUs : Int) :
    Keeps (expiredSsts t.manifest.state nowUs) t (GcRunner.run t nowUs) ∧
      ∀ id ∈ expiredSsts t.manifest.state nowUs, ¬ Registered (GcRunner.run t nowUs) id :=
  ⟨keeps_deleteSsts t _, fun id inside there => ((registered_deleteSsts t _ id).mp there).2 inside⟩

end

/-! ### Runs -/

/-- What every reachable state of engine and caches has. -/
structure Sound (s : Store) : Prop where
  indexes : Indexes s.engine.tables
  current : Current s.engine.tables s.caches

section
variable (compressedLen : Bytes → Nat) (search : SlotSearch) (stackSize : Nat)

theorem sound_open (config : Config) (segments : List (Nat × Bytes)) (manifest : Manifest) (files : OMap Nat SstFile)
    (unreadable : List Nat) (blockCacheCapacityMb : Nat) :
    Sound (.open stackSize config segments manifest files unreadable blockCacheCapacityMb) where
  indexes := indexes_open config segments manifest files unreadable
  current := ⟨fun key records holds => absurd holds (BlockCache.holds_withBlockSize _ _ _ key records), nofun⟩

theorem sound_step {s : Store} (sound : Sound s) (choice : Choice) :
    Sound (s.step compressedLen search stackSize choice) := by
  obtain ⟨indexes, current⟩ := sound
  cases choice with
  | command c nowUs =>
    exact
      { indexes := kept_command (fun config t records _ indexes => indexes.flush config compressedLen records)
          c s.engine nowUs indexes
        current := kept_command (P := fun t => Current t s.caches) (fun config t records _ current =>
          current.keeps (keeps_addFlushed config compressedLen t records) (fun _ _ holds => ⟨holds, List.not_mem_nil⟩)
            fun _ _ opened => ⟨opened, List.not_mem_nil⟩) c s.engine nowUs current }
  | triggerCompaction popped =>
    obtain ⟨keeps, unregistered⟩ := compaction_replaces s.engine.config compressedLen s.engine.tables popped
    exact ⟨indexes.compact _ _ _, current.removed keeps unregistered⟩
  | triggerGc nowUs =>
    obtain ⟨keeps, unregistered⟩ := gc_replaces s.engine.tables nowUs
    exact ⟨indexes.deleteSsts _, current.removed keeps unregistered⟩
  | get key ts nowUs => exact ⟨indexes, (getSync_returns indexes search s.engine.memtables key ts nowUs _ current).2⟩
  | getLatest key nowUs => exact ⟨indexes, (getLatest_returns indexes s.engine.memtables key nowUs _ current).2⟩
  | scan query nowUs => exact ⟨indexes, (build_returns indexes s.engine.memtables query nowUs _ current).2⟩
  | reopen config manifest unreadable blockCacheCapacityMb => exact sound_open _ _ _ _ _ _ _

theorem sound_run {s : Store} (sound : Sound s) (choices : List Choice) :
    Sound (choices.foldl (Store.step compressedLen search stackSize) s) := by
  induction choices generalizing s with
  | nil => exact sound
  | cons choice rest ih => exact ih (sound_step compressedLen search stackSize sound choice)

/-- In every state of a run gets and scans answer from the caches what they would from the files. -/
theorem reads_as_from_files (config : Config) (segments : List (Nat × Bytes)) (manifest : Manifest)
    (files : OMap Nat SstFile) (unreadable : List Nat) (blockCacheCapacityMb : Nat) (choices : List Choice) :
    let s := choices.foldl (Store.step compressedLen search stackSize)
      (.open stackSize config segments manifest files unreadable blockCacheCapacityMb)
    (∀ key ts nowUs, (getSync search s.engine.memtables s.engine.tables key ts nowUs s.caches).1 =
      Reads.getSync search s.engine.memtables s.engine.tables key ts nowUs) ∧
    (∀ key nowUs, (getLatest s.engine.memtables s.engine.tables key nowUs s.caches).1 =
      LatestReads.getLatest s.engine.memtables s.engine.tables key nowUs) ∧
    ∀ query nowUs, (build s.engine.memtables s.engine.tables query nowUs s.caches).1 =
      ScanIterator.build query s.engine.memtables s.engine.tables nowUs := by
  intro s
  obtain ⟨indexes, current⟩ : Sound s := sound_run compressedLen search stackSize (sound_open _ _ _ _ _ _ _) choices
  exact ⟨fun key ts nowUs => (getSync_returns indexes search s.engine.memtables key ts nowUs _ current).1,
    fun key nowUs => (getLatest_returns indexes s.engine.memtables key nowUs _ current).1,
    fun query nowUs => (build_returns indexes s.engine.memtables query nowUs _ current).1⟩

end

end FlowDb.BlockCaches
