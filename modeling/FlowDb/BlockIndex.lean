import FlowDb.ManifestLog

/-! The block index of block_meta_index.rs: blocks by key, by time bucket and by
table, and the bloom filter of each table. -/
namespace FlowDb.BlockIndex
open ByteString OrderedMap Records Bloom Sstable

structure BlockMeta where
  sstId : Nat
  blockIdx : Nat
  minKey : Bytes
  maxKey : Bytes
  minTs : Int
  maxTs : Int
  maxExpire : Int
  deriving DecidableEq, Repr

/-- What the prefix successor returns for a string of 0xFF bytes only. -/
def incrementPrefix (s : Bytes) : Bytes := incrementOr [0xEF, 0xBF, 0xBF] s

namespace BlockMeta

def fromBlockInfo (sstId : Nat) (bi : BlockInfo) : BlockMeta :=
  ⟨sstId, bi.blockIdx, bi.minKey, bi.maxKey, bi.minTs, bi.maxTs, bi.maxExpire⟩

def overlapsKeyPrefix (m : BlockMeta) (p : Bytes) : Bool :=
  decide (m.minKey < incrementPrefix p ∧ p ≤ m.maxKey)

def overlapsKeyRange (m : BlockMeta) (start stop : Bytes) : Bool :=
  decide (m.minKey ≤ stop ∧ start ≤ m.maxKey)

def overlapsTime (m : BlockMeta) (tsStart tsEnd : Int) : Bool :=
  decide (m.minTs ≤ tsEnd ∧ tsStart ≤ m.maxTs)

def isExpired (m : BlockMeta) (nowUs : Int) : Bool := decide (m.maxExpire < nowUs)

end BlockMeta

/-- `entry(k).or_default().push(v)`. -/
def pushEntry {κ ν : Type} [LinearOrder κ] (m : OMap κ (List ν)) (k : κ) (v : ν) : OMap κ (List ν) :=
  m.insert k ((m.get? k).getD [] ++ [v])

/-- `retain` on every list of the map, empty lists dropped. -/
def retainMetas {κ : Type} [LinearOrder κ] (m : OMap κ (List BlockMeta)) (sstId : Nat) :
    OMap κ (List BlockMeta) :=
  m.filterMap fun metas =>
    match metas.filter fun b => b.sstId != sstId with
    | [] => none
    | kept => some kept

structure BlockMetaIndex where
  byKey : OMap Bytes (List BlockMeta)
  byTime : OMap Int (List BlockMeta)
  timeBucketUs : Int
  blooms : OMap Nat BloomFilter
  sstBlocks : OMap Nat (List BlockMeta)
  deriving DecidableEq

namespace BlockMetaIndex

def new (timeBucketSecs : Nat) : BlockMetaIndex := ⟨∅, ∅, timeBucketSecs * 1000000, ∅, ∅⟩

def addBlock (idx : BlockMetaIndex) (m : BlockMeta) : BlockMetaIndex :=
  { idx with
    byKey := pushEntry idx.byKey m.minKey m
    byTime := pushEntry idx.byTime (m.minTs.tdiv idx.timeBucketUs) m }

def addSst (idx : BlockMetaIndex) (sstId : Nat) (blocks : List BlockInfo) : BlockMetaIndex :=
  let metas := blocks.map (BlockMeta.fromBlockInfo sstId)
  let idx := metas.foldl addBlock idx
  { idx with sstBlocks := idx.sstBlocks.insert sstId metas }

def setBloom (idx : BlockMetaIndex) (sstId : Nat) (bloom : BloomFilter) : BlockMetaIndex :=
  { idx with blooms := idx.blooms.insert sstId bloom }

def removeBloom (idx : BlockMetaIndex) (sstId : Nat) : BlockMetaIndex := { idx with blooms := idx.blooms.erase sstId }

def removeSst (idx : BlockMetaIndex) (sstId : Nat) : BlockMetaIndex :=
  { idx with
    byKey := retainMetas idx.byKey sstId
    byTime := retainMetas idx.byTime sstId
    blooms := idx.blooms.erase sstId
    sstBlocks := idx.sstBlocks.erase sstId }

def bloomMayContain (idx : BlockMetaIndex) (sstId : Nat) (key : Bytes) : Bool :=
  match idx.blooms.get? sstId with
  | some filter => filter.mayContain key
  | none => true

-- The loop of the search and the look at `blocks[lo]` behind it.
def searchLoop (blocks : List BlockMeta) (key : Bytes) : Nat → Nat → Nat → Option BlockMeta
  | 0, _, _ => none
  | fuel + 1, lo, hi =>
      if lo < hi then
        let mid := lo + (hi - lo) / 2
        match blocks[mid]? with
        | some b =>
            if b.maxKey < key then searchLoop blocks key fuel (mid + 1) hi
            else if key < b.minKey then searchLoop blocks key fuel lo mid
            else some b
        | none => none
      else (blocks[lo]?).filter fun b => decide (b.minKey ≤ key ∧ key ≤ b.maxKey)

def binarySearchBlock (blocks : List BlockMeta) (key : Bytes) : Option BlockMeta :=
  searchLoop blocks key (blocks.length + 1) 0 blocks.length

/-- The block a point lookup of `key` reads in one table, unless it is expired. -/
def searchedBlock (blocks : List BlockMeta) (key : Bytes) (nowUs : Int) : Option BlockMeta :=
  (binarySearchBlock blocks key).filter fun m => !m.isExpired nowUs

def queryPointInline {β : Type} (idx : BlockMetaIndex) (key : Bytes) (nowUs : Int)
    (f : BlockMeta → Option β) : Option β :=
  idx.sstBlocks.entries.findSome? fun e =>
    if idx.bloomMayContain e.1 key then (searchedBlock e.2 key nowUs).bind f else none

def singleSstPoint (idx : BlockMetaIndex) (key : Bytes) (nowUs : Int) : Option BlockMeta :=
  match idx.sstBlocks.entries with
  | [e] => searchedBlock e.2 key nowUs
  | _ => none

def collectByKey (idx : BlockMetaIndex) (keyFilter : KeyFilter) (nowUs : Int) : List BlockMeta :=
  match keyFilter with
  | .keyPrefix key =>
      ((idx.byKey.filter fun k _ => decide (k < incrementPrefix key)).values.flatten).filter fun m =>
        !m.isExpired nowUs && m.overlapsKeyPrefix key
  | .range start stop =>
      ((idx.byKey.filter fun k _ => decide (k < incrementPrefix stop)).values.flatten).filter fun m =>
        !m.isExpired nowUs && m.overlapsKeyRange start stop
  | .all => idx.byKey.values.flatten.filter fun m => !m.isExpired nowUs

-- `BTreeMap::range` panics on a range that starts behind its end: `none`.
def collectTimeSet (idx : BlockMetaIndex) (tsStart tsEnd nowUs : Int) : Option (List (Nat × Nat)) :=
  let bucketStart := tsStart.tdiv idx.timeBucketUs
  let bucketEnd := tsEnd.tdiv idx.timeBucketUs
  if bucketStart > bucketEnd then none
  else some ((((idx.byTime.filter fun k _ => decide (bucketStart ≤ k ∧ k ≤ bucketEnd)).values.flatten).filter
    fun m => !m.isExpired nowUs && m.overlapsTime tsStart tsEnd).map fun m => (m.sstId, m.blockIdx))

def query (idx : BlockMetaIndex) (keyFilter : KeyFilter) (timeRange : Option (Int × Int)) (nowUs : Int) :
    Option (List BlockMeta) :=
  let keyCandidates := idx.collectByKey keyFilter nowUs
  match timeRange with
  | some (tsStart, tsEnd) => do
      let timeSet ← idx.collectTimeSet tsStart tsEnd nowUs
      some (keyCandidates.filter fun m => decide ((m.sstId, m.blockIdx) ∈ timeSet))
  | none => some keyCandidates

/-- Every block the index can return as a scan candidate. -/
def metas (idx : BlockMetaIndex) : List BlockMeta := idx.byKey.values.flatten

end BlockMetaIndex

open BlockMetaIndex

section
variable {κ : Type} [LinearOrder κ] {ν : Type}

theorem mem_values_flatten (m : OMap κ (List ν)) (x : ν) :
    x ∈ m.values.flatten ↔ ∃ k l, m.get? k = some l ∧ x ∈ l := by
  simp only [OMap.values, List.mem_flatten, List.mem_map, get?_eq_some_iff]
  constructor
  · rintro ⟨l, ⟨⟨k, l⟩, member, rfl⟩, inside⟩
    exact ⟨k, l, member, inside⟩
  · rintro ⟨k, l, member, inside⟩
    exact ⟨l, ⟨(k, l), member, rfl⟩, inside⟩

theorem mem_pushEntry (m : OMap κ (List ν)) (k : κ) (v x : ν) :
    x ∈ (pushEntry m k v).values.flatten ↔ x = v ∨ x ∈ m.values.flatten := by
  simp only [mem_values_flatten, pushEntry, get?_insert]
  constructor
  · rintro ⟨k', l, held, inside⟩
    split_ifs at held with here
    · obtain rfl := Option.some.inj held
      rcases List.mem_append.mp inside with old | new
      · cases found : m.get? k with
        | none => simp [found] at old
        | some l => exact Or.inr ⟨k, l, found, by simpa [found] using old⟩
      · exact Or.inl (List.mem_singleton.mp new)
    · exact Or.inr ⟨k', l, held, inside⟩
  · rintro (rfl | ⟨k', l, held, inside⟩)
    · exact ⟨k, _, if_pos rfl, by simp⟩
    · by_cases here : k' = k
      · subst here
        exact ⟨k', _, if_pos rfl, by simp [held, inside]⟩
      · exact ⟨k', l, by rw [if_neg here, held], inside⟩

theorem mem_retainMetas (m : OMap κ (List BlockMeta)) (sstId : Nat) (x : BlockMeta) :
    x ∈ (retainMetas m sstId).values.flatten ↔ x ∈ m.values.flatten ∧ x.sstId ≠ sstId := by
  have kept : ∀ metas : List BlockMeta, ∀ l, (match metas.filter fun b => b.sstId != sstId with
      | [] => none
      | kept => some kept) = some l ↔ (metas.filter fun b => b.sstId != sstId) = l ∧ l ≠ [] := by
    intro metas l
    cases found : metas.filter fun b => b.sstId != sstId with
    | nil => simp
    | cons b rest =>
      constructor
      · rintro ⟨⟩
        simp
      · rintro ⟨rfl, _⟩
        rfl
  simp only [mem_values_flatten, retainMetas, get?_eq_some_iff, mem_filterMap_iff, kept]
  constructor
  · rintro ⟨k, l, ⟨metas, member, rfl, _⟩, inside⟩
    obtain ⟨there, other⟩ := List.mem_filter.mp inside
    exact ⟨⟨k, metas, member, there⟩, by simpa using other⟩
  · rintro ⟨⟨k, metas, member, there⟩, other⟩
    have inside : x ∈ metas.filter fun b => b.sstId != sstId := List.mem_filter.mpr ⟨there, by simpa using other⟩
    exact ⟨k, _, ⟨metas, member, rfl, List.ne_nil_of_mem inside⟩, inside⟩

end

theorem addBlocks_fields (new : List BlockMeta) (idx : BlockMetaIndex) :
    (new.foldl addBlock idx).sstBlocks = idx.sstBlocks ∧ (new.foldl addBlock idx).blooms = idx.blooms ∧
      ∀ m, m ∈ (new.foldl addBlock idx).metas ↔ m ∈ new ∨ m ∈ idx.metas := by
  induction new generalizing idx with
  | nil => simp
  | cons first rest ih =>
    obtain ⟨blocks, blooms, members⟩ := ih (idx.addBlock first)
    refine ⟨blocks, blooms, fun m => ?_⟩
    rw [List.foldl_cons, members, List.mem_cons, metas, addBlock, mem_pushEntry]
    exact or_left_comm.trans (or_assoc.symm.trans (by rw [metas]))

theorem mem_metas_addSst (idx : BlockMetaIndex) (sstId : Nat) (blocks : List BlockInfo) (m : BlockMeta) :
    m ∈ (idx.addSst sstId blocks).metas ↔
      m ∈ blocks.map (BlockMeta.fromBlockInfo sstId) ∨ m ∈ idx.metas :=
  (addBlocks_fields _ idx).2.2 m

theorem sstBlocks_addSst (idx : BlockMetaIndex) (sstId : Nat) (blocks : List BlockInfo) :
    (idx.addSst sstId blocks).sstBlocks =
      idx.sstBlocks.insert sstId (blocks.map (BlockMeta.fromBlockInfo sstId)) := by
  rw [addSst, (addBlocks_fields _ idx).1]

@[simp] theorem blooms_addSst (idx : BlockMetaIndex) (sstId : Nat) (blocks : List BlockInfo) :
    (idx.addSst sstId blocks).blooms = idx.blooms := (addBlocks_fields _ idx).2.1

theorem mem_metas_removeSst (idx : BlockMetaIndex) (sstId : Nat) (m : BlockMeta) :
    m ∈ (idx.removeSst sstId).metas ↔ m ∈ idx.metas ∧ m.sstId ≠ sstId :=
  mem_retainMetas idx.byKey sstId m

theorem removeSsts_fields (ids : List Nat) (idx : BlockMetaIndex) :
    (∀ k, (ids.foldl removeSst idx).sstBlocks.get? k = if k ∈ ids then none else idx.sstBlocks.get? k) ∧
      (∀ k, (ids.foldl removeSst idx).blooms.get? k = if k ∈ ids then none else idx.blooms.get? k) ∧
      ∀ m, m ∈ (ids.foldl removeSst idx).metas ↔ m ∈ idx.metas ∧ m.sstId ∉ ids := by
  induction ids generalizing idx with
  | nil => simp
  | cons id rest ih =>
    obtain ⟨blocks, blooms, members⟩ := ih (idx.removeSst id)
    refine ⟨fun k => ?_, fun k => ?_, fun m => ?_⟩
    · rw [List.foldl_cons, blocks]
      by_cases later : k ∈ rest <;> by_cases here : k = id <;> simp [removeSst, get?_erase, later, here]
    · rw [List.foldl_cons, blooms]
      by_cases later : k ∈ rest <;> by_cases here : k = id <;> simp [removeSst, get?_erase, later, here]
    · rw [List.foldl_cons, members, mem_metas_removeSst, List.mem_cons, not_or, and_assoc]

-- A scan never gets a block that is not in the index, nor an expired one.
theorem mem_query (idx : BlockMetaIndex) (keyFilter : KeyFilter) (timeRange : Option (Int × Int)) (nowUs : Int)
    (found : List BlockMeta) (answer : idx.query keyFilter timeRange nowUs = some found) (m : BlockMeta)
    (member : m ∈ found) : m ∈ idx.metas := by
  have byKey : m ∈ idx.collectByKey keyFilter nowUs := by
    cases timeRange with
    | none => exact Option.some.inj answer ▸ member
    | some range =>
      simp only [query, Option.bind_eq_bind, Option.bind_eq_some_iff, Option.some.injEq] at answer
      obtain ⟨timeSet, _, rfl⟩ := answer
      exact List.mem_of_mem_filter member
  have ranged : ∀ keep : Bytes → Bool, m ∈ (idx.byKey.filter fun k _ => keep k).values.flatten → m ∈ idx.metas := by
    intro keep inside
    obtain ⟨k, l, held, inside⟩ := (mem_values_flatten _ m).mp inside
    rw [get?_filter, Option.filter_eq_some_iff] at held
    exact (mem_values_flatten _ m).mpr ⟨k, l, held.1, inside⟩
  cases keyFilter with
  | keyPrefix p => exact ranged _ (List.mem_of_mem_filter byKey)
  | range start stop => exact ranged _ (List.mem_of_mem_filter byKey)
  | all => exact List.mem_of_mem_filter byKey

end FlowDb.BlockIndex
