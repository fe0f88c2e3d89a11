import FlowDb.PrefixOrder
import FlowDb.Scans

/-! What a query's filter selects of the memtables and of the blocks of a table.
The two agree but for a scan of all keys, which the memtables answer with the keys
up to `~`. -/
namespace FlowDb.ScanFilters
open ByteString OrderedMap Records Sstable BlockIndex BlockMetaIndex TableStore MemoryTables Reads Scans

/-- A put of `rec` is among the versions. -/
def Held (versions : List InternalRecord) (rec : Record) : Prop :=
  ∃ r ∈ versions, r.op = .put ∧ r.toRecord = rec

def memRecords (m : MemTables) : List InternalRecord := m.gather MemTable.records

def HeldInBlock (t : Tables) (candidates : List BlockMeta) (rec : Record) : Prop :=
  ∃ block ∈ candidateBlocks t candidates, Held block rec

/-- The iterator has the record among its sources. -/
def Selects (it : ScanIterator) (rec : Record) : Prop := ∃ source ∈ it.sources, Held source rec

def fullQuery : Query := ⟨.all, none⟩

theorem memRecords_filter (m : MemTables) (keep : InternalRecord → Bool) :
    (memRecords m).filter keep = m.gather fun t => t.records.filter keep := by
  simp only [memRecords, MemTables.gather, List.filter_append, List.filter_flatMap]

theorem memResults_filter (m : MemTables) (query : Query) (nowUs : Int) : memResults m query nowUs =
    (memRecords m).filter fun r => reaches query r.slot && decide (nowUs ≤ r.expireAt) := by
  rw [memResults_eq, memRecords_filter]
  rfl

theorem held_filter {versions : List InternalRecord} {keep : InternalRecord → Bool} {rec : Record} (P : Prop)
    (kept : ∀ r, r.op = .put → r.toRecord = rec → (keep r = true ↔ P)) :
    Held (versions.filter keep) rec ↔ Held versions rec ∧ P := by
  constructor
  · rintro ⟨r, member, put, same⟩
    obtain ⟨inside, passes⟩ := List.mem_filter.mp member
    exact ⟨⟨r, inside, put, same⟩, (kept r put same).mp passes⟩
  · rintro ⟨⟨r, inside, put, same⟩, holds⟩
    exact ⟨r, List.mem_filter.mpr ⟨inside, (kept r put same).mpr holds⟩, put, same⟩

theorem held_unnumbered (versions : List InternalRecord) (rec : Record) :
    Held (versions.map fun r => { r with seq := 0 }) rec ↔ Held versions rec := by
  simp only [Held, List.mem_map]
  constructor
  · rintro ⟨_, ⟨r, inside, rfl⟩, put, same⟩
    exact ⟨r, inside, put, same⟩
  · rintro ⟨r, inside, put, same⟩
    exact ⟨_, ⟨r, inside, rfl⟩, put, same⟩

section
variable {query : Query} {nowUs : Int} {rec : Record} (live : nowUs < rec.expireAt)
include live

/-- The memtables give a live put if the query reaches it. -/
theorem held_memResults (m : MemTables) :
    Held (memResults m query nowUs) rec ↔ Held (memRecords m) rec ∧ reaches query (slotOf rec) = true := by
  rw [memResults_filter]
  refine held_filter _ fun r put same => ?_
  subst same
  have unexpired : nowUs ≤ r.expireAt := live.le
  simp [unexpired]

/-- A block gives a live put if its key and time pass the filter. -/
theorem held_blockSource (block : List InternalRecord) : Held (blockSource query block nowUs) rec ↔
    Held block rec ∧ (query.keyFilter.matchesKey rec.key && inTimeRange query.timeRange rec.ts) = true := by
  have alive : Held (liveRecords nowUs block) rec ↔ Held block rec ∧ True :=
    held_filter True fun r put same => by
      subst same
      exact iff_of_true (decide_eq_true live) trivial
  unfold blockSource
  split_ifs with full
  · have everything : (query.keyFilter.matchesKey rec.key && inTimeRange query.timeRange rec.ts) = true := by
      simp only [isFullScan, Bool.and_eq_true, Bool.or_eq_true, beq_iff_eq, Option.isNone_iff_eq_none] at full
      rcases full with ⟨all | empty, untimed⟩
      · rw [all, untimed]
        rfl
      · rw [empty, untimed]
        rfl
    rw [fullScanBlock, held_filter True fun r put _ => by simp [put], alive]
    simp [everything]
  · have passing : ∀ r : InternalRecord, r.op = .put → r.toRecord = rec →
        ((r.op != .deleteRange && query.keyFilter.matchesKey r.key && inTimeRange query.timeRange r.ts) = true ↔
          (query.keyFilter.matchesKey rec.key && inTimeRange query.timeRange rec.ts) = true) := by
      intro r put same
      subst same
      simp [put, InternalRecord.toRecord]
    rw [filterSstBlock, held_unnumbered, held_filter _ passing, alive, and_true]

theorem selects_iff {m : MemTables} {t : Tables} {candidates : List BlockMeta} {it : ScanIterator}
    (answer : t.index.query query.keyFilter query.timeRange nowUs = some candidates)
    (built : ScanIterator.build query m t nowUs = some it) :
    Selects it rec ↔ Held (memRecords m) rec ∧ reaches query (slotOf rec) = true ∨
      HeldInBlock t candidates rec ∧
        (query.keyFilter.matchesKey rec.key && inTimeRange query.timeRange rec.ts) = true := by
  obtain ⟨it', built', _, sources⟩ := build_eq (m := m) answer
  obtain rfl := Option.some.inj (built.symm.trans built')
  have sorted : Held ((memResults m query nowUs).insertionSort byVersion) rec ↔ Held (memResults m query nowUs) rec := by
    simp only [Held, List.mem_insertionSort]
  rw [← held_memResults live, ← sorted]
  constructor
  · rintro ⟨source, member, held⟩
    rcases ((sources source).mp member).2 with rfl | ⟨block, inside, rfl⟩
    · exact Or.inl held
    · obtain ⟨inBlock, passes⟩ := (held_blockSource live block).mp held
      exact Or.inr ⟨⟨block, inside, inBlock⟩, passes⟩
  · have nonempty : ∀ source, Held source rec → source ≠ [] := by
      rintro source ⟨r, inside, _⟩
      exact List.ne_nil_of_mem inside
    rintro (held | ⟨⟨block, inside, inBlock⟩, passes⟩)
    · exact ⟨_, (sources _).mpr ⟨nonempty _ held, Or.inl rfl⟩, held⟩
    · have held := (held_blockSource live block).mpr ⟨inBlock, passes⟩
      exact ⟨_, (sources _).mpr ⟨nonempty _ held, Or.inr ⟨block, inside, rfl⟩⟩, held⟩

end

/-- The iterator of a scan while the put is in the memtables, and in no block. -/
def Buffered (query : Query) (nowUs : Int) (rec : Record) (it : ScanIterator) : Prop :=
  ∃ m t candidates, t.index.query query.keyFilter query.timeRange nowUs = some candidates ∧
    ScanIterator.build query m t nowUs = some it ∧ Held (memRecords m) rec ∧ ¬ HeldInBlock t candidates rec

/-- The iterator of a scan while the put is in a candidate block, and not in the memtables. -/
def Flushed (query : Query) (nowUs : Int) (rec : Record) (it : ScanIterator) : Prop :=
  ∃ m t candidates, t.index.query query.keyFilter query.timeRange nowUs = some candidates ∧
    ScanIterator.build query m t nowUs = some it ∧ ¬ Held (memRecords m) rec ∧ HeldInBlock t candidates rec

/-- A scan of all keys whose memtable part stops short of the key. -/
def pastTilde (query : Query) (key : Bytes) : Prop := query = fullQuery ∧ [126] < key

/-- The memtables select what a block would, except of the keys a full scan misses. -/
theorem reaches_iff (query : Query) (key : Bytes) (ts : Int) : reaches query (toLex (key, ts)) = true ↔
    (query.keyFilter.matchesKey key && inTimeRange query.timeRange ts) = true ∧ ¬ pastTilde query key := by
  obtain ⟨keyFilter, timeRange⟩ := query
  by_cases all : keyFilter = .all ∧ timeRange = none
  · obtain ⟨rfl, rfl⟩ := all
    simp [reaches, memFilter, pastTilde, fullQuery, KeyFilter.matchesKey, inTimeRange, PrefixOrder.prefix_le]
  · have untouched : memFilter ⟨keyFilter, timeRange⟩ = keyFilter := if_neg all
    have other : ¬ pastTilde ⟨keyFilter, timeRange⟩ key := by
      rintro ⟨full, _⟩
      simp only [fullQuery, Query.mk.injEq] at full
      exact all full
    rw [reaches, untouched]
    exact ⟨fun passes => ⟨passes, other⟩, And.left⟩

/-- A live put is selected alike wherever it is held, and always by a full scan,
just when it is not a key that a full scan misses. -/
theorem filters_agree_iff {query : Query} {nowUs : Int} {rec : Record} (live : nowUs < rec.expireAt)
    {buffered flushed : ScanIterator} (inMemory : Buffered query nowUs rec buffered)
    (inTable : Flushed query nowUs rec flushed) :
    ((Selects buffered rec ↔ Selects flushed rec) ∧
      (query = fullQuery → Selects buffered rec ∧ Selects flushed rec)) ↔ ¬ pastTilde query rec.key := by
  obtain ⟨m, t, candidates, answer, built, held, absent⟩ := inMemory
  obtain ⟨m', t', candidates', answer', built', absent', held'⟩ := inTable
  rw [selects_iff live answer built, selects_iff live answer' built', slotOf, reaches_iff]
  simp only [held, absent, held', absent', true_and, false_and, or_false, false_or]
  constructor
  · rintro ⟨agree, _⟩ missed
    have passes : (query.keyFilter.matchesKey rec.key && inTimeRange query.timeRange rec.ts) = true := by
      rw [missed.1]
      rfl
    exact (agree.mpr passes).2 missed
  · refine fun seen => ⟨⟨And.left, fun passes => ⟨passes, seen⟩⟩, ?_⟩
    rintro rfl
    exact ⟨⟨rfl, seen⟩, rfl⟩

/-! A record under the key `é`, in UTF-8, is missed by a full scan until it is flushed. -/

def accented : Record := .new [195, 169] 0 [1]

def keptInMemory : MemTables := (MemTables.new 2 1000).insert (.fromRecord accented 1000000)

def keptInTable : Tables := addFlushed {} List.length (Tables.new 3600) [.fromRecord accented 1000000]

theorem buffered_accented : Buffered fullQuery 0 accented ⟨[], []⟩ := by
  refine ⟨keptInMemory, Tables.new 3600, [], by decide +kernel, by decide +kernel, ⟨_, List.mem_singleton_self _, rfl, rfl⟩, ?_⟩
  rintro ⟨block, inside, _⟩
  cases inside

theorem flushed_accented : Flushed fullQuery 0 accented ⟨[[.fromRecord accented 0]], []⟩ := by
  refine ⟨MemTables.new 2 1000, keptInTable, keptInTable.metas 1, by decide +kernel, by decide +kernel, ?_, ?_⟩
  · rintro ⟨r, inside, _⟩
    cases inside
  · exact ⟨[.fromRecord accented 0], by decide +kernel, _, List.mem_singleton_self _, rfl, rfl⟩

theorem filters_agree_accented : ¬ ((Selects ⟨[], []⟩ accented ↔ Selects ⟨[[.fromRecord accented 0]], []⟩ accented) ∧
    (fullQuery = fullQuery → Selects ⟨[], []⟩ accented ∧ Selects ⟨[[.fromRecord accented 0]], []⟩ accented)) :=
  fun agree => (filters_agree_iff (by decide) buffered_accented flushed_accented).mp agree ⟨rfl, by decide⟩

theorem full_scan_misses : ¬ ∀ (query : Query) (nowUs : Int) (rec : Record), nowUs < rec.expireAt →
    ∀ buffered flushed, Buffered query nowUs rec buffered → Flushed query nowUs rec flushed →
      (Selects buffered rec ↔ Selects flushed rec) := by
  intro agree
  have inMemory := (agree fullQuery 0 accented (by decide) _ _ buffered_accented flushed_accented).mpr
    ⟨_, List.mem_singleton_self _, _, List.mem_singleton_self _, rfl, rfl⟩
  obtain ⟨source, none, _⟩ := inMemory
  cases none

end FlowDb.ScanFilters
