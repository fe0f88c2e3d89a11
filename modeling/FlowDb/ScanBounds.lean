import FlowDb.BlockLookup
import FlowDb.KeySpace
import FlowDb.ReadsDuringCompaction
import FlowDb.ScanFilters

/-! The four bounds of a scan range and the records a scan of the memtables yields.
The translation of a range keeps an excluded end as an included one, and drops the
bounds on keys, and those on times, of any other shape than it knows. -/
namespace FlowDb.ScanBounds
open ByteString OrderedMap Records MemoryTables Reads Scans ScanFilters ReadsDuringCompaction PrefixOrder KeySpace
open BlockLookup (Newest)

section
variable {α : Type} [LinearOrder α]

def startsBefore : Bound α → α → Prop
  | .included start, x => start ≤ x
  | .excluded start, x => start < x
  | .unbounded, _ => True

def endsAfter : Bound α → α → Prop
  | .included stop, x => x ≤ stop
  | .excluded stop, x => x < stop
  | .unbounded, _ => True

end

def keyInside (range : ScanRange) (key : Bytes) : Prop := startsBefore range.keyStart key ∧ endsAfter range.keyEnd key

def timeInside (range : ScanRange) (ts : Int) : Prop := startsBefore range.tsStart ts ∧ endsAfter range.tsEnd ts

/-- The pairs of bounds on keys that `to_query_params` does not drop. -/
def keysKept (range : ScanRange) : Prop :=
  ∃ start, range.keyStart = .included start ∧ ∃ stop, range.keyEnd = .included stop ∨ range.keyEnd = .excluded stop

def timesKept (range : ScanRange) : Prop :=
  ∃ start stop, range.tsStart = .included start ∧ range.tsEnd = .included stop

/-- A key that the kept bounds leave out and the filter takes in: the excluded end
itself, or an extension of a start that has no successor. -/
inductive Overshoots (range : ScanRange) (key : Bytes) : Prop where
  | atEnd (start : Bytes) (low : range.keyStart = .included start) (high : range.keyEnd = .excluded key)
      (other : key ≠ incrementPrefixBytes start) (above : start ≤ key)
  | beyondTop (start : Bytes) (low : range.keyStart = .included start)
      (high : range.keyEnd = .excluded (incrementPrefixBytes start)) (top : ∀ b ∈ start, b = 255)
      (begins : start <+: key) (proper : start ≠ key)

/-- A key and time that a scan gets wrong. -/
inductive Misread (range : ScanRange) (key : Bytes) (ts : Int) : Prop where
  | overshoot (keys : Overshoots range key) (times : timesKept range → timeInside range ts)
  | timesDropped (keys : keysKept range) (inside : keyInside range key) (times : ¬ timesKept range)
      (outside : ¬ timeInside range ts)
  | keysDropped (keys : ¬ keysKept range) (outside : ¬ keyInside range key) (times : timesKept range)
      (inside : timeInside range ts)
  | bothDropped (keys : ¬ keysKept range) (times : ¬ timesKept range) (low : key ≤ [126])
      (outside : ¬ (keyInside range key ∧ timeInside range ts))
  | pastTilde (keys : ¬ keysKept range) (times : ¬ timesKept range) (high : [126] < key)
      (inside : keyInside range key ∧ timeInside range ts)

/-- `Engine::scan_opt` on the memtables, where the index has no candidate. -/
def scanMem (m : MemTables) (range : ScanRange) (nowUs : Int) : ScanIterator :=
  assemble ⟨range.toQueryParams.1, range.toQueryParams.2⟩ m [] nowUs

theorem build_scanMem {t : TableStore.Tables} {range : ScanRange} {nowUs : Int} (m : MemTables)
    (answer : t.index.query range.toQueryParams.1 range.toQueryParams.2 nowUs = some []) :
    ScanIterator.build ⟨range.toQueryParams.1, range.toQueryParams.2⟩ m t nowUs = some (scanMem m range nowUs) :=
  @build_assemble ⟨_, _⟩ m t nowUs [] answer

section
variable {range : ScanRange} {key : Bytes} {ts : Int}

/-- A start has its extensions up to its successor, and those beyond if it has none. -/
theorem begins_iff {start : Bytes} : start <+: key ↔
    (start ≤ key ∧ key < incrementPrefixBytes start) ∨ (∀ b ∈ start, b = 255) ∧ start <+: key ∧ start ≠ key := by
  by_cases top : ∀ b ∈ start, b = 255
  · rw [increment_sentinel top, between_least least_byte]
    constructor
    · intro begins
      by_cases same : key = start
      · exact Or.inl same
      · exact Or.inr ⟨top, begins, Ne.symm same⟩
    · rintro (rfl | ⟨_, begins, _⟩)
      · exact List.prefix_rfl
      · exact begins
  · push Not at top
    obtain ⟨b, member, small⟩ := top
    have grows : b < 255 := lt_of_le_of_ne (greatest_byte b) small
    rw [between_successor greatest_byte (increment_successor member grows)]
    exact ⟨Or.inl, fun either => either.elim id fun beyond => beyond.2.1⟩

/-- Where the bounds on keys are kept, the filter takes in the keys inside them and those overshot. -/
theorem matchesKey_kept (kept : keysKept range) :
    range.toQueryParams.1.matchesKey key = true ↔ keyInside range key ∨ Overshoots range key := by
  obtain ⟨keyStart, keyEnd, tsStart, tsEnd⟩ := range
  obtain ⟨start, rfl : keyStart = _, stop, rfl | rfl⟩ := kept
  · simp only [ScanRange.toQueryParams, KeyFilter.matchesKey, keyInside, startsBefore, endsAfter, decide_eq_true_eq]
    exact ⟨Or.inl, fun either => either.resolve_right (by rintro (⟨_, _, ⟨⟩⟩ | ⟨_, _, ⟨⟩⟩))⟩
  by_cases next : stop = incrementPrefixBytes start
  · subst next
    have filter : (ScanRange.toQueryParams ⟨.included start, .excluded (incrementPrefixBytes start), tsStart, tsEnd⟩).1 =
        .keyPrefix start := if_pos (beq_self_eq_true _)
    rw [filter]
    simp only [KeyFilter.matchesKey, List.isPrefixOf_iff_prefix, keyInside, startsBefore, endsAfter]
    rw [begins_iff]
    apply or_congr_right
    constructor
    · rintro ⟨top, begins, proper⟩
      exact .beyondTop start rfl rfl top begins proper
    · rintro (⟨_, ⟨⟩, ⟨⟩, other, _⟩ | ⟨_, ⟨⟩, _, top, begins, proper⟩)
      · exact absurd rfl other
      · exact ⟨top, begins, proper⟩
  · have filter : (ScanRange.toQueryParams ⟨.included start, .excluded stop, tsStart, tsEnd⟩).1 = .range start stop :=
      if_neg (by simpa [isPrefixRange] using next)
    rw [filter]
    simp only [KeyFilter.matchesKey, decide_eq_true_eq, keyInside, startsBefore, endsAfter]
    constructor
    · rintro ⟨above, below⟩
      rcases below.lt_or_eq with less | rfl
      · exact Or.inl ⟨above, less⟩
      · exact Or.inr (.atEnd start rfl rfl next above)
    · rintro (⟨above, less⟩ | ⟨_, ⟨⟩, ⟨⟩, _, above⟩ | ⟨_, ⟨⟩, ⟨⟩, _, _, _⟩)
      · exact ⟨above, less.le⟩
      · exact ⟨above, le_refl _⟩
      · exact absurd rfl next

theorem keyFilter_dropped (dropped : ¬ keysKept range) : range.toQueryParams.1 = .all := by
  obtain ⟨keyStart, keyEnd, tsStart, tsEnd⟩ := range
  cases keyStart with
  | included start =>
    cases keyEnd with
    | included stop => exact absurd ⟨start, rfl, stop, Or.inl rfl⟩ dropped
    | excluded stop => exact absurd ⟨start, rfl, stop, Or.inr rfl⟩ dropped
    | unbounded => rfl
  | excluded start => cases keyEnd <;> rfl
  | unbounded => cases keyEnd <;> rfl

theorem keyFilter_kept (kept : keysKept range) : range.toQueryParams.1 ≠ .all := by
  obtain ⟨keyStart, keyEnd, tsStart, tsEnd⟩ := range
  obtain ⟨start, rfl : keyStart = _, stop, rfl | rfl⟩ := kept
  · exact KeyFilter.noConfusion
  · simp only [ScanRange.toQueryParams]
    split_ifs <;> exact KeyFilter.noConfusion

theorem overshoots_outside (past : Overshoots range key) : keysKept range ∧ ¬ keyInside range key := by
  obtain ⟨keyStart, keyEnd, tsStart, tsEnd⟩ := range
  rcases past with ⟨start, rfl, rfl, _, _⟩ | ⟨start, rfl, rfl, top, begins, proper⟩
  · exact ⟨⟨start, rfl, key, Or.inr rfl⟩, fun inside => lt_irrefl key inside.2⟩
  · refine ⟨⟨start, rfl, _, Or.inr rfl⟩, fun inside => proper ?_⟩
    have least := increment_sentinel top
    exact ((between_least least_byte).mp (least ▸ inside)).symm

theorem timeRange_kept (kept : timesKept range) :
    inTimeRange range.toQueryParams.2 ts = true ↔ timeInside range ts := by
  obtain ⟨keyStart, keyEnd, tsStart, tsEnd⟩ := range
  obtain ⟨start, stop, rfl : tsStart = _, rfl : tsEnd = _⟩ := kept
  simp [ScanRange.toQueryParams, inTimeRange, timeInside, startsBefore, endsAfter]

theorem timeRange_dropped (dropped : ¬ timesKept range) : range.toQueryParams.2 = none := by
  obtain ⟨keyStart, keyEnd, tsStart, tsEnd⟩ := range
  cases tsStart with
  | included start =>
    cases tsEnd with
    | included stop => exact absurd ⟨start, stop, rfl, rfl⟩ dropped
    | excluded stop => rfl
    | unbounded => rfl
  | excluded start => cases tsEnd <;> rfl
  | unbounded => cases tsEnd <;> rfl

theorem misread_kept (kept : keysKept range) : Misread range key ts ↔
    Overshoots range key ∧ (timesKept range → timeInside range ts) ∨
      keyInside range key ∧ ¬ timesKept range ∧ ¬ timeInside range ts := by
  constructor
  · rintro (⟨past, times⟩ | ⟨_, inside, times, outside⟩ | dropped | dropped | dropped)
    · exact Or.inl ⟨past, times⟩
    · exact Or.inr ⟨inside, times, outside⟩
    all_goals exact absurd kept dropped
  · rintro (⟨past, times⟩ | ⟨inside, times, outside⟩)
    · exact .overshoot past times
    · exact .timesDropped kept inside times outside

theorem misread_dropped (dropped : ¬ keysKept range) : Misread range key ts ↔
    (timesKept range ∧ ¬ keyInside range key ∧ timeInside range ts) ∨
      ¬ timesKept range ∧ (key ≤ [126] ∧ ¬ (keyInside range key ∧ timeInside range ts) ∨
        [126] < key ∧ keyInside range key ∧ timeInside range ts) := by
  constructor
  · rintro (⟨past, _⟩ | ⟨kept, _⟩ | ⟨_, outside, times, inside⟩ | ⟨_, times, low, outside⟩ | ⟨_, times, high, inside⟩)
    · exact absurd (overshoots_outside past).1 dropped
    · exact absurd kept dropped
    · exact Or.inl ⟨times, outside, inside⟩
    · exact Or.inr ⟨times, Or.inl ⟨low, outside⟩⟩
    · exact Or.inr ⟨times, Or.inr ⟨high, inside⟩⟩
  · rintro (⟨times, outside, inside⟩ | ⟨times, ⟨low, outside⟩ | ⟨high, inside⟩⟩)
    · exact .keysDropped dropped outside times inside
    · exact .bothDropped dropped times low outside
    · exact .pastTilde dropped times high inside

/-- The filter of a range agrees with its four bounds where nothing is misread. -/
theorem reaches_iff_inside :
    (reaches ⟨range.toQueryParams.1, range.toQueryParams.2⟩ (toLex (key, ts)) = true ↔
      keyInside range key ∧ timeInside range ts) ↔ ¬ Misread range key ts := by
  have timed : inTimeRange range.toQueryParams.2 ts = true ↔ (timesKept range → timeInside range ts) := by
    by_cases times : timesKept range
    · simp only [timeRange_kept times, times, true_imp_iff]
    · simp [timeRange_dropped times, inTimeRange, times]
  rw [reaches_iff, Bool.and_eq_true, timed]
  by_cases keys : keysKept range
  · have within : ¬ pastTilde ⟨range.toQueryParams.1, range.toQueryParams.2⟩ key :=
      fun past => keyFilter_kept keys (congrArg Query.keyFilter past.1)
    have apart : Overshoots range key → ¬ keyInside range key := fun past => (overshoots_outside past).2
    rw [matchesKey_kept keys, misread_kept keys]
    by_cases times : timesKept range
    · simp only [times, within, true_imp_iff, not_true_eq_false, not_false_eq_true, false_and, and_false, and_true, or_false]
      tauto
    · simp only [times, within, false_imp_iff, not_false_eq_true, true_and, and_true]
      tauto
  · have past : pastTilde ⟨range.toQueryParams.1, range.toQueryParams.2⟩ key ↔ ¬ timesKept range ∧ [126] < key := by
      rw [keyFilter_dropped keys]
      refine and_congr_left fun _ => ⟨fun full times => ?_, fun times => by rw [timeRange_dropped times]; rfl⟩
      obtain ⟨start, stop, begins, ends⟩ := times
      have untimed := congrArg Query.timeRange full
      simp [ScanRange.toQueryParams, begins, ends, fullQuery] at untimed
    rw [misread_dropped keys, past, ← not_lt]
    simp only [keyFilter_dropped keys, KeyFilter.matchesKey, true_and]
    by_cases times : timesKept range
    · simp only [times, true_imp_iff, not_true_eq_false, not_false_eq_true, false_and, true_and, and_true, or_false]
      tauto
    · simp only [times, false_imp_iff, not_false_eq_true, true_and, false_and, false_or]
      tauto

end

/-! ### Scans that load no block -/

section
variable {m : MemTables} {query : Query} {nowUs : Int} {out : List Record}

theorem assemble_sources (source : List InternalRecord) : source ∈ (assemble query m [] nowUs).sources ↔
    source = (memResults m query nowUs).insertionSort byVersion ∧ source ≠ [] := by
  simp only [assemble, List.map_nil, List.filter_nil]
  split_ifs with empty
  · rw [empty]
    simp
  · rw [List.mem_singleton]
    exact ⟨fun same => ⟨same, same ▸ empty⟩, And.left⟩

theorem assemble_sorted (source : List InternalRecord) (member : source ∈ (assemble query m [] nowUs).sources) :
    source.Pairwise fun a b => versionRank a ≤ versionRank b := by
  rw [((assemble_sources source).mp member).1]
  exact insertionSort_sorted _

/-- Of each slot the scan shows the first version in the order of the sort. -/
theorem assemble_slot (yields : (assemble query m [] nowUs).Yields out) (slot : Bytes ×ₗ Int) : atSlot out slot =
    (newestMem m query nowUs slot).bind (shownAs (assemble query m [] nowUs).tombstones) := by
  rcases yields_slot assemble_sorted yields slot with ⟨h, ⟨⟨source, member, first⟩, _⟩, found⟩ | ⟨none, found⟩
  · obtain ⟨rfl, _⟩ := (assemble_sources source).mp member
    rw [found, newestMem, first]
    rfl
  · cases newest : newestMem m query nowUs slot with
    | none => exact found
    | some h =>
      have listed := (@assemble_sources m query nowUs _).mpr
        ⟨rfl, List.ne_nil_of_mem (List.mem_of_find?_eq_some newest)⟩
      refine absurd ⟨⟨_, listed, newest⟩, fun other member x inside here => ?_⟩ (none h)
      obtain ⟨rfl, _⟩ := (assemble_sources other).mp member
      exact slotFirst_least (insertionSort_sorted _) newest x inside here

/-- The first version of a slot in the order of the sort has the highest number. -/
theorem newestMem_newest {slot : Bytes ×ₗ Int} {h : InternalRecord} (newest : newestMem m query nowUs slot = some h) :
    Newest (memResults m query nowUs) slot h := by
  refine ⟨(List.mem_insertionSort _).mp (List.mem_of_find?_eq_some newest), slotFirst_slot newest, ?_⟩
  intro x inside here
  have least := slotFirst_least (insertionSort_sorted _) newest x ((List.mem_insertionSort _).mpr inside) here
  exact (versionRank_le_iff ((slotFirst_slot newest).trans here.symm)).mp least

theorem newestMem_none {slot : Bytes ×ₗ Int} (none : newestMem m query nowUs slot = none)
    (r : InternalRecord) (inside : r ∈ memResults m query nowUs) : r.slot ≠ slot := by
  simpa using List.find?_eq_none.mp none r ((List.mem_insertionSort _).mpr inside)

end

/-- One record for each slot that a predicate takes in, a newest version of it, in ascending order. -/
structure Exactly (content : List InternalRecord) (inside : Bytes → Int → Prop) (out : List Record) : Prop where
  strict : out.Pairwise fun a b => slotOf a < slotOf b
  sound : ∀ rec ∈ out, inside rec.key rec.ts ∧ ∃ r, Newest content (slotOf rec) r ∧ r.toRecord = rec
  complete : ∀ r ∈ content, inside r.key r.ts → ∃ rec ∈ out, slotOf rec = r.slot

section
variable {m : MemTables} {range : ScanRange} {nowUs : Int} (puts : ∀ r ∈ memRecords m, r.op = .put)
  (unexpired : ∀ r ∈ memRecords m, nowUs ≤ r.expireAt)

include unexpired in
theorem mem_unexpired (query : Query) (r : InternalRecord) :
    r ∈ memResults m query nowUs ↔ r ∈ memRecords m ∧ reaches query r.slot = true := by
  rw [memResults_filter, List.mem_filter, Bool.and_eq_true, decide_eq_true_eq]
  exact and_congr_right fun inside => and_iff_left (unexpired r inside)

include puts unexpired

/-- A scan of the memtables yields what its filter reaches. -/
theorem scanMem_exactly {out : List Record} (yields : (scanMem m range nowUs).Yields out) : Exactly (memRecords m)
    (fun key ts => reaches ⟨range.toQueryParams.1, range.toQueryParams.2⟩ (toLex (key, ts)) = true) out := by
  have strict := yields_strict assemble_sorted yields
  have untouched : (scanMem m range nowUs).tombstones = [] := by
    simp only [scanMem, assemble, List.flatMap_nil, List.append_nil, List.filterMap_eq_nil_iff]
    intro r member
    simp [tombstoneOf, puts r ((mem_unexpired unexpired _ r).mp member).1]
  have shown : ∀ h, h ∈ memRecords m → shownAs (scanMem m range nowUs).tombstones h = some h.toRecord := by
    intro h inside
    simp [shownAs, isShown, untouched, isTombstoned, puts h inside]
  refine ⟨strict, fun rec inside => ?_, fun r inside reached => ?_⟩
  · have found := (assemble_slot yields (slotOf rec)).symm.trans ((mem_iff_atSlot strict rec).mp inside)
    obtain ⟨h, first, same⟩ := Option.bind_eq_some_iff.mp found
    obtain ⟨held, here, highest⟩ := newestMem_newest first
    obtain ⟨within, reached⟩ := (mem_unexpired unexpired _ h).mp held
    rw [here] at reached
    refine ⟨reached, h, ⟨within, here, fun x other there => ?_⟩, Option.some.inj ((shown h within).symm.trans same)⟩
    exact highest x ((mem_unexpired unexpired _ x).mpr ⟨other, by rw [there]; exact reached⟩) there
  · have member := (mem_unexpired unexpired _ r).mpr ⟨inside, reached⟩
    cases first : newestMem m ⟨range.toQueryParams.1, range.toQueryParams.2⟩ nowUs r.slot with
    | none => exact absurd rfl (newestMem_none first r member)
    | some h =>
      obtain ⟨held, here, _⟩ := newestMem_newest first
      have found := assemble_slot yields r.slot
      rw [first, Option.bind_some] at found
      exact ⟨h.toRecord, mem_of_atSlot (found.trans (shown h ((mem_unexpired unexpired _ h).mp held).1)), here⟩

/-- A scan of the memtables honours the four bounds of its range just when the content has nothing that it misreads. -/
theorem bounds_honoured_iff : (∀ out, (scanMem m range nowUs).Yields out →
    Exactly (memRecords m) (fun key ts => keyInside range key ∧ timeInside range ts) out) ↔
      ∀ r ∈ memRecords m, ¬ Misread range r.key r.ts := by
  constructor
  · intro honoured r inside
    obtain ⟨out, yields⟩ := exists_yield (scanMem m range nowUs)
    have scanned := scanMem_exactly puts unexpired yields
    have honours := honoured out yields
    refine reaches_iff_inside.mp ⟨fun reached => ?_, fun bounded => ?_⟩
    · obtain ⟨rec, found, here⟩ := scanned.complete r inside reached
      have same : rec.key = r.key ∧ rec.ts = r.ts := by simpa [slotOf, InternalRecord.slot] using here
      exact same.1 ▸ same.2 ▸ (honours.sound rec found).1
    · obtain ⟨rec, found, here⟩ := honours.complete r inside bounded
      have reached := (scanned.sound rec found).1
      have same : rec.key = r.key ∧ rec.ts = r.ts := by simpa [slotOf, InternalRecord.slot] using here
      rwa [same.1, same.2] at reached
  · intro right out yields
    obtain ⟨strict, sound, complete⟩ := scanMem_exactly puts unexpired yields
    refine ⟨strict, fun rec found => ?_, fun r inside bounded => ?_⟩
    · obtain ⟨reached, r, newest, rfl⟩ := sound rec found
      exact ⟨(reaches_iff_inside.mpr (right r newest.held)).mp reached, r, newest, rfl⟩
    · exact complete r inside ((reaches_iff_inside.mpr (right r inside)).mpr bounded)

end

/-! A scan from `a` up to `c`, which is excluded, yields the record under `c`. -/

def twoLetters : MemTables :=
  ((MemTables.new 2 1000).insert (.fromRecord (.new [98] 0 [1]) 1000000)).insert (.fromRecord (.new [99] 0 [2]) 1000001)

def fromAToC : ScanRange := ⟨.included [97], .excluded [99], .unbounded, .unbounded⟩

theorem bounds_honoured_letters : ¬ ∀ out, (scanMem twoLetters fromAToC 0).Yields out →
    Exactly (memRecords twoLetters) (fun key ts => keyInside fromAToC key ∧ timeInside fromAToC ts) out := by
  rw [bounds_honoured_iff (by decide) (by decide)]
  intro right
  exact right (.fromRecord (.new [99] 0 [2]) 1000001) (by decide)
    (.overshoot (.atEnd [97] rfl rfl (by decide) (by decide)) fun ⟨_, _, times, _⟩ => nomatch times)

theorem excluded_end_scanned : ¬ ∀ (m : MemTables) (range : ScanRange) (nowUs : Int), (∀ r ∈ memRecords m, r.op = .put) →
    (∀ r ∈ memRecords m, nowUs ≤ r.expireAt) → ∀ out, (scanMem m range nowUs).Yields out →
      Exactly (memRecords m) (fun key ts => keyInside range key ∧ timeInside range ts) out := by
  intro honoured
  have scanned : scanMem twoLetters fromAToC 0 = ⟨[memRecords twoLetters], []⟩ := by decide +kernel
  have yields : (scanMem twoLetters fromAToC 0).Yields [.new [98] 0 [1], .new [99] 0 [2]] := by
    rw [scanned]
    rfl
  have inside := (honoured _ fromAToC 0 (by decide) (by decide) _ yields).sound (.new [99] 0 [2]) (by simp)
  exact absurd inside.1.1.2 (lt_irrefl _)

end FlowDb.ScanBounds
