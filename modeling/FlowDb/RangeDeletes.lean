import FlowDb.ScanResults

/-! Range deletes: a put should be hidden exactly if a later range delete covers its
key. Reads apply the tombstones they happen to collect without looking at numbers,
and a point read does not know tombstones at all. -/
namespace FlowDb.RangeDeletes
open ByteString OrderedMap Records Sstable BlockIndex BlockMetaIndex TableStore MemoryTables Reads PointReads
open Scans EngineOps EngineRuns

inductive Read where
  | get (key : Bytes) (ts : Int)
  | scan (query : Query)
  deriving DecidableEq, Repr

def Read.Asks : Read → (Bytes ×ₗ Int) → Prop
  | .get key ts, slot => slot = toLex (key, ts)
  | .scan query, slot =>
      query.keyFilter.matchesKey (ofLex slot).1 = true ∧ inTimeRange query.timeRange (ofLex slot).2 = true

/-- A read can return `out`. -/
def Read.Returns (search : SlotSearch) (m : MemTables) (t : Tables) (nowUs : Int) : Read → List Record → Prop
  | .get key ts, out => out = (getSync search m t key ts nowUs).toList
  | .scan query, out => Scans m t query nowUs out

/-- A put of the history that no later range delete covers. -/
structure Uncovered (log : List InternalRecord) (p : InternalRecord) : Prop where
  member : p ∈ log
  put : p.op = .put
  later : ∀ d ∈ log, d.op = .deleteRange → p.seq < d.seq → ∀ stop, d.rangeEnd = some stop →
    ¬ (d.key ≤ p.key ∧ p.key < stop)

/-- Every record returned is an uncovered put, and every slot asked for that has an uncovered put is returned. -/
structure HidesCovered (log : List InternalRecord) (read : Read) (out : List Record) : Prop where
  sound : ∀ r ∈ out, ∃ p, Uncovered log p ∧ p.toRecord = r
  complete : ∀ p, Uncovered log p → read.Asks p.slot → ∃ r ∈ out, slotOf r = p.slot

/-- The last version of the active memtable is returned as it stands; behind it the
lowest answering table is. -/
def GetRight (log : List InternalRecord) (search : SlotSearch) (m : MemTables) (t : Tables) (key : Bytes)
    (ts nowUs : Int) : Prop :=
  match (lastVersion m.active.records (toLex (key, ts))).filter fun r => decide (nowUs ≤ r.expireAt) with
  | some r => ∃ p, Uncovered log p ∧ p.toRecord = r.toRecord
  | none =>
      (∀ id q, Answers search t key ts nowUs id q → (∀ j < id, ∀ x, ¬ Answers search t key ts nowUs j x) →
        ∃ p, Uncovered log p ∧ p.toRecord = q.toRecord) ∧
      ∀ p, Uncovered log p → p.slot = toLex (key, ts) → ∃ id q, Answers search t key ts nowUs id q

/-- The records a scan may take first of a slot, against the tombstones it collects:
outside them stand uncovered puts only, and all of them do where there is such a put. -/
structure ScanRight (log : List InternalRecord) (m : MemTables) (t : Tables) (query : Query) (nowUs : Int)
    (candidates : List BlockMeta) (slot : Bytes ×ₗ Int) : Prop where
  shown : ∀ h, Sees m t query nowUs candidates slot h → h.op = .put →
    isTombstoned (scanTombstones m t query nowUs candidates) h = false → ∃ p, Uncovered log p ∧ p.toRecord = h.toRecord
  seen : ∀ p, Uncovered log p → p.slot = slot → (Read.scan query).Asks slot →
    (∃ h, Sees m t query nowUs candidates slot h) ∧ ∀ h, Sees m t query nowUs candidates slot h →
      h.op = .put ∧ isTombstoned (scanTombstones m t query nowUs candidates) h = false

def ReadRight (log : List InternalRecord) (search : SlotSearch) (m : MemTables) (t : Tables) (nowUs : Int) :
    Read → Prop
  | .get key ts => GetRight log search m t key ts nowUs
  | .scan query => ∀ candidates, t.index.query query.keyFilter query.timeRange nowUs = some candidates →
      ∀ slot, ScanRight log m t query nowUs candidates slot

/-- What the two demands come to at one slot of a scan's result. -/
def SlotHidesCovered (log : List InternalRecord) (query : Query) (slot : Bytes ×ₗ Int) (result : Option Record) :
    Prop :=
  (∀ r, result = some r → ∃ p, Uncovered log p ∧ p.toRecord = r) ∧
    ∀ p, Uncovered log p → p.slot = slot → (Read.scan query).Asks slot → result ≠ none

theorem isShown_iff (tombstones : List (Bytes × Bytes)) (h : InternalRecord) :
    isShown tombstones h = true ↔ h.op = .put ∧ isTombstoned tombstones h = false := by
  simp [isShown]

theorem hidesCovered_scan_iff {log : List InternalRecord} {query : Query} {out : List Record}
    (strict : out.Pairwise fun a b => slotOf a < slotOf b) :
    HidesCovered log (.scan query) out ↔ ∀ slot, SlotHidesCovered log query slot (atSlot out slot) := by
  constructor
  · rintro ⟨sound, complete⟩ slot
    refine ⟨fun r found => sound r (mem_of_atSlot found), ?_⟩
    rintro p uncovered rfl asked none
    obtain ⟨r, member, here⟩ := complete p uncovered asked
    have found := (mem_iff_atSlot strict r).mp member
    rw [here, none] at found
    cases found
  · intro each
    refine ⟨fun r member => (each (slotOf r)).1 r ((mem_iff_atSlot strict r).mp member), fun p uncovered asked => ?_⟩
    obtain ⟨r, found⟩ := Option.ne_none_iff_exists'.mp ((each p.slot).2 p uncovered rfl asked)
    exact ⟨r, mem_of_atSlot found, slotOf_atSlot found⟩

theorem scanRight_iff (log : List InternalRecord) (m : MemTables) (t : Tables) (query : Query) (nowUs : Int)
    (candidates : List BlockMeta) (slot : Bytes ×ₗ Int) :
    ((∀ h, Sees m t query nowUs candidates slot h → SlotHidesCovered log query slot
        (shownAs (scanTombstones m t query nowUs candidates) h)) ∧
      ((∀ h, ¬ Sees m t query nowUs candidates slot h) → SlotHidesCovered log query slot none)) ↔
    ScanRight log m t query nowUs candidates slot := by
  constructor
  · rintro ⟨heads, empty⟩
    refine ⟨fun h sees put outside => ?_, fun p uncovered here asked => ⟨?_, fun h sees => ?_⟩⟩
    · exact (heads h sees).1 _ (if_pos ((isShown_iff _ h).mpr ⟨put, outside⟩))
    · by_contra none
      exact (empty fun h sees => none ⟨h, sees⟩).2 p uncovered here asked rfl
    · by_contra hidden
      exact (heads h sees).2 p uncovered here asked (if_neg fun shown => hidden ((isShown_iff _ h).mp shown))
  · rintro ⟨shown, seen⟩
    refine ⟨fun h sees => ⟨fun r found => ?_, fun p uncovered here asked => ?_⟩, fun none => ⟨by simp, ?_⟩⟩
    · unfold shownAs at found
      split_ifs at found with visible
      obtain ⟨put, outside⟩ := (isShown_iff _ h).mp visible
      obtain rfl := Option.some.inj found
      exact shown h sees put outside
    · have visible := (seen p uncovered here asked).2 h sees
      rw [shownAs, if_pos ((isShown_iff _ h).mpr visible)]
      simp
    · exact fun p uncovered here asked => absurd (seen p uncovered here asked).1 (by simp [none])

section
variable {log : List InternalRecord} {e : Engine} (session : Session log e) (search : SlotSearch) (nowUs : Int)
include session

theorem scan_right_iff (query : Query) :
    (∀ out, Scans e.memtables e.tables query nowUs out → HidesCovered log (.scan query) out) ↔
      ReadRight log search e.memtables e.tables nowUs (.scan query) := by
  cases answer : e.tables.index.query query.keyFilter query.timeRange nowUs with
  | none =>
    -- The lookup panics and nothing is returned.
    refine iff_of_true ?_ fun candidates found => by simp [answer] at found
    rintro out ⟨it, build, _⟩
    simp [ScanIterator.build, answer] at build
  | some candidates =>
    have right : ReadRight log search e.memtables e.tables nowUs (.scan query) ↔
        ∀ slot, ScanRight log e.memtables e.tables query nowUs candidates slot := by
      simp [ReadRight, answer]
    simp only [right, ← scanRight_iff, ← scan_slot_iff session.tables answer (ScanResults.numbered_results session query)]
    constructor
    · exact fun hides slot out scan => (hidesCovered_scan_iff (scan_strict session.tables answer scan)).mp (hides out scan) slot
    · exact fun each out scan => (hidesCovered_scan_iff (scan_strict session.tables answer scan)).mpr
        fun slot => each slot out scan

theorem get_right_iff (noDelete : ∀ r ∈ log, r.op ≠ .delete) (key : Bytes) (ts : Int) :
    HidesCovered log (.get key ts) (getSync search e.memtables e.tables key ts nowUs).toList ↔
      GetRight log search e.memtables e.tables key ts nowUs := by
  have got := get_eq e.memtables session.frozen session.indexed key ts nowUs
  unfold GetRight
  cases last : (lastVersion e.memtables.active.records (toLex (key, ts))).filter fun r => decide (nowUs ≤ r.expireAt) with
  | some r =>
    obtain ⟨member, here⟩ := mem_of_lastVersion (Option.filter_eq_some_iff.mp last).1
    have first : getSync search e.memtables e.tables key ts nowUs = some r.toRecord := by
      rw [getSync, got, last]
      exact if_pos (noDelete r (session.mem_log member))
    rw [first]
    constructor
    · exact fun hides => hides.sound r.toRecord (by simp)
    · rintro ⟨p, uncovered, same⟩
      refine ⟨fun x member => ⟨p, uncovered, same.trans ?_⟩, ?_⟩
      · exact (List.mem_singleton.mp member).symm
      · exact fun q _ asked => ⟨r.toRecord, List.mem_singleton.mpr rfl, here.trans asked.symm⟩
  | none =>
    have slot : ∀ id q, Answers search e.tables key ts nowUs id q → q.slot = toLex (key, ts) := fun id q answers =>
      (hit_slot search (searchedRecords_sorted session.tables ((mem_tableIds _ session.tables.ok id).mp answers.live)
        key nowUs) answers.picked).2
    rw [getSync_tables search session.tables e.memtables key ts nowUs (got.trans last)]
    cases first : (tableIds e.tables).findSome? (tableAnswer search e.tables key ts nowUs) with
    | none =>
      have nothing := (firstAnswer_eq_none_iff search e.tables key ts nowUs).mp first
      constructor
      · rintro ⟨_, complete⟩
        refine ⟨fun id q answers _ => absurd answers (nothing id q), fun p uncovered here => ?_⟩
        obtain ⟨r, member, _⟩ := complete p uncovered here
        cases member
      · rintro ⟨_, complete⟩
        refine ⟨fun r member => absurd member List.not_mem_nil, fun p uncovered here => ?_⟩
        obtain ⟨id, q, answers⟩ := complete p uncovered here
        exact absurd answers (nothing id q)
    | some q =>
      obtain ⟨id, answers, lowest⟩ := (firstAnswer_iff search e.tables key ts nowUs q).mp first
      constructor
      · rintro ⟨sound, _⟩
        refine ⟨fun id' q' answers' lowest' => ?_, fun p _ _ => ⟨id, q, answers⟩⟩
        have same := (firstAnswer_iff search e.tables key ts nowUs q').mpr ⟨id', answers', lowest'⟩
        obtain rfl := Option.some.inj (first.symm.trans same)
        exact sound _ (by simp)
      · rintro ⟨sound, _⟩
        obtain ⟨p, uncovered, same⟩ := sound id q answers lowest
        refine ⟨fun r member => ⟨p, uncovered, same.trans ?_⟩, fun x _ asked => ⟨q.toRecord, by simp, ?_⟩⟩
        · exact (List.mem_singleton.mp member).symm
        · exact (slot id q answers).trans asked.symm

end

/-- After any run of writes, range deletes and flushes a read hides exactly the covered
puts if and only if what it looks at is right. -/
theorem range_delete_hides_covered (compressedLen : Bytes → Nat) (config : Config) (steps : List (Command × Int))
    (fits : ∀ r ∈ history config firstSeq steps, TableFits r)
    (noPointDelete : ∀ step ∈ steps, ∀ keysTs, step.1 ≠ .deleteBatch keysTs)
    (search : SlotSearch) (nowUs : Int) (read : Read) :
    let e := run compressedLen (fresh config) steps
    let log := history config firstSeq steps
    (∀ out, read.Returns search e.memtables e.tables nowUs out → HidesCovered log read out) ↔
      ReadRight log search e.memtables e.tables nowUs read := by
  intro e log
  have session : Session log e := session_run compressedLen config steps fits
  have noDelete : ∀ r ∈ log, r.op ≠ .delete := by
    intro r member
    obtain ⟨step, inside, x, written, shape⟩ := mem_history config firstSeq steps r member
    rw [shape]
    rcases mem_records written with ⟨put, _⟩ | ⟨_, _, keysTs, same⟩ | ⟨range, _⟩
    · simp [put]
    · exact absurd same (noPointDelete step inside keysTs)
    · simp [range]
  cases read with
  | get key ts => exact forall_eq.trans (get_right_iff session search nowUs noDelete key ts)
  | scan query => exact scan_right_iff session search nowUs query

/-! A put behind a range delete of the same memtable stays hidden from scans. -/

def putAfterRangeDelete : List (Command × Int) :=
  [(.deleteRange [107] [108], 0), (.writeBatch [.new [107] 1 [1]] none, 0)]

theorem put_after_range_delete_hidden : ¬ ∀ out,
    (Read.scan (prefixQuery [107])).Returns .first (run List.length (fresh {}) putAfterRangeDelete).memtables
      (run List.length (fresh {}) putAfterRangeDelete).tables 0 out →
    HidesCovered (history {} firstSeq putAfterRangeDelete) (.scan (prefixQuery [107])) out := by
  intro hides
  have build : ScanIterator.build (prefixQuery [107]) (run List.length (fresh {}) putAfterRangeDelete).memtables
      (run List.length (fresh {}) putAfterRangeDelete).tables 0 =
        some ⟨[[.deleteRange [107] [108] 1000000, .fromRecord (.new [107] 1 [1]) 1000001]], [([107], [108])]⟩ := by
    decide +kernel
  obtain ⟨out, yields⟩ := exists_yield
    ⟨[[.deleteRange [107] [108] 1000000, .fromRecord (.new [107] 1 [1]) 1000001]], [([107], [108])]⟩
  have complete := (hides out ⟨_, build, yields⟩).complete (.fromRecord (.new [107] 1 [1]) 1000001)
    ⟨by decide, rfl, by decide⟩ ⟨by decide, by decide⟩
  obtain ⟨popped, popping, rfl⟩ := (yields_iff _ _).mp yields
  rw [single_run _ popping] at complete
  exact absurd complete (by decide)

theorem range_delete_hides_covered_putAfter :
    let e := run List.length (fresh {}) putAfterRangeDelete
    let log := history {} firstSeq putAfterRangeDelete
    (∀ out, (Read.scan (prefixQuery [107])).Returns .first e.memtables e.tables 0 out →
      HidesCovered log (.scan (prefixQuery [107])) out) ↔
      ReadRight log .first e.memtables e.tables 0 (.scan (prefixQuery [107])) :=
  range_delete_hides_covered List.length {} putAfterRangeDelete (by
    intro r member
    have written : r ∈ [InternalRecord.deleteRange [107] [108] 1000000, .fromRecord (.new [107] 1 [1]) 1000001] := member
    rcases List.mem_pair.mp written with rfl | rfl <;> constructor <;> decide)
    (by simp [putAfterRangeDelete]) .first 0 (.scan (prefixQuery [107]))

end FlowDb.RangeDeletes
