import FlowDb.ScanResults

/-! Point reads against prefix scans, slot by slot: what the active memtable answers,
and what is left to the tables, where a point read asks one block of each table in
order of age and a scan merges all of them. -/
namespace FlowDb.ReadAgreement
open ByteString OrderedMap Records Sstable BlockIndex BlockMetaIndex TableStore MemoryTables Reads PointReads
open Scans EngineOps EngineRuns

section
variable (search : SlotSearch) (m : MemTables) (t : Tables) (key : Bytes) (ts nowUs : Int)

/-- The range tombstones a scan of the key collects. -/
def seenTombstones : List (Bytes × Bytes) := scanTombstones m t (prefixQuery key) nowUs (prefixBlocks t key nowUs)

def SeesFirst (h : InternalRecord) : Prop :=
  Sees m t (prefixQuery key) nowUs (prefixBlocks t key nowUs) (toLex (key, ts)) h

/-- Every record the scan may take first of the slot is shown exactly if the lowest
answering table has the same contents, and hidden only if no table answers. -/
structure TablesAgree : Prop where
  shown : ∀ h, SeesFirst m t key ts nowUs h → isShown (seenTombstones m t key nowUs) h = true →
    ∃ id q, Answers search t key ts nowUs id q ∧ q.toRecord = h.toRecord ∧
      ∀ j < id, ∀ x, ¬ Answers search t key ts nowUs j x
  hidden : ∀ h, SeesFirst m t key ts nowUs h → isShown (seenTombstones m t key nowUs) h = false →
    ∀ id q, ¬ Answers search t key ts nowUs id q
  unseen : (∀ h, ¬ SeesFirst m t key ts nowUs h) → ∀ id q, ¬ Answers search t key ts nowUs id q

/-- The slot's last version in the active memtable decides if it has not expired: it
must be a delete or a put outside the tombstones. Otherwise the tables must agree. -/
def SlotAgrees : Prop :=
  match (lastVersion m.active.records (toLex (key, ts))).filter fun r => decide (nowUs ≤ r.expireAt) with
  | some r => r.op = .delete ∨ isShown (seenTombstones m t key nowUs) r = true
  | none => TablesAgree search m t key ts nowUs

/-- The two reads of one key and time have the same to say. -/
structure ReadsAgree : Prop where
  scanned : ∃ out, Scans m t (prefixQuery key) nowUs out
  same : ∀ out, Scans m t (prefixQuery key) nowUs out →
    ∀ r, getSync search m t key ts nowUs = some r ↔ r ∈ out ∧ r.key = key ∧ r.ts = ts

theorem tablesAgree_iff : ((∀ h, SeesFirst m t key ts nowUs h → shownAs (seenTombstones m t key nowUs) h =
      ((tableIds t).findSome? (tableAnswer search t key ts nowUs)).map InternalRecord.toRecord) ∧
    ((∀ h, ¬ SeesFirst m t key ts nowUs h) →
      none = ((tableIds t).findSome? (tableAnswer search t key ts nowUs)).map InternalRecord.toRecord)) ↔
    TablesAgree search m t key ts nowUs := by
  have nothing : ((tableIds t).findSome? (tableAnswer search t key ts nowUs)).map InternalRecord.toRecord = none ↔
      ∀ id q, ¬ Answers search t key ts nowUs id q := by
    rw [Option.map_eq_none_iff, firstAnswer_eq_none_iff]
  have something : ∀ c, ((tableIds t).findSome? (tableAnswer search t key ts nowUs)).map InternalRecord.toRecord =
      some c ↔ ∃ id q, Answers search t key ts nowUs id q ∧ q.toRecord = c ∧
        ∀ j < id, ∀ x, ¬ Answers search t key ts nowUs j x := by
    intro c
    simp only [Option.map_eq_some_iff, firstAnswer_iff]
    constructor
    · rintro ⟨q, ⟨id, answers, first⟩, same⟩
      exact ⟨id, q, answers, same, first⟩
    · rintro ⟨id, q, answers, same, first⟩
      exact ⟨q, ⟨id, answers, first⟩, same⟩
  constructor
  · rintro ⟨heads, unseen⟩
    refine ⟨fun h sees shown => (something _).mp ?_, fun h sees hidden => nothing.mp ?_,
      fun none => nothing.mp (unseen none).symm⟩
    · rw [← heads h sees, shownAs, if_pos shown]
    · rw [← heads h sees, shownAs, if_neg (by simp [hidden])]
  · intro agree
    refine ⟨fun h sees => ?_, fun none => (nothing.mpr (agree.unseen none)).symm⟩
    cases shown : isShown (seenTombstones m t key nowUs) h with
    | true => rw [shownAs, if_pos shown, (something _).mpr (agree.shown h sees shown)]
    | false => rw [shownAs, if_neg (by simp [shown]), nothing.mpr (agree.hidden h sees shown)]

end

section
variable {log : List InternalRecord} {e : Engine} (session : Session log e) (search : SlotSearch) (key : Bytes)
  (ts nowUs : Int)
include session

theorem readsAgree_iff_slot : ReadsAgree search e.memtables e.tables key ts nowUs ↔
    ∀ out, Scans e.memtables e.tables (prefixQuery key) nowUs out →
      atSlot out (toLex (key, ts)) = getSync search e.memtables e.tables key ts nowUs := by
  have answer : e.tables.index.query (prefixQuery key).keyFilter (prefixQuery key).timeRange nowUs =
      some (prefixBlocks e.tables key nowUs) := rfl
  have found : ∀ out, Scans e.memtables e.tables (prefixQuery key) nowUs out → ∀ r,
      r ∈ out ∧ r.key = key ∧ r.ts = ts ↔ atSlot out (toLex (key, ts)) = some r := by
    intro out scan r
    have strict := scan_strict session.tables answer scan
    constructor
    · rintro ⟨member, rfl, rfl⟩
      exact (mem_iff_atSlot strict r).mp member
    · intro there
      have here := slotOf_atSlot there
      simp only [slotOf, toLex_inj, Prod.mk.injEq] at here
      exact ⟨mem_of_atSlot there, here⟩
  constructor
  · rintro ⟨_, same⟩ out scan
    exact Option.ext fun r => (found out scan r).symm.trans (same out scan r).symm
  · exact fun same => ⟨exists_scan answer, fun out scan r => by rw [found out scan r, same out scan]⟩

theorem slotAgrees_iff : ReadsAgree search e.memtables e.tables key ts nowUs ↔
    SlotAgrees search e.memtables e.tables key ts nowUs := by
  have answer : e.tables.index.query (prefixQuery key).keyFilter (prefixQuery key).timeRange nowUs =
      some (prefixBlocks e.tables key nowUs) := rfl
  have got := get_eq e.memtables session.frozen session.indexed key ts nowUs
  rw [readsAgree_iff_slot session, scan_slot_iff session.tables answer (ScanResults.numbered_results session _) (toLex (key, ts))
    (· = getSync search e.memtables e.tables key ts nowUs)]
  unfold SlotAgrees
  cases last : (lastVersion e.memtables.active.records (toLex (key, ts))).filter fun r => decide (nowUs ≤ r.expireAt) with
  | some r =>
    obtain ⟨newest, live⟩ := Option.filter_eq_some_iff.mp last
    have reached : reaches (prefixQuery key) (toLex (key, ts)) = true := by
      simp [reaches, memFilter, prefixQuery, KeyFilter.matchesKey, inTimeRange]
    have top : newestMem e.memtables (prefixQuery key) nowUs (toLex (key, ts)) = some r := by
      rw [newestMem_eq _ session.frozen session.active_increasing, if_pos reached]
      exact lastVersion_filter newest live
    have first : getSync search e.memtables e.tables key ts nowUs = if r.op ≠ .delete then some r.toRecord else none := by
      rw [getSync, got, last]
    simp only [Sees, top, forall_eq, first]
    change _ ↔ r.op = .delete ∨ isShown (seenTombstones e.memtables e.tables key nowUs) r = true
    rw [and_iff_left (by simp), shownAs]
    by_cases delete : r.op = .delete
    · simp [isShown, delete]
    · cases shown : isShown (seenTombstones e.memtables e.tables key nowUs) r <;> simp_all [seenTombstones]
  | none =>
    rw [getSync_tables search session.tables e.memtables key ts nowUs (got.trans last)]
    exact tablesAgree_iff search e.memtables e.tables key ts nowUs

end

/-- After any run of one session a point read and a prefix scan agree on a key and a
time exactly if the active memtable or the tables agree on the slot. -/
theorem get_agrees_with_scan (compressedLen : Bytes → Nat) (config : Config) (steps : List (Command × Int))
    (fits : ∀ r ∈ history config firstSeq steps, TableFits r) (search : SlotSearch) (key : Bytes) (ts nowUs : Int) :
    let e := run compressedLen (fresh config) steps
    ReadsAgree search e.memtables e.tables key ts nowUs ↔ SlotAgrees search e.memtables e.tables key ts nowUs :=
  slotAgrees_iff (session_run compressedLen config steps fits) search key ts nowUs

/-! A range delete alone: the point read of its start key returns the tombstone. -/

def rangeDeleted : List (Command × Int) := [(.deleteRange [107] [108], 0)]

theorem tombstone_read_not_scanned :
    ¬ ReadsAgree .first (run List.length (fresh {}) rangeDeleted).memtables
      (run List.length (fresh {}) rangeDeleted).tables [107] 0 0 := by
  intro agree
  have read : getSync .first (run List.length (fresh {}) rangeDeleted).memtables
      (run List.length (fresh {}) rangeDeleted).tables [107] 0 0 = some ⟨[107], 0, i64Max, []⟩ := by decide +kernel
  have build : ScanIterator.build (prefixQuery [107]) (run List.length (fresh {}) rangeDeleted).memtables
      (run List.length (fresh {}) rangeDeleted).tables 0 =
        some ⟨[[.deleteRange [107] [108] 1000000]], [([107], [108])]⟩ := by decide +kernel
  obtain ⟨out, it, built, yields⟩ := agree.scanned
  have member := ((agree.same out ⟨it, built, yields⟩ _).mp read).1
  obtain rfl := Option.some.inj (build.symm.trans built)
  obtain ⟨popped, popping, rfl⟩ := (yields_iff _ _).mp yields
  rw [single_run _ popping] at member
  exact absurd member (by decide)

theorem get_agrees_with_scan_rangeDeleted :
    let e := run List.length (fresh {}) rangeDeleted
    ReadsAgree .first e.memtables e.tables [107] 0 0 ↔ SlotAgrees .first e.memtables e.tables [107] 0 0 :=
  get_agrees_with_scan List.length {} rangeDeleted (by
    intro r member
    obtain rfl : r = .deleteRange [107] [108] 1000000 := List.mem_singleton.mp member
    constructor <;> decide) .first [107] 0 0

end FlowDb.ReadAgreement
