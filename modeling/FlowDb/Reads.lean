import FlowDb.MemoryTables
import FlowDb.TableStore

/-! The read paths of engine.rs: the point read and the merging scan. Block caches
are left out: they hold what the file gives. -/
namespace FlowDb.Reads
open ByteString OrderedMap Records Sstable BlockIndex BlockMetaIndex TableStore MemoryTables

/-! ### Point reads -/

/-- `slice::binary_search_by` on slots. On a sorted slice it finds a match if there
is one; which of several is not specified. -/
structure SlotSearch where
  find : List InternalRecord → (Bytes ×ₗ Int) → Option Nat
  found : ∀ records slot i, (records.Pairwise fun a b => a.slot ≤ b.slot) → find records slot = some i →
    ∃ r, records[i]? = some r ∧ r.slot = slot
  complete : ∀ records slot, (records.Pairwise fun a b => a.slot ≤ b.slot) → find records slot = none →
    ∀ r ∈ records, r.slot ≠ slot

/-- The search that returns the first match. -/
def SlotSearch.first : SlotSearch where
  find records slot := records.findIdx? fun r => decide (r.slot = slot)
  found records slot i _ position := by
    obtain ⟨bound, here, _⟩ := List.findIdx?_eq_some_iff_getElem.mp position
    exact ⟨records[i], List.getElem?_eq_getElem bound, by simpa using here⟩
  complete records slot _ missed r member := by
    simpa using List.findIdx?_eq_none_iff.mp missed r member

section
variable (search : SlotSearch)

def findInRecords (records : List InternalRecord) (key : Bytes) (ts nowUs : Int) : Option Record := do
  let idx ← search.find records (toLex (key, ts))
  let rec ← records[idx]?
  if rec.expireAt > nowUs ∧ rec.op ≠ .delete then some ⟨key, rec.ts, rec.expireAt, rec.value⟩ else none

def blockSearch (t : Tables) (key : Bytes) (ts nowUs : Int) (m : BlockMeta) : Option Record :=
  findInRecords search ((t.file m.sstId).readBlock m.blockIdx) key ts nowUs

/-- `Engine::get_sync`. -/
def getSync (m : MemTables) (t : Tables) (key : Bytes) (ts nowUs : Int) : Option Record :=
  match m.get key ts nowUs with
  | some rec => if rec.op ≠ .delete then some rec.toRecord else none
  | none =>
      match t.index.singleSstPoint key nowUs with
      | some found => blockSearch search t key ts nowUs found
      | none => t.index.queryPointInline key nowUs (blockSearch search t key ts nowUs)

end

/-! ### Scans -/

def memResults (m : MemTables) (query : Query) (nowUs : Int) : List InternalRecord :=
  match query.keyFilter, query.timeRange with
  | .keyPrefix key, none => m.queryPrefix key nowUs
  | .range start stop, none => m.queryKeyRange start stop nowUs
  | .all, some (tsStart, tsEnd) => m.queryTimeRange tsStart tsEnd nowUs
  | .keyPrefix key, some (tsStart, tsEnd) => m.queryPrefixTimeRange key tsStart tsEnd nowUs
  | .range start stop, some (tsStart, tsEnd) => m.queryKeyTimeRange start stop tsStart tsEnd nowUs
  | .all, none => m.queryKeyRange [] [126] nowUs

-- What a range delete contributes to the tombstones of a scan.
def tombstoneOf (r : InternalRecord) : Option (Bytes × Bytes) :=
  if r.op = .deleteRange then r.rangeEnd.map fun stop => (r.key, stop) else none

def isFullScan (query : Query) : Bool :=
  (query.keyFilter == .all || query.keyFilter == .keyPrefix []) && query.timeRange.isNone

def liveRecords (nowUs : Int) (records : List InternalRecord) : List InternalRecord :=
  records.filter fun r => decide (nowUs < r.expireAt)

/-- The records a full scan keeps of a block. -/
def fullScanBlock (records : List InternalRecord) (nowUs : Int) : List InternalRecord :=
  (liveRecords nowUs records).filter fun r => r.op != .deleteRange && r.op != .delete

/-- The records `filter_sst_block` keeps of a block; scans pass `is_full_scan` as false. -/
def filterSstBlock (records : List InternalRecord) (keyFilter : KeyFilter) (timeRange : Option (Int × Int))
    (nowUs : Int) : List InternalRecord :=
  ((liveRecords nowUs records).filter fun r =>
    r.op != .deleteRange && keyFilter.matchesKey r.key && inTimeRange timeRange r.ts).map fun r => { r with seq := 0 }

def blockSource (query : Query) (records : List InternalRecord) (nowUs : Int) : List InternalRecord :=
  if isFullScan query then fullScanBlock records nowUs
  else filterSstBlock records query.keyFilter query.timeRange nowUs

structure ScanIterator where
  sources : List (List InternalRecord)
  tombstones : List (Bytes × Bytes)
  deriving DecidableEq, Repr

/-- `ScanIterator::build`; `none` where looking up the candidates panics. -/
def ScanIterator.build (query : Query) (m : MemTables) (t : Tables) (nowUs : Int) : Option ScanIterator := do
  let results := memResults m query nowUs
  let candidates ← t.index.query query.keyFilter query.timeRange nowUs
  let blocks := candidates.map fun c => (t.file c.sstId).readBlock c.blockIdx
  let sstSources := (blocks.map fun records => blockSource query records nowUs).filter fun s => !s.isEmpty
  let memSorted := results.insertionSort byVersion
  some
    { sources := if memSorted = [] then sstSources else memSorted :: sstSources
      tombstones := results.filterMap tombstoneOf ++
        blocks.flatMap fun records => (liveRecords nowUs records).filterMap tombstoneOf }

def isTombstoned (tombstones : List (Bytes × Bytes)) (r : InternalRecord) : Bool :=
  tombstones.any fun range => decide (range.1 ≤ r.key ∧ r.key < range.2)

-- `next` on a single source without tombstones.
def fastLoop : Option (Bytes ×ₗ Int) → List InternalRecord → List Record
  | _, [] => []
  | lastDedup, r :: rest =>
      if r.op = .delete ∨ r.op = .deleteRange then fastLoop (some r.slot) rest
      else if lastDedup = some r.slot then fastLoop lastDedup rest
      else r.toRecord :: fastLoop (some r.slot) rest

-- `next` on the records in the order the heap pops them.
def heapLoop (tombstones : List (Bytes × Bytes)) : Option (Bytes ×ₗ Int) → List InternalRecord → List Record
  | _, [] => []
  | lastDedup, r :: rest =>
      if lastDedup = some r.slot then heapLoop tombstones lastDedup rest
      else if r.op = .delete ∨ r.op = .deleteRange then heapLoop tombstones (some r.slot) rest
      else if isTombstoned tombstones r then heapLoop tombstones (some r.slot) rest
      else r.toRecord :: heapLoop tombstones (some r.slot) rest

/-- What an iterator can yield: the heap orders slots ascending and larger sequence
numbers first, and breaks ties as it likes. -/
def ScanIterator.Yields (it : ScanIterator) (out : List Record) : Prop :=
  match it.sources, it.tombstones with
  | [source], [] => out = fastLoop none source
  | sources, tombstones => ∃ popped, Merge.Run versionRank (fun i : Fin sources.length => sources.get i) popped ∧
      out = heapLoop tombstones none (popped.map Prod.snd)

/-- A scan of the engine's tables can return `out`. -/
def Scans (m : MemTables) (t : Tables) (query : Query) (nowUs : Int) (out : List Record) : Prop :=
  ∃ it, ScanIterator.build query m t nowUs = some it ∧ it.Yields out

/-- Neither a put hidden by a tombstone nor a delete is shown. -/
def isShown (tombstones : List (Bytes × Bytes)) (r : InternalRecord) : Bool :=
  decide (r.op = .put) && !isTombstoned tombstones r

theorem op_ne_put_iff (r : InternalRecord) : r.op ≠ .put ↔ r.op = .delete ∨ r.op = .deleteRange := by
  cases h : r.op <;> simp

theorem heapLoop_eq (tombstones : List (Bytes × Bytes)) (lastDedup : Option (Bytes ×ₗ Int))
    (popped : List InternalRecord) : heapLoop tombstones lastDedup popped =
      ((Merge.firsts InternalRecord.slot lastDedup popped).filter (isShown tombstones)).map InternalRecord.toRecord := by
  induction popped generalizing lastDedup with
  | nil => rfl
  | cons r rest ih =>
    simp only [heapLoop, Merge.firsts, ← op_ne_put_iff, ih]
    by_cases seen : lastDedup = some r.slot
    · simp [seen]
    · by_cases put : r.op = .put <;> cases covered : isTombstoned tombstones r <;>
        simp [seen, put, isShown, covered]

-- A later record of the slot just seen is skipped or not shown, whichever branch looks first.
theorem fastLoop_eq (lastDedup : Option (Bytes ×ₗ Int)) (source : List InternalRecord) :
    fastLoop lastDedup source = heapLoop [] lastDedup source := by
  induction source generalizing lastDedup with
  | nil => rfl
  | cons r rest ih =>
    simp only [fastLoop, heapLoop, ih, isTombstoned, List.any_nil, Bool.false_eq_true, if_false]
    by_cases seen : lastDedup = some r.slot <;> by_cases deletion : r.op = .delete ∨ r.op = .deleteRange <;>
      simp [seen, deletion]

theorem single_run (source : List InternalRecord) {popped : List (Fin [source].length × InternalRecord)}
    (run : Merge.Run versionRank (fun i : Fin [source].length => [source].get i) popped) :
    popped.map Prod.snd = source := by
  have only := Merge.steps_source run ⟨0, by simp⟩
  rw [List.append_nil, List.filter_eq_self.mpr] at only
  · exact only.symm
  · rintro ⟨i, r⟩ _
    have first : i.val = 0 := Nat.lt_one_iff.mp i.isLt
    exact decide_eq_true (Fin.ext first)

/-- The fast path yields what the heap would. -/
theorem yields_iff (it : ScanIterator) (out : List Record) : it.Yields out ↔
    ∃ popped, Merge.Run versionRank (fun i : Fin it.sources.length => it.sources.get i) popped ∧
      out = heapLoop it.tombstones none (popped.map Prod.snd) := by
  obtain ⟨sources, tombstones⟩ := it
  unfold ScanIterator.Yields
  split
  · rename_i source sourcesShape noTombstones
    dsimp only at sourcesShape noTombstones
    subst sourcesShape noTombstones
    rw [fastLoop_eq]
    constructor
    · rintro rfl
      obtain ⟨popped, run⟩ := Merge.exists_run versionRank fun i : Fin [source].length => [source].get i
      exact ⟨popped, run, by rw [single_run source run]⟩
    · rintro ⟨popped, run, rfl⟩
      rw [single_run source run]
  · rfl

theorem exists_yield (it : ScanIterator) : ∃ out, it.Yields out := by
  obtain ⟨popped, run⟩ := Merge.exists_run versionRank fun i : Fin it.sources.length => it.sources.get i
  exact ⟨_, (yields_iff it _).mpr ⟨popped, run, rfl⟩⟩

end FlowDb.Reads
