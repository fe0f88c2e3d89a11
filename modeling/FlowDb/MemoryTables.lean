import FlowDb.OrderedMap
import FlowDb.Records
import Mathlib.Data.List.Sort

/-! The memory tables of memtable.rs: an active table with an index of the last
insert of each slot, and the frozen tables waiting for a flush. -/
namespace FlowDb.MemoryTables
open ByteString OrderedMap Records

structure MemTable where
  records : List InternalRecord
  pointIndex : OMap (Bytes ×ₗ Int) Nat
  bytes : Nat
  deriving DecidableEq

/-- Slots ascending, and the newest version of a slot first. -/
def versionRank (r : InternalRecord) : (Bytes ×ₗ Int) ×ₗ Natᵒᵈ := toLex (r.slot, OrderDual.toDual r.seq)

def byVersion (a b : InternalRecord) : Prop := versionRank a ≤ versionRank b

instance : DecidableRel byVersion := fun a b => inferInstanceAs (Decidable (versionRank a ≤ versionRank b))

instance : Std.Total byVersion := ⟨fun a b => le_total (versionRank a) (versionRank b)⟩

instance : IsTrans InternalRecord byVersion := ⟨fun _ _ _ => le_trans⟩

-- `max_by_key` returns the last of several greatest elements.
def maxBySeq (records : List InternalRecord) : Option InternalRecord :=
  records.foldl (fun best r =>
    match best with
    | some b => if b.seq ≤ r.seq then some r else some b
    | none => some r) none

/-- The last record of a slot in insertion order. -/
def lastVersion (records : List InternalRecord) (slot : Bytes ×ₗ Int) : Option InternalRecord :=
  (records.filter fun r => decide (r.slot = slot)).getLast?

namespace MemTable

def new : MemTable := ⟨[], ∅, 0⟩

def insert (t : MemTable) (rec : InternalRecord) : MemTable :=
  { records := t.records ++ [rec]
    pointIndex := t.pointIndex.insert rec.slot t.records.length
    bytes := t.bytes + rec.estimatedSize }

def get (t : MemTable) (key : Bytes) (ts : Int) : Option InternalRecord :=
  match t.pointIndex.get? (toLex (key, ts)) with
  | some idx => t.records[idx]?
  | none => maxBySeq (t.records.filter fun r => decide (r.slot = toLex (key, ts)))

/-- The five query functions of a table filter alike. -/
def queryWhere (t : MemTable) (keyFilter : KeyFilter) (timeRange : Option (Int × Int)) (nowUs : Int) :
    List InternalRecord :=
  t.records.filter fun r =>
    keyFilter.matchesKey r.key && inTimeRange timeRange r.ts && decide (nowUs ≤ r.expireAt)

def queryPrefix (t : MemTable) (key : Bytes) := t.queryWhere (.keyPrefix key) none
def queryKeyRange (t : MemTable) (startKey endKey : Bytes) := t.queryWhere (.range startKey endKey) none
def queryTimeRange (t : MemTable) (tsStart tsEnd : Int) := t.queryWhere .all (some (tsStart, tsEnd))
def queryPrefixTimeRange (t : MemTable) (key : Bytes) (tsStart tsEnd : Int) :=
  t.queryWhere (.keyPrefix key) (some (tsStart, tsEnd))
def queryKeyTimeRange (t : MemTable) (startKey endKey : Bytes) (tsStart tsEnd : Int) :=
  t.queryWhere (.range startKey endKey) (some (tsStart, tsEnd))

def sort (t : MemTable) : MemTable :=
  { t with records := t.records.insertionSort byVersion, pointIndex := ∅ }

end MemTable

structure MemTables where
  active : MemTable
  frozen : List MemTable
  maxFrozen : Nat
  memtableSizeLimit : Nat
  deriving DecidableEq

namespace MemTables

def new (maxFrozen memtableSizeLimit : Nat) : MemTables := ⟨.new, [], maxFrozen, memtableSizeLimit⟩

def insert (m : MemTables) (rec : InternalRecord) : MemTables := { m with active := m.active.insert rec }

def shouldFlush (m : MemTables) : Bool := decide (m.memtableSizeLimit ≤ m.active.bytes)

def frozenBackpressure (m : MemTables) : Bool := decide (m.maxFrozen ≤ m.frozen.length)

def freeze (m : MemTables) : MemTables :=
  if m.active.records = [] then m
  else { m with active := .new, frozen := m.frozen ++ [m.active.sort] }

def popFrozen (m : MemTables) : Option (MemTable × MemTables) :=
  match m.frozen with
  | [] => none
  | t :: rest => some (t, { m with frozen := rest })

/-- Every query reads the active table and then the frozen ones. -/
def gather (m : MemTables) (query : MemTable → List InternalRecord) : List InternalRecord :=
  query m.active ++ m.frozen.flatMap query

def queryPrefix (m : MemTables) (key : Bytes) (nowUs : Int) := m.gather fun t => t.queryPrefix key nowUs
def queryKeyRange (m : MemTables) (startKey endKey : Bytes) (nowUs : Int) :=
  m.gather fun t => t.queryKeyRange startKey endKey nowUs
def queryTimeRange (m : MemTables) (tsStart tsEnd nowUs : Int) := m.gather fun t => t.queryTimeRange tsStart tsEnd nowUs
def queryPrefixTimeRange (m : MemTables) (key : Bytes) (tsStart tsEnd nowUs : Int) :=
  m.gather fun t => t.queryPrefixTimeRange key tsStart tsEnd nowUs
def queryKeyTimeRange (m : MemTables) (startKey endKey : Bytes) (tsStart tsEnd nowUs : Int) :=
  m.gather fun t => t.queryKeyTimeRange startKey endKey tsStart tsEnd nowUs

def get (m : MemTables) (key : Bytes) (ts nowUs : Int) : Option InternalRecord :=
  (m.active :: m.frozen).findSome? fun t => (t.get key ts).filter fun r => decide (nowUs ≤ r.expireAt)

end MemTables

/-- The point index of a table that is still written to. -/
structure Indexed (t : MemTable) : Prop where
  bounded : ∀ slot i, t.pointIndex.get? slot = some i → i < t.records.length
  complete : ∀ slot, t.pointIndex.get? slot = none → ∀ r ∈ t.records, r.slot ≠ slot
  last : ∀ key ts, t.get key ts = lastVersion t.records (toLex (key, ts))

theorem lastVersion_append (records : List InternalRecord) (rec : InternalRecord) (slot : Bytes ×ₗ Int) :
    lastVersion (records ++ [rec]) slot = if rec.slot = slot then some rec else lastVersion records slot := by
  by_cases here : rec.slot = slot <;> simp [lastVersion, List.filter_append, here]

theorem lastVersion_eq_none (records : List InternalRecord) (slot : Bytes ×ₗ Int) :
    lastVersion records slot = none ↔ ∀ r ∈ records, r.slot ≠ slot := by
  simp [lastVersion]

theorem mem_of_lastVersion {records : List InternalRecord} {slot : Bytes ×ₗ Int} {r : InternalRecord}
    (last : lastVersion records slot = some r) : r ∈ records ∧ r.slot = slot := by
  simpa using List.mem_filter.mp (List.mem_of_getLast? last)

theorem lastVersion_append_list (front back : List InternalRecord) (slot : Bytes ×ₗ Int) :
    lastVersion (front ++ back) slot = (lastVersion back slot).or (lastVersion front slot) := by
  simp [lastVersion, List.filter_append, List.getLast?_append]

theorem lastVersion_filter {records : List InternalRecord} {slot : Bytes ×ₗ Int} {r : InternalRecord}
    (last : lastVersion records slot = some r) {keep : InternalRecord → Bool} (kept : keep r = true) :
    lastVersion (records.filter keep) slot = some r := by
  obtain ⟨front, shape⟩ := List.getLast?_eq_some_iff.mp last
  rw [lastVersion, List.filter_comm, shape, List.filter_append, List.filter_singleton, kept]
  simp

/-- Where numbers only grow, the last version of a slot has the largest. -/
theorem lastVersion_seq {records : List InternalRecord} (increasing : records.Pairwise fun a b => a.seq < b.seq)
    {slot : Bytes ×ₗ Int} {r : InternalRecord} (last : lastVersion records slot = some r)
    (x : InternalRecord) (member : x ∈ records) (here : x.slot = slot) : x.seq ≤ r.seq := by
  obtain ⟨front, shape⟩ := List.getLast?_eq_some_iff.mp last
  have inside : x ∈ front ++ [r] := shape ▸ List.mem_filter.mpr ⟨member, decide_eq_true here⟩
  rcases List.mem_append.mp inside with early | same
  · have ordered := increasing.filter fun r => decide (r.slot = slot)
    rw [shape] at ordered
    exact ((List.pairwise_append.mp ordered).2.2 x early r List.mem_cons_self).le
  · rw [List.mem_singleton.mp same]

theorem eq_of_seq_eq {records : List InternalRecord} (increasing : records.Pairwise fun a b => a.seq < b.seq)
    {a b : InternalRecord} (inA : a ∈ records) (inB : b ∈ records) (same : a.seq = b.seq) : a = b :=
  List.inj_on_of_nodup_map ((List.pairwise_map.mpr increasing).imp ne_of_lt) inA inB same

theorem indexed_new : Indexed .new := by
  constructor <;> intros <;> simp_all [MemTable.new, MemTable.get, maxBySeq, lastVersion]

theorem indexed_insert (t : MemTable) (indexed : Indexed t) (rec : InternalRecord) : Indexed (t.insert rec) := by
  constructor
  · intro slot i held
    simp only [MemTable.insert, get?_insert] at held
    split_ifs at held with here
    · obtain rfl := Option.some.inj held
      simp [MemTable.insert]
    · have := indexed.bounded slot i held
      simp only [MemTable.insert, List.length_append, List.length_singleton]
      omega
  · intro slot absent r member
    simp only [MemTable.insert, get?_insert] at absent
    split_ifs at absent with here
    rcases List.mem_append.mp member with old | new
    · exact indexed.complete slot absent r old
    · rw [List.mem_singleton.mp new]
      exact Ne.symm here
  · intro key ts
    have before := indexed.last key ts
    simp only [MemTable.insert, lastVersion_append]
    by_cases here : rec.slot = toLex (key, ts)
    · simp [MemTable.get, here]
    · rw [if_neg here, ← before]
      simp only [MemTable.get, get?_insert, if_neg (Ne.symm here)]
      cases held : t.pointIndex.get? (toLex (key, ts)) with
      | some i => exact List.getElem?_append_left (indexed.bounded _ i held)
      | none => simp [List.filter_append, here]

/-- Without a backlog a lookup is the last version of the active table, if that has not expired. -/
theorem get_eq (m : MemTables) (frozen : m.frozen = []) (indexed : Indexed m.active) (key : Bytes) (ts nowUs : Int) :
    m.get key ts nowUs =
      (lastVersion m.active.records (toLex (key, ts))).filter fun r => decide (nowUs ≤ r.expireAt) := by
  rw [MemTables.get, frozen, List.findSome?_singleton, indexed.last]

theorem foldl_insert (records : List InternalRecord) (m : MemTables) :
    (records.foldl MemTables.insert m).active.records = m.active.records ++ records ∧
      (records.foldl MemTables.insert m).frozen = m.frozen ∧
      (Indexed m.active → Indexed (records.foldl MemTables.insert m).active) := by
  induction records generalizing m with
  | nil => simp
  | cons rec rest ih =>
    obtain ⟨held, frozen, indexed⟩ := ih (m.insert rec)
    refine ⟨?_, frozen, fun before => indexed (indexed_insert m.active before rec)⟩
    rw [List.foldl_cons, held]
    simp [MemTables.insert, MemTable.insert]

end FlowDb.MemoryTables
