import Mathlib.Data.Prod.Lex
import FlowDb.ByteString

/-! Records, queries and scan ranges of record.rs. Sequence numbers are naturals
and the two signed fields are integers; `Fits` says when a record's fields lie
inside the widths the log and table encodings give them. -/
namespace FlowDb.Records
open ByteString

def i64Max : Int := 2 ^ 63 - 1

inductive Op where
  | put
  | delete
  | deleteRange
  deriving DecidableEq, Repr

def Op.fromU8 (v : UInt8) : Op :=
  if v = 1 then .delete else if v = 2 then .deleteRange else .put

def Op.toU8 : Op → UInt8
  | .put => 0
  | .delete => 1
  | .deleteRange => 2

@[simp] theorem from_to_u8 (op : Op) : Op.fromU8 op.toU8 = op := by cases op <;> rfl

/-- A record as the public API returns it. -/
structure Record where
  key : Bytes
  ts : Int
  expireAt : Int
  value : Bytes
  deriving DecidableEq, Repr

def Record.new (key : Bytes) (ts : Int) (value : Bytes) : Record := ⟨key, ts, i64Max, value⟩

structure InternalRecord where
  seq : Nat
  op : Op
  key : Bytes
  ts : Int
  expireAt : Int
  value : Bytes
  rangeEnd : Option Bytes
  deriving DecidableEq, Repr

namespace InternalRecord

def fromRecord (rec : Record) (seq : Nat) : InternalRecord :=
  ⟨seq, .put, rec.key, rec.ts, rec.expireAt, rec.value, none⟩

def delete (key : Bytes) (ts : Int) (seq : Nat) : InternalRecord :=
  ⟨seq, .delete, key, ts, i64Max, [], none⟩

def deleteRange (startKey endKey : Bytes) (seq : Nat) : InternalRecord :=
  ⟨seq, .deleteRange, startKey, 0, i64Max, [], some endKey⟩

def toRecord (r : InternalRecord) : Record := ⟨r.key, r.ts, r.expireAt, r.value⟩

def estimatedSize (r : InternalRecord) : Nat :=
  let base := 8 + 1 + 2 + r.key.length + 8 + 8 + 4 + r.value.length
  match r.rangeEnd with
  | some re => base + 2 + re.length
  | none => base

/-- The pair every sort, merge and point lookup compares. -/
def slot (r : InternalRecord) : Bytes ×ₗ Int := toLex (r.key, r.ts)

/-- Fields inside the machine types and length prefixes of the log encoding. -/
structure Fits (r : InternalRecord) : Prop where
  seq : r.seq < 2 ^ 64
  key : r.key.length < 2 ^ 16
  ts : InI64 r.ts
  expireAt : InI64 r.expireAt
  rangeEnd : ∀ re, r.rangeEnd = some re → re.length < 2 ^ 32
  value : r.value.length < 2 ^ 32

/-- Both encodings write a missing range end and an empty one alike. -/
def dropEmptyEnd (r : InternalRecord) : InternalRecord :=
  { r with rangeEnd := if r.rangeEnd = some [] then none else r.rangeEnd }

@[simp] theorem dropEmptyEnd_seq (r : InternalRecord) : r.dropEmptyEnd.seq = r.seq := rfl
@[simp] theorem dropEmptyEnd_op (r : InternalRecord) : r.dropEmptyEnd.op = r.op := rfl
@[simp] theorem dropEmptyEnd_key (r : InternalRecord) : r.dropEmptyEnd.key = r.key := rfl
@[simp] theorem dropEmptyEnd_ts (r : InternalRecord) : r.dropEmptyEnd.ts = r.ts := rfl
@[simp] theorem dropEmptyEnd_slot (r : InternalRecord) : r.dropEmptyEnd.slot = r.slot := rfl

end InternalRecord

inductive KeyFilter where
  | keyPrefix (p : Bytes)
  | range (start stop : Bytes)
  | all
  deriving DecidableEq, Repr

structure Query where
  keyFilter : KeyFilter
  timeRange : Option (Int × Int)
  deriving DecidableEq, Repr

inductive Bound (α : Type) where
  | included (a : α)
  | excluded (a : α)
  | unbounded
  deriving DecidableEq, Repr

structure ScanRange where
  keyStart : Bound Bytes
  keyEnd : Bound Bytes
  tsStart : Bound Int
  tsEnd : Bound Int
  deriving DecidableEq, Repr

-- `while let Some(last) = bytes.last_mut()`, on the reversed string.
def bumpLast : Bytes → Option Bytes
  | [] => none
  | b :: rest => if b < 255 then some ((b + 1) :: rest) else bumpLast rest

/-- Shared by the two prefix successors, which differ in what they return for a
string of 0xFF bytes only. -/
def incrementOr (sentinel key : Bytes) : Bytes :=
  match bumpLast key.reverse with
  | some bumped => bumped.reverse
  | none => sentinel

def incrementPrefixBytes (key : Bytes) : Bytes := incrementOr (key ++ [0]) key

def isPrefixRange (start stop : Bytes) : Bool := stop == incrementPrefixBytes start

def ScanRange.toQueryParams (range : ScanRange) : KeyFilter × Option (Int × Int) :=
  let kf := match range.keyStart, range.keyEnd with
    | .included s, .excluded e => if isPrefixRange s e then .keyPrefix s else .range s e
    | .included s, .included e => .range s e
    | _, _ => .all
  let tr := match range.tsStart, range.tsEnd with
    | .included s, .included e => some (s, e)
    | _, _ => none
  (kf, tr)

/-- How the scan filters compare a record's key and time with a query. -/
def KeyFilter.matchesKey : KeyFilter → Bytes → Bool
  | .keyPrefix p, key => p.isPrefixOf key
  | .range start stop, key => decide (start ≤ key ∧ key ≤ stop)
  | .all, _ => true

def inTimeRange (timeRange : Option (Int × Int)) (ts : Int) : Bool :=
  match timeRange with
  | some (start, stop) => decide (start ≤ ts ∧ ts ≤ stop)
  | none => true

inductive SyncMode where
  | always
  | intervalMs (ms : Nat)
  deriving DecidableEq, Repr

/-- The fields of `Config` the modelled functions read. -/
structure Config where
  defaultTtlSecs : Option Nat := none
  memtableSizeMb : Nat := 64
  maxFrozenMemtables : Nat := 2
  blockSize : Nat := 8192
  timeBucketSecs : Nat := 3600
  bloomBitsPerKey : Nat := 10
  walSegmentSizeMb : Nat := 64
  compactionThreshold : Nat := 2
  walSyncMode : SyncMode := .always
  deriving DecidableEq, Repr

end FlowDb.Records
