import FlowDb.JsonDb

/-! Queries of query.rs. The planner scores each index by its leading key paths that
carry a filter, builds the byte range of the best one and filters what the scan
returns. An index scan reads the documents its entries name. -/
namespace FlowDb.JsonQuery
open ByteString OrderedMap Records JsonValue JsonEncoding JsonDb

def isNan (bits : UInt64) : Bool := bits &&& 0x7fffffffffffffff > 0x7ff0000000000000

/-- `==` of floats: the two zeros are equal. -/
def floatEq (a b : UInt64) : Bool :=
  !isNan a && !isNan b && (a == b || (a ||| b) &&& 0x7fffffffffffffff == 0)

def numberEq : Number → Number → Bool
  | .posInt a, .posInt b => a == b
  | .negInt a, .negInt b => a == b
  | .float a, .float b => floatEq a b
  | _, _ => false

mutual
/-- `==` of the library's values. -/
def valueEq : Value → Value → Bool
  | .null, .null => true
  | .bool a, .bool b => a == b
  | .number a, .number b => numberEq a b
  | .string a, .string b => a == b
  | .array a, .array b => itemsEq a b
  | .object a, .object b => membersEq a b
  | _, _ => false

def itemsEq : List Value → List Value → Bool
  | [], [] => true
  | a :: as, b :: bs => valueEq a b && itemsEq as bs
  | _, _ => false

def membersEq : List (String × Value) → List (String × Value) → Bool
  | [], [] => true
  | (name, a) :: as, (other, b) :: bs => name == other && valueEq a b && membersEq as bs
  | _, _ => false
end

theorem floatEq_trans {a b c : UInt64} (first : floatEq a b = true) (second : floatEq b c = true) : floatEq a c = true := by
  have zeros : ∀ x y : UInt64, ((x ||| y) &&& 0x7fffffffffffffff == 0) = true ↔
      x &&& 0x7fffffffffffffff = 0 ∧ y &&& 0x7fffffffffffffff = 0 := by
    intro x y
    have split : (x ||| y) &&& 0x7fffffffffffffff = (x &&& 0x7fffffffffffffff) ||| (y &&& 0x7fffffffffffffff) := by
      rw [← UInt64.toBitVec_inj]
      simp only [UInt64.toBitVec_or, UInt64.toBitVec_and]
      exact BitVec.and_or_distrib_right
    rw [beq_iff_eq, split, UInt64.or_eq_zero_iff]
  simp only [floatEq, Bool.and_eq_true, Bool.or_eq_true, zeros, beq_iff_eq] at first second ⊢
  obtain ⟨⟨na, _⟩, same⟩ := first
  obtain ⟨⟨_, nc⟩, same'⟩ := second
  refine ⟨⟨na, nc⟩, ?_⟩
  rcases same with rfl | ⟨za, zb⟩
  · exact same'
  · rcases same' with rfl | ⟨_, zc⟩
    · exact Or.inr ⟨za, zb⟩
    · exact Or.inr ⟨za, zc⟩

theorem numberEq_trans {a b c : Number} (first : numberEq a b = true) (second : numberEq b c = true) : numberEq a c = true := by
  cases a <;> cases b <;> try cases first
  all_goals cases c <;> try cases second
  · simp_all [numberEq]
  · simp_all [numberEq]
  · exact floatEq_trans first second

mutual
theorem valueEq_trans : ∀ a b c : Value, valueEq a b = true → valueEq b c = true → valueEq a c = true
  | .array a, .array b, .array c, first, second => itemsEq_trans a b c first second
  | .object a, .object b, .object c, first, second => membersEq_trans a b c first second
  | .number a, .number b, .number c, first, second => numberEq_trans first second
  | .string a, .string b, .string c, first, second => by simp_all [valueEq]
  | .bool a, .bool b, .bool c, first, second => by simp_all [valueEq]
  | .null, .null, .null, _, _ => rfl

theorem itemsEq_trans : ∀ a b c : List Value, itemsEq a b = true → itemsEq b c = true → itemsEq a c = true
  | [], [], [], _, _ => rfl
  | a :: as, b :: bs, c :: cs, first, second => by
      rw [itemsEq, Bool.and_eq_true] at first second ⊢
      exact ⟨valueEq_trans a b c first.1 second.1, itemsEq_trans as bs cs first.2 second.2⟩

theorem membersEq_trans : ∀ a b c : List (String × Value), membersEq a b = true → membersEq b c = true → membersEq a c = true
  | [], [], [], _, _ => rfl
  | (i, a) :: as, (j, b) :: bs, (k, c) :: cs, first, second => by
      simp only [membersEq, Bool.and_eq_true, beq_iff_eq] at first second ⊢
      exact ⟨⟨first.1.1.trans second.1.1, valueEq_trans a b c first.1.2 second.1.2⟩, membersEq_trans as bs cs first.2 second.2⟩
end

inductive SortDir where
  | asc
  | desc
  deriving DecidableEq, Repr

inductive QueryFilter where
  | eq (field : String) (value : Value)
  | range (field : String) (start stop : Value)
  | isIn (field : String) (values : List Value)

def QueryFilter.field : QueryFilter → String
  | .eq field _ => field
  | .range field _ _ => field
  | .isIn field _ => field

structure QueryBuilder where
  store : String
  filters : List QueryFilter
  orderField : Option String
  orderDir : SortDir
  limit : Option Nat
  offset : Nat

namespace QueryBuilder
variable (q : QueryBuilder)

def new (store : String) : QueryBuilder := ⟨store, [], none, .asc, none, 0⟩

def whereEq (field : String) (value : Value) : QueryBuilder := { q with filters := q.filters ++ [.eq field value] }

def whereRange (field : String) (start stop : Value) : QueryBuilder :=
  { q with filters := q.filters ++ [.range field start stop] }

def whereIn (field : String) (values : List Value) : QueryBuilder :=
  { q with filters := q.filters ++ [.isIn field values] }

def orderBy (field : String) (dir : SortDir) : QueryBuilder := { q with orderField := some field, orderDir := dir }

end QueryBuilder

inductive ScanPlan where
  | index (pfx : Bytes) (rangeStart rangeEnd : Option Bytes)
  | fullScan
  deriving DecidableEq, Repr

section
variable (S : Serde)

def filterMatches (doc : Value) : QueryFilter → Bool
  | .eq field val =>
      match extractField doc field with
      | some v => valueEq v val
      | none => false
  | .range field start stop =>
      match extractField doc field with
      | some v => decide (encodeIndexValue S start ≤ encodeIndexValue S v) &&
          decide (encodeIndexValue S v < encodeIndexValue S stop)
      | none => false
  | .isIn field values =>
      match extractField doc field with
      | some v => values.any fun val => encodeIndexValue S v == encodeIndexValue S val
      | none => false

variable (filters : List QueryFilter)

/-- How many leading key paths carry a filter. -/
def scoreIndex : List String → Nat
  | [] => 0
  | path :: rest => if filters.any fun f => f.field == path then scoreIndex rest + 1 else 0

def better (best : Option (Nat × IndexDef)) (idx : IndexDef) : Option (Nat × IndexDef) :=
  let score := scoreIndex filters idx.keyPaths
  if score > (best.map Prod.fst).getD 0 then some (score, idx) else best

def findEq (path : String) : Option Value :=
  filters.findSome? fun
    | .eq field v => if field == path then some v else none
    | _ => none

/-- The loop that lays the values of the paths before `path` in front of the range's end. -/
def rangeEndKey (path : String) (encEnd : Bytes) : List String → Bytes → Bytes
  | [], endKey => endKey
  | prev :: rest, endKey =>
      if prev == path then endKey ++ encEnd
      else match findEq filters prev with
        | some v => rangeEndKey path encEnd rest (endKey ++ (encodeIndexValue S v ++ [sep]))
        | none => rangeEndKey path encEnd rest endKey

def scanBytes (store : String) (idx : IndexDef) : List String → Bytes → Bytes × Option Bytes
  | [], built => (built, none)
  | path :: rest, built =>
      match filters.find? fun f => f.field == path with
      | some (.eq _ val) => scanBytes store idx rest (built ++ (encodeIndexValue S val ++ [sep]))
      | some (.range _ start stop) =>
          (built ++ encodeIndexValue S start,
            some (rangeEndKey S filters path (encodeIndexValue S stop) idx.keyPaths (idxPrefix store idx.name)))
      | some (.isIn _ _) => (built, none)
      | none => (built, none)

def popSep (bytes : Bytes) : Bytes := if bytes.getLast? = some sep then bytes.dropLast else bytes

def buildIndexScan (store : String) (idx : IndexDef) : ScanPlan :=
  let (built, rangeEnd) := scanBytes S filters store idx idx.keyPaths (idxPrefix store idx.name)
  let pfx := popSep built
  .index pfx (if pfx.isEmpty then none else some pfx) rangeEnd

def planScan (store : String) (d : StoreDef) : ScanPlan × Option IndexDef :=
  match d.indexes.foldl (better filters) none with
  | some (_, idx) => (buildIndexScan S filters store idx, some idx)
  | none => (.fullScan, none)

def ScanPlan.range (store : String) : ScanPlan → ScanRange
  | .index _ (some s) (some e) => ⟨.included s, .excluded e, .unbounded, .unbounded⟩
  | .index pfx _ _ => prefixRange pfx
  | .fullScan => prefixRange (docPrefix store)

def reached (target : Option Nat) (results : List Value) : Bool := target.any fun n => results.length ≥ n

/-- Reads the document each index entry names; a missing one is passed over. -/
def indexLoop (db : JsonDB) (store : String) (target : Option Nat) :
    List (Bytes × Bytes) → List Value → Except FlowError (List Value)
  | [], results => .ok results
  | entry :: rest, results => do
      let results ← match getBytes db (docKey store entry.2) with
        | some bytes => do
            let doc ← decodeDoc S bytes
            .ok (results ++ [doc])
        | none => .ok results
      if reached target results then .ok results else indexLoop db store target rest results

def fullLoop (target : Option Nat) : List (Bytes × Bytes) → List Value → Except FlowError (List Value)
  | [], results => .ok results
  | entry :: rest, results => do
      let doc ← decodeDoc S entry.2
      let results := results ++ [doc]
      if reached target results then .ok results else fullLoop target rest results

end

section
variable (S : Serde) (q : QueryBuilder)

def QueryBuilder.needsSort (used : Option IndexDef) : Bool :=
  match q.orderField with
  | some field =>
      let provided := match used with
        | some idx => decide (q.orderDir = .asc) && decide (idx.keyPaths.head? = some field)
        | none => false
      !provided
  | none => false

def sortKey (field : String) (doc : Value) : Bytes := encodeIndexValue S ((extractField doc field).getD .null)

def sortDocs (field : String) (dir : SortDir) (docs : List Value) : List Value :=
  docs.mergeSort fun a b =>
    match dir with
    | .asc => decide (sortKey S field a ≤ sortKey S field b)
    | .desc => decide (sortKey S field b ≤ sortKey S field a)

def QueryBuilder.collect (db : JsonDB) : Except FlowError (List Value) := do
  let d ← getStore db q.store
  let (plan, used) := planScan S q.filters q.store d
  let needsSort := q.needsSort used
  let target := q.limit.map fun l => (l + q.offset) % 2 ^ 64
  let entries := scan db.engine (plan.range q.store)
  let docs ← match plan with
    | .index _ _ _ => indexLoop S db q.store (if needsSort then none else target) entries []
    | .fullScan => fullLoop S target entries []
  let docs := q.filters.foldl (fun docs f => docs.filter fun doc => filterMatches S doc f) docs
  let docs := match q.orderField with
    | some field => if needsSort then sortDocs S field q.orderDir docs else docs
    | none => docs
  let docs := docs.drop q.offset
  -- A vector never holds more than the largest `usize`.
  .ok (match q.limit with
    | some l => docs.take l
    | none => docs)

end
end FlowDb.JsonQuery
