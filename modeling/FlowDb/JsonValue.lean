import Mathlib.Data.String.Basic
import FlowDb.OrderedMap
import FlowDb.ByteString

/-! JSON values as serde_json builds them, field paths, and the text functions
the JSON layer borrows. `Serde` stands for the third-party writer and parser; its
laws are the documented ones the key scheme and the documents rely on. -/
namespace FlowDb.JsonValue
open ByteString OrderedMap

inductive Number where
  | posInt (n : UInt64)
  | negInt (n : Int64)
  | float (bits : UInt64)
  deriving DecidableEq, Repr

def Number.asI64 : Number → Option UInt64
  | .posInt n => if n.toNat < 2 ^ 63 then some n else none
  | .negInt n => some n.toUInt64
  | .float _ => none

def Number.asU64 : Number → Option UInt64
  | .posInt n => some n
  | _ => none

/-- An object keeps its members in key order, as the library's map does. -/
inductive Value where
  | null
  | bool (b : Bool)
  | number (n : Number)
  | string (s : String)
  | array (items : List Value)
  | object (members : List (String × Value))
  deriving Repr

def utf8 (s : String) : Bytes := s.toUTF8.data.toList

theorem utf8_injective (s t : String) (same : utf8 s = utf8 t) : s = t := by
  apply String.toByteArray_inj.mp
  exact ByteArray.ext (Array.ext' same)

theorem utf8_toList (s : String) : utf8 s = s.toList.flatMap String.utf8EncodeChar := by
  have encoded : s.toUTF8 = s.toList.utf8Encode := String.utf8Encode_toList.symm
  rw [utf8, encoded, List.utf8Encode]
  simp

theorem zero_eq_ofNat (n : Nat) (zero : (0 : UInt8) = UInt8.ofNat n) : n % 256 = 0 := by
  have value := congrArg UInt8.toNat zero
  simpa [eq_comm] using value

-- Every byte of a multi-byte sequence has its top bit set.
theorem zero_mem_utf8EncodeChar (c : Char) (zero : (0 : UInt8) ∈ String.utf8EncodeChar c) :
    c = Char.ofNat 0 := by
  have scalar : c.val.toNat = 0 := by
    unfold String.utf8EncodeChar at zero
    simp only at zero
    split_ifs at zero with one two three
    all_goals simp only [List.mem_cons, List.not_mem_nil, or_false] at zero
    · have := zero_eq_ofNat _ zero
      omega
    · rcases zero with h | h <;> have := zero_eq_ofNat _ h <;> omega
    · rcases zero with h | h | h <;> have := zero_eq_ofNat _ h <;> omega
    · rcases zero with h | h | h | h <;> have := zero_eq_ofNat _ h <;> omega
  exact Char.ext (UInt32.toNat_inj.mp scalar)

theorem zero_mem_utf8 (s : String) (zero : (0 : UInt8) ∈ utf8 s) : Char.ofNat 0 ∈ s.toList := by
  rw [utf8_toList] at zero
  obtain ⟨c, member, byte⟩ := List.mem_flatMap.mp zero
  exact zero_mem_utf8EncodeChar c byte ▸ member

theorem top_ne_ofNat {n : Nat} (small : n % 256 < 255) : (255 : UInt8) ≠ UInt8.ofNat n := by
  intro top
  have value := congrArg UInt8.toNat top
  rw [UInt8.toNat_ofNat'] at value
  change 255 = _ at value
  omega

-- No byte of a sequence has all its bits set.
theorem top_notMem_utf8 (s : String) : (255 : UInt8) ∉ utf8 s := by
  intro top
  rw [utf8_toList] at top
  obtain ⟨c, _, byte⟩ := List.mem_flatMap.mp top
  unfold String.utf8EncodeChar at byte
  simp only at byte
  split_ifs at byte with one two three
  all_goals simp only [List.mem_cons, List.not_mem_nil, or_false] at byte
  · exact absurd byte (top_ne_ofNat (by omega))
  · rcases byte with h | h <;> exact absurd h (top_ne_ofNat (by omega))
  · rcases byte with h | h | h <;> exact absurd h (top_ne_ofNat (by omega))
  · rcases byte with h | h | h | h <;> exact absurd h (top_ne_ofNat (by omega))

/-- `usize::from_str`: an optional plus sign, then digits only. -/
def parseUsize (segment : List Char) : Option Nat :=
  let digits := match segment with
    | '+' :: rest => rest
    | _ => segment
  if digits.isEmpty then none
  else if digits.all Char.isDigit then
    let n := digits.foldl (fun acc c => acc * 10 + (c.toNat - 48)) 0
    if n < 2 ^ 64 then some n else none
  else none

def extractSegments : Value → List (List Char) → Option Value
  | current, [] => some current
  | .object members, segment :: rest =>
      match members.find? fun m => m.1 == String.ofList segment with
      | some m => extractSegments m.2 rest
      | none => none
  | .array items, segment :: rest =>
      match parseUsize segment with
      | some idx =>
        match items[idx]? with
        | some item => extractSegments item rest
        | none => none
      | none => none
  | _, _ :: _ => none

def extractField (doc : Value) (path : String) : Option Value :=
  if path.isEmpty then some doc else extractSegments doc (path.toList.splitOn '.')

def decimal (n : Nat) : Bytes := (Nat.toDigits 10 n).map fun c => UInt8.ofNat c.toNat

theorem digit_of_mem_decimal {n : Nat} {b : UInt8} (member : b ∈ decimal n) : 48 ≤ b.toNat ∧ b.toNat ≤ 57 := by
  obtain ⟨c, inside, rfl⟩ := List.mem_map.mp member
  have digit := Nat.isDigit_of_mem_toDigits (by decide) (by decide) inside
  simp only [Char.isDigit, Bool.and_eq_true, decide_eq_true_eq, UInt32.le_iff_toNat_le] at digit
  obtain ⟨low, high⟩ := digit
  change 48 ≤ c.toNat at low
  change c.toNat ≤ 57 at high
  rw [UInt8.toNat_ofNat', Nat.mod_eq_of_lt (by omega)]
  exact ⟨low, high⟩

theorem zero_notMem_decimal (n : Nat) : (0 : UInt8) ∉ decimal n := fun zero =>
  absurd (digit_of_mem_decimal zero).1 (by decide)

theorem digit_read {c : Char} (digit : c.isDigit) : Char.ofNat (UInt8.ofNat c.toNat).toNat = c := by
  have small : c.toNat < 256 := by
    have low := of_decide_eq_true (Bool.and_eq_true _ _ ▸ digit : _ ∧ _).2
    change c.toNat ≤ 57 at low
    omega
  rw [UInt8.toNat_ofNat', Nat.mod_eq_of_lt small, Char.ofNat_toNat]

/-- The digits of a number determine it. -/
theorem decimal_injective : Function.Injective decimal := by
  refine Function.LeftInverse.injective (g := fun b => Nat.ofDigitChars 10 (b.map fun c => Char.ofNat c.toNat) 0) fun n => ?_
  dsimp only [decimal]
  rw [List.map_map, List.map_congr_left (g := id), List.map_id, Nat.ofDigitChars_ten_toDigits]
  exact fun c member => digit_read (Nat.isDigit_of_mem_toDigits (by decide) (by decide) member)

def finite (bits : UInt64) : Bool := (bits >>> 52) &&& 0x7ff != 0x7ff

mutual
/-- What every value of the library's type satisfies: members in strict key
order, a negative integer below zero, no infinite or undefined float. -/
def Value.wellFormed : Value → Bool
  | .array items => itemsWellFormed items
  | .object members =>
      decide (members.Pairwise fun a b => a.1 < b.1) && membersWellFormed members
  | .number (.negInt n) => decide (n < 0)
  | .number (.float bits) => finite bits
  | _ => true

def itemsWellFormed : List Value → Bool
  | [] => true
  | item :: rest => item.wellFormed && itemsWellFormed rest

def membersWellFormed : List (String × Value) → Bool
  | [] => true
  | (_, value) :: rest => value.wellFormed && membersWellFormed rest
end

theorem membersWellFormed_iff (members : List (String × Value)) :
    membersWellFormed members = true ↔ ∀ m ∈ members, m.2.wellFormed = true := by
  induction members with
  | nil => simp [membersWellFormed]
  | cons head rest ih =>
    obtain ⟨name, value⟩ := head
    simp [membersWellFormed, ih]

/-- `if let Value::Object(map) = doc { map.insert(name, value) }` -/
def Value.insertMember (doc : Value) (name : String) (value : Value) : Value :=
  match doc with
  | .object members => .object (insertSorted name value members)
  | other => other

theorem insertMember_wellFormed (doc value : Value) (name : String)
    (whole : doc.wellFormed = true) (inserted : value.wellFormed = true) :
    (doc.insertMember name value).wellFormed = true := by
  cases doc with
  | object members =>
    simp only [Value.wellFormed, Bool.and_eq_true, decide_eq_true_eq,
      membersWellFormed_iff, Value.insertMember] at whole ⊢
    obtain ⟨ordered, each⟩ := whole
    refine ⟨insertSorted_sorted name value members ordered, fun m member => ?_⟩
    rcases (mem_insertSorted name value members ordered m).mp member with rfl | ⟨old, _⟩
    · exact inserted
    · exact each m old
  | _ => exact whole

/-- The third-party text functions. A written value parses back to itself, its
text holds no NUL (control characters are escaped), nor does a float's. -/
structure Serde where
  toVec : Value → Option Bytes
  fromSlice : Bytes → Option Value
  floatText : UInt64 → Bytes
  debugValues : List Value → String
  debugLossy : Bytes → String
  errorText : Bytes → String
  round_trip : ∀ v b, v.wellFormed = true → toVec v = some b → fromSlice b = some v
  text_nul_free : ∀ v b, toVec v = some b → (0 : UInt8) ∉ b
  float_nul_free : ∀ bits, (0 : UInt8) ∉ floatText bits

-- For a writer of floats that knows 0.0 only.
theorem zeroPointZero_nul_free (_ : UInt64) : (0 : UInt8) ∉ ([48, 46, 48] : Bytes) := by decide

example : extractField (.object [("user", .object [("tags", .array [.null, .bool true])])])
    "user.tags.1" matches some (.bool true) := by decide

end FlowDb.JsonValue
