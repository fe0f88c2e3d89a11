import FlowDb.Binary64
import FlowDb.JsonSessions

/-! The order of encoded index values. The payload of a number keeps the numeric
order of its own representation, and the tag in front of it sets every i64 before
every float and every float before every larger u64, whatever they denote. -/
namespace FlowDb.IndexOrder
open ByteString JsonValue JsonEncoding

def toRat : Number → ℚ
  | .posInt n => n.toNat
  | .negInt n => n.toInt
  | .float bits => Binary64.toRat bits

def isScalar : Value → Bool
  | .array _ | .object _ => false
  | _ => true

def typeRank : Value → Nat
  | .null => 0
  | .bool false => 1
  | .bool true => 2
  | .number _ => 3
  | .string _ => 4
  | _ => 5

/-- The documented order: null < false < true < number < string < other. -/
def scalarCmp : Value → Value → Ordering
  | .number m, .number n => cmp (toRat m) (toRat n)
  | .string s, .string t => cmp (utf8 s) (utf8 t)
  | a, b => cmp (typeRank a) (typeRank b)

/-- Which of i64, float and larger u64 a number is encoded as. -/
def representation : Number → Nat
  | .float _ => 1
  | n => if n.asI64.isSome then 0 else 2

def OneZero : Number → Number → Prop
  | .float a, .float b => Binary64.BothZero a b → a = b
  | _, _ => True

/-- The two numbers are not the two zeros, and where their representations differ
the tags are ordered as the numbers are. -/
structure KeepsOrder (m n : Number) : Prop where
  zeros : OneZero m n
  below : representation m < representation n → toRat m < toRat n
  above : representation n < representation m → toRat n < toRat m

def TagsAgree : Value → Value → Prop
  | .number m, .number n => KeepsOrder m n
  | _, _ => True

def payload : Number → Nat
  | .posInt n => (n ^^^ signBit).toNat
  | .negInt n => (n.toUInt64 ^^^ signBit).toNat
  | .float bits => (Binary64.sortKey bits).toNat

theorem payload_lt (n : Number) : payload n < 256 ^ 8 := by
  cases n <;> exact UInt64.toNat_lt _

theorem asI64_small {n : UInt64} (small : n.toNat < 2 ^ 63) : (Number.posInt n).asI64 = some n := if_pos small

theorem asI64_large {n : UInt64} (large : ¬n.toNat < 2 ^ 63) : (Number.posInt n).asI64 = none := if_neg large

def numberTag (n : Number) : UInt8 := UInt8.ofNat (4 + representation n)

theorem encode_number (S : Serde) (n : Number) :
    encodeIndexValue S (.number n) = numberTag n :: toBe 8 (payload n) := by
  cases n with
  | posInt n =>
    by_cases small : n.toNat < 2 ^ 63
    · simp only [encodeIndexValue, asI64_small small, numberTag, representation, payload]
      rfl
    · simp only [encodeIndexValue, asI64_large small, numberTag, representation, payload]
      rfl
  | negInt n => rfl
  | float bits => rfl

theorem cons_cmp {α : Type} [LinearOrder α] (x y : α) (a b : List α) :
    cmp (x :: a) (y :: b) = (cmp x y).then (cmp a b) := by
  simp only [cmp, cmpUsing, PrefixOrder.cons_lt_cons]
  rcases lt_trichotomy x y with less | rfl | greater
  · simp [less]
  · simp
  · simp [greater, greater.not_gt, greater.ne']

theorem payload_cmp (m n : Number) : cmp (toBe 8 (payload m)) (toBe 8 (payload n)) = cmp (payload m) (payload n) := by
  simp only [cmp, cmpUsing, toBe_lt_toBe (payload_lt m) (payload_lt n), toBe_lt_toBe (payload_lt n) (payload_lt m)]

theorem representation_lt (n : Number) : representation n < 3 := by
  unfold representation
  split
  · decide
  · split_ifs <;> decide

theorem toNat_numberTag (n : Number) : (numberTag n).toNat = 4 + representation n := by
  have few := representation_lt n
  rw [numberTag, UInt8.toNat_ofNat']
  omega

theorem numberTag_cmp (m n : Number) : cmp (numberTag m) (numberTag n) = cmp (representation m) (representation n) := by
  simp only [cmp, cmpUsing, UInt8.lt_iff_toNat_lt, toNat_numberTag, Nat.add_lt_add_iff_left]

theorem number_cmp (S : Serde) (m n : Number) :
    cmp (encodeIndexValue S (.number m)) (encodeIndexValue S (.number n)) =
      (cmp (representation m) (representation n)).then (cmp (payload m) (payload n)) := by
  rw [encode_number, encode_number, cons_cmp, numberTag_cmp, payload_cmp]

/-- What the payload of an integer adds to it. -/
def offset (n : Number) : Int := if representation n = 0 then 2 ^ 63 else -2 ^ 63

def integer : Number → Int
  | .posInt n => n.toNat
  | .negInt n => n.toInt
  | .float _ => 0

theorem payload_integer {n : Number} (whole : representation n ≠ 1) : (payload n : Int) = integer n + offset n := by
  cases n with
  | posInt n =>
    have fits := n.toNat_lt
    have flipped : payload (.posInt n) = _ := Binary64.toNat_flip n
    by_cases small : n.toNat < 2 ^ 63
    · have shift : offset (.posInt n) = 2 ^ 63 := by simp [offset, representation, asI64_small small]
      rw [flipped, if_pos small, shift, integer]
      omega
    · have shift : offset (.posInt n) = -2 ^ 63 := by simp [offset, representation, asI64_large small]
      rw [flipped, if_neg small, shift, integer]
      omega
  | negInt n =>
    have flipped : payload (.negInt n) = _ := Binary64.toNat_flip n.toUInt64
    have shift : offset (.negInt n) = 2 ^ 63 := rfl
    have word : n.toInt = if 2 * n.toUInt64.toNat < 2 ^ 64 then (n.toUInt64.toNat : Int)
        else n.toUInt64.toNat - 2 ^ 64 := BitVec.toInt_eq_toNat_cond n.toBitVec
    rw [flipped, shift, integer, word]
    split_ifs <;> omega
  | float bits => exact (whole rfl).elim

theorem toRat_integer {n : Number} (whole : representation n ≠ 1) : toRat n = integer n := by
  cases n with
  | posInt n => simp [toRat, integer]
  | negInt n => rfl
  | float bits => exact (whole rfl).elim

theorem toRat_cmp_integers {m n : Number} (whole : representation m ≠ 1) (whole' : representation n ≠ 1) :
    cmp (toRat m) (toRat n) = cmp (integer m) (integer n) := by
  rw [toRat_integer whole, toRat_integer whole']
  exact Int.cast_strictMono.cmp_map_eq (integer m) (integer n)

theorem float_of_representation {n : Number} (float : representation n = 1) : ∃ bits, n = .float bits := by
  cases n with
  | float bits => exact ⟨bits, rfl⟩
  | posInt n | negInt n =>
    simp only [representation] at float
    split_ifs at float
    all_goals cases float

theorem payload_cmp_alike {m n : Number} (alike : representation m = representation n) :
    cmp (payload m) (payload n) = cmp (toRat m) (toRat n) ↔ OneZero m n := by
  by_cases float : representation m = 1
  · obtain ⟨a, rfl⟩ := float_of_representation float
    obtain ⟨b, rfl⟩ := float_of_representation (alike ▸ float)
    exact Binary64.sortKey_cmp a b
  · have whole : representation n ≠ 1 := alike ▸ float
    have offsets : offset m = offset n := by rw [offset, offset, alike]
    have left := payload_integer float
    have right := payload_integer whole
    have order : cmp (payload m) (payload n) = cmp (integer m) (integer n) := by
      have forwards : payload m < payload n ↔ integer m < integer n := by omega
      have backwards : payload n < payload m ↔ integer n < integer m := by omega
      simp only [cmp, cmpUsing, forwards, backwards]
    rw [toRat_cmp_integers float whole, order]
    refine iff_of_true rfl ?_
    cases m with
    | float bits => exact (float rfl).elim
    | _ => trivial

theorem oneZero_of_apart {m n : Number} (apart : representation m ≠ representation n) : OneZero m n := by
  cases m with
  | float a =>
    cases n with
    | float b => exact (apart rfl).elim
    | _ => trivial
  | _ => trivial

theorem number_cmp_iff (S : Serde) (m n : Number) :
    cmp (encodeIndexValue S (.number m)) (encodeIndexValue S (.number n)) = cmp (toRat m) (toRat n) ↔
      KeepsOrder m n := by
  rw [number_cmp]
  rcases lt_trichotomy (representation m) (representation n) with below | alike | above
  · rw [(cmp_eq_lt_iff _ _).mpr below, Ordering.lt_then, eq_comm, cmp_eq_lt_iff]
    refine ⟨fun less => ⟨?_, fun _ => less, fun above => ?_⟩, fun kept => kept.below below⟩
    · exact oneZero_of_apart (by omega)
    · omega
  · rw [(cmp_eq_eq_iff _ _).mpr alike, Ordering.eq_then, payload_cmp_alike alike]
    exact ⟨fun zeros => ⟨zeros, fun below => by omega, fun above => by omega⟩, KeepsOrder.zeros⟩
  · rw [(cmp_eq_gt_iff _ _).mpr above, Ordering.gt_then, eq_comm, cmp_eq_gt_iff]
    refine ⟨fun less => ⟨?_, fun below => ?_, fun _ => less⟩, fun kept => kept.above above⟩
    · exact oneZero_of_apart (by omega)
    · omega

def tagOf : Value → UInt8
  | .null => 1
  | .bool false => 2
  | .bool true => 3
  | .number n => numberTag n
  | .string _ => 7
  | _ => 8

theorem encode_head (S : Serde) (v : Value) : ∃ rest, encodeIndexValue S v = tagOf v :: rest := by
  cases v with
  | bool b => cases b <;> exact ⟨_, rfl⟩
  | number n => exact ⟨_, encode_number S n⟩
  | _ => exact ⟨_, rfl⟩

theorem tagOf_lt {a b : Value} (below : typeRank a < typeRank b) : tagOf a < tagOf b := by
  have range : ∀ v, (tagOf v).toNat = typeRank v + 1 ∧ typeRank v < 3 ∨
      4 ≤ (tagOf v).toNat ∧ (tagOf v).toNat < 7 ∧ typeRank v = 3 ∨
      (tagOf v).toNat = typeRank v + 3 ∧ 4 ≤ typeRank v := by
    intro v
    cases v with
    | bool b => cases b <;> decide
    | number n =>
      have few := representation_lt n
      refine Or.inr (Or.inl ⟨?_, ?_, rfl⟩) <;> rw [tagOf, toNat_numberTag] <;> omega
    | null => decide
    | _ => exact Or.inr (Or.inr ⟨rfl, by simp [typeRank]⟩)
  rw [UInt8.lt_iff_toNat_lt]
  have low := range a
  have high := range b
  omega

theorem encode_cmp_apart (S : Serde) {a b : Value} (apart : typeRank a ≠ typeRank b) :
    cmp (encodeIndexValue S a) (encodeIndexValue S b) = cmp (typeRank a) (typeRank b) := by
  obtain ⟨left, headA⟩ := encode_head S a
  obtain ⟨right, headB⟩ := encode_head S b
  rw [headA, headB, cons_cmp]
  rcases apart.lt_or_gt with below | above
  · rw [(cmp_eq_lt_iff _ _).mpr below, (cmp_eq_lt_iff _ _).mpr (tagOf_lt below)]
    rfl
  · rw [(cmp_eq_gt_iff _ _).mpr above, (cmp_eq_gt_iff _ _).mpr (tagOf_lt above)]
    rfl

theorem scalarCmp_apart {a b : Value} (apart : typeRank a ≠ typeRank b) :
    scalarCmp a b = cmp (typeRank a) (typeRank b) := by
  cases a <;> cases b <;> first | rfl | exact (apart rfl).elim

theorem tagsAgree_apart {a b : Value} (apart : typeRank a ≠ typeRank b) : TagsAgree a b := by
  cases a with
  | number m =>
    cases b with
    | number n => exact (apart rfl).elim
    | _ => trivial
  | _ => trivial

theorem alike_cases {a b : Value} (scalar : isScalar a = true) (alike : typeRank a = typeRank b) :
    (∃ m n, a = .number m ∧ b = .number n) ∨ (∃ s t, a = .string s ∧ b = .string t) ∨
      a = b ∧ scalarCmp a b = .eq ∧ TagsAgree a b := by
  cases a with
  | null => cases b with
    | null => exact Or.inr (Or.inr ⟨rfl, rfl, trivial⟩)
    | bool y => cases y <;> cases alike
    | _ => cases alike
  | bool x => cases b with
    | bool y => cases x <;> cases y <;> first | exact Or.inr (Or.inr ⟨rfl, rfl, trivial⟩) | cases alike
    | _ => cases x <;> cases alike
  | number m => cases b with
    | number n => exact Or.inl ⟨m, n, rfl, rfl⟩
    | bool y => cases y <;> cases alike
    | _ => cases alike
  | string s => cases b with
    | string t => exact Or.inr (Or.inl ⟨s, t, rfl, rfl⟩)
    | bool y => cases y <;> cases alike
    | _ => cases alike
  | array items | object members => cases scalar

theorem index_order_iff (S : Serde) (a b : Value) (scalarA : isScalar a = true) (scalarB : isScalar b = true) :
    cmp (encodeIndexValue S a) (encodeIndexValue S b) = scalarCmp a b ↔ TagsAgree a b := by
  by_cases apart : typeRank a ≠ typeRank b
  · exact iff_of_true ((encode_cmp_apart S apart).trans (scalarCmp_apart apart).symm) (tagsAgree_apart apart)
  · rcases alike_cases scalarA (not_not.mp apart) with ⟨m, n, rfl, rfl⟩ | ⟨s, t, rfl, rfl⟩ | ⟨rfl, level, agree⟩
    · exact number_cmp_iff S m n
    · refine iff_of_true ?_ trivial
      change cmp (7 :: utf8 s) (7 :: utf8 t) = cmp (utf8 s) (utf8 t)
      rw [cons_cmp, (cmp_eq_eq_iff _ _).mpr rfl, Ordering.eq_then]
    · refine iff_of_true ?_ agree
      rw [level]
      simp [cmp, cmpUsing]

theorem index_order_iff_mixed :
    cmp (encodeIndexValue JsonSessions.sampleSerde (.number (.posInt 1)))
        (encodeIndexValue JsonSessions.sampleSerde (.number (.float 0x4004000000000000))) =
      scalarCmp (.number (.posInt 1)) (.number (.float 0x4004000000000000)) :=
  (index_order_iff JsonSessions.sampleSerde _ _ rfl rfl).mpr
    ⟨trivial, fun _ => by decide +kernel, fun above => absurd above (by decide)⟩

theorem mixed_numbers_misordered : ¬ ∀ (S : Serde) (a b : Value), a.wellFormed = true → b.wellFormed = true →
    isScalar a = true → isScalar b = true →
    cmp (encodeIndexValue S a) (encodeIndexValue S b) = scalarCmp a b := by
  intro law
  have mixed := law JsonSessions.sampleSerde (.number (.posInt 1)) (.number (.float 0x3FE0000000000000))
    (by decide) (by decide) rfl rfl
  revert mixed
  decide +kernel

end FlowDb.IndexOrder
