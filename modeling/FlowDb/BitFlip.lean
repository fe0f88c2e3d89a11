import FlowDb.ByteString
import Mathlib.Data.BitVec

/-! One bit of a byte string turned over, and what that does to the numbers its bytes
encode. Bit `i` is bit `i % 8` of byte `i / 8`. -/
namespace BitFlip
open ByteString

def flipBit (data : Bytes) (i : Nat) : Bytes := data.modify (i / 8) fun b => b ^^^ UInt8.ofNat (2 ^ (i % 8))

@[simp] theorem length_flipBit (data : Bytes) (i : Nat) : (flipBit data i).length = data.length := List.length_modify ..

theorem flipBit_cons (b : UInt8) (rest : Bytes) (i : Nat) :
    flipBit (b :: rest) i = if i / 8 = 0 then (b ^^^ UInt8.ofNat (2 ^ (i % 8))) :: rest else b :: flipBit rest (i - 8) := by
  rw [flipBit, List.modify_cons]
  split_ifs with first
  · rfl
  · rw [flipBit, show (i - 8) / 8 = i / 8 - 1 by omega, show (i - 8) % 8 = i % 8 by omega]

theorem flipBit_append (a b : Bytes) (i : Nat) :
    flipBit (a ++ b) i = if i / 8 < a.length then flipBit a i ++ b else a ++ flipBit b (i - 8 * a.length) := by
  induction a generalizing i with
  | nil => simp
  | cons x rest ih =>
    rw [List.cons_append, flipBit_cons, flipBit_cons, ih]
    by_cases first : i / 8 = 0
    · simp [first]
    · rw [if_neg first, if_neg first, List.length_cons]
      by_cases inside : i / 8 < rest.length + 1
      · rw [if_pos (by omega), if_pos inside, List.cons_append]
      · rw [if_neg (by omega), if_neg inside, List.cons_append, show i - 8 - 8 * rest.length = i - 8 * (rest.length + 1) by omega]

theorem flipBit_left {a : Bytes} (b : Bytes) {i : Nat} (inside : i / 8 < a.length) :
    flipBit (a ++ b) i = flipBit a i ++ b := by rw [flipBit_append, if_pos inside]

theorem flipBit_right {a : Bytes} (b : Bytes) {i : Nat} (outside : a.length ≤ i / 8) :
    flipBit (a ++ b) i = a ++ flipBit b (i - 8 * a.length) := by rw [flipBit_append, if_neg (not_lt.mpr outside)]

/-- A bit flipped inside one field of the bytes. -/
theorem flipBit_field {data front field back : Bytes} {i : Nat} (shape : data = front ++ (field ++ back))
    (within : front.length ≤ i / 8 ∧ i / 8 < front.length + field.length) :
    ∃ k, i = 8 * front.length + k ∧ flipBit data i = front ++ (flipBit field k ++ back) := by
  refine ⟨i - 8 * front.length, by omega, ?_⟩
  rw [shape, flipBit_right _ within.1, flipBit_left]
  omega

theorem flipBit_last {data front field : Bytes} {i : Nat} (shape : data = front ++ field) (lower : front.length ≤ i / 8) :
    ∃ k, flipBit data i = front ++ flipBit field k := ⟨_, by rw [shape, flipBit_right _ lower]⟩

theorem getElem?_flipBit_ne (data : Bytes) (i j : Nat) (other : i / 8 ≠ j) : (flipBit data i)[j]? = data[j]? :=
  List.getElem?_modify_ne _ _ other

theorem two_pow_toNat {k : Nat} (bit : k < 8) : (UInt8.ofNat (2 ^ k)).toNat = 2 ^ k := by
  rw [UInt8.toNat_ofNat', Nat.mod_eq_of_lt]
  exact Nat.pow_lt_pow_right (by decide) bit

theorem flipped_byte_ne (b : UInt8) {k : Nat} (bit : k < 8) : b ^^^ UInt8.ofNat (2 ^ k) ≠ b := by
  intro same
  have nat := congrArg UInt8.toNat same
  rw [UInt8.toNat_xor, two_pow_toNat bit] at nat
  have turned := congrArg (fun n => n.testBit k) nat
  simp [Nat.testBit_xor, Nat.testBit_two_pow_self] at turned

theorem flipBit_ne (data : Bytes) {i : Nat} (inside : i < 8 * data.length) : flipBit data i ≠ data := by
  intro same
  have there : i / 8 < data.length := by omega
  have byte := congrArg (fun l => l[i / 8]?) same
  simp only [flipBit, List.getElem?_modify_eq, List.getElem?_eq_getElem there, Option.map_eq_map, Option.map_some,
    Option.some.injEq] at byte
  exact flipped_byte_ne _ (Nat.mod_lt _ (by decide)) byte

/-! ### As a little-endian number -/

def leNat (data : Bytes) : Nat := ofBe data.reverse

theorem leNat_cons (b : UInt8) (rest : Bytes) : leNat (b :: rest) = 2 ^ 8 * leNat rest + b.toNat := by
  rw [leNat, List.reverse_cons, ofBe_append_singleton, leNat]
  omega

/-- A flipped bit of the bytes is the flipped bit of the number. -/
theorem leNat_flipBit (data : Bytes) {i : Nat} (inside : i < 8 * data.length) :
    leNat (flipBit data i) = leNat data ^^^ 2 ^ i := by
  induction data generalizing i with
  | nil => simp at inside
  | cons b rest ih =>
    rw [List.length_cons] at inside
    refine Nat.eq_of_testBit_eq fun j => ?_
    rw [flipBit_cons, Nat.testBit_xor, leNat_cons, Nat.testBit_two_pow_mul_add _ b.toNat_lt]
    split_ifs with first low
    · have bit : i < 8 := by omega
      rw [leNat_cons, Nat.testBit_two_pow_mul_add _ (UInt8.toNat_lt _), if_pos low, UInt8.toNat_xor, Nat.testBit_xor,
        Nat.mod_eq_of_lt bit, two_pow_toNat bit]
    · have bit : i < 8 := by omega
      rw [leNat_cons, Nat.testBit_two_pow_mul_add _ (UInt8.toNat_lt _), if_neg low, Nat.testBit_two_pow_of_ne (by omega),
        Bool.xor_false]
    · rw [leNat_cons, Nat.testBit_two_pow_mul_add _ b.toNat_lt, if_pos (by assumption),
        Nat.testBit_two_pow_of_ne (by omega), Bool.xor_false]
    · rw [leNat_cons, Nat.testBit_two_pow_mul_add _ b.toNat_lt, if_neg (by assumption), ih (by omega), Nat.testBit_xor]
      congr 1
      rw [Nat.testBit_two_pow, Nat.testBit_two_pow]
      exact decide_eq_decide.mpr (by omega)

end BitFlip
