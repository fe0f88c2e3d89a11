import Mathlib.Data.List.Lex
import Mathlib.Data.List.Basic
import Mathlib.Data.UInt
import Mathlib.Tactic.Linarith
import Mathlib.Tactic.Ring
import FlowDb.PrefixOrder

/-! Byte strings: the lexicographic order, fixed-width big-endian integers and a
bounds-checked reader. A reader consumes the front of its input; extending the
input never changes what a successful read returned. -/
namespace ByteString

abbrev Bytes := List UInt8

instance uint8LinearOrder : LinearOrder UInt8 where
  le_refl := UInt8.le_refl
  le_trans _ _ _ := UInt8.le_trans
  le_antisymm _ _ := UInt8.le_antisymm
  le_total := UInt8.le_total
  lt_iff_le_not_ge a b := by
    rw [UInt8.not_le]
    exact ⟨fun h => ⟨UInt8.le_of_lt h, h⟩, And.right⟩
  toDecidableLE := fun _ _ => inferInstance
  toDecidableEq := inferInstance
  toDecidableLT := fun _ _ => inferInstance

def toBe : Nat → Nat → Bytes
  | 0, _ => []
  | width + 1, n => toBe width (n / 256) ++ [UInt8.ofNat n]

def ofBe (b : Bytes) : Nat := b.foldl (fun acc x => acc * 256 + x.toNat) 0

@[simp] theorem length_toBe (width n : Nat) : (toBe width n).length = width := by
  induction width generalizing n with
  | zero => rfl
  | succ width ih => simp [toBe, ih]

theorem ofBe_append_singleton (b : Bytes) (x : UInt8) : ofBe (b ++ [x]) = ofBe b * 256 + x.toNat := by
  simp [ofBe]

@[simp] theorem ofBe_toBe (width n : Nat) (fits : n < 256 ^ width) : ofBe (toBe width n) = n := by
  induction width generalizing n with
  | zero => simp only [Nat.pow_zero, Nat.lt_one_iff] at fits; subst fits; rfl
  | succ width ih =>
    have quotient : n / 256 < 256 ^ width := by
      rw [Nat.div_lt_iff_lt_mul (by decide)]
      rwa [Nat.pow_succ] at fits
    rw [toBe, ofBe_append_singleton, ih _ quotient, UInt8.toNat_ofNat']
    omega

theorem toBe_inj {width m n : Nat} (fits : m < 256 ^ width) (fits' : n < 256 ^ width) :
    toBe width m = toBe width n ↔ m = n := by
  refine ⟨fun same => ?_, fun same => by rw [same]⟩
  rw [← ofBe_toBe width m fits, same, ofBe_toBe width n fits']

-- Big-endian numbers of one width are ordered as their bytes.
theorem toBe_lt_toBe {width m n : Nat} (fits : m < 256 ^ width) (fits' : n < 256 ^ width) :
    toBe width m < toBe width n ↔ m < n := by
  induction width generalizing m n with
  | zero =>
    simp only [toBe, lt_irrefl, false_iff]
    omega
  | succ width ih =>
    have quotient : ∀ {k}, k < 256 ^ (width + 1) → k / 256 < 256 ^ width := by
      intro k small
      rw [Nat.div_lt_iff_lt_mul (by decide)]
      rwa [Nat.pow_succ] at small
    have last : [UInt8.ofNat m] < [UInt8.ofNat n] ↔ m % 256 < n % 256 := by
      rw [List.cons_lt_cons_iff, UInt8.lt_iff_toNat_lt, UInt8.toNat_ofNat', UInt8.toNat_ofNat']
      simp
    rw [toBe, toBe, PrefixOrder.append_lt_append (by simp), ih (quotient fits) (quotient fits'), last,
      toBe_inj (quotient fits) (quotient fits')]
    omega

theorem ofBe_lt (b : Bytes) : ofBe b < 256 ^ b.length := by
  induction b using List.reverseRecOn with
  | nil => simp [ofBe]
  | append_singleton b x ih =>
    rw [ofBe_append_singleton, List.length_append, List.length_singleton, Nat.pow_succ]
    have byte := x.toNat_lt
    omega

theorem toBe_ofBe (width : Nat) (b : Bytes) (fits : b.length = width) : toBe width (ofBe b) = b := by
  subst fits
  induction b using List.reverseRecOn with
  | nil => rfl
  | append_singleton b x ih =>
    have byte := x.toNat_lt
    have quotient : (ofBe b * 256 + x.toNat) / 256 = ofBe b := by omega
    have low : UInt8.ofNat (ofBe b * 256 + x.toNat) = x := by
      apply UInt8.toNat_inj.mp
      rw [UInt8.toNat_ofNat']
      omega
    rw [List.length_append, List.length_singleton, toBe, ofBe_append_singleton, quotient, low, ih]

/-- `i64::to_be_bytes`: two's complement on eight bytes. -/
def i64ToBe (n : Int) : Bytes := toBe 8 (n % 2 ^ 64).toNat

def i64OfBe (b : Bytes) : Int :=
  if ofBe b < 2 ^ 63 then ofBe b else (ofBe b : Int) - 2 ^ 64

def InI64 (n : Int) : Prop := -2 ^ 63 ≤ n ∧ n < 2 ^ 63

instance (n : Int) : Decidable (InI64 n) := inferInstanceAs (Decidable (_ ∧ _))

@[simp] theorem length_i64ToBe (n : Int) : (i64ToBe n).length = 8 := length_toBe 8 _

@[simp] theorem i64OfBe_i64ToBe (n : Int) (range : InI64 n) : i64OfBe (i64ToBe n) = n := by
  obtain ⟨low, high⟩ := range
  have small : (n % 2 ^ 64).toNat < 256 ^ 8 := by omega
  simp only [i64OfBe, i64ToBe, ofBe_toBe 8 _ small]
  split_ifs <;> omega

theorem inI64_i64OfBe (b : Bytes) (width : b.length = 8) : InI64 (i64OfBe b) := by
  have bound := width ▸ ofBe_lt b
  unfold InI64 i64OfBe
  split_ifs <;> omega

theorem i64ToBe_i64OfBe (b : Bytes) (width : b.length = 8) : i64ToBe (i64OfBe b) = b := by
  have bound := width ▸ ofBe_lt b
  have same : (i64OfBe b % 2 ^ 64).toNat = ofBe b := by
    unfold i64OfBe
    split_ifs <;> omega
  rw [i64ToBe, same, toBe_ofBe 8 b width]

/-- The first `n` bytes and what follows, `none` when fewer are left. -/
def takeBytes (n : Nat) (data : Bytes) : Option (Bytes × Bytes) :=
  if data.length < n then none else some (data.take n, data.drop n)

theorem takeBytes_append (a rest : Bytes) (n : Nat) (width : a.length = n) :
    takeBytes n (a ++ rest) = some (a, rest) := by
  subst width
  simp [takeBytes]

theorem takeBytes_eq_some (n : Nat) (data a rest : Bytes) :
    takeBytes n data = some (a, rest) ↔ data = a ++ rest ∧ a.length = n := by
  constructor
  · intro h
    unfold takeBytes at h
    split_ifs at h with short
    obtain ⟨rfl, rfl⟩ := Prod.mk.inj (Option.some.inj h)
    exact ⟨(List.take_append_drop n data).symm, by simp; omega⟩
  · rintro ⟨rfl, width⟩
    exact takeBytes_append a rest n width

theorem takeBytes_extend (n : Nat) (data a rest more : Bytes)
    (taken : takeBytes n data = some (a, rest)) :
    takeBytes n (data ++ more) = some (a, rest ++ more) := by
  obtain ⟨rfl, width⟩ := (takeBytes_eq_some n data a rest).mp taken
  rw [List.append_assoc]
  exact takeBytes_append a (rest ++ more) n width

theorem takeBytes_rest_length (n : Nat) (data a rest : Bytes)
    (taken : takeBytes n data = some (a, rest)) : data.length = n + rest.length := by
  obtain ⟨rfl, width⟩ := (takeBytes_eq_some n data a rest).mp taken
  simp [width]

end ByteString
