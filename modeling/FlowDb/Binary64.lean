import Mathlib

/-! Finite doubles as exact rationals. The bits below the sign count upwards with
the absolute value, so the sign-adjusted word is ordered as the number is; only
the two zeros are one number under two words. -/
namespace Binary64

def magnitude (bits : UInt64) : Nat := bits.toNat % 2 ^ 63

def negative (bits : UInt64) : Bool := 2 ^ 63 ≤ bits.toNat

/-- Multiples of the least subnormal. -/
def units (mag : Nat) : Nat :=
  if mag / 2 ^ 52 = 0 then mag % 2 ^ 52 else (2 ^ 52 + mag % 2 ^ 52) * 2 ^ (mag / 2 ^ 52 - 1)

def signed (bits : UInt64) : Int := if negative bits then -magnitude bits else magnitude bits

def signedUnits (mag : Int) : Int := if mag < 0 then -units mag.natAbs else units mag.natAbs

def toRat (bits : UInt64) : ℚ := signedUnits (signed bits) / 2 ^ 1074

example : toRat 0xC000000000000000 = -2 := by decide +kernel

def BothZero (a b : UInt64) : Prop := magnitude a = 0 ∧ magnitude b = 0

instance (a b : UInt64) : Decidable (BothZero a b) := inferInstanceAs (Decidable (_ ∧ _))

theorem units_lt_next (mag : Nat) : units mag < 2 ^ 52 * 2 ^ (mag / 2 ^ 52) := by
  have fraction : mag % 2 ^ 52 < 2 ^ 52 := Nat.mod_lt _ (by decide)
  unfold units
  split_ifs with subnormal
  · rw [subnormal]
    omega
  · obtain ⟨e, exponent⟩ := Nat.exists_eq_succ_of_ne_zero subnormal
    rw [exponent, Nat.succ_sub_one, Nat.pow_succ]
    calc (2 ^ 52 + mag % 2 ^ 52) * 2 ^ e < (2 ^ 52 * 2) * 2 ^ e :=
          Nat.mul_lt_mul_of_pos_right (by omega) (Nat.two_pow_pos e)
      _ = 2 ^ 52 * (2 ^ e * 2) := by ring

theorem le_units {mag : Nat} (normal : mag / 2 ^ 52 ≠ 0) :
    2 ^ 52 * 2 ^ (mag / 2 ^ 52 - 1) ≤ units mag := by
  rw [units, if_neg normal]
  exact Nat.mul_le_mul_right _ (Nat.le_add_right _ _)

-- Within one exponent the fraction decides, across exponents the exponent does.
theorem units_strictMono : StrictMono units := by
  intro low high less
  rcases Nat.lt_or_eq_of_le (Nat.div_le_div_right (c := 2 ^ 52) less.le) with apart | together
  · have normal : high / 2 ^ 52 ≠ 0 := by omega
    calc units low < 2 ^ 52 * 2 ^ (low / 2 ^ 52) := units_lt_next low
      _ ≤ 2 ^ 52 * 2 ^ (high / 2 ^ 52 - 1) :=
          Nat.mul_le_mul_left _ (Nat.pow_le_pow_right (by decide) (by omega))
      _ ≤ units high := le_units normal
  · have fractions : low % 2 ^ 52 < high % 2 ^ 52 := by omega
    unfold units
    rw [together]
    split_ifs
    · exact fractions
    · exact Nat.mul_lt_mul_of_pos_right (by omega) (Nat.two_pow_pos _)

theorem units_zero : units 0 = 0 := rfl

theorem units_pos {mag : Nat} (nonzero : 0 < mag) : 0 < units mag := by
  have above := units_strictMono nonzero
  rwa [units_zero] at above

theorem signedUnits_strictMono : StrictMono signedUnits := by
  intro low high less
  unfold signedUnits
  split_ifs with negLow negHigh negHigh
  · have above := units_strictMono (show high.natAbs < low.natAbs by omega)
    omega
  · have above := units_pos (show 0 < low.natAbs by omega)
    omega
  · omega
  · have above := units_strictMono (show low.natAbs < high.natAbs by omega)
    omega

theorem toRat_cmp (a b : UInt64) : cmp (toRat a) (toRat b) = cmp (signed a) (signed b) := by
  have scale : StrictMono fun mag : Int => (signedUnits mag : ℚ) / 2 ^ 1074 := by
    intro low high less
    have above : (signedUnits low : ℚ) < signedUnits high := by exact_mod_cast signedUnits_strictMono less
    exact div_lt_div_of_pos_right above (by positivity)
  exact scale.cmp_map_eq (signed a) (signed b)

/-- The word whose unsigned order is the numeric one. -/
def sortKey (bits : UInt64) : UInt64 :=
  if bits &&& 0x8000000000000000 != 0 then ~~~bits else bits ^^^ 0x8000000000000000

theorem xor_two_pow {n k : Nat} (fits : n < 2 ^ (k + 1)) :
    n ^^^ 2 ^ k = if n < 2 ^ k then n + 2 ^ k else n - 2 ^ k := by
  have high : (n ^^^ 2 ^ k) / 2 ^ k = n / 2 ^ k ^^^ 1 := by
    rw [Nat.xor_div_two_pow, Nat.div_self (Nat.two_pow_pos k)]
  have low : (n ^^^ 2 ^ k) % 2 ^ k = n % 2 ^ k := by
    rw [Nat.xor_mod_two_pow, Nat.mod_self, Nat.xor_zero]
  have whole := Nat.div_add_mod (n ^^^ 2 ^ k) (2 ^ k)
  rw [high, low] at whole
  rw [← whole]
  split_ifs with small
  · rw [Nat.div_eq_of_lt small, Nat.mod_eq_of_lt small, Nat.zero_xor, Nat.mul_one, Nat.add_comm]
  · have front : n / 2 ^ k = 1 := Nat.div_eq_of_lt_le (by omega) (by omega)
    have rest := Nat.div_add_mod n (2 ^ k)
    rw [front] at rest ⊢
    simp only [Nat.xor_self, Nat.mul_zero]
    omega

theorem toNat_flip (n : UInt64) :
    (n ^^^ 0x8000000000000000).toNat = if n.toNat < 2 ^ 63 then n.toNat + 2 ^ 63 else n.toNat - 2 ^ 63 := by
  rw [UInt64.toNat_xor]
  exact xor_two_pow n.toNat_lt

theorem top_bit (bits : UInt64) : (bits &&& 0x8000000000000000 != 0) = negative bits := by
  have fits := bits.toNat_lt
  have masked : (bits &&& 0x8000000000000000).toNat = (bits.toNat.testBit 63).toNat * 2 ^ 63 := by
    rw [UInt64.toNat_and]
    exact Nat.and_two_pow _ 63
  have bit : bits.toNat.testBit 63 = negative bits := by
    rw [Nat.testBit_eq_decide_div_mod_eq, negative]
    congr 1
    rw [eq_iff_iff]
    omega
  rw [Bool.eq_iff_iff, bne_iff_ne, ne_eq, ← UInt64.toNat_inj, masked, bit]
  cases negative bits <;> simp

theorem toNat_sortKey (bits : UInt64) :
    ((sortKey bits).toNat : Int) = if negative bits then 2 ^ 63 - 1 + signed bits else 2 ^ 63 + signed bits := by
  have fits := bits.toNat_lt
  unfold sortKey signed
  rw [top_bit]
  by_cases top : 2 ^ 63 ≤ bits.toNat
  · have negated : negative bits = true := decide_eq_true top
    simp only [negated, if_true, UInt64.toNat_not, magnitude, UInt64.size]
    omega
  · have kept : negative bits = false := decide_eq_false top
    simp only [kept, Bool.false_eq_true, if_false, toNat_flip, magnitude]
    split_ifs <;> omega

theorem magnitude_eq (bits : UInt64) : magnitude bits = (signed bits).natAbs := by
  unfold signed
  split_ifs <;> simp

theorem sortKey_lt {a b : UInt64} (apart : ¬BothZero a b) :
    (sortKey a).toNat < (sortKey b).toNat ↔ signed a < signed b := by
  have keyA := toNat_sortKey a
  have keyB := toNat_sortKey b
  have signA : if negative a then signed a ≤ 0 else 0 ≤ signed a := by
    unfold signed
    split_ifs <;> omega
  have signB : if negative b then signed b ≤ 0 else 0 ≤ signed b := by
    unfold signed
    split_ifs <;> omega
  rw [BothZero, magnitude_eq, magnitude_eq] at apart
  split_ifs at keyA keyB signA signB <;> omega

theorem sortKey_inj {a b : UInt64} (same : (sortKey a).toNat = (sortKey b).toNat) : a = b := by
  have keyA := toNat_sortKey a
  have keyB := toNat_sortKey b
  have boundA := a.toNat_lt
  have boundB := b.toNat_lt
  apply UInt64.toNat_inj.mp
  unfold signed magnitude negative at keyA keyB
  simp only [decide_eq_true_eq] at keyA keyB
  split_ifs at keyA keyB <;> omega

theorem sortKey_cmp (a b : UInt64) :
    cmp (sortKey a).toNat (sortKey b).toNat = cmp (toRat a) (toRat b) ↔ (BothZero a b → a = b) := by
  rw [toRat_cmp]
  by_cases zeros : BothZero a b
  · have level : signed a = signed b := by
      have left := magnitude_eq a ▸ zeros.1
      have right := magnitude_eq b ▸ zeros.2
      omega
    rw [(cmp_eq_eq_iff _ _).mpr level, cmp_eq_eq_iff]
    exact ⟨fun same _ => sortKey_inj same, fun same => by rw [same zeros]⟩
  · have swapped : ¬BothZero b a := fun h => zeros ⟨h.2, h.1⟩
    have order : cmp (sortKey a).toNat (sortKey b).toNat = cmp (signed a) (signed b) := by
      simp only [cmp, cmpUsing, sortKey_lt zeros, sortKey_lt swapped]
    exact iff_of_true order fun h => (zeros h).elim

end Binary64
