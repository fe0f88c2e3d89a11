import FlowDb.WalCodec

/-! The bloom filters of bloom.rs: double hashing over a list of 64-bit words. -/
namespace FlowDb.Bloom
open ByteString WalCodec

def currentHashVersion : Nat := 2

structure BloomFilter where
  bits : List (BitVec 64)
  numHashes : Nat
  hashVersion : Nat
  deriving DecidableEq, Repr

-- The rotate, xor and multiply of the log's checksum, started from a seed.
def fxhash64 (data : Bytes) (seed : BitVec 64) : BitVec 64 := mixBytes seed data

def seedA : BitVec 64 := 0x53657244424c4f4f
def seedB : BitVec 64 := 0x5744425f464c4f57

def hashPair (data : Bytes) : BitVec 64 × BitVec 64 :=
  (fxhash64 data (seedA ^^^ seedB), fxhash64 data (~~~seedA ^^^ seedB))

namespace BloomFilter

def withBitsPerKey (expectedKeys bitsPerKey : Nat) : BloomFilter :=
  let numHashes := max (min ((bitsPerKey * 69 + 99) / 100) 30) 2
  let numBits := max (expectedKeys * bitsPerKey) 64
  ⟨List.replicate ((numBits + 63) / 64) 0, numHashes, currentHashVersion⟩

/-- The bit the `i`-th hash of a key selects. -/
def bitPos (f : BloomFilter) (key : Bytes) (i : Nat) : Nat :=
  let (h1, h2) := hashPair key
  (h1 + BitVec.ofNat 64 i * h2).toNat % (f.bits.length * 64)

def setBit (words : List (BitVec 64)) (pos : Nat) : List (BitVec 64) :=
  words.modify (pos / 64) fun word => word ||| 1#64 <<< (pos % 64)

def insert (f : BloomFilter) (key : Bytes) : BloomFilter :=
  { f with bits := ((List.range f.numHashes).map (f.bitPos key)).foldl setBit f.bits }

def hasBit (words : List (BitVec 64)) (pos : Nat) : Bool := (words.getD (pos / 64) 0).getLsbD (pos % 64)

def mayContain (f : BloomFilter) (key : Bytes) : Bool :=
  if f.hashVersion ≠ currentHashVersion then true
  else (List.range f.numHashes).all fun i => hasBit f.bits (f.bitPos key i)

def fromKeysWithBits (keys : List Bytes) (bitsPerKey : Nat) : BloomFilter :=
  keys.foldl insert (withBitsPerKey keys.length bitsPerKey)

end BloomFilter

open BloomFilter

@[simp] theorem length_setBits (positions : List Nat) (words : List (BitVec 64)) :
    (positions.foldl setBit words).length = words.length := by
  induction positions generalizing words with
  | nil => rfl
  | cons pos rest ih => simp [ih, setBit]

theorem hasBit_setBit (words : List (BitVec 64)) (pos tested : Nat) (stored : pos / 64 < words.length) :
    hasBit (setBit words pos) tested = (hasBit words tested || decide (tested = pos)) := by
  have same : tested = pos ↔ tested / 64 = pos / 64 ∧ tested % 64 = pos % 64 := by omega
  by_cases word : tested / 64 = pos / 64
  · simp only [hasBit, setBit, List.getD_eq_getElem?_getD, word, List.getElem?_modify_eq,
      List.getElem?_eq_getElem stored, Option.map_eq_map, Option.map_some, Option.getD_some,
      BitVec.getLsbD_or, ← BitVec.twoPow_eq, BitVec.getLsbD_twoPow, same, true_and]
    simp [Nat.mod_lt _ (by decide : 0 < 64), eq_comm]
  · simp [hasBit, setBit, List.getD_eq_getElem?_getD, Ne.symm word, same, word]

theorem hasBit_setBits (positions : List Nat) (words : List (BitVec 64)) (tested : Nat)
    (stored : ∀ pos ∈ positions, pos / 64 < words.length) :
    hasBit (positions.foldl setBit words) tested = (hasBit words tested || decide (tested ∈ positions)) := by
  induction positions generalizing words with
  | nil => simp
  | cons pos rest ih =>
    rw [List.foldl_cons, ih (setBit words pos) (by simpa [setBit] using fun p h => stored p (by simp [h])),
      hasBit_setBit words pos tested (stored pos List.mem_cons_self)]
    by_cases here : tested = pos <;> simp [here]

theorem bitPos_stored (f : BloomFilter) (key : Bytes) (i : Nat) (words : 0 < f.bits.length) :
    f.bitPos key i / 64 < f.bits.length := by
  have := Nat.mod_lt ((hashPair key).1 + BitVec.ofNat 64 i * (hashPair key).2).toNat
    (show 0 < f.bits.length * 64 by omega)
  exact Nat.div_lt_of_lt_mul (by rw [Nat.mul_comm]; exact this)

theorem insert_bits (f : BloomFilter) (key : Bytes) :
    (f.insert key).bits = ((List.range f.numHashes).map (f.bitPos key)).foldl setBit f.bits := rfl

@[simp] theorem insert_length (f : BloomFilter) (key : Bytes) : (f.insert key).bits.length = f.bits.length := by
  simp [BloomFilter.insert]

@[simp] theorem insert_bitPos (f : BloomFilter) (key other : Bytes) (i : Nat) :
    (f.insert key).bitPos other i = f.bitPos other i := by
  simp [bitPos]

/-- An insertion adds its own key and forgets none. -/
theorem mayContain_insert (f : BloomFilter) (key other : Bytes) (words : 0 < f.bits.length)
    (known : other = key ∨ f.mayContain other = true) : (f.insert key).mayContain other = true := by
  unfold mayContain at *
  by_cases stale : f.hashVersion = currentHashVersion
  · have version : (f.insert key).hashVersion = currentHashVersion := stale
    simp only [stale, version, ne_eq, not_true_eq_false, ↓reduceIte, List.all_eq_true, List.mem_range] at *
    intro i bound
    have positions : ∀ pos ∈ (List.range f.numHashes).map (f.bitPos key), pos / 64 < f.bits.length := by
      intro pos member
      obtain ⟨j, _, rfl⟩ := List.mem_map.mp member
      exact bitPos_stored f key j words
    rw [insert_bitPos, insert_bits, hasBit_setBits _ _ _ positions]
    rcases known with rfl | held
    · have member : f.bitPos other i ∈ (List.range f.numHashes).map (f.bitPos other) :=
        List.mem_map.mpr ⟨i, List.mem_range.mpr bound, rfl⟩
      simp [member]
    · simp [held i bound]
  · have version : (f.insert key).hashVersion ≠ currentHashVersion := stale
    simp [version]

theorem mayContain_inserts (keys : List Bytes) (f : BloomFilter) (key : Bytes) (words : 0 < f.bits.length)
    (known : key ∈ keys ∨ f.mayContain key = true) : (keys.foldl insert f).mayContain key = true := by
  induction keys generalizing f with
  | nil => exact known.resolve_left (List.not_mem_nil)
  | cons first rest ih =>
    refine ih (f.insert first) (by simpa using words) ?_
    rcases known with member | held
    · rcases List.mem_cons.mp member with rfl | later
      · exact Or.inr (mayContain_insert f key key words (Or.inl rfl))
      · exact Or.inl later
    · exact Or.inr (mayContain_insert f first key words (Or.inr held))

theorem withBitsPerKey_length (expectedKeys bitsPerKey : Nat) :
    0 < (withBitsPerKey expectedKeys bitsPerKey).bits.length := by
  simp only [withBitsPerKey, List.length_replicate]
  omega

/-- A filter built from a list of keys answers for each of them. -/
theorem mayContain_fromKeys (keys : List Bytes) (bitsPerKey : Nat) (key : Bytes) (member : key ∈ keys) :
    (fromKeysWithBits keys bitsPerKey).mayContain key = true :=
  mayContain_inserts keys _ key (withBitsPerKey_length _ _) (Or.inl member)

end FlowDb.Bloom
