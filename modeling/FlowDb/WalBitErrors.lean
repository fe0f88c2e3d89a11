import FlowDb.BitFlip
import FlowDb.WalCodec

/-! The checksum of the log against single bit errors. The hash is multiplied upward and
cut to its low half, so what a flipped bit changes above the low half of the last chunk
does not reach the trailer. -/
namespace FlowDb.WalBitErrors
open ByteString Records WalCodec BitFlip

/-! ### Where a flipped bit goes in the hash -/

/-- The whole chunks before the one with bit `i`, that chunk, and the bytes after it. -/
def chunksBefore (data : Bytes) (i : Nat) : Bytes := data.take (i / 64 * 8)
def chunkOf (data : Bytes) (i : Nat) : Bytes := (data.drop (i / 64 * 8)).take 8
def chunksAfter (data : Bytes) (i : Nat) : Bytes := data.drop (i / 64 * 8 + 8)

theorem chunks_join (data : Bytes) (i : Nat) : chunksBefore data i ++ (chunkOf data i ++ chunksAfter data i) = data := by
  rw [chunksBefore, chunkOf, chunksAfter, ← List.drop_drop, List.take_append_drop, List.take_append_drop]

def low32 (hash : BitVec 64) : BitVec 32 := hash.setWidth 32

/-- The flip of bit `i` changes what is kept of the hash: in the last chunk where the bit is
in the low half, before it where the two hashes still differ there behind the chunks that follow. -/
def ReachesTrailer (body : Bytes) (i : Nat) : Prop :=
  if chunksAfter body i = [] then i % 64 < 32
  else
    let hash := mixBytes 0 (chunksBefore body i)
    low32 (mixBytes (mixChunk hash (flipBit (chunkOf body i) (i % 64))) (chunksAfter body i)) ≠
      low32 (mixBytes (mixChunk hash (chunkOf body i)) (chunksAfter body i))

theorem mixBytes_chunk (hash : BitVec 64) (data : Bytes) (nonempty : data ≠ []) :
    mixBytes hash data = mixBytes (mixChunk hash (data.take 8)) (data.drop 8) := by
  match data with
  | [] => exact absurd rfl nonempty
  | [_] | [_, _] | [_, _, _] | [_, _, _, _] | [_, _, _, _, _] | [_, _, _, _, _, _] | [_, _, _, _, _, _, _] => rfl
  | _ :: _ :: _ :: _ :: _ :: _ :: _ :: _ :: _ => rfl

theorem mixBytes_append (hash : BitVec 64) (front tail : Bytes) {n : Nat} (whole : front.length = n * 8) :
    mixBytes hash (front ++ tail) = mixBytes (mixBytes hash front) tail := by
  induction n generalizing hash front with
  | zero =>
    obtain rfl := List.length_eq_zero_iff.mp (by omega : front.length = 0)
    rfl
  | succ n ih =>
    have long : 8 ≤ front.length := by omega
    have nonempty : front ≠ [] := List.ne_nil_of_length_pos (by omega)
    rw [mixBytes_chunk hash (front ++ tail) (by simp [nonempty]), mixBytes_chunk hash front nonempty,
      List.take_append_of_le_length long, List.drop_append_of_le_length long]
    exact ih _ (front.drop 8) (by rw [List.length_drop]; omega)

/-- One chunk, whole or at the end. -/
theorem mixBytes_between (hash : BitVec 64) {front chunk rest : Bytes} {n : Nat} (whole : front.length = n * 8)
    (nonempty : chunk ≠ []) (width : chunk.length = 8 ∨ chunk.length ≤ 8 ∧ rest = []) :
    mixBytes hash (front ++ (chunk ++ rest)) = mixBytes (mixChunk (mixBytes hash front) chunk) rest := by
  rw [mixBytes_append hash front _ whole, mixBytes_chunk _ (chunk ++ rest) (by simp [nonempty])]
  rcases width with full | ⟨short, rfl⟩
  · rw [List.take_left' full, List.drop_left' full]
  · rw [List.append_nil, List.take_of_length_le short, List.drop_of_length_le short]

section
variable (data : Bytes) {i : Nat} (inside : i < 8 * data.length)
include inside

theorem length_chunksBefore : (chunksBefore data i).length = i / 64 * 8 := by
  rw [chunksBefore, List.length_take]
  omega

theorem length_chunkOf : i % 64 < 8 * (chunkOf data i).length := by
  rw [chunkOf, List.length_take, List.length_drop]
  omega

omit inside in
theorem chunkOf_width :
    (chunkOf data i).length = 8 ∨ (chunkOf data i).length ≤ 8 ∧ chunksAfter data i = [] := by
  rw [chunkOf, chunksAfter, List.length_take, List.length_drop, List.drop_eq_nil_iff]
  omega

theorem flipBit_chunk : flipBit data i =
    chunksBefore data i ++ (flipBit (chunkOf data i) (i % 64) ++ chunksAfter data i) := by
  have before := length_chunksBefore data inside
  have within := length_chunkOf data inside
  rw [← chunks_join data i, flipBit_append, chunks_join, if_neg (by omega), before, flipBit_append,
    if_pos (by omega), show i - 8 * (i / 64 * 8) = i % 64 by omega]

theorem mixBytes_chunkOf : mixBytes 0 data =
    mixBytes (mixChunk (mixBytes 0 (chunksBefore data i)) (chunkOf data i)) (chunksAfter data i) := by
  have nonempty : chunkOf data i ≠ [] := List.ne_nil_of_length_pos (by have := length_chunkOf data inside; omega)
  rw [← mixBytes_between 0 (length_chunksBefore data inside) nonempty (chunkOf_width data), chunks_join]

theorem mixBytes_flipBit : mixBytes 0 (flipBit data i) =
    mixBytes (mixChunk (mixBytes 0 (chunksBefore data i)) (flipBit (chunkOf data i) (i % 64))) (chunksAfter data i) := by
  have nonempty : flipBit (chunkOf data i) (i % 64) ≠ [] :=
    List.ne_nil_of_length_pos (by have := length_chunkOf data inside; rw [length_flipBit]; omega)
  have width := chunkOf_width data (i := i)
  rw [← length_flipBit (chunkOf data i) (i % 64)] at width
  rw [← mixBytes_between 0 (length_chunksBefore data inside) nonempty width, ← flipBit_chunk data inside]

end

/-! ### What the low half keeps -/

def seedInverse : BitVec 64 := 0x2040003d780970bd

-- The multiplier is odd.
theorem seed_inverse : checksumSeed * seedInverse = 1#64 := by decide

theorem low_product (x y : BitVec 64) {k : Nat} (width : k ≤ 64) :
    (x * checksumSeed).setWidth k = (y * checksumSeed).setWidth k ↔ x.setWidth k = y.setWidth k := by
  constructor
  · intro same
    have undone := congrArg (· * seedInverse.setWidth k) same
    simpa only [← BitVec.setWidth_mul _ _ width, BitVec.mul_assoc, seed_inverse, BitVec.mul_one] using undone
  · intro same
    rw [BitVec.setWidth_mul _ _ width, same, ← BitVec.setWidth_mul _ _ width]

theorem low_mixChunk_iff (x y : BitVec 64) (a b : Bytes) {k : Nat} (width : k ≤ 64) :
    (mixChunk x a).setWidth k = (mixChunk y b).setWidth k ↔
      (x.rotateLeft 5 ^^^ ofLe a).setWidth k = (y.rotateLeft 5 ^^^ ofLe b).setWidth k :=
  low_product _ _ width

theorem ofLe_flipBit (chunk : Bytes) {i : Nat} (inside : i < 8 * chunk.length) :
    ofLe (flipBit chunk i) = ofLe chunk ^^^ BitVec.ofNat 64 (2 ^ i) := by
  have number := leNat_flipBit chunk inside
  rw [ofLe, show ofBe (flipBit chunk i).reverse = leNat (flipBit chunk i) from rfl, number, BitVec.ofNat_xor]
  rfl

theorem xor_same_iff {w : Nat} (x y : BitVec w) : x ^^^ y = x ↔ y = 0#w := by
  constructor
  · intro same
    have cancelled := congrArg (x ^^^ ·) same
    simpa only [← BitVec.xor_assoc, BitVec.xor_self, BitVec.zero_xor] using cancelled
  · rintro rfl
    exact BitVec.xor_zero

theorem low_power_iff {k i : Nat} (bit : i < 64) : (BitVec.ofNat 64 (2 ^ i)).setWidth k = 0#k ↔ k ≤ i := by
  constructor
  · intro zero
    by_contra below
    have high := congrArg (fun v => BitVec.getLsbD v i) zero
    simp only [BitVec.getLsbD_setWidth, BitVec.getLsbD_ofNat, Nat.testBit_two_pow_self] at high
    simp [bit, show i < k by omega] at high
  · intro above
    refine BitVec.eq_of_getLsbD_eq fun j inside => ?_
    rw [BitVec.getLsbD_setWidth, BitVec.getLsbD_ofNat, Nat.testBit_two_pow_of_ne (show i ≠ j by omega)]
    simp

/-- In its own chunk a flipped bit changes the hash from that bit on, and nothing below. -/
theorem flipped_chunk_iff (hash : BitVec 64) (chunk : Bytes) {i k : Nat} (bit : i < 64) (inside : i < 8 * chunk.length)
    (width : k ≤ 64) :
    (mixChunk hash (flipBit chunk i)).setWidth k = (mixChunk hash chunk).setWidth k ↔ k ≤ i := by
  rw [low_mixChunk_iff _ _ _ _ width, ofLe_flipBit chunk inside, ← BitVec.xor_assoc, BitVec.setWidth_xor, xor_same_iff,
    low_power_iff bit]

theorem computeChecksum_eq_iff (a b : Bytes) :
    computeChecksum a = computeChecksum b ↔ low32 (mixBytes 0 a) = low32 (mixBytes 0 b) := by
  have small : ∀ hash : BitVec 64, hash.toNat % 2 ^ 32 < 256 ^ 4 := fun hash => Nat.mod_lt _ (by decide)
  rw [← BitVec.toNat_inj, low32, low32, BitVec.toNat_setWidth, BitVec.toNat_setWidth]
  constructor
  · intro same
    have numbers := congrArg ofBe same
    rwa [computeChecksum, computeChecksum, ofBe_toBe 4 _ (small _), ofBe_toBe 4 _ (small _)] at numbers
  · intro same
    rw [computeChecksum, computeChecksum, same]

/-- The checksum sees the flip of bit `i`. -/
theorem reachesTrailer_iff (body : Bytes) {i : Nat} (inside : i < 8 * body.length) :
    computeChecksum (flipBit body i) ≠ computeChecksum body ↔ ReachesTrailer body i := by
  rw [Ne, computeChecksum_eq_iff, mixBytes_flipBit body inside, mixBytes_chunkOf body inside, ReachesTrailer]
  split_ifs with last
  · rw [last, ← not_le]
    exact not_congr (flipped_chunk_iff _ _ (Nat.mod_lt i (by decide)) (length_chunkOf body inside) (by decide))
  · rfl

/-! A difference moves up five places with each further chunk. -/

theorem low_rotated {x y : BitVec 64} {k : Nat} (width : k + 5 ≤ 64)
    (same : (x.rotateLeft 5).setWidth (k + 5) = (y.rotateLeft 5).setWidth (k + 5)) : x.setWidth k = y.setWidth k := by
  refine BitVec.eq_of_getLsbD_eq fun j inside => ?_
  have bit := congrArg (fun v => BitVec.getLsbD v (j + 5)) same
  simp only [BitVec.getLsbD_setWidth, BitVec.getLsbD_rotateLeft_of_le (show 5 < 64 by decide)] at bit
  simpa [inside, show j + 5 < 64 by omega] using bit

theorem mixChunk_differs {x y : BitVec 64} {k : Nat} (chunk : Bytes) (width : k + 5 ≤ 64)
    (differ : x.setWidth k ≠ y.setWidth k) : (mixChunk x chunk).setWidth (k + 5) ≠ (mixChunk y chunk).setWidth (k + 5) := by
  intro same
  have mixed := (low_mixChunk_iff x y chunk chunk width).mp same
  rw [BitVec.setWidth_xor, BitVec.setWidth_xor] at mixed
  exact differ (low_rotated width ((BitVec.xor_left_inj _).mp mixed))

theorem widen {x y : BitVec 64} {k m : Nat} (wider : k ≤ m) (differ : x.setWidth k ≠ y.setWidth k) :
    x.setWidth m ≠ y.setWidth m := by
  intro same
  have narrowed := congrArg (BitVec.setWidth k) same
  rw [BitVec.setWidth_setWidth_of_le _ wider, BitVec.setWidth_setWidth_of_le _ wider] at narrowed
  exact differ narrowed

theorem mixBytes_differs {x y : BitVec 64} {k n : Nat} (rest : Bytes) (chunks : rest.length ≤ n * 8) (width : k + 5 * n ≤ 64)
    (differ : x.setWidth k ≠ y.setWidth k) :
    (mixBytes x rest).setWidth (k + 5 * n) ≠ (mixBytes y rest).setWidth (k + 5 * n) := by
  induction n generalizing x y rest k with
  | zero =>
    obtain rfl := List.length_eq_zero_iff.mp (by omega : rest.length = 0)
    exact differ
  | succ n ih =>
    by_cases empty : rest = []
    · subst empty
      exact widen (by omega) differ
    · rw [mixBytes_chunk x rest empty, mixBytes_chunk y rest empty, show k + 5 * (n + 1) = k + 5 + 5 * n by omega]
      refine ih (rest.drop 8) ?_ (by omega) (mixChunk_differs (rest.take 8) (by omega) differ)
      rw [List.length_drop]
      omega

/-- Where the bit is low enough for the chunks that follow, the checksum sees its flip. -/
theorem reachesTrailer_low (body : Bytes) {i n : Nat} (inside : i < 8 * body.length)
    (chunks : (chunksAfter body i).length ≤ n * 8) (low : i % 64 + 5 * n < 32) : ReachesTrailer body i := by
  refine (reachesTrailer_iff body inside).mp fun same => ?_
  rw [computeChecksum_eq_iff, mixBytes_flipBit body inside, mixBytes_chunkOf body inside] at same
  have differ := (flipped_chunk_iff (mixBytes 0 (chunksBefore body i)) (chunkOf body i) (k := i % 64 + 1)
    (Nat.mod_lt i (by decide)) (length_chunkOf body inside) (by omega)).not.mpr (by omega)
  exact widen (by omega) (mixBytes_differs (chunksAfter body i) chunks (by omega) differ) same

/-! ### Where a flipped bit goes in the record -/

/-- Byte `j` of the encoding is in `key_len`, `range_end_len` or `val_len`. -/
def InLengthPrefix (r : InternalRecord) (j : Nat) : Prop :=
  let rangeEndLen := 27 + r.key.length
  let valLen := rangeEndLen + 4 + (rangeEndBytes r).length
  (9 ≤ j ∧ j < 11) ∨ (rangeEndLen ≤ j ∧ j < rangeEndLen + 4) ∨ (valLen ≤ j ∧ j < valLen + 4)

instance (r : InternalRecord) (j : Nat) : Decidable (InLengthPrefix r j) := inferInstanceAs (Decidable (_ ∨ _ ∨ _))

/-- The bit is one that the op byte of a put is read without. -/
def OpKept (r : InternalRecord) (i : Nat) : Prop := i / 8 = 8 ∧ 2 ≤ i % 8 ∧ r.op = .put ∧ r.rangeEnd ≠ some []

/-- Decoding the encoding of `r` with bit `i` flipped returns no record but `r`. -/
def ReturnsNoOther (r : InternalRecord) (i : Nat) : Prop :=
  ∀ r' advance, decodeRecord (flipBit (encodeRecord r) i) = some (r', advance) → r' = r

/-- The flip of bit `i` is in the trailer, or in a length prefix and does not make the bytes begin
with a shorter record's encoding, or elsewhere and is not read or reaches the trailer. -/
def Caught (r : InternalRecord) (i : Nat) : Prop :=
  (encodeBody r).length ≤ i / 8 ∨
    if InLengthPrefix r (i / 8) then ∀ x : InternalRecord, x.Fits → ¬ encodeRecord x <+: flipBit (encodeRecord r) i
    else OpKept r i ∨ ReachesTrailer (encodeBody r) i

theorem bodyBytes_op (op : UInt8) (r : InternalRecord) (rest : Bytes) : (bodyBytes op r ++ rest)[8]? = some op := by
  rw [bodyBytes_eq, List.append_assoc, List.getElem?_append_right (by simp)]
  simp

theorem bodyBytes_dropEmptyEnd (op : UInt8) (r : InternalRecord) (other : Op) :
    bodyBytes op { r.dropEmptyEnd with op := other } = bodyBytes op r := by
  have stop : rangeEndBytes { r.dropEmptyEnd with op := other } = rangeEndBytes r := by
    unfold rangeEndBytes InternalRecord.dropEmptyEnd
    by_cases empty : r.rangeEnd = some [] <;> simp [empty]
  rw [bodyBytes, bodyBytes, stop]
  rfl

theorem encodeRecord_dropEmptyEnd (r : InternalRecord) : encodeRecord r.dropEmptyEnd = encodeRecord r := by
  have body : encodeBody r.dropEmptyEnd = encodeBody r := bodyBytes_dropEmptyEnd r.op.toU8 r r.op
  rw [encodeRecord, encodeRecord, body]

/-- A flip in the op byte is read, or not, by its position. -/
theorem op_kept_iff (op : Op) : ∀ k < 8, Op.fromU8 (op.toU8 ^^^ UInt8.ofNat (2 ^ k)) = op ↔ 2 ≤ k ∧ op = .put := by
  cases op <;> decide

section
variable {r : InternalRecord} (fits : r.Fits) {i : Nat}
include fits

/-- Outside the length prefixes a flipped bit leaves a body of the same layout. -/
theorem flip_layout (outside : ¬ InLengthPrefix r (i / 8)) :
    ∃ op r', r'.Fits ∧ flipBit (encodeBody r) i = bodyBytes op r' ∧
      (i / 8 = 8 → r' = r ∧ op = r.op.toU8 ^^^ UInt8.ofNat (2 ^ (i % 8))) ∧ (i / 8 ≠ 8 → op = r.op.toU8) := by
  have regions : i / 8 < 8 ∨ i / 8 = 8 ∨ (11 ≤ i / 8 ∧ i / 8 < 11 + r.key.length) ∨
      (11 + r.key.length ≤ i / 8 ∧ i / 8 < 19 + r.key.length) ∨
      (19 + r.key.length ≤ i / 8 ∧ i / 8 < 27 + r.key.length) ∨
      (31 + r.key.length ≤ i / 8 ∧ i / 8 < 31 + r.key.length + (rangeEndBytes r).length) ∨
      35 + r.key.length + (rangeEndBytes r).length ≤ i / 8 := by
    unfold InLengthPrefix at outside
    omega
  -- The bytes before each field and those from it on.
  have atSeq := (bodyBytes_eq r.op.toU8 r).trans (List.nil_append _).symm
  have atOp := bodyBytes_eq r.op.toU8 r
  have atKey := (atOp.trans (List.append_assoc ..).symm).trans (List.append_assoc ..).symm
  have atTs := atKey.trans (List.append_assoc ..).symm
  have atExpireAt := atTs.trans (List.append_assoc ..).symm
  have atRangeEnd := (atExpireAt.trans (List.append_assoc ..).symm).trans (List.append_assoc ..).symm
  have atValue := (atRangeEnd.trans (List.append_assoc ..).symm).trans (List.append_assoc ..).symm
  rw [encodeBody_eq]
  rcases regions with seq | op | key | ts | expireAt | rangeEnd | value
  · obtain ⟨k, -, flipped⟩ := flipBit_field (i := i) atSeq (by simp; omega)
    have width : (flipBit (toBe 8 r.seq) k).length = 8 := by simp
    refine ⟨r.op.toU8, { r with seq := ofBe (flipBit (toBe 8 r.seq) k) }, { fits with seq := ?_ }, ?_, by omega, fun _ => rfl⟩
    · exact (ofBe_lt _).trans_eq (by rw [width]; rfl)
    · rw [flipped, bodyBytes_eq, toBe_ofBe 8 _ width]
      rfl
  · obtain ⟨k, shift, flipped⟩ := flipBit_field (i := i) atOp (by simp; omega)
    refine ⟨r.op.toU8 ^^^ UInt8.ofNat (2 ^ (i % 8)), r, fits, ?_, fun _ => ⟨rfl, rfl⟩, by omega⟩
    rw [length_toBe] at shift
    rw [flipped, bodyBytes_eq, flipBit_cons, if_pos (by omega), show k % 8 = i % 8 by omega]
  · obtain ⟨k, -, flipped⟩ := flipBit_field (i := i) atKey (by simp; omega)
    refine ⟨r.op.toU8, { r with key := flipBit r.key k }, { fits with key := ?_ }, ?_, by omega, fun _ => rfl⟩
    · exact (length_flipBit _ _).trans_lt fits.key
    · rw [flipped, bodyBytes_eq, length_flipBit]
      simp only [List.append_assoc]
      rfl
  · obtain ⟨k, -, flipped⟩ := flipBit_field (i := i) atTs (by simp; omega)
    have width : (flipBit (i64ToBe r.ts) k).length = 8 := by simp
    refine ⟨r.op.toU8, { r with ts := i64OfBe (flipBit (i64ToBe r.ts) k) }, { fits with ts := inI64_i64OfBe _ width }, ?_,
      by omega, fun _ => rfl⟩
    rw [flipped, bodyBytes_eq, i64ToBe_i64OfBe _ width]
    simp only [List.append_assoc]
    rfl
  · obtain ⟨k, -, flipped⟩ := flipBit_field (i := i) atExpireAt (by simp; omega)
    have width : (flipBit (i64ToBe r.expireAt) k).length = 8 := by simp
    refine ⟨r.op.toU8, { r with expireAt := i64OfBe (flipBit (i64ToBe r.expireAt) k) },
      { fits with expireAt := inI64_i64OfBe _ width }, ?_, by omega, fun _ => rfl⟩
    rw [flipped, bodyBytes_eq, i64ToBe_i64OfBe _ width]
    simp only [List.append_assoc]
    rfl
  · obtain ⟨k, -, flipped⟩ := flipBit_field (i := i) atRangeEnd (by simp; omega)
    have width : (flipBit (rangeEndBytes r) k).length = (rangeEndBytes r).length := length_flipBit _ _
    refine ⟨r.op.toU8, { r with rangeEnd := some (flipBit (rangeEndBytes r) k) },
      { fits with rangeEnd := fun re held => ?_ }, ?_, by omega, fun _ => rfl⟩
    · obtain rfl := Option.some.inj held
      exact width.trans_lt (rangeEndBytes_lt (by decide) fits.rangeEnd)
    · have stop : rangeEndBytes { r with rangeEnd := some (flipBit (rangeEndBytes r) k) } = flipBit (rangeEndBytes r) k := rfl
      rw [flipped, bodyBytes_eq, stop, width]
      simp only [List.append_assoc]
  · obtain ⟨k, flipped⟩ := flipBit_last (i := i) atValue (by simp; omega)
    refine ⟨r.op.toU8, { r with value := flipBit r.value k }, { fits with value := ?_ }, ?_, by omega, fun _ => rfl⟩
    · exact (length_flipBit _ _).trans_lt fits.value
    · rw [flipped, bodyBytes_eq, length_flipBit]
      simp only [List.append_assoc]
      rfl

/-- In the trailer a flip is always seen. -/
theorem decodeRecord_trailer (inside : i < 8 * (encodeRecord r).length) (trailer : (encodeBody r).length ≤ i / 8) :
    decodeRecord (flipBit (encodeRecord r) i) = none := by
  rw [encodeRecord, List.length_append, length_computeChecksum] at inside
  have within : i - 8 * (encodeBody r).length < 8 * (computeChecksum (encodeBody r)).length := by
    rw [length_computeChecksum]
    omega
  have decoded := decodeRecord_bytes r.op.toU8 r fits
    (flipBit (computeChecksum (encodeBody r)) (i - 8 * (encodeBody r).length)) [] (by simp)
  rw [List.append_nil, ← encodeBody_eq, if_neg (flipBit_ne _ within)] at decoded
  rw [encodeRecord, flipBit_right _ trailer, decoded]

omit fits in
/-- Away from the op byte the bytes decode to another record exactly if they begin with an encoding. -/
theorem returnsNoOther_iff_prefix (inside : i < 8 * (encodeRecord r).length) (away : i / 8 ≠ 8) :
    ReturnsNoOther r i ↔ ∀ x : InternalRecord, x.Fits → ¬ encodeRecord x <+: flipBit (encodeRecord r) i := by
  have opByte : (flipBit (encodeRecord r) i)[8]? = some r.op.toU8 := by
    rw [getElem?_flipBit_ne _ i 8 away, encodeRecord, encodeBody_eq, bodyBytes_op]
  constructor
  · rintro none x xFits ⟨rest, shape⟩
    have decoded := decode_encode_record x rest xFits
    rw [shape] at decoded
    have same : encodeRecord x = encodeRecord r := by rw [← none _ _ decoded, encodeRecord_dropEmptyEnd]
    have nothing : rest = [] := by
      have lengths := congrArg List.length shape
      rw [List.length_append, length_flipBit, same] at lengths
      exact List.length_eq_zero_iff.mp (by omega)
    rw [nothing, List.append_nil, same] at shape
    exact flipBit_ne _ inside shape.symm
  · intro none r' advance decoded
    obtain ⟨rest, body, checked, -⟩ := (decodeRecord_eq_some _ _ _).mp decoded
    obtain ⟨r'Fits, -, op, read, shape⟩ := decodeBody_inv body
    rw [shape, bodyBytes_op] at opByte
    obtain rfl := Option.some.inj opByte
    have own : r'.op = r.op := read.trans (from_to_u8 r.op)
    have front : (flipBit (encodeRecord r) i).length - rest.length = (encodeBody r').length := by
      rw [shape, List.length_append, ← own, ← encodeBody_eq]
      omega
    rw [front, shape, ← own, ← encodeBody_eq, List.take_left, verifyChecksum] at checked
    cases taken : takeBytes 4 rest with
    | none => simp [taken] at checked
    | some pair =>
      obtain ⟨stored, more⟩ := pair
      simp only [taken, beq_iff_eq] at checked
      obtain ⟨rfl, -⟩ := (takeBytes_eq_some _ _ _ _).mp taken
      refine absurd ⟨more, ?_⟩ (none r' r'Fits)
      rw [shape, ← own, ← encodeBody_eq, encodeRecord, checked, List.append_assoc]

/-- In the length prefixes and elsewhere: the flip is not read, or the checksum sees it. -/
theorem returnsNoOther_iff_layout (inside : i < 8 * (encodeBody r).length) (outside : ¬ InLengthPrefix r (i / 8)) :
    ReturnsNoOther r i ↔ OpKept r i ∨ ReachesTrailer (encodeBody r) i := by
  obtain ⟨op, r', r'Fits, shape, here, elsewhere⟩ := flip_layout fits outside
  have flipped : flipBit (encodeRecord r) i = bodyBytes op r' ++ computeChecksum (encodeBody r) := by
    rw [encodeRecord, flipBit_left _ (by omega), shape]
  have decoded := decodeRecord_bytes op r' r'Fits (computeChecksum (encodeBody r)) [] (by simp)
  rw [List.append_nil, ← flipped, ← shape] at decoded
  rw [← reachesTrailer_iff _ inside, ReturnsNoOther, decoded]
  by_cases unseen : computeChecksum (encodeBody r) = computeChecksum (flipBit (encodeBody r) i)
  · rw [if_pos unseen]
    simp only [← unseen, ne_eq, not_true_eq_false, or_false, Option.some.injEq, Prod.mk.injEq]
    by_cases at8 : i / 8 = 8
    · obtain ⟨rfl, rfl⟩ := here at8
      constructor
      · intro same
        have read := same _ _ ⟨rfl, rfl⟩
        obtain ⟨high, put⟩ := (op_kept_iff r'.op _ (Nat.mod_lt i (by decide))).mp (congrArg InternalRecord.op read)
        refine ⟨at8, high, put, fun empty => ?_⟩
        have stop := congrArg InternalRecord.rangeEnd read
        simp [InternalRecord.dropEmptyEnd, empty] at stop
      · rintro ⟨_, high, put, stop⟩ x advance ⟨rfl, _⟩
        have read := (op_kept_iff r'.op _ (Nat.mod_lt i (by decide))).mpr ⟨high, put⟩
        simp only [InternalRecord.dropEmptyEnd, if_neg stop, read]
    · obtain rfl := elsewhere at8
      constructor
      · intro same
        have read := same _ _ ⟨rfl, rfl⟩
        refine absurd ?_ (flipBit_ne _ inside)
        rw [shape, ← bodyBytes_dropEmptyEnd _ r' (Op.fromU8 r.op.toU8), read, encodeBody_eq]
      · exact fun kept => absurd kept.1 at8
  · rw [if_neg unseen]
    refine ⟨fun _ => Or.inr fun same => unseen same.symm, fun _ x advance read => ?_⟩
    cases read

/-- A flipped bit of an encoding is caught exactly where `Caught` says. -/
theorem flip_caught_iff (inside : i < 8 * (encodeRecord r).length) : ReturnsNoOther r i ↔ Caught r i := by
  unfold Caught
  by_cases trailer : (encodeBody r).length ≤ i / 8
  · have none := decodeRecord_trailer fits inside trailer
    exact ⟨fun _ => Or.inl trailer, fun _ x advance decoded => by rw [none] at decoded; cases decoded⟩
  · rw [or_iff_right trailer]
    split_ifs with prefixed
    · refine returnsNoOther_iff_prefix inside fun at8 => ?_
      rw [at8, InLengthPrefix] at prefixed
      omega
    · exact returnsNoOther_iff_layout fits (by omega) prefixed

end

/-- Its value is the upper half of the last chunk. -/
def fourByteValue : InternalRecord := ⟨1, .put, [97], 1, 2, [1, 2, 3, 4], none⟩

theorem fourByteValue_fits : fourByteValue.Fits := ⟨by decide, by decide, by decide, by decide, nofun, by decide⟩

theorem flip_caught_iff_four : ReturnsNoOther fourByteValue 312 ↔ Caught fourByteValue 312 :=
  flip_caught_iff fourByteValue_fits (by decide +kernel)

/-- A bit error in the value is read as another value. -/
theorem flip_not_caught :
    ¬ ∀ r : InternalRecord, r.Fits → ∀ i < 8 * (encodeRecord r).length, ReturnsNoOther r i := by
  intro caught
  have accepted : decodeRecord (flipBit (encodeRecord fourByteValue) 312) =
      some ({ fourByteValue with value := [1, 2, 3, 5] }, 44) := by decide +kernel
  have same := caught fourByteValue fourByteValue_fits 312 (by decide +kernel) _ _ accepted
  exact absurd same (by decide)

end FlowDb.WalBitErrors
