import Mathlib.Data.BitVec
import FlowDb.Records

/-! The record encoding of wal.rs and the loop that reads a segment back.
Layout: seq(8) | op(1) | key_len(2) | key | ts(8) | expire_at(8) |
range_end_len(4) | range_end | val_len(4) | value | checksum(4). -/
namespace FlowDb.WalCodec
open ByteString Records

def checksumSeed : BitVec 64 := 0x517cc1b727220a95

def ofLe (chunk : Bytes) : BitVec 64 := BitVec.ofNat 64 (ofBe chunk.reverse)

def mixChunk (hash : BitVec 64) (chunk : Bytes) : BitVec 64 :=
  (hash.rotateLeft 5 ^^^ ofLe chunk) * checksumSeed

-- `chunks_exact(8)` and then the remainder, zero padded on the high side.
def mixBytes (hash : BitVec 64) : Bytes → BitVec 64
  | a :: b :: c :: d :: e :: f :: g :: h :: rest => mixBytes (mixChunk hash [a, b, c, d, e, f, g, h]) rest
  | [] => hash
  | tail => mixChunk hash tail

def computeChecksum (data : Bytes) : Bytes := toBe 4 ((mixBytes 0 data).toNat % 2 ^ 32)

@[simp] theorem length_computeChecksum (data : Bytes) : (computeChecksum data).length = 4 := length_toBe 4 _

def rangeEndBytes (r : InternalRecord) : Bytes := r.rangeEnd.getD []

-- Everything before the checksum trailer. Lengths are cast, never checked.
def encodeBody (r : InternalRecord) : Bytes :=
  toBe 8 r.seq ++ [r.op.toU8] ++ toBe 2 r.key.length ++ r.key ++ i64ToBe r.ts ++ i64ToBe r.expireAt ++
    toBe 4 (rangeEndBytes r).length ++ rangeEndBytes r ++ toBe 4 r.value.length ++ r.value

def encodeRecord (r : InternalRecord) : Bytes := encodeBody r ++ computeChecksum (encodeBody r)

def encodeBatch (records : List InternalRecord) : Bytes := records.flatMap encodeRecord

def encodedSize (r : InternalRecord) : Nat :=
  8 + 1 + 2 + r.key.length + 8 + 8 + 4 + (rangeEndBytes r).length + 4 + r.value.length + 4

def decodeHead (data : Bytes) : Option ((Nat × Op × Nat) × Bytes) := do
  let (seq, rest) ← takeBytes 8 data
  let (op, rest) ← takeBytes 1 rest
  let (keyLen, rest) ← takeBytes 2 rest
  some ((ofBe seq, Op.fromU8 (op.headD 0), ofBe keyLen), rest)

-- Returns the record without its checksum, and the bytes that follow.
def decodeBody (data : Bytes) : Option (InternalRecord × Bytes) := do
  let ((seq, op, keyLen), rest) ← decodeHead data
  let (key, rest) ← takeBytes keyLen rest
  let (times, rest) ← takeBytes (8 + 8) rest
  let (rangeEndLen, rest) ← takeBytes 4 rest
  let (rangeEnd, rest) ← takeBytes (ofBe rangeEndLen) rest
  let (valLen, rest) ← takeBytes 4 rest
  let (value, rest) ← takeBytes (ofBe valLen) rest
  some (⟨seq, op, key, i64OfBe (times.take 8), i64OfBe (times.drop 8), value,
    if rangeEnd = [] then none else some rangeEnd⟩, rest)

def verifyChecksum (recordBytes fileTail : Bytes) : Bool :=
  match takeBytes 4 fileTail with
  | some (stored, _) => stored == computeChecksum recordBytes
  | none => false

/-- The record at the front of `data` and the bytes it occupies; `none` for a
truncated record as for one whose checksum does not match. -/
def decodeRecord (data : Bytes) : Option (InternalRecord × Nat) := do
  let (rec, rest) ← decodeBody data
  let pos := data.length - rest.length
  if verifyChecksum (data.take pos) rest then some (rec, pos + 4) else none

-- The `while pos < data.len()` loop of replay_from, before its seq filter.
def replayLoop : Nat → Bytes → List InternalRecord
  | 0, _ => []
  | fuel + 1, data =>
      match decodeRecord data with
      | some (rec, advance) => rec :: replayLoop fuel (data.drop advance)
      | none => []

def replaySegment (data : Bytes) : List InternalRecord := replayLoop data.length data

theorem length_encodeBody (r : InternalRecord) : (encodeBody r).length + 4 = encodedSize r := by
  simp only [encodeBody, encodedSize, List.length_append, length_toBe, length_i64ToBe, List.length_singleton]

theorem length_encodeRecord (r : InternalRecord) : (encodeRecord r).length = encodedSize r := by
  rw [encodeRecord, List.length_append, length_computeChecksum, length_encodeBody]

/-- The body of a record under any op byte; of these, all but 1 and 2 read as a put. -/
def bodyBytes (op : UInt8) (r : InternalRecord) : Bytes :=
  toBe 8 r.seq ++ [op] ++ toBe 2 r.key.length ++ r.key ++ i64ToBe r.ts ++ i64ToBe r.expireAt ++
    toBe 4 (rangeEndBytes r).length ++ rangeEndBytes r ++ toBe 4 r.value.length ++ r.value

theorem encodeBody_eq (r : InternalRecord) : encodeBody r = bodyBytes r.op.toU8 r := rfl

theorem bodyBytes_eq (op : UInt8) (r : InternalRecord) : bodyBytes op r =
    toBe 8 r.seq ++ ([op] ++ (toBe 2 r.key.length ++ (r.key ++ (i64ToBe r.ts ++ (i64ToBe r.expireAt ++
      (toBe 4 (rangeEndBytes r).length ++ (rangeEndBytes r ++ (toBe 4 r.value.length ++ r.value)))))))) := by
  simp only [bodyBytes, List.append_assoc]

theorem decodeHead_bytes (seq keyLen : Nat) (op : UInt8) (rest : Bytes) (seqFits : seq < 2 ^ 64)
    (keyFits : keyLen < 2 ^ 16) :
    decodeHead (toBe 8 seq ++ ([op] ++ (toBe 2 keyLen ++ rest))) = some ((seq, Op.fromU8 op, keyLen), rest) := by
  have wide : ofBe (toBe 8 seq) = seq := ofBe_toBe 8 seq (by simpa using seqFits)
  have short : ofBe (toBe 2 keyLen) = keyLen := ofBe_toBe 2 keyLen (by simpa using keyFits)
  simp only [decodeHead, takeBytes_append, length_toBe, List.length_singleton, Option.bind_eq_bind,
    Option.bind_some, wide, short, List.headD_cons]

theorem rangeEnd_readback (r : InternalRecord) :
    (if rangeEndBytes r = [] then none else some (rangeEndBytes r)) = r.dropEmptyEnd.rangeEnd := by
  unfold rangeEndBytes InternalRecord.dropEmptyEnd
  cases h : r.rangeEnd with
  | none => rfl
  | some re => cases re <;> simp

theorem rangeEndBytes_lt {r : InternalRecord} {bound : Nat} (room : 0 < bound)
    (fits : ∀ re, r.rangeEnd = some re → re.length < bound) : (rangeEndBytes r).length < bound := by
  unfold rangeEndBytes
  cases held : r.rangeEnd with
  | none => exact room
  | some re => exact fits re held

theorem decodeBody_bytes (op : UInt8) (r : InternalRecord) (rest : Bytes) (fits : r.Fits) :
    decodeBody (bodyBytes op r ++ rest) = some ({ r.dropEmptyEnd with op := Op.fromU8 op }, rest) := by
  have endLen : (rangeEndBytes r).length < 256 ^ 4 := rangeEndBytes_lt (by decide) fits.rangeEnd
  have valLen : r.value.length < 256 ^ 4 := by simpa using fits.value
  have shape : bodyBytes op r ++ rest =
      toBe 8 r.seq ++ ([op] ++ (toBe 2 r.key.length ++ (r.key ++
        ((i64ToBe r.ts ++ i64ToBe r.expireAt) ++ (toBe 4 (rangeEndBytes r).length ++
          (rangeEndBytes r ++ (toBe 4 r.value.length ++ (r.value ++ rest)))))))) := by
    simp only [bodyBytes, List.append_assoc]
  have tsTake : (i64ToBe r.ts ++ i64ToBe r.expireAt).take 8 = i64ToBe r.ts :=
    List.take_left' (length_i64ToBe r.ts)
  have tsDrop : (i64ToBe r.ts ++ i64ToBe r.expireAt).drop 8 = i64ToBe r.expireAt :=
    List.drop_left' (length_i64ToBe r.ts)
  simp only [decodeBody, shape, decodeHead_bytes r.seq r.key.length op _ fits.seq fits.key,
    Option.bind_eq_bind, Option.bind_some, takeBytes_append, List.length_append, length_i64ToBe,
    length_toBe, ofBe_toBe 4 _ endLen, ofBe_toBe 4 _ valLen, tsTake, tsDrop,
    i64OfBe_i64ToBe _ fits.ts, i64OfBe_i64ToBe _ fits.expireAt, rangeEnd_readback]
  rfl

/-- A body with four bytes behind it is decoded if they are its checksum. -/
theorem decodeRecord_bytes (op : UInt8) (r : InternalRecord) (fits : r.Fits) (tail rest : Bytes)
    (width : tail.length = 4) :
    decodeRecord (bodyBytes op r ++ (tail ++ rest)) =
      if tail = computeChecksum (bodyBytes op r) then
        some ({ r.dropEmptyEnd with op := Op.fromU8 op }, (bodyBytes op r).length + 4)
      else none := by
  have pos : (bodyBytes op r ++ (tail ++ rest)).length - (tail ++ rest).length = (bodyBytes op r).length := by
    rw [List.length_append, Nat.add_sub_cancel]
  simp only [decodeRecord, decodeBody_bytes op r _ fits, Option.bind_eq_bind, Option.bind_some, pos, List.take_left,
    verifyChecksum, takeBytes_append tail rest 4 width, beq_iff_eq]

/-- Decoding an encoded record returns it, whatever bytes follow. -/
theorem decode_encode_record (r : InternalRecord) (rest : Bytes) (fits : r.Fits) :
    decodeRecord (encodeRecord r ++ rest) = some (r.dropEmptyEnd, encodedSize r) := by
  have decoded := decodeRecord_bytes r.op.toU8 r fits (computeChecksum (encodeBody r)) rest (length_computeChecksum _)
  rw [← encodeBody_eq, if_pos rfl, from_to_u8, length_encodeBody] at decoded
  rw [encodeRecord, List.append_assoc, decoded]
  rfl

/-- What was decoded is the body of the record returned, under the op byte that was there. -/
theorem decodeBody_inv {data rest : Bytes} {r : InternalRecord} (decoded : decodeBody data = some (r, rest)) :
    r.Fits ∧ r.rangeEnd ≠ some [] ∧ ∃ op, r.op = Op.fromU8 op ∧ data = bodyBytes op r ++ rest := by
  simp only [decodeBody, decodeHead, Option.bind_eq_bind, Option.bind_eq_some_iff, Prod.exists, Option.some.injEq,
    Prod.mk.injEq, takeBytes_eq_some] at decoded
  obtain ⟨_, _, _, _, ⟨seq, _, ⟨rfl, seqLen⟩, op, _, ⟨rfl, opLen⟩, keyLen, _, ⟨rfl, keyLenLen⟩, ⟨rfl, rfl, rfl⟩, rfl⟩,
    key, _, ⟨rfl, keyWidth⟩, times, _, ⟨rfl, timesLen⟩, endLen, _, ⟨rfl, endLenLen⟩, stop, _, ⟨rfl, stopLen⟩,
    valLen, _, ⟨rfl, valLenLen⟩, value, _, ⟨rfl, valueLen⟩, rfl, rfl⟩ := decoded
  obtain ⟨o, rfl⟩ := List.length_eq_one_iff.mp opLen
  have ts : (times.take 8).length = 8 := by rw [List.length_take]; omega
  have expireAt : (times.drop 8).length = 8 := by rw [List.length_drop]; omega
  have number : ∀ {n width : Nat} {prefixed : Bytes}, n = ofBe prefixed → prefixed.length = width → n < 256 ^ width :=
    fun read width => read ▸ width ▸ ofBe_lt _
  refine ⟨⟨?_, ?_, inI64_i64OfBe _ ts, inI64_i64OfBe _ expireAt, ?_, ?_⟩, ?_, o, rfl, ?_⟩
  · exact number rfl seqLen
  · exact number keyWidth keyLenLen
  · intro re held
    dsimp only at held
    split_ifs at held
    obtain rfl := Option.some.inj held
    exact number stopLen endLenLen
  · exact number valueLen valLenLen
  · dsimp only
    split_ifs with empty
    · exact nofun
    · exact fun same => empty (Option.some.inj same)
  · have stopBytes : (if stop = [] then none else some stop : Option Bytes).getD [] = stop := by
      split_ifs with empty
      · exact empty.symm
      · rfl
    rw [bodyBytes_eq]
    simp only [rangeEndBytes, stopBytes, keyWidth, stopLen, valueLen, toBe_ofBe 8 seq seqLen, toBe_ofBe 2 keyLen keyLenLen,
      toBe_ofBe 4 endLen endLenLen, toBe_ofBe 4 valLen valLenLen, i64ToBe_i64OfBe _ ts, i64ToBe_i64OfBe _ expireAt,
      List.append_assoc]
    rw [← List.append_assoc (times.take 8), List.take_append_drop]

theorem decodeBody_extend (data more rest : Bytes) (r : InternalRecord)
    (decoded : decodeBody data = some (r, rest)) : decodeBody (data ++ more) = some (r, rest ++ more) := by
  obtain ⟨fits, stop, op, read, shape⟩ := decodeBody_inv decoded
  have same : { r.dropEmptyEnd with op := Op.fromU8 op } = r := by
    rw [← read, InternalRecord.dropEmptyEnd, if_neg stop]
  rw [shape, List.append_assoc, decodeBody_bytes op r _ fits, same]

theorem decodeBody_rest_length (data rest : Bytes) (r : InternalRecord)
    (decoded : decodeBody data = some (r, rest)) : rest.length + 11 ≤ data.length := by
  obtain ⟨-, -, op, -, shape⟩ := decodeBody_inv decoded
  simp only [shape, bodyBytes, List.length_append, length_toBe, length_i64ToBe, List.length_singleton]
  omega

theorem decodeRecord_eq_some (data : Bytes) (r : InternalRecord) (advance : Nat) :
    decodeRecord data = some (r, advance) ↔ ∃ rest, decodeBody data = some (r, rest) ∧
      verifyChecksum (data.take (data.length - rest.length)) rest = true ∧
      advance = data.length - rest.length + 4 := by
  simp only [decodeRecord, Option.bind_eq_bind, Option.bind_eq_some_iff, Prod.exists]
  constructor
  · rintro ⟨rec, rest, body, checked⟩
    split_ifs at checked with ok
    obtain ⟨rfl, rfl⟩ := Prod.mk.inj (Option.some.inj checked)
    exact ⟨rest, body, ok, rfl⟩
  · rintro ⟨rest, body, ok, rfl⟩
    exact ⟨r, rest, body, by rw [if_pos ok]⟩

theorem verifyChecksum_extend (recordBytes tail more : Bytes) (ok : verifyChecksum recordBytes tail = true) :
    verifyChecksum recordBytes (tail ++ more) = true ∧ 4 ≤ tail.length := by
  unfold verifyChecksum at ok ⊢
  cases taken : takeBytes 4 tail with
  | none => simp [taken] at ok
  | some pair =>
    obtain ⟨stored, rest⟩ := pair
    have width := takeBytes_rest_length 4 tail stored rest taken
    rw [taken] at ok
    rw [takeBytes_extend 4 tail stored rest more taken]
    exact ⟨ok, by omega⟩

/-- More bytes never change a record that was already decodable. -/
theorem decodeRecord_extend (data more : Bytes) (r : InternalRecord) (advance : Nat)
    (decoded : decodeRecord data = some (r, advance)) :
    decodeRecord (data ++ more) = some (r, advance) := by
  obtain ⟨rest, body, ok, rfl⟩ := (decodeRecord_eq_some data r advance).mp decoded
  have inside := decodeBody_rest_length data rest r body
  have pos : (data ++ more).length - (rest ++ more).length = data.length - rest.length := by
    simp only [List.length_append]; omega
  have front : (data ++ more).take (data.length - rest.length) = data.take (data.length - rest.length) :=
    List.take_append_of_le_length (by omega)
  refine (decodeRecord_eq_some _ r _).mpr ⟨rest ++ more, decodeBody_extend data more rest r body, ?_, ?_⟩
  · rw [pos, front]
    exact (verifyChecksum_extend _ rest more ok).1
  · rw [pos]

theorem decodeRecord_advance (data : Bytes) (r : InternalRecord) (advance : Nat)
    (decoded : decodeRecord data = some (r, advance)) : 0 < advance ∧ advance ≤ data.length := by
  obtain ⟨rest, body, ok, rfl⟩ := (decodeRecord_eq_some data r advance).mp decoded
  have inside := decodeBody_rest_length data rest r body
  have trailer := (verifyChecksum_extend _ rest [] ok).2
  omega

/-- A torn record is not decoded: its full encoding occupies more bytes. -/
theorem decode_torn_record (r : InternalRecord) (fits : r.Fits) (n : Nat) (torn : n < encodedSize r) :
    decodeRecord ((encodeRecord r).take n) = none := by
  cases decoded : decodeRecord ((encodeRecord r).take n) with
  | none => rfl
  | some pair =>
    obtain ⟨rec, advance⟩ := pair
    have extended := decodeRecord_extend _ ((encodeRecord r).drop n) rec advance decoded
    have whole := decode_encode_record r [] fits
    rw [List.take_append_drop] at extended
    rw [List.append_nil, extended] at whole
    have bound := (decodeRecord_advance _ rec advance decoded).2
    have same := (Prod.mk.inj (Option.some.inj whole)).2
    rw [List.length_take] at bound
    omega

/-- The fuel of the loop is never what stops it. -/
theorem replayLoop_fuel (fuel more : Nat) (data : Bytes) (enough : data.length ≤ fuel) :
    replayLoop (fuel + more) data = replayLoop fuel data := by
  induction fuel generalizing data with
  | zero =>
    have empty : data = [] := List.length_eq_zero_iff.mp (by omega)
    subst empty
    cases more <;> rfl
  | succ fuel ih =>
    rw [Nat.succ_add_eq_add_succ, Nat.add_succ, replayLoop, replayLoop]
    cases decoded : decodeRecord data with
    | none => rfl
    | some pair =>
      obtain ⟨rec, advance⟩ := pair
      have progress := decodeRecord_advance data rec advance decoded
      exact congrArg (List.cons rec) (ih _ (by rw [List.length_drop]; omega))

theorem replaySegment_stop (data : Bytes) (stopped : decodeRecord data = none) : replaySegment data = [] := by
  unfold replaySegment
  cases data.length <;> simp [replayLoop, stopped]

theorem replaySegment_step (data : Bytes) (r : InternalRecord) (advance : Nat)
    (decoded : decodeRecord data = some (r, advance)) :
    replaySegment data = r :: replaySegment (data.drop advance) := by
  have progress := decodeRecord_advance data r advance decoded
  have split : data.length = (data.drop advance).length + (advance - 1) + 1 := by
    rw [List.length_drop]; omega
  rw [replaySegment, split, replayLoop, decoded]
  exact congrArg (List.cons r) (replayLoop_fuel _ _ _ (Nat.le_refl _))

theorem replay_encoded_record (r : InternalRecord) (rest : Bytes) (fits : r.Fits) :
    replaySegment (encodeRecord r ++ rest) = r.dropEmptyEnd :: replaySegment rest := by
  rw [replaySegment_step _ _ _ (decode_encode_record r rest fits), ← length_encodeRecord, List.drop_left]

theorem replay_encoded_batch (records : List InternalRecord) (rest : Bytes) (fits : ∀ r ∈ records, r.Fits) :
    replaySegment (encodeBatch records ++ rest) =
      records.map InternalRecord.dropEmptyEnd ++ replaySegment rest := by
  induction records with
  | nil => rfl
  | cons r records ih =>
    rw [encodeBatch, List.flatMap_cons, List.append_assoc, replay_encoded_record r _ (fits r List.mem_cons_self)]
    exact congrArg (List.cons r.dropEmptyEnd) (ih fun x member => fits x (List.mem_cons_of_mem r member))

theorem replay_batch (records : List InternalRecord) (fits : ∀ r ∈ records, r.Fits) :
    replaySegment (encodeBatch records) = records.map InternalRecord.dropEmptyEnd := by
  have read := replay_encoded_batch records [] fits
  have nothing : replaySegment [] = [] := rfl
  rwa [List.append_nil, nothing, List.append_nil] at read

/-- The records of a batch whose encodings lie wholly inside its first `n` bytes. -/
def wholeWithin : Nat → List InternalRecord → List InternalRecord
  | _, [] => []
  | n, r :: rest => if encodedSize r ≤ n then r :: wholeWithin (n - encodedSize r) rest else []

/-- A batch cut at any byte replays to exactly the records it still holds whole. -/
theorem replay_torn_batch (records : List InternalRecord) (n : Nat) (fits : ∀ r ∈ records, r.Fits) :
    replaySegment ((encodeBatch records).take n) =
      (wholeWithin n records).map InternalRecord.dropEmptyEnd := by
  induction records generalizing n with
  | nil => simp [encodeBatch, wholeWithin, replaySegment, replayLoop]
  | cons r rest ih =>
    have head := fits r List.mem_cons_self
    have tail : ∀ x ∈ rest, x.Fits := fun x member => fits x (List.mem_cons_of_mem r member)
    have shape : encodeBatch (r :: rest) = encodeRecord r ++ encodeBatch rest := rfl
    rw [shape, List.take_append, length_encodeRecord, wholeWithin]
    split_ifs with whole
    · rw [List.take_of_length_le (by rw [length_encodeRecord]; exact whole),
        replay_encoded_record r _ head, ih _ tail]
      rfl
    · have nothing : n - encodedSize r = 0 := by omega
      rw [nothing, List.take_zero, List.append_nil]
      exact replaySegment_stop _ (decode_torn_record r head n (by omega))

end FlowDb.WalCodec
