import FlowDb.CheckedReads
import FlowDb.WalLog

/-! The parsers of wal.rs as they address their bytes: positions, the checks of them, and the
reads, each of which may leave its slice. -/
namespace FlowDb.WalReads
open ByteString CheckedReads Records

/-! ### Numbers and checksums -/

/-- `data[..width].try_into().unwrap()` -/
def frontArray (width : Nat) (data : Bytes) : Checked Bytes := do
  let front ← range data 0 width
  array width front

def readU64 (data : Bytes) : Checked Nat := do
  let bytes ← frontArray 8 data
  .ok (ofBe bytes)

def readI64 (data : Bytes) : Checked Int := do
  let bytes ← frontArray 8 data
  .ok (i64OfBe bytes)

def readU32 (data : Bytes) : Checked Nat := do
  let bytes ← frontArray 4 data
  .ok (ofBe bytes)

def readU16 (data : Bytes) : Checked Nat := do
  let bytes ← frontArray 2 data
  .ok (ofBe bytes)

theorem frontArray_eq {width : Nat} {data : Bytes} (exact : data.length = width) : frontArray width data = .ok data := by
  rw [frontArray, range_zero exact.ge, ok_bind, List.take_of_length_le exact.le, array_eq exact]

theorem readU64_eq {data : Bytes} (exact : data.length = 8) : readU64 data = .ok (ofBe data) := by
  rw [readU64, frontArray_eq exact, ok_bind]

theorem readI64_eq {data : Bytes} (exact : data.length = 8) : readI64 data = .ok (i64OfBe data) := by
  rw [readI64, frontArray_eq exact, ok_bind]

theorem readU32_eq {data : Bytes} (exact : data.length = 4) : readU32 data = .ok (ofBe data) := by
  rw [readU32, frontArray_eq exact, ok_bind]

theorem readU16_eq {data : Bytes} (exact : data.length = 2) : readU16 data = .ok (ofBe data) := by
  rw [readU16, frontArray_eq exact, ok_bind]

/-- `chunks_exact(n)` -/
def chunksExact (n : Nat) (data : Bytes) : List Bytes :=
  (List.range (data.length / n)).map fun i => (data.drop (i * n)).take n

def chunkWord (chunk : Bytes) : Checked (BitVec 64) := do
  let bytes ← [0, 1, 2, 3, 4, 5, 6, 7].mapM (item chunk)
  .ok (WalCodec.ofLe bytes)

def mix (hash word : BitVec 64) : BitVec 64 := (hash.rotateLeft 5 ^^^ word) * WalCodec.checksumSeed

def hashChunks (hash : BitVec 64) : List Bytes → Checked (BitVec 64)
  | [] => .ok hash
  | chunk :: rest => do
      let word ← chunkWord chunk
      hashChunks (mix hash word) rest

/-- `target[..n].copy_from_slice(source)` -/
def copyFront (target : Bytes) (n : Nat) (source : Bytes) : Checked Bytes := do
  let front ← range target 0 n
  let source ← array front.length source
  .ok (source ++ target.drop n)

def hashRest (data : Bytes) (hash : BitVec 64) : Checked (BitVec 64) :=
  let rem := data.length % 8
  if rem > 0 then do
    let tail ← range data (data.length - rem) data.length
    let buf ← copyFront (List.replicate 8 0) rem tail
    .ok (mix hash (WalCodec.ofLe buf))
  else .ok hash

def computeChecksum (data : Bytes) : Checked Bytes := do
  let hash ← hashChunks 0 (chunksExact 8 data)
  let hash ← hashRest data hash
  .ok (toBe 4 (hash.toNat % 2 ^ 32))

def verifyChecksum (recordBytes fileTail : Bytes) : Checked Bool :=
  if fileTail.length < 4 then .ok false else do
  let expected ← computeChecksum recordBytes
  let stored ← range fileTail 0 4
  .ok (expected == stored)

theorem chunksExact_append {n : Nat} {chunk : Bytes} (whole : chunk.length = n) (positive : 0 < n) (rest : Bytes) :
    chunksExact n (chunk ++ rest) = chunk :: chunksExact n rest := by
  have count : (chunk ++ rest).length / n = rest.length / n + 1 := by
    rw [List.length_append, whole, Nat.add_div_left _ positive]
  rw [chunksExact, count, List.range_succ_eq_map, List.map_cons, List.map_map, chunksExact]
  congr 1
  · rw [Nat.zero_mul, List.drop_zero, List.take_left' whole]
  · refine List.map_congr_left fun i _ => ?_
    have past : (i + 1) * n = chunk.length + i * n := by rw [whole, Nat.succ_mul, Nat.add_comm]
    rw [Function.comp, Nat.succ_eq_add_one, past, List.drop_length_add_append]

-- The padding stands on the high side of a little-endian word.
theorem ofLe_padded (tail : Bytes) (zeros : Nat) :
    WalCodec.ofLe (tail ++ List.replicate zeros 0) = WalCodec.ofLe tail := by
  have leading : ∀ (zeros : Nat) (b : Bytes), ofBe (List.replicate zeros 0 ++ b) = ofBe b := by
    intro zeros b
    induction zeros with
    | zero => rfl
    | succ zeros ih => exact ih
  rw [WalCodec.ofLe, List.reverse_append, List.reverse_replicate, leading]
  rfl

theorem copyFront_eq {tail : Bytes} (short : tail.length < 8) :
    copyFront (List.replicate 8 0) tail.length tail = .ok (tail ++ List.replicate (8 - tail.length) 0) := by
  have room : tail.length ≤ (List.replicate 8 (0 : UInt8)).length := by
    rw [List.length_replicate]
    omega
  have front : (((List.replicate 8 (0 : UInt8)).take tail.length)).length = tail.length := by
    rw [List.length_take]
    omega
  rw [copyFront, range_zero room, ok_bind, array_eq front.symm, ok_bind, List.drop_replicate]

theorem hashRest_append {chunk : Bytes} (whole : chunk.length = 8) (rest : Bytes) (hash : BitVec 64) :
    hashRest (chunk ++ rest) hash = hashRest rest hash := by
  have same : (chunk ++ rest).length % 8 = rest.length % 8 := by
    rw [List.length_append, whole, Nat.add_mod_left]
  have tail : range (chunk ++ rest) ((chunk ++ rest).length - rest.length % 8) (chunk ++ rest).length =
      range rest (rest.length - rest.length % 8) rest.length := by
    have room : (chunk ++ rest).length - rest.length % 8 = chunk.length + (rest.length - rest.length % 8) := by
      rw [List.length_append]
      omega
    rw [range_rest (Nat.sub_le _ _), range_rest (Nat.sub_le _ _), room, List.drop_length_add_append]
  simp only [hashRest, same, tail]

theorem hash_eq (hash : BitVec 64) (data : Bytes) :
    (hashChunks hash (chunksExact 8 data) >>= hashRest data) = .ok (WalCodec.mixBytes hash data) := by
  induction hash, data using WalCodec.mixBytes.induct with
  | case1 hash a b c d e f g h rest ih =>
    have step : chunksExact 8 ([a, b, c, d, e, f, g, h] ++ rest) = [a, b, c, d, e, f, g, h] :: chunksExact 8 rest :=
      @chunksExact_append 8 [a, b, c, d, e, f, g, h] rfl (by decide) rest
    change (hashChunks hash (chunksExact 8 ([a, b, c, d, e, f, g, h] ++ rest)) >>=
      hashRest ([a, b, c, d, e, f, g, h] ++ rest)) = .ok (WalCodec.mixBytes (WalCodec.mixChunk hash [a, b, c, d, e, f, g, h]) rest)
    rw [step, ← ih]
    have rests : hashRest ([a, b, c, d, e, f, g, h] ++ rest) = hashRest rest := funext (hashRest_append rfl rest)
    rw [rests]
    rfl
  | case2 hash => rfl
  | case3 hash tail longer some_left =>
    have short : tail.length < 8 := by
      by_contra long
      match tail, longer with
      | a :: b :: c :: d :: e :: f :: g :: h :: rest, longer => exact longer a b c d e f g h rest rfl
      | [], _ | [_], _ | [_, _], _ | [_, _, _], _ | [_, _, _, _], _ | [_, _, _, _, _], _ | [_, _, _, _, _, _], _
      | [_, _, _, _, _, _, _], _ => simp at long
    have left : 0 < tail.length := List.length_pos_of_ne_nil some_left
    have none : chunksExact 8 tail = [] := by
      rw [chunksExact, Nat.div_eq_of_lt short]
      rfl
    have mixed : WalCodec.mixBytes hash tail = WalCodec.mixChunk hash tail := by
      rw [WalCodec.mixBytes]
      · exact longer
      · exact some_left
    have all : range tail (tail.length - tail.length) tail.length = .ok tail := by
      rw [Nat.sub_self, range_rest (Nat.zero_le _), List.drop_zero]
    rw [none, hashChunks, ok_bind, mixed, hashRest]
    simp only [Nat.mod_eq_of_lt short]
    rw [if_pos left, all, ok_bind, copyFront_eq short, ok_bind, ofLe_padded]
    rfl

theorem computeChecksum_eq (data : Bytes) : computeChecksum data = .ok (WalCodec.computeChecksum data) := by
  have hashed := hash_eq 0 data
  rw [computeChecksum, ← bind_assoc, hashed]
  rfl

theorem verifyChecksum_eq (recordBytes fileTail : Bytes) :
    verifyChecksum recordBytes fileTail = .ok (WalCodec.verifyChecksum recordBytes fileTail) := by
  rw [verifyChecksum, WalCodec.verifyChecksum, takeBytes]
  split_ifs with short
  · rfl
  · rw [computeChecksum_eq, ok_bind, range_zero (by omega), ok_bind, Bool.beq_comm]

/-! ### One record -/

/-- The branch on `range_end_len`: an empty end has no bytes to check or to skip. -/
def rangeEndAt (data : Bytes) (pos rangeEndLen : Nat) : Checked (Option (Option Bytes × Nat)) :=
  if rangeEndLen > 0 then do
    let stop ← add pos rangeEndLen
    if stop > data.length then .ok none else do
    let re ← range data pos stop
    .ok (some (some re, stop))
  else .ok (some (none, pos))

def decodeRecord (data : Bytes) : Checked (Option (InternalRecord × Nat)) :=
  if data.length < 8 + 1 + 2 then .ok none else do
  let pos := 0
  let stop ← add pos 8
  let seq ← range data pos stop >>= readU64
  let pos := stop
  let op ← item data pos
  let pos ← add pos 1
  let stop ← add pos 2
  let keyLen ← range data pos stop >>= readU16
  let pos := stop
  let stop ← add pos keyLen
  if stop > data.length then .ok none else do
  let key ← range data pos stop
  let pos := stop
  let stop ← add pos (8 + 8)
  if stop > data.length then .ok none else do
  let half ← add pos 8
  let ts ← range data pos half >>= readI64
  let expireAt ← range data half stop >>= readI64
  let pos := stop
  let stop ← add pos 4
  if stop > data.length then .ok none else do
  let rangeEndLen ← range data pos stop >>= readU32
  let pos := stop
  match ← rangeEndAt data pos rangeEndLen with
  | none => .ok none
  | some (rangeEnd, pos) => do
  let stop ← add pos 4
  if stop > data.length then .ok none else do
  let valLen ← range data pos stop >>= readU32
  let pos := stop
  let stop ← add pos valLen
  if stop > data.length then .ok none else do
  let value ← range data pos stop
  let pos := stop
  let recordBytes ← range data 0 pos
  let tail ← range data pos data.length
  let verified ← verifyChecksum recordBytes tail
  if verified = false then .ok none else do
  let pos ← add pos 4
  .ok (some (⟨seq, Op.fromU8 op, key, ts, expireAt, value, rangeEnd⟩, pos))

def skipRecord (data : Bytes) (start : Nat) : Checked (Option Nat) := do
  let pos ← add start 8
  let pos ← add pos 1
  let stop ← add pos 2
  if stop > data.length then .ok none else do
  let keyLen ← range data pos stop >>= readU16
  let pos ← add 2 keyLen >>= add pos
  let stop ← add pos 16
  if stop > data.length then .ok none else do
  let pos := stop
  let stop ← add pos 4
  if stop > data.length then .ok none else do
  let rangeEndLen ← range data pos stop >>= readU32
  let pos ← add 4 rangeEndLen >>= add pos
  let stop ← add pos 4
  if stop > data.length then .ok none else do
  let valLen ← range data pos stop >>= readU32
  let pos ← add 4 valLen >>= add pos
  let pos ← add pos 4
  .ok (some (pos - start))

theorem rangeEndAt_eq {data : Bytes} {pos n : Nat} (inside : pos ≤ data.length) (fits : pos + n < 2 ^ 64) :
    rangeEndAt data pos n = .ok (if pos + n ≤ data.length then
      some (if (data.drop pos).take n = [] then none else some ((data.drop pos).take n), pos + n) else none) := by
  rw [rangeEndAt]
  by_cases none : n > 0
  · rw [if_pos none, add_eq fits, ok_bind]
    by_cases room : pos + n ≤ data.length
    · have held : (data.drop pos).take n ≠ [] := by
        rw [← List.length_pos_iff, take_drop_length room]
        exact none
      rw [if_neg (by omega), if_pos room, range_eq (by omega) room, ok_bind, Nat.add_sub_cancel_left, if_neg held]
    · rw [if_pos (by omega), if_neg room]
  · obtain rfl : n = 0 := by omega
    rw [if_neg none, if_pos (by omega), List.take_zero, if_pos rfl, Nat.add_zero]

/-- An optional read of the total parser beside the branch. -/
theorem rangeEnd_guarded {α : Type} {data : Bytes} {pos n : Nat} (inside : pos ≤ data.length) (fits : pos + n < 2 ^ 64)
    {next : Option Bytes → Nat → Checked (Option α)} {taken : Bytes × Bytes → Option α}
    (agree : pos + n ≤ data.length →
      next (if (data.drop pos).take n = [] then none else some ((data.drop pos).take n)) (pos + n) =
        .ok (taken ((data.drop pos).take n, data.drop (pos + n)))) :
    (rangeEndAt data pos n >>= fun found => match found with
      | none => .ok none
      | some (rangeEnd, pos) => next rangeEnd pos) = .ok ((takeBytes n (data.drop pos)).bind taken) := by
  rw [rangeEndAt_eq inside fits, ok_bind, takeBytes_drop inside]
  by_cases room : pos + n ≤ data.length
  · rw [if_pos room, if_pos room]
    exact agree room
  · rw [if_neg room, if_neg room]
    rfl

theorem decodeHead_at {data : Bytes} (room : 8 + 1 + 2 ≤ data.length) : WalCodec.decodeHead data =
    some ((ofBe (data.take 8), Op.fromU8 data[8], ofBe ((data.drop 9).take 2)), data.drop 11) := by
  have seq := @takeBytes_drop data 0 8 (by omega)
  have op := @takeBytes_drop data 8 1 (by omega)
  have keyLen := @takeBytes_drop data 9 2 (by omega)
  rw [if_pos (by omega)] at seq op keyLen
  rw [List.drop_zero] at seq
  have byte : ((data.drop 8).take 1).headD 0 = data[8] := by
    rw [List.drop_eq_getElem_cons (by omega), List.take_succ_cons]
    rfl
  simp only [WalCodec.decodeHead, seq, op, keyLen, Option.bind_eq_bind, Option.bind_some, byte]

theorem decodeRecord_eq {data : Bytes} (fits : Addressable data) :
    decodeRecord data = .ok (WalCodec.decodeRecord data) := by
  unfold Addressable at fits
  rw [decodeRecord]
  by_cases short : data.length < 8 + 1 + 2
  · rw [if_pos short]
    cases decoded : WalCodec.decodeRecord data with
    | none => rfl
    | some found =>
      obtain ⟨rest, body, -⟩ := (WalCodec.decodeRecord_eq_some data found.1 found.2).mp decoded
      have long := WalCodec.decodeBody_rest_length data rest found.1 body
      omega
  · rw [if_neg short]
    have head := decodeHead_at (not_lt.mp short)
    have keyLen := ofBe_lt ((data.drop 9).take 2)
    rw [take_drop_length (by omega)] at keyLen
    rw [WalCodec.decodeRecord, WalCodec.decodeBody, head]
    dsimp only
    have first : ((data.drop 0).take 8).length = 8 := take_drop_length (by omega)
    have second : ((data.drop 9).take 2).length = 2 := take_drop_length (by omega)
    rw [add_eq (by decide), ok_bind, range_read (by omega), readU64_eq first, ok_bind, item_eq (by omega), ok_bind,
      add_eq (by decide), ok_bind, add_eq (by decide), ok_bind, range_read (by omega), readU16_eq second, ok_bind]
    simp only [Option.bind_eq_bind, Option.bind_some, Option.bind_assoc]
    -- Behind the head each check of the source is one read of the total parser.
    refine guarded (by omega) (by omega) fun keyRoom => ?_
    rw [range_read keyRoom]
    generalize 0 + 8 + 1 + 2 + ofBe ((data.drop 9).take 2) = timesAt at keyRoom ⊢
    refine guarded keyRoom (by omega) fun timesRoom => ?_
    have ts : ((data.drop timesAt).take (8 + 8)).take 8 = (data.drop timesAt).take 8 := by
      rw [List.take_take]
      rfl
    have expireAt : ((data.drop timesAt).take (8 + 8)).drop 8 = (data.drop (timesAt + 8)).take 8 := by
      rw [List.drop_take, List.drop_drop]
    dsimp only
    rw [add_eq (by omega), ok_bind, range_read (by omega), readI64_eq (take_drop_length (by omega)), ok_bind,
      ← Nat.add_assoc, range_read (by omega), readI64_eq (take_drop_length (by omega)), ok_bind, Nat.add_assoc, ts, expireAt]
    generalize timesAt + (8 + 8) = endAt at timesRoom ⊢
    refine guarded timesRoom (by omega) fun endRoom => ?_
    have endLen := ofBe_lt ((data.drop endAt).take 4)
    rw [take_drop_length endRoom] at endLen
    dsimp only
    rw [range_read endRoom, readU32_eq (take_drop_length endRoom), ok_bind]
    refine rangeEnd_guarded endRoom (by omega) fun stopRoom => ?_
    generalize endAt + 4 + ofBe ((data.drop endAt).take 4) = valAt at stopRoom ⊢
    refine guarded stopRoom (by omega) fun valRoom => ?_
    have valLen := ofBe_lt ((data.drop valAt).take 4)
    rw [take_drop_length valRoom] at valLen
    dsimp only
    rw [range_read valRoom, readU32_eq (take_drop_length valRoom), ok_bind]
    refine guarded valRoom (by omega) fun room => ?_
    rw [range_read room]
    generalize valAt + 4 + ofBe ((data.drop valAt).take 4) = pos at room ⊢
    have consumed : data.length - (data.drop pos).length = pos := by
      rw [List.length_drop]
      omega
    dsimp only
    rw [range_zero room, ok_bind, range_rest room, ok_bind, verifyChecksum_eq, ok_bind, add_eq (by omega), ok_bind,
      List.drop_zero, consumed]
    cases WalCodec.verifyChecksum (data.take pos) (data.drop pos) with
    | false => rfl
    | true => rfl

theorem slice_drop (data : Bytes) (start pos n : Nat) :
    WalLog.slice (data.drop start) pos n = (data.drop (start + pos)).take n := by
  rw [WalLog.slice, List.drop_drop]

theorem skipRecord_eq {data : Bytes} (fits : Addressable data) {start : Nat} (inside : start ≤ data.length) :
    skipRecord data start = .ok (WalLog.skipRecord (data.drop start)) := by
  unfold Addressable at fits
  rw [skipRecord, WalLog.skipRecord]
  simp only [slice_drop, List.length_drop]
  -- The total parser counts from the record on, the other from the front of the segment.
  rw [add_eq (by omega), ok_bind, add_eq (by omega), ok_bind, add_eq (by omega), ok_bind, Nat.add_assoc start 8 1]
  by_cases keyRoom : start + (8 + 1) + 2 > data.length
  · rw [if_pos keyRoom, if_pos (by omega)]
  have keyLen := ofBe_lt ((data.drop (start + (8 + 1))).take 2)
  rw [take_drop_length (by omega)] at keyLen
  rw [if_neg keyRoom, if_neg (by omega), range_read (by omega), readU16_eq (take_drop_length (by omega)), ok_bind,
    add_eq (by omega), ok_bind, add_eq (by omega), ok_bind, Nat.add_assoc start]
  generalize keyEnds : 8 + 1 + (2 + ofBe ((data.drop (start + (8 + 1))).take 2)) = keyEnd
  rw [add_eq (by omega), ok_bind]
  by_cases timesRoom : start + keyEnd + 16 > data.length
  · rw [if_pos timesRoom, if_pos (by omega)]
  rw [if_neg timesRoom, if_neg (by omega), add_eq (by omega), ok_bind, Nat.add_assoc start keyEnd 16]
  by_cases endRoom : start + (keyEnd + 16) + 4 > data.length
  · rw [if_pos endRoom, if_pos (by omega)]
  have endLen := ofBe_lt ((data.drop (start + (keyEnd + 16))).take 4)
  rw [take_drop_length (by omega)] at endLen
  rw [if_neg endRoom, if_neg (by omega), range_read (by omega), readU32_eq (take_drop_length (by omega)), ok_bind,
    add_eq (by omega), ok_bind, add_eq (by omega), ok_bind, Nat.add_assoc start]
  generalize stops : keyEnd + 16 + (4 + ofBe ((data.drop (start + (keyEnd + 16))).take 4)) = stop
  rw [add_eq (by omega), ok_bind]
  by_cases valRoom : start + stop + 4 > data.length
  · rw [if_pos valRoom, if_pos (by omega)]
  have valLen := ofBe_lt ((data.drop (start + stop)).take 4)
  rw [take_drop_length (by omega)] at valLen
  rw [if_neg valRoom, if_neg (by omega), range_read (by omega), readU32_eq (take_drop_length (by omega)), ok_bind,
    add_eq (by omega), ok_bind, add_eq (by omega), ok_bind, add_eq (by omega), ok_bind, Nat.add_assoc start,
    Nat.add_assoc start, Nat.add_sub_cancel_left]

/-! ### Segments -/

/-- A turn of the loop in `find_max_seq_in_segment`, from a position and a maximum. -/
def maxTurn (data : Bytes) : Nat × Nat → Checked (Turn (Nat × Nat) Nat) := fun (pos, maxSeq) =>
  if pos < data.length then do
    let stop ← add pos 8
    if stop > data.length then .ok (.leave maxSeq) else do
    let seq ← range data pos stop >>= readU64
    match ← skipRecord data pos with
    | some len => do
        let pos ← add pos len
        .ok (.again (pos, max maxSeq seq))
    | none => .ok (.leave maxSeq)
  else .ok (.leave maxSeq)

def findMaxSeqInSegment (data : Bytes) (turns : Nat) : Checked Nat := loop (maxTurn data) turns (0, 0)

/-- A turn of the loop in `replay_from`, from a position and the records so far. -/
def replayTurn (data : Bytes) (afterSeq : Nat) :
    Nat × List InternalRecord → Checked (Turn (Nat × List InternalRecord) (List InternalRecord)) := fun (pos, records) =>
  if pos < data.length then do
    let rest ← range data pos data.length
    match ← decodeRecord rest with
    | some (rec, advance) => do
        let pos ← add pos advance
        .ok (.again (pos, if afterSeq < rec.seq then records ++ [rec] else records))
    | none => .ok (.leave records)
  else .ok (.leave records)

def replaySegment (data : Bytes) (afterSeq turns : Nat) : Checked (List InternalRecord) :=
  loop (replayTurn data afterSeq) turns (0, [])

/-- What is left of the bytes behind the position of a loop. -/
def remaining {β : Type} (data : Bytes) (state : Nat × β) : Nat := data.length - state.1

theorem skipRecord_advance {data : Bytes} {len : Nat} (skipped : WalLog.skipRecord data = some len) : 39 ≤ len := by
  simp only [WalLog.skipRecord] at skipped
  split_ifs at skipped
  have same := Option.some.inj skipped
  omega

-- Only the value and the checksum are not compared with the end.
theorem skipRecord_le {data : Bytes} {len : Nat} (skipped : WalLog.skipRecord data = some len) : len ≤ data.length + 2 ^ 33 := by
  simp only [WalLog.skipRecord] at skipped
  split_ifs at skipped
  have same := Option.some.inj skipped
  have valLen : ∀ pos, ofBe (WalLog.slice data pos 4) < 256 ^ 4 := fun pos =>
    (ofBe_lt _).trans_le (Nat.pow_le_pow_right (by decide) (List.length_take_le 4 _))
  have last := valLen (8 + 1 + (2 + ofBe (WalLog.slice data (8 + 1) 2)) + 16 +
    (4 + ofBe (WalLog.slice data (8 + 1 + (2 + ofBe (WalLog.slice data (8 + 1) 2)) + 16) 4)))
  omega

theorem findMaxSeqLoop_fuel (fuel more : Nat) (data : Bytes) (maxSeq : Nat) (enough : data.length ≤ fuel) :
    WalLog.findMaxSeqLoop (fuel + more) data maxSeq = WalLog.findMaxSeqLoop fuel data maxSeq := by
  induction fuel generalizing data maxSeq with
  | zero =>
    have empty : data = [] := List.length_eq_zero_iff.mp (by omega)
    subst empty
    cases more <;> rfl
  | succ fuel ih =>
    rw [Nat.succ_add_eq_add_succ, Nat.add_succ, WalLog.findMaxSeqLoop, WalLog.findMaxSeqLoop]
    split_ifs with short
    · rfl
    · cases skipped : WalLog.skipRecord data with
      | none => rfl
      | some len =>
        have advance := skipRecord_advance skipped
        exact ih _ _ (by rw [List.length_drop]; omega)

def maxOf (data : Bytes) (maxSeq : Nat) : Nat := WalLog.findMaxSeqLoop data.length data maxSeq

theorem maxOf_stop {data : Bytes} (maxSeq : Nat) (stopped : data.length < 8 ∨ WalLog.skipRecord data = none) :
    maxOf data maxSeq = maxSeq := by
  rw [maxOf]
  cases data.length with
  | zero => rfl
  | succ fuel =>
    rw [WalLog.findMaxSeqLoop]
    rcases stopped with short | unread
    · rw [if_pos short]
    · rw [unread]
      split_ifs <;> rfl

theorem maxOf_step {data : Bytes} {len : Nat} (maxSeq : Nat) (room : 8 ≤ data.length) (skipped : WalLog.skipRecord data = some len) :
    maxOf data maxSeq = maxOf (data.drop len) (max maxSeq (ofBe (data.take 8))) := by
  have advance := skipRecord_advance skipped
  have split : data.length = (data.drop len).length + (data.length - 1 - (data.drop len).length) + 1 := by
    rw [List.length_drop]
    omega
  rw [maxOf, split, WalLog.findMaxSeqLoop, if_neg (by omega), skipped]
  exact findMaxSeqLoop_fuel _ _ _ _ (le_refl _)

theorem maxTurn_progress {data : Bytes} (fits : Addressable data) :
    Progress (maxTurn data) (fun _ => True) (remaining data) (fun state => maxOf (data.drop state.1) state.2) := by
  refine ⟨fun (pos, maxSeq) _ => ?_⟩
  unfold Addressable at fits
  rw [maxTurn]
  dsimp only
  by_cases before : pos < data.length
  · rw [if_pos before, add_eq (by omega), ok_bind]
    by_cases room : pos + 8 > data.length
    · left
      rw [if_pos room, maxOf_stop _ (Or.inl (by rw [List.length_drop]; omega))]
    · rw [if_neg room, range_read (by omega), readU64_eq (take_drop_length (by omega)), ok_bind,
        skipRecord_eq fits before.le, ok_bind]
      cases skipped : WalLog.skipRecord (data.drop pos) with
      | none =>
        left
        rw [maxOf_stop _ (Or.inr skipped)]
      | some len =>
        right
        have advance := skipRecord_advance skipped
        have small := skipRecord_le skipped
        have room : 8 ≤ (data.drop pos).length := by
          rw [List.length_drop]
          omega
        rw [List.length_drop] at small
        dsimp only
        rw [add_eq (by omega), ok_bind]
        refine ⟨_, rfl, trivial, ?_, ?_⟩
        · simp only [remaining]
          omega
        · rw [maxOf_step _ room skipped, List.drop_drop]
  · left
    rw [if_neg before, maxOf_stop _ (Or.inl (by rw [List.length_drop]; omega))]

theorem findMaxSeqInSegment_eq {data : Bytes} (fits : Addressable data) {turns : Nat} (enough : data.length < turns) :
    findMaxSeqInSegment data turns = .ok (WalLog.findMaxSeqInSegment data) :=
  loop_eq (maxTurn_progress fits) trivial (by rw [remaining]; omega)

theorem replayTurn_progress {data : Bytes} (fits : Addressable data) (afterSeq : Nat) :
    Progress (replayTurn data afterSeq) (fun _ => True) (remaining data) (fun state =>
      state.2 ++ (WalCodec.replaySegment (data.drop state.1)).filter fun r => afterSeq < r.seq) := by
  refine ⟨fun (pos, records) _ => ?_⟩
  unfold Addressable at fits
  rw [replayTurn]
  dsimp only
  by_cases before : pos < data.length
  · have rest : Addressable (data.drop pos) := by
      rw [Addressable, List.length_drop]
      omega
    rw [if_pos before, range_rest before.le, ok_bind, decodeRecord_eq rest, ok_bind]
    cases decoded : WalCodec.decodeRecord (data.drop pos) with
    | none =>
      left
      rw [WalCodec.replaySegment_stop _ decoded, List.filter_nil, List.append_nil]
    | some found =>
      right
      obtain ⟨rec, advance⟩ := found
      have progress := WalCodec.decodeRecord_advance _ rec advance decoded
      rw [List.length_drop] at progress
      dsimp only
      rw [add_eq (by omega), ok_bind]
      refine ⟨_, rfl, trivial, ?_, ?_⟩
      · simp only [remaining]
        omega
      · rw [WalCodec.replaySegment_step _ rec advance decoded, List.drop_drop, List.filter_cons]
        by_cases later : afterSeq < rec.seq
        · rw [if_pos later, if_pos (decide_eq_true later), List.append_assoc, List.singleton_append]
        · rw [if_neg later, if_neg (by simpa using later)]
  · left
    rw [if_neg before, List.drop_eq_nil_of_le (by omega)]
    simp [WalCodec.replaySegment, WalCodec.replayLoop]

theorem replaySegment_eq {data : Bytes} (fits : Addressable data) (afterSeq : Nat) {turns : Nat} (enough : data.length < turns) :
    replaySegment data afterSeq turns = .ok ((WalCodec.replaySegment data).filter fun r => afterSeq < r.seq) :=
  loop_eq (replayTurn_progress fits afterSeq) trivial (by rw [remaining]; omega)

end FlowDb.WalReads
