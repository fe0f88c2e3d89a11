import FlowDb.ShortBlocks
import FlowDb.WalReads

/-! The reader of sstable.rs as it addresses its bytes. Bytes that it cannot make sense of give
an error of its own; leaving a slice would stop the program. -/
namespace FlowDb.SstReads
open ByteString CheckedReads Records SstFormat WalReads

/-! ### Headers -/

/-- `data[start..stop].try_into().unwrap()` as a number of `stop - start` bytes. -/
def field (data : Bytes) (start stop : Nat) : Checked Bytes := do
  let bytes ← range data start stop
  array (stop - start) bytes

def fromBytes (data : Bytes) : Checked (Except FlowError BlockHeader) :=
  if data.length < Sstable.headerSize then .ok (.error (.corruption "sst" "block header too short")) else do
  let magic ← field data 0 4
  if ofBe magic ≠ blockMagicLz4 then .ok (.error (.invalidMagic blockMagicLz4 (ofBe magic))) else do
  let numRecords ← field data 4 8
  let minTs ← field data 8 16
  let maxTs ← field data 16 24
  let minExpire ← field data 24 32
  let maxExpire ← field data 32 40
  let dataLen ← field data 40 44
  let compressedLen ← field data 44 48
  .ok (.ok ⟨ofBe numRecords, i64OfBe minTs, i64OfBe maxTs, i64OfBe minExpire, i64OfBe maxExpire, ofBe dataLen, ofBe compressedLen⟩)

theorem field_eq {data : Bytes} {start stop : Nat} (forwards : start ≤ stop) (inside : stop ≤ data.length) :
    field data start stop = .ok (slice data start stop) := by
  rw [field, range_eq forwards inside, ok_bind, array_eq]
  · rfl
  · exact take_drop_length (by omega)

theorem fromBytes_eq (data : Bytes) : fromBytes data = .ok (BlockHeader.fromBytes data) := by
  rw [fromBytes, BlockHeader.fromBytes]
  by_cases short : data.length < Sstable.headerSize
  · rw [if_pos short, if_pos short]
  · have long : 48 ≤ data.length := Nat.not_lt.mp short
    rw [if_neg short, if_neg short, field_eq (by omega) (by omega), ok_bind]
    dsimp only
    by_cases foreign : ofBe (slice data 0 4) ≠ blockMagicLz4
    · rw [if_pos foreign, if_pos foreign]
    · rw [if_neg foreign, if_neg foreign]
      have fields : ∀ {start stop : Nat}, start ≤ stop → stop ≤ 48 → field data start stop = .ok (slice data start stop) :=
        fun forwards inside => field_eq forwards (inside.trans long)
      rw [fields (by decide) (by decide), ok_bind, fields (by decide) (by decide), ok_bind, fields (by decide) (by decide),
        ok_bind, fields (by decide) (by decide), ok_bind, fields (by decide) (by decide), ok_bind,
        fields (by decide) (by decide), ok_bind, fields (by decide) (by decide), ok_bind]

theorem lengths_lt {data : Bytes} {header : BlockHeader} (read : BlockHeader.fromBytes data = .ok header) :
    header.dataLen < 2 ^ 32 ∧ header.compressedLen < 2 ^ 32 := by
  rw [BlockHeader.fromBytes] at read
  split_ifs at read with short
  dsimp only at read
  split_ifs at read with foreign
  obtain rfl := Except.ok.inj read
  have small : ∀ start, ofBe (slice data start (start + 4)) < 2 ^ 32 := by
    intro start
    rw [slice, Nat.add_sub_cancel_left]
    exact (ofBe_lt _).trans_le (Nat.pow_le_pow_right (by decide) (List.length_take_le 4 _))
  exact ⟨small 40, small 44⟩

/-! ### Records -/

/-- One turn of the loop in `decode_records`; none where it breaks. -/
def entryAt (data : Bytes) (pos : Nat) : Checked (Option (InternalRecord × Nat)) := do
  let stop ← add pos 2
  if stop > data.length then .ok none else do
  let keyLen ← field data pos stop
  let pos := stop
  let stop ← add pos (ofBe keyLen)
  if stop > data.length then .ok none else do
  let key ← range data pos stop
  let pos := stop
  let stop ← add pos 17
  if stop > data.length then .ok none else do
  let stop ← add pos 8
  let ts ← field data pos stop
  let pos := stop
  let stop ← add pos 8
  let expireAt ← field data pos stop
  let pos := stop
  let op ← item data pos
  let pos ← add pos 1
  let stop ← add pos 2
  if stop > data.length then .ok none else do
  let reLen ← field data pos stop
  let pos := stop
  match ← rangeEndAt data pos (ofBe reLen) with
  | none => .ok none
  | some (rangeEnd, pos) => do
  let stop ← add pos 4
  if stop > data.length then .ok none else do
  let valLen ← field data pos stop
  let pos := stop
  let stop ← add pos (ofBe valLen)
  if stop > data.length then .ok none else do
  let value ← range data pos stop
  .ok (some (⟨0, Op.fromU8 op, key, i64OfBe ts, i64OfBe expireAt, value, rangeEnd⟩, stop))

def decodeRecordsFrom (data : Bytes) : Nat → Nat → List InternalRecord → Checked (List InternalRecord)
  | 0, _, records => .ok records
  | count + 1, pos, records => do
      match ← entryAt data pos with
      | some (rec, pos) => decodeRecordsFrom data count pos (records ++ [rec])
      | none => .ok records

def decodeRecords (data : Bytes) (count : Nat) : Checked (List InternalRecord) := decodeRecordsFrom data count 0 []

theorem slice_at (data : Bytes) (pos n : Nat) : slice data pos (pos + n) = (data.drop pos).take n := by
  rw [slice, Nat.add_sub_cancel_left]

theorem field_at {data : Bytes} {pos n : Nat} (inside : pos + n ≤ data.length) :
    field data pos (pos + n) = .ok ((data.drop pos).take n) := by
  rw [field_eq (by omega) inside, slice_at]

theorem entryAt_eq {data : Bytes} (fits : Addressable data) {pos : Nat} (inside : pos ≤ data.length) :
    entryAt data pos = .ok ((Sstable.decodeEntry (data.drop pos)).map fun (rec, rest) => (rec, data.length - rest.length)) := by
  unfold Addressable at fits
  rw [entryAt, Sstable.decodeEntry]
  simp only [Option.bind_eq_bind, Option.map_bind, Function.comp_def, Option.map_some]
  refine guarded inside (by omega) fun lenRoom => ?_
  have keyLen := ofBe_lt ((data.drop pos).take 2)
  rw [take_drop_length lenRoom] at keyLen
  dsimp only
  rw [field_at lenRoom, ok_bind]
  refine guarded lenRoom (by omega) fun keyRoom => ?_
  rw [range_read keyRoom]
  generalize pos + 2 + ofBe ((data.drop pos).take 2) = timesAt at keyRoom ⊢
  refine guarded keyRoom (by omega) fun timesRoom => ?_
  have ts : ((data.drop timesAt).take 17).take 8 = (data.drop timesAt).take 8 := by
    rw [List.take_take]
    rfl
  have expireAt : (((data.drop timesAt).take 17).drop 8).take 8 = (data.drop (timesAt + 8)).take 8 := by
    rw [List.drop_take, List.drop_drop, List.take_take]
    rfl
  have op : ((data.drop timesAt).take 17).getD 16 0 = data[timesAt + 8 + 8] := by
    rw [List.getD_eq_getElem?_getD, List.getElem?_take_of_lt (by decide), List.getElem?_drop,
      List.getElem?_eq_getElem (by omega)]
    rfl
  dsimp only
  rw [add_eq (by omega), ok_bind, field_at (by omega), ok_bind, add_eq (by omega), ok_bind, field_at (by omega), ok_bind,
    item_eq (by omega), ok_bind, add_eq (by omega), ok_bind, ts, expireAt, op]
  have fixed : timesAt + 8 + 8 + 1 = timesAt + 17 := by omega
  rw [fixed]
  clear op
  generalize data[timesAt + 8 + 8] = op
  generalize timesAt + 17 = endAt at timesRoom ⊢
  refine guarded timesRoom (by omega) fun endRoom => ?_
  have reLen := ofBe_lt ((data.drop endAt).take 2)
  rw [take_drop_length endRoom] at reLen
  dsimp only
  rw [field_at endRoom, ok_bind]
  refine rangeEnd_guarded endRoom (by omega) fun stopRoom => ?_
  generalize endAt + 2 + ofBe ((data.drop endAt).take 2) = valAt at stopRoom ⊢
  refine guarded stopRoom (by omega) fun valRoom => ?_
  have valLen := ofBe_lt ((data.drop valAt).take 4)
  rw [take_drop_length valRoom] at valLen
  dsimp only
  rw [field_at valRoom, ok_bind]
  refine guarded valRoom (by omega) fun room => ?_
  have consumed : data.length - (data.drop (valAt + 4 + ofBe ((data.drop valAt).take 4))).length =
      valAt + 4 + ofBe ((data.drop valAt).take 4) := by
    rw [List.length_drop]
    omega
  dsimp only
  rw [range_read room, consumed]

/-- An entry that is read ends farther on, at the bytes the total parser goes on with. -/
theorem entry_advance {data rest : Bytes} {pos : Nat} {rec : InternalRecord} (inside : pos ≤ data.length)
    (read : Sstable.decodeEntry (data.drop pos) = some (rec, rest)) :
    pos < data.length - rest.length ∧ data.drop (data.length - rest.length) = rest := by
  obtain ⟨e, shape⟩ := ShortBlocks.entry_of_decode read
  have some_bytes : 0 < e.bytes.length := by
    rw [ShortBlocks.Entry.bytes, List.length_append, e.keyLen_width]
    omega
  have split : data = data.take pos ++ e.bytes ++ rest := by
    rw [List.append_assoc, ← shape, List.take_append_drop]
  have total := congrArg List.length split
  rw [List.length_append, List.length_append, List.length_take_of_le inside] at total
  refine ⟨by omega, ?_⟩
  have front : data.length - rest.length = (data.take pos ++ e.bytes).length := by
    rw [List.length_append, List.length_take_of_le inside]
    omega
  rw [front]
  exact (congrArg (List.drop _) split).trans List.drop_left

theorem decodeRecordsFrom_eq {data : Bytes} (fits : Addressable data) (count : Nat) {pos : Nat} (inside : pos ≤ data.length)
    (records : List InternalRecord) :
    decodeRecordsFrom data count pos records = .ok (records ++ Sstable.decodeRecords count (data.drop pos)) := by
  induction count generalizing pos records with
  | zero => rw [decodeRecordsFrom, Sstable.decodeRecords, List.append_nil]
  | succ count ih =>
    rw [decodeRecordsFrom, entryAt_eq fits inside, ok_bind, Sstable.decodeRecords]
    cases read : Sstable.decodeEntry (data.drop pos) with
    | none => rw [Option.map_none, List.append_nil]
    | some found =>
      obtain ⟨rec, rest⟩ := found
      obtain ⟨-, goesOn⟩ := entry_advance inside read
      dsimp only [Option.map_some]
      rw [ih (Nat.sub_le _ _), goesOn, List.append_assoc, List.singleton_append]

theorem decodeRecords_eq {data : Bytes} (fits : Addressable data) (count : Nat) :
    decodeRecords data count = .ok (Sstable.decodeRecords count data) := by
  rw [decodeRecords, decodeRecordsFrom_eq fits count (Nat.zero_le _), List.drop_zero, List.nil_append]

/-! ### The loop of open -/

/-- A turn from a position and the offsets so far; a header that cannot be read ends it with its error. -/
def offsetTurn (data : Bytes) : Nat × List Nat → Checked (Turn (Nat × List Nat) (Except FlowError (List Nat))) :=
    fun (pos, offsets) => do
  let stop ← add pos Sstable.headerSize
  if stop ≤ data.length then do
    let bytes ← range data pos stop
    match ← fromBytes bytes with
    | .error e => .ok (.leave (.error e))
    | .ok header => do
        let next ← add Sstable.headerSize header.compressedLen >>= add pos
        .ok (.again (next, offsets ++ [pos]))
  else .ok (.leave (.ok offsets))

def openReader (data : Bytes) (sstId turns : Nat) : Checked (Except FlowError SstReader) := do
  match ← loop (offsetTurn data) turns (0, []) with
  | .error e => .ok (.error e)
  | .ok offsets => .ok (.ok ⟨data, sstId, offsets⟩)

theorem scanOffsets_fuel (data : Bytes) (fuel more pos : Nat) (enough : data.length ≤ pos + fuel) :
    scanOffsets data (fuel + more) pos = scanOffsets data fuel pos := by
  induction fuel generalizing pos with
  | zero =>
    cases more with
    | zero => rfl
    | succ more =>
      have none : scanOffsets data (more + 1) pos = .ok [] := by
        rw [scanOffsets, if_neg (by rw [Sstable.headerSize]; omega)]
      rw [Nat.zero_add, none]
      rfl
  | succ fuel ih =>
    rw [Nat.succ_add_eq_add_succ, Nat.add_succ, scanOffsets, scanOffsets]
    split_ifs with room
    · cases BlockHeader.fromBytes (slice data pos (pos + Sstable.headerSize)) with
      | error e => rfl
      | ok header =>
        dsimp only [bind, Except.bind]
        rw [ih _ (by rw [Sstable.headerSize]; omega)]
    · rfl

/-- The offsets that the total reader finds from a position on, behind those found before. -/
def offsetsFrom (data : Bytes) (state : Nat × List Nat) : Except FlowError (List Nat) :=
  (scanOffsets data (data.length - state.1) state.1).map (state.2 ++ ·)

section
variable {data : Bytes} {pos : Nat} (offsets : List Nat)

theorem offsetsFrom_stop (past : ¬ pos + Sstable.headerSize ≤ data.length) : offsetsFrom data (pos, offsets) = .ok offsets := by
  rw [offsetsFrom]
  dsimp only
  cases data.length - pos with
  | zero => simp [scanOffsets, Except.map]
  | succ fuel => simp [scanOffsets, past, Except.map]

/-- Where there is room for a header, the total reader has fuel for it. -/
theorem offsetsFrom_room (room : pos + Sstable.headerSize ≤ data.length) : ∃ fuel, data.length - pos = fuel + 1 ∧
    offsetsFrom data (pos, offsets) = (scanOffsets data (fuel + 1) pos).map (offsets ++ ·) := by
  have farther : pos + 48 ≤ data.length := room
  obtain ⟨fuel, turns⟩ : ∃ fuel, data.length - pos = fuel + 1 := ⟨data.length - pos - 1, by omega⟩
  exact ⟨fuel, turns, by rw [offsetsFrom, ← turns]⟩

theorem offsetsFrom_error (room : pos + Sstable.headerSize ≤ data.length) {e : FlowError}
    (read : BlockHeader.fromBytes (slice data pos (pos + Sstable.headerSize)) = .error e) :
    offsetsFrom data (pos, offsets) = .error e := by
  obtain ⟨fuel, -, scanned⟩ := offsetsFrom_room offsets room
  rw [scanned, scanOffsets, if_pos room, read]
  rfl

theorem offsetsFrom_step (room : pos + Sstable.headerSize ≤ data.length) {header : BlockHeader}
    (read : BlockHeader.fromBytes (slice data pos (pos + Sstable.headerSize)) = .ok header) :
    offsetsFrom data (pos, offsets) = offsetsFrom data (pos + (Sstable.headerSize + header.compressedLen), offsets ++ [pos]) := by
  obtain ⟨fuel, turns, scanned⟩ := offsetsFrom_room offsets room
  rw [← Nat.add_assoc]
  generalize next : pos + Sstable.headerSize + header.compressedLen = after
  have farther : pos + 48 ≤ after := by
    rw [← next, Sstable.headerSize]
    omega
  obtain ⟨spare, split⟩ : ∃ spare, fuel = data.length - after + spare := ⟨fuel - (data.length - after), by omega⟩
  rw [scanned, scanOffsets, if_pos room, read, offsetsFrom]
  dsimp only [bind, Except.bind]
  rw [next, split, scanOffsets_fuel _ _ _ _ (by omega)]
  cases scanOffsets data (data.length - after) after with
  | error e => rfl
  | ok found =>
    dsimp only [Except.map]
    rw [List.append_assoc, List.singleton_append]

end

theorem offsetTurn_progress {data : Bytes} (fits : Addressable data) :
    Progress (offsetTurn data) (fun state => state.1 ≤ data.length + 2 ^ 32) (remaining data) (offsetsFrom data) := by
  refine ⟨fun (pos, offsets) bound => ?_⟩
  unfold Addressable at fits
  rw [offsetTurn]
  dsimp only at bound ⊢
  rw [add_eq (by rw [Sstable.headerSize]; omega), ok_bind]
  by_cases room : pos + Sstable.headerSize ≤ data.length
  · rw [if_pos room, range_read room, fromBytes_eq, ok_bind, ← slice_at]
    cases read : BlockHeader.fromBytes (slice data pos (pos + Sstable.headerSize)) with
    | error e =>
      left
      rw [offsetsFrom_error offsets room read]
    | ok header =>
      right
      have small := (lengths_lt read).2
      have farther : pos + 48 ≤ data.length := room
      dsimp only
      rw [add_eq (by rw [Sstable.headerSize]; omega), ok_bind, add_eq (by rw [Sstable.headerSize]; omega), ok_bind]
      refine ⟨_, rfl, ?_, ?_, (offsetsFrom_step offsets room read).symm⟩
      · rw [Sstable.headerSize]
        omega
      · rw [remaining, remaining, Sstable.headerSize]
        omega
  · left
    rw [if_neg room, offsetsFrom_stop offsets room]

theorem openReader_eq {data : Bytes} (fits : Addressable data) (sstId : Nat) {turns : Nat} (enough : data.length < turns) :
    openReader data sstId turns = .ok (SstReader.open data sstId) := by
  have found : loop (offsetTurn data) turns (0, []) = .ok (offsetsFrom data (0, [])) :=
    loop_eq (offsetTurn_progress fits) (Nat.zero_le _) ((Nat.sub_le _ _).trans_lt enough)
  rw [openReader, found, ok_bind, offsetsFrom, SstReader.open]
  dsimp only
  rw [Nat.sub_zero]
  cases scanOffsets data data.length 0 with
  | error e => rfl
  | ok offsets => rfl

/-! ### Blocks -/

section
variable (lz4 : Lz4) (reader : SstReader) (blockIdx : Nat)

/-- What `read_block_inner` does before it decodes the records. -/
def contents : Checked (Except FlowError (BlockHeader × Bytes)) :=
  match reader.blockOffsets[blockIdx]? with
  | none => .ok (.error (.blockNotFound reader.sstId blockIdx))
  | some pos => do
      let stop ← add pos Sstable.headerSize
      if stop > reader.data.length then
        .ok (.error (.corruption ("sst_" ++ toString reader.sstId) ("block " ++ toString blockIdx ++ " out of bounds")))
      else do
      let bytes ← range reader.data pos stop
      match ← fromBytes bytes with
      | .error e => .ok (.error e)
      | .ok header => do
          let compressedEnd ← add stop header.compressedLen
          if compressedEnd > reader.data.length then
            .ok (.error (.corruption ("sst_" ++ toString reader.sstId)
              ("block " ++ toString blockIdx ++ " compressed data truncated")))
          else do
          let compressed ← range reader.data stop compressedEnd
          .ok ((decompressBlock lz4 compressed header).map fun raw => (header, raw))

def readBlockInner : Checked (Except FlowError (List InternalRecord)) := do
  match ← contents lz4 reader blockIdx with
  | .error e => .ok (.error e)
  | .ok (header, raw) => do
      let records ← decodeRecords raw header.numRecords
      .ok (.ok records)

end

theorem contents_eq (lz4 : Lz4) {reader : SstReader} (fits : Addressable reader.data)
    (inside : ∀ pos ∈ reader.blockOffsets, pos ≤ reader.data.length) (blockIdx : Nat) :
    contents lz4 reader blockIdx = .ok (ShortBlocks.contents lz4 reader blockIdx) := by
  unfold Addressable at fits
  rw [contents, ShortBlocks.contents]
  cases found : reader.blockOffsets[blockIdx]? with
  | none => rfl
  | some pos =>
    have bound := inside pos (List.mem_of_getElem? found)
    dsimp only
    rw [add_eq (by rw [Sstable.headerSize]; omega), ok_bind]
    by_cases past : pos + Sstable.headerSize > reader.data.length
    · rw [if_pos past, if_pos past]
    · rw [if_neg past, if_neg past, range_read (by omega), fromBytes_eq, ok_bind, ← slice_at]
      cases read : BlockHeader.fromBytes (slice reader.data pos (pos + Sstable.headerSize)) with
      | error e => rfl
      | ok header =>
        have small := (lengths_lt read).2
        dsimp only
        rw [add_eq (by omega), ok_bind]
        dsimp only [bind, Except.bind]
        by_cases truncated : pos + Sstable.headerSize + header.compressedLen > reader.data.length
        · rw [if_pos truncated, if_pos truncated]
        · rw [if_neg truncated, if_neg truncated, range_eq (by omega) (by omega), Nat.add_sub_cancel_left, ← slice_at]
          dsimp only
          cases decompressBlock lz4 (slice reader.data (pos + Sstable.headerSize)
            (pos + Sstable.headerSize + header.compressedLen)) header <;> rfl

/-- What the library writes its output into is a buffer of the size it is given. -/
def Bounded (lz4 : Lz4) : Prop := ∀ data size raw, lz4.decompress data size = .ok raw → raw.length ≤ size

theorem contents_raw {lz4 : Lz4} {reader : SstReader} {blockIdx : Nat} {header : BlockHeader} {raw : Bytes}
    (read : ShortBlocks.contents lz4 reader blockIdx = .ok (header, raw)) :
    (∃ bytes, BlockHeader.fromBytes bytes = .ok header) ∧ ∃ compressed, lz4.decompress compressed header.dataLen = .ok raw := by
  rw [ShortBlocks.contents] at read
  cases found : reader.blockOffsets[blockIdx]? with
  | none => simp [found] at read
  | some pos =>
    rw [found] at read
    dsimp only at read
    split_ifs at read with past
    cases parsed : BlockHeader.fromBytes (slice reader.data pos (pos + Sstable.headerSize)) with
    | error e => simp [parsed, bind, Except.bind] at read
    | ok h =>
      simp only [parsed, bind, Except.bind] at read
      split_ifs at read with truncated
      cases unpacked : decompressBlock lz4 (slice reader.data (pos + Sstable.headerSize)
          (pos + Sstable.headerSize + h.compressedLen)) h with
      | error e => simp [unpacked] at read
      | ok bytes =>
        rw [unpacked] at read
        obtain ⟨rfl, rfl⟩ := Prod.mk.inj (Except.ok.inj read)
        rw [decompressBlock] at unpacked
        cases result : lz4.decompress (slice reader.data (pos + Sstable.headerSize)
            (pos + Sstable.headerSize + h.compressedLen)) h.dataLen with
        | error e => simp [result, Except.mapError] at unpacked
        | ok all =>
          rw [result] at unpacked
          exact ⟨⟨_, parsed⟩, _, result.trans (congrArg Except.ok (Except.ok.inj unpacked))⟩

theorem readBlockInner_eq {lz4 : Lz4} (bounded : Bounded lz4) {reader : SstReader} (fits : Addressable reader.data)
    (inside : ∀ pos ∈ reader.blockOffsets, pos ≤ reader.data.length) (blockIdx : Nat) :
    readBlockInner lz4 reader blockIdx = .ok (reader.readBlock lz4 blockIdx) := by
  rw [readBlockInner, contents_eq lz4 fits inside, ok_bind, ShortBlocks.readBlock_contents]
  cases read : ShortBlocks.contents lz4 reader blockIdx with
  | error e => rfl
  | ok found =>
    obtain ⟨header, raw⟩ := found
    obtain ⟨⟨bytes, parsed⟩, compressed, unpacked⟩ := contents_raw read
    have whole : Addressable raw := by
      have size := bounded _ _ _ unpacked
      have small := (lengths_lt parsed).1
      rw [Addressable]
      omega
    dsimp only
    rw [decodeRecords_eq whole]
    rfl

theorem offsets_inside {data : Bytes} {fuel pos : Nat} {offsets : List Nat} (scanned : scanOffsets data fuel pos = .ok offsets) :
    ∀ pos ∈ offsets, pos ≤ data.length := by
  induction fuel generalizing pos offsets with
  | zero =>
    obtain rfl := Except.ok.inj scanned
    simp
  | succ fuel ih =>
    rw [scanOffsets] at scanned
    split_ifs at scanned with room
    · cases read : BlockHeader.fromBytes (slice data pos (pos + Sstable.headerSize)) with
      | error e => simp [read, bind, Except.bind] at scanned
      | ok header =>
        cases more : scanOffsets data fuel (pos + Sstable.headerSize + header.compressedLen) with
        | error e => simp [read, more, bind, Except.bind] at scanned
        | ok rest =>
          simp only [read, more, bind, Except.bind, Except.ok.injEq] at scanned
          subst scanned
          intro found member
          rcases List.mem_cons.mp member with rfl | later
          · omega
          · exact ih more found later
    · obtain rfl := Except.ok.inj scanned
      simp

/-! ### All parsers -/

/-- Each parser comes to what the total parser of the same bytes gives, so it stops neither at a
slice nor at a sum, and each turn of a loop leaves it or gets farther. -/
structure Total (lz4 : Lz4) (data : Bytes) : Prop where
  record : WalReads.decodeRecord data = .ok (WalCodec.decodeRecord data)
  skip : ∀ start ≤ data.length, skipRecord data start = .ok (WalLog.skipRecord (data.drop start))
  maxTurns : Progress (maxTurn data) (fun _ => True) (remaining data) fun state => maxOf (data.drop state.1) state.2
  maximum : ∀ turns > data.length, findMaxSeqInSegment data turns = .ok (WalLog.findMaxSeqInSegment data)
  replayTurns : ∀ afterSeq, Progress (replayTurn data afterSeq) (fun _ => True) (remaining data) fun state =>
    state.2 ++ (WalCodec.replaySegment (data.drop state.1)).filter fun r => afterSeq < r.seq
  replay : ∀ afterSeq, ∀ turns > data.length,
    WalReads.replaySegment data afterSeq turns = .ok ((WalCodec.replaySegment data).filter fun r => afterSeq < r.seq)
  header : fromBytes data = .ok (BlockHeader.fromBytes data)
  offsetTurns : Progress (offsetTurn data) (fun state => state.1 ≤ data.length + 2 ^ 32) (remaining data) (offsetsFrom data)
  reader : ∀ sstId, ∀ turns > data.length, openReader data sstId turns = .ok (SstReader.open data sstId)
  block : ∀ sstId reader, SstReader.open data sstId = .ok reader →
    ∀ blockIdx, readBlockInner lz4 reader blockIdx = .ok (reader.readBlock lz4 blockIdx)
  entries : ∀ pos ≤ data.length, ∃ found, entryAt data pos = .ok found ∧ ∀ rec next, found = some (rec, next) → pos < next
  records : ∀ count, decodeRecords data count = .ok (Sstable.decodeRecords count data)

theorem parsers_total (lz4 : Lz4) (bounded : Bounded lz4) (data : Bytes) (fits : Addressable data) : Total lz4 data where
  record := decodeRecord_eq fits
  skip _ inside := skipRecord_eq fits inside
  maxTurns := maxTurn_progress fits
  maximum _ enough := findMaxSeqInSegment_eq fits enough
  replayTurns := replayTurn_progress fits
  replay afterSeq _ enough := replaySegment_eq fits afterSeq enough
  header := fromBytes_eq data
  offsetTurns := offsetTurn_progress fits
  reader sstId _ enough := openReader_eq fits sstId enough
  block sstId reader opened := by
    rw [SstReader.open] at opened
    cases scanned : scanOffsets data data.length 0 with
    | error e => simp [scanned, bind, Except.bind] at opened
    | ok offsets =>
      rw [scanned] at opened
      obtain rfl := Except.ok.inj opened
      exact readBlockInner_eq bounded fits (offsets_inside scanned)
  entries pos inside := by
    refine ⟨_, entryAt_eq fits inside, fun rec next found => ?_⟩
    obtain ⟨⟨r, rest⟩, read, same⟩ := Option.map_eq_some_iff.mp found
    obtain ⟨rfl, rfl⟩ := Prod.mk.inj same
    exact (entry_advance inside read).1
  records := decodeRecords_eq fits

/-- A file of one block whose header states more records than it holds, behind it a torn record. -/
theorem parsers_total_damaged : Total literals (ShortBlocks.damagedFile ++ [0, 0, 7]) := by
  refine parsers_total literals ?_ _ (show _ < 2 ^ 63 by decide +kernel)
  intro data size raw unpacked
  cases data with
  | nil => cases unpacked
  | cons token rest =>
    simp only [literals] at unpacked
    split_ifs at unpacked
    all_goals
      obtain rfl := Except.ok.inj unpacked
      assumption

end FlowDb.SstReads
