import FlowDb.SstFormat

/-! Damaged blocks. `decode_records` leaves its loop at the first entry that the bytes do
not hold in full and returns what it has, so a block read may give fewer records than its
header states. -/
namespace FlowDb.ShortBlocks
open ByteString Records Sstable SstFormat

/-- The bytes of one entry, each field as long as its prefix says:
key_len(2) | key | ts(8) expire_at(8) op(1) | range_end_len(2) | range_end | val_len(4) | value. -/
structure Entry where
  keyLen : Bytes
  key : Bytes
  fixed : Bytes
  rangeEndLen : Bytes
  rangeEnd : Bytes
  valLen : Bytes
  value : Bytes
  keyLen_width : keyLen.length = 2
  key_width : key.length = ofBe keyLen
  fixed_width : fixed.length = 17
  rangeEndLen_width : rangeEndLen.length = 2
  rangeEnd_width : rangeEnd.length = ofBe rangeEndLen
  valLen_width : valLen.length = 4
  value_width : value.length = ofBe valLen

def Entry.bytes (e : Entry) : Bytes :=
  e.keyLen ++ (e.key ++ (e.fixed ++ (e.rangeEndLen ++ (e.rangeEnd ++ (e.valLen ++ e.value)))))

/-- The bytes begin with so many whole entries. -/
def BeginsWith (count : Nat) (data : Bytes) : Prop :=
  ∃ entries : List Entry, entries.length = count ∧ entries.flatMap Entry.bytes <+: data

theorem decodeEntry_bytes (e : Entry) (rest : Bytes) : ∃ r, decodeEntry (e.bytes ++ rest) = some (r, rest) := by
  simp only [decodeEntry, Entry.bytes, List.append_assoc, Option.bind_eq_bind, Option.bind_some,
    takeBytes_append _ _ _ e.keyLen_width, takeBytes_append _ _ _ e.key_width, takeBytes_append _ _ _ e.fixed_width,
    takeBytes_append _ _ _ e.rangeEndLen_width, takeBytes_append _ _ _ e.rangeEnd_width,
    takeBytes_append _ _ _ e.valLen_width, takeBytes_append _ _ _ e.value_width]
  exact ⟨_, rfl⟩

theorem entry_of_decode {data rest : Bytes} {r : InternalRecord} (decoded : decodeEntry data = some (r, rest)) :
    ∃ e : Entry, data = e.bytes ++ rest := by
  simp only [decodeEntry, Option.bind_eq_bind, Option.bind_eq_some_iff, Prod.exists, Option.some.injEq,
    Prod.mk.injEq, takeBytes_eq_some] at decoded
  obtain ⟨keyLen, _, ⟨rfl, keyLenWidth⟩, key, _, ⟨rfl, keyWidth⟩, fixed, _, ⟨rfl, fixedWidth⟩, rangeEndLen, _,
    ⟨rfl, rangeEndLenWidth⟩, rangeEnd, _, ⟨rfl, rangeEndWidth⟩, valLen, _, ⟨rfl, valLenWidth⟩, value, _,
    ⟨rfl, valueWidth⟩, _, rfl⟩ := decoded
  refine ⟨⟨keyLen, key, fixed, rangeEndLen, rangeEnd, valLen, value, keyLenWidth, keyWidth, fixedWidth,
    rangeEndLenWidth, rangeEndWidth, valLenWidth, valueWidth⟩, ?_⟩
  simp only [Entry.bytes, List.append_assoc]

/-- All `count` records are decoded where the bytes begin with `count` whole entries, and only there. -/
theorem decodeRecords_length_iff (count : Nat) (data : Bytes) :
    (decodeRecords count data).length = count ↔ BeginsWith count data := by
  induction count generalizing data with
  | zero => exact ⟨fun _ => ⟨[], rfl, List.nil_prefix⟩, fun _ => rfl⟩
  | succ count ih =>
    rw [decodeRecords]
    constructor
    · intro all
      cases decoded : decodeEntry data with
      | none => simp [decoded] at all
      | some pair =>
        obtain ⟨r, rest⟩ := pair
        obtain ⟨e, rfl⟩ := entry_of_decode decoded
        simp only [decoded, List.length_cons, Nat.add_right_cancel_iff] at all
        obtain ⟨entries, number, front⟩ := (ih rest).mp all
        refine ⟨e :: entries, congrArg (· + 1) number, ?_⟩
        rw [List.flatMap_cons]
        exact (List.prefix_append_right_inj _).mpr front
    · rintro ⟨entries, number, more, rfl⟩
      cases entries with
      | nil => cases number
      | cons e entries =>
        rw [List.flatMap_cons, List.append_assoc]
        obtain ⟨r, decoded⟩ := decodeEntry_bytes e (entries.flatMap Entry.bytes ++ more)
        simp only [decoded, List.length_cons, Nat.add_right_cancel_iff]
        exact (ih _).mpr ⟨entries, Nat.succ.inj number, List.prefix_append _ _⟩

/-! ### Block reads -/

section
variable (lz4 : Lz4) (reader : SstReader) (blockIdx : Nat)

/-- What `read_block_inner` and `read_block_decompress` both do first: the header of a
block and the bytes behind it, decompressed. -/
def contents : Except FlowError (BlockHeader × Bytes) :=
  match reader.blockOffsets[blockIdx]? with
  | none => .error (.blockNotFound reader.sstId blockIdx)
  | some pos =>
      if pos + headerSize > reader.data.length then
        .error (.corruption ("sst_" ++ toString reader.sstId) ("block " ++ toString blockIdx ++ " out of bounds"))
      else do
        let header ← BlockHeader.fromBytes (slice reader.data pos (pos + headerSize))
        let compressedStart := pos + headerSize
        let compressedEnd := compressedStart + header.compressedLen
        if compressedEnd > reader.data.length then
          .error (.corruption ("sst_" ++ toString reader.sstId)
            ("block " ++ toString blockIdx ++ " compressed data truncated"))
        else do
          let raw ← decompressBlock lz4 (slice reader.data compressedStart compressedEnd) header
          .ok (header, raw)

def readBlockDecompress : Except FlowError (BlockHeader × List InternalRecord) := do
  let (header, raw) ← contents lz4 reader blockIdx
  .ok (header, decodeRecords header.numRecords raw)

/-- `read_block_inner` returns the records that `read_block_decompress` returns. -/
theorem readBlock_contents : reader.readBlock lz4 blockIdx =
    (contents lz4 reader blockIdx).map fun found => decodeRecords found.1.numRecords found.2 := by
  unfold SstReader.readBlock contents
  cases reader.blockOffsets[blockIdx]? with
  | none => rfl
  | some pos =>
    dsimp only
    split_ifs
    · rfl
    · cases BlockHeader.fromBytes (slice reader.data pos (pos + headerSize)) with
      | error e => rfl
      | ok header =>
        simp only [bind, Except.bind]
        split_ifs
        · rfl
        · cases decompressBlock lz4 (slice reader.data (pos + headerSize)
            (pos + headerSize + header.compressedLen)) header <;> rfl

/-- Neither read returns another number of records than the header of the block states. -/
def ReadsAll : Prop :=
  (∀ header records, readBlockDecompress lz4 reader blockIdx = .ok (header, records) →
    records.length = header.numRecords) ∧
  ∀ header raw records, contents lz4 reader blockIdx = .ok (header, raw) →
    reader.readBlock lz4 blockIdx = .ok records → records.length = header.numRecords

theorem readsAll_iff : ReadsAll lz4 reader blockIdx ↔
    ∀ header raw, contents lz4 reader blockIdx = .ok (header, raw) → BeginsWith header.numRecords raw := by
  simp only [ReadsAll, readBlock_contents, readBlockDecompress]
  cases contents lz4 reader blockIdx with
  | error e => exact ⟨fun _ => nofun, fun _ => ⟨nofun, nofun⟩⟩
  | ok found =>
    obtain ⟨header, raw⟩ := found
    constructor
    · rintro ⟨all, -⟩ _ _ ⟨⟩
      exact (decodeRecords_length_iff _ _).mp (all header _ rfl)
    · intro whole
      have all := (decodeRecords_length_iff _ _).mpr (whole header raw rfl)
      refine ⟨?_, ?_⟩
      · rintro _ _ ⟨⟩
        exact all
      · rintro _ _ _ ⟨⟩ ⟨⟩
        exact all

end

/-- `decode_records` returns Ok whatever the bytes are, with all its records only where they
begin with so many whole entries. -/
theorem short_blocks_iff (count : Nat) (data : Bytes) (lz4 : Lz4) (reader : SstReader) (blockIdx : Nat) :
    ((decodeRecords count data).length = count ↔ BeginsWith count data) ∧
      (ReadsAll lz4 reader blockIdx ↔
        ∀ header raw, contents lz4 reader blockIdx = .ok (header, raw) → BeginsWith header.numRecords raw) :=
  ⟨decodeRecords_length_iff count data, readsAll_iff lz4 reader blockIdx⟩

/-! A file of one block with one record, whose header was damaged to state two. -/

/-- A block format with literals only, for 15 to 269 bytes. -/
def literals : Lz4 where
  compress data := 0xF0 :: UInt8.ofNat (data.length - 15) :: data
  decompress data _ := .ok (data.drop 2)

def oneRecord : InternalRecord := ⟨1, .put, [97], 1, 2, [7], none⟩

def damagedFile : Bytes :=
  { blockHeader literals [oneRecord] with numRecords := 2 }.toBytes ++ literals.compress (encodeRecords [oneRecord])

def damagedReader : SstReader := ⟨damagedFile, 1, [0]⟩

theorem short_block_accepted :
    (¬ ∀ count data, (decodeRecords count data).length = count) ∧
      SstReader.open damagedFile 1 = .ok damagedReader ∧ ¬ ReadsAll literals damagedReader 0 := by
  refine ⟨fun all => absurd (all 1 []) (by decide), by decide +kernel, fun all => ?_⟩
  have read : readBlockDecompress literals damagedReader 0 =
      .ok ({ blockHeader literals [oneRecord] with numRecords := 2 }, [{ oneRecord with seq := 0 }]) := by decide +kernel
  exact absurd (all.1 _ _ read) (by decide)

end FlowDb.ShortBlocks
