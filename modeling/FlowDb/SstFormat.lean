import Mathlib.Algebra.BigOperators.Group.List.Basic
import FlowDb.Sstable

/-! The bytes of a table file (sstable.rs): block headers, the two writers, and the
reader that finds the blocks again. The compression of lz4_flex is a parameter. -/
namespace FlowDb.SstFormat
open ByteString Records WalCodec Bloom Sstable

inductive FlowError where
  | corruption (file msg : String)
  | blockNotFound (sstId blockIdx : Nat)
  | invalidMagic (expected actual : Nat)
  | other (msg : String)
  deriving DecidableEq, Repr

structure Lz4 where
  compress : Bytes → Bytes
  decompress : Bytes → Nat → Except String Bytes

/-- What the files rely on: decompression undoes compression. -/
def Lz4.Lossless (lz4 : Lz4) : Prop := ∀ data, lz4.decompress (lz4.compress data) data.length = .ok data

/-! ### Headers
magic(4) | num_records(4) | min_ts(8) | max_ts(8) | min_expire(8) | max_expire(8) | data_len(4) |
compressed_len(4) -/

def blockMagicLz4 : Nat := 0x54534E42

structure BlockHeader where
  numRecords : Nat
  minTs : Int
  maxTs : Int
  minExpire : Int
  maxExpire : Int
  dataLen : Nat
  compressedLen : Nat
  deriving DecidableEq, Repr

def BlockHeader.toBytes (h : BlockHeader) : Bytes :=
  toBe 4 blockMagicLz4 ++ toBe 4 h.numRecords ++ i64ToBe h.minTs ++ i64ToBe h.maxTs ++ i64ToBe h.minExpire ++
    i64ToBe h.maxExpire ++ toBe 4 h.dataLen ++ toBe 4 h.compressedLen

def slice (data : Bytes) (start stop : Nat) : Bytes := (data.drop start).take (stop - start)

def BlockHeader.fromBytes (data : Bytes) : Except FlowError BlockHeader :=
  if data.length < headerSize then .error (.corruption "sst" "block header too short")
  else
    let magic := ofBe (slice data 0 4)
    if magic ≠ blockMagicLz4 then .error (.invalidMagic blockMagicLz4 magic)
    else .ok
      { numRecords := ofBe (slice data 4 8)
        minTs := i64OfBe (slice data 8 16)
        maxTs := i64OfBe (slice data 16 24)
        minExpire := i64OfBe (slice data 24 32)
        maxExpire := i64OfBe (slice data 32 40)
        dataLen := ofBe (slice data 40 44)
        compressedLen := ofBe (slice data 44 48) }

structure BlockHeader.Fits (h : BlockHeader) : Prop where
  numRecords : h.numRecords < 2 ^ 32
  minTs : InI64 h.minTs
  maxTs : InI64 h.maxTs
  minExpire : InI64 h.minExpire
  maxExpire : InI64 h.maxExpire
  dataLen : h.dataLen < 2 ^ 32
  compressedLen : h.compressedLen < 2 ^ 32

@[simp] theorem length_toBytes (h : BlockHeader) : h.toBytes.length = headerSize := by
  simp [BlockHeader.toBytes, headerSize]

theorem fromBytes_toBytes (h : BlockHeader) (fits : h.Fits) : BlockHeader.fromBytes h.toBytes = .ok h := by
  have long : ¬ h.toBytes.length < headerSize := by simp
  have magic : ofBe (slice h.toBytes 0 4) = blockMagicLz4 := by
    rw [show slice h.toBytes 0 4 = toBe 4 blockMagicLz4 by simp [slice, BlockHeader.toBytes]]
    exact ofBe_toBe 4 _ (by decide)
  have fields : slice h.toBytes 4 8 = toBe 4 h.numRecords ∧ slice h.toBytes 8 16 = i64ToBe h.minTs ∧
      slice h.toBytes 16 24 = i64ToBe h.maxTs ∧ slice h.toBytes 24 32 = i64ToBe h.minExpire ∧
      slice h.toBytes 32 40 = i64ToBe h.maxExpire ∧ slice h.toBytes 40 44 = toBe 4 h.dataLen ∧
      slice h.toBytes 44 48 = toBe 4 h.compressedLen := by
    refine ⟨?_, ?_, ?_, ?_, ?_, ?_, ?_⟩ <;>
      simp [slice, BlockHeader.toBytes, List.drop_append, List.drop_eq_nil_of_le]
  obtain ⟨numRecords, minTs, maxTs, minExpire, maxExpire, dataLen, compressedLen⟩ := fields
  simp only [BlockHeader.fromBytes, if_neg long, magic, ne_eq, not_true_eq_false, ↓reduceIte, numRecords, minTs,
    maxTs, minExpire, maxExpire, dataLen, compressedLen, ofBe_toBe 4 _ fits.numRecords, ofBe_toBe 4 _ fits.dataLen,
    ofBe_toBe 4 _ fits.compressedLen, i64OfBe_i64ToBe _ fits.minTs, i64OfBe_i64ToBe _ fits.maxTs,
    i64OfBe_i64ToBe _ fits.minExpire, i64OfBe_i64ToBe _ fits.maxExpire]

/-! ### The writers -/

/-- What a writer has put into its file and keeps to return. -/
structure Written where
  file : Bytes
  totalBytes : Nat
  blockInfos : List BlockInfo
  deriving DecidableEq, Repr

def Written.none : Written := ⟨[], 0, []⟩

section
variable (lz4 : Lz4)

def blockHeader (chunk : List InternalRecord) : BlockHeader :=
  { numRecords := chunk.length
    minTs := minimum (chunk.map (·.ts))
    maxTs := maximum (chunk.map (·.ts))
    minExpire := minimum (chunk.map (·.expireAt))
    maxExpire := maximum (chunk.map (·.expireAt))
    dataLen := (encodeRecords chunk).length
    compressedLen := (lz4.compress (encodeRecords chunk)).length }

def blockBytes (chunk : List InternalRecord) : Bytes :=
  (blockHeader lz4 chunk).toBytes ++ lz4.compress (encodeRecords chunk)

-- The loop body of `SstWriter::write` and that of `flush_block`.
def Written.pushBlock (w : Written) (chunk : List InternalRecord) : Written :=
  { file := w.file ++ blockBytes lz4 chunk
    totalBytes := w.totalBytes + (headerSize + (lz4.compress (encodeRecords chunk)).length)
    blockInfos := w.blockInfos ++ [blockInfo w.blockInfos.length chunk] }

/-- The slices of `chunks(n)`: `n` records each, fewer in the last. -/
def slices (n : Nat) (records : List InternalRecord) : List (List InternalRecord) :=
  (List.range ((records.length + n - 1) / n)).map fun i => (records.drop (i * n)).take n

def SstWriter.write (records : List InternalRecord) (blockSize bloomBitsPerKey : Nat) : Written × BloomFilter :=
  ((slices (max blockSize 1) records).foldl (Written.pushBlock lz4) .none,
    BloomFilter.fromKeysWithBits (uniqueKeys Option.none records) bloomBitsPerKey)

structure SstStreamWriter where
  blockSize : Nat
  bloom : BloomFilter
  currentBlock : List InternalRecord
  written : Written
  deriving DecidableEq, Repr

namespace SstStreamWriter

def new (blockSize estimatedKeys bloomBitsPerKey : Nat) : SstStreamWriter :=
  ⟨blockSize, BloomFilter.withBitsPerKey (max estimatedKeys 1) bloomBitsPerKey, [], .none⟩

def flushBlock (w : SstStreamWriter) : SstStreamWriter :=
  if w.currentBlock = [] then w
  else { w with written := w.written.pushBlock lz4 w.currentBlock, currentBlock := [] }

def writeRecord (w : SstStreamWriter) (rec : InternalRecord) : SstStreamWriter :=
  let w := { w with bloom := w.bloom.insert rec.key, currentBlock := w.currentBlock ++ [rec] }
  if w.currentBlock.length ≥ w.blockSize then w.flushBlock lz4 else w

def finish (w : SstStreamWriter) : Written × BloomFilter :=
  let w := if w.currentBlock = [] then w else w.flushBlock lz4
  (w.written, w.bloom)

/-- One `write_record` for each record and then `finish`. -/
def run (records : List InternalRecord) (blockSize estimatedKeys bloomBitsPerKey : Nat) : Written × BloomFilter :=
  (records.foldl (writeRecord lz4) (new blockSize estimatedKeys bloomBitsPerKey)).finish lz4

end SstStreamWriter

/-! ### The reader -/

structure SstReader where
  data : Bytes
  sstId : Nat
  blockOffsets : List Nat
  deriving DecidableEq, Repr

-- The `while` loop of open; a position grows by a header at least, so the length of the file is fuel enough.
def scanOffsets (data : Bytes) : Nat → Nat → Except FlowError (List Nat)
  | 0, _ => .ok []
  | fuel + 1, pos =>
      if pos + headerSize ≤ data.length then do
        let header ← BlockHeader.fromBytes (slice data pos (pos + headerSize))
        let offsets ← scanOffsets data fuel (pos + headerSize + header.compressedLen)
        .ok (pos :: offsets)
      else .ok []

def SstReader.open (data : Bytes) (sstId : Nat) : Except FlowError SstReader := do
  let offsets ← scanOffsets data data.length 0
  .ok ⟨data, sstId, offsets⟩

def decompressBlock (data : Bytes) (header : BlockHeader) : Except FlowError Bytes :=
  (lz4.decompress data header.dataLen).mapError fun e => .other ("lz4 decompress: " ++ e)

/-- `read_block_inner`: what `read_block` returns for a block that is not cached. -/
def SstReader.readBlock (reader : SstReader) (blockIdx : Nat) : Except FlowError (List InternalRecord) :=
  match reader.blockOffsets[blockIdx]? with
  | Option.none => .error (.blockNotFound reader.sstId blockIdx)
  | some pos =>
      if pos + headerSize > reader.data.length then
        .error (.corruption ("sst_" ++ toString reader.sstId) ("block " ++ toString blockIdx ++ " out of bounds"))
      else do
        let header ← BlockHeader.fromBytes (slice reader.data pos (pos + headerSize))
        let compressedStart := pos + headerSize
        let compressedEnd := compressedStart + header.compressedLen
        if compressedEnd > reader.data.length then
          .error (.corruption ("sst_" ++ toString reader.sstId)
            ("block " ++ toString blockIdx ++ " compressed data truncated"))
        else do
          let raw ← decompressBlock lz4 (slice reader.data compressedStart compressedEnd) header
          .ok (decodeRecords header.numRecords raw)

/-! ### What the writers put into their files -/

theorem slices_append (n : Nat) (pos : 0 < n) (chunk rest : List InternalRecord) (full : chunk.length = n) :
    slices n (chunk ++ rest) = chunk :: slices n rest := by
  subst full
  have count : ((chunk ++ rest).length + chunk.length - 1) / chunk.length =
      (rest.length + chunk.length - 1) / chunk.length + 1 := by
    rw [List.length_append, show chunk.length + rest.length + chunk.length - 1 =
      rest.length + chunk.length - 1 + chunk.length by omega, Nat.add_div_right _ pos]
  rw [slices, count, List.range_succ_eq_map, List.map_cons, List.map_map, slices]
  refine congrArg₂ List.cons (by simp) (List.map_congr_left fun i _ => ?_)
  have later : (i + 1) * chunk.length = chunk.length + i * chunk.length := by ring
  simp only [Function.comp_apply, Nat.succ_eq_add_one, later, ← List.drop_drop, List.drop_left]

theorem slices_short (n : Nat) (records : List InternalRecord) (short : records.length < n) :
    slices n records = if records = [] then [] else [records] := by
  split_ifs with empty
  · subst empty
    simp [slices, Nat.div_eq_of_lt (show n - 1 < n by omega)]
  · have some_record : 0 < records.length := List.length_pos_iff.mpr empty
    have count : (records.length + n - 1) / n = 1 :=
      Nat.div_eq_of_lt_le (by omega) (by omega)
    simp [slices, count, List.take_of_length_le short.le]

theorem chunksFrom_slices (n : Nat) (current records : List InternalRecord) (short : current.length < n) :
    chunksFrom n current records = slices n (current ++ records) := by
  induction records generalizing current with
  | nil => rw [List.append_nil, slices_short n current short, chunksFrom]
  | cons r rest ih =>
    have grown : (current ++ [r]).length = current.length + 1 := by simp
    rw [chunksFrom, List.append_cons current r rest]
    split_ifs with full
    · rw [slices_append n (by omega) _ rest (by omega), ih [] (by simp; omega), List.nil_append]
    · exact ih _ (by omega)

/-- The slices of `chunks(block_size.max(1))` are the blocks a stream writer fills. -/
theorem chunks_slices (blockSize : Nat) (records : List InternalRecord) :
    chunks blockSize records = slices (max blockSize 1) records :=
  chunksFrom_slices _ [] records (by simp)

theorem stream_run_from (records : List InternalRecord) (w : SstStreamWriter) :
    (records.foldl (SstStreamWriter.writeRecord lz4) w).finish lz4 =
      ((chunksFrom (max w.blockSize 1) w.currentBlock records).foldl (Written.pushBlock lz4) w.written,
        (records.map (·.key)).foldl BloomFilter.insert w.bloom) := by
  induction records generalizing w with
  | nil =>
    by_cases empty : w.currentBlock = [] <;>
      simp [SstStreamWriter.finish, SstStreamWriter.flushBlock, chunksFrom, empty]
  | cons r rest ih =>
    have grown : (w.currentBlock ++ [r]).length = w.currentBlock.length + 1 := by simp
    have nonempty : w.currentBlock ++ [r] ≠ [] := by simp
    rw [List.foldl_cons, ih, List.map_cons, List.foldl_cons, chunksFrom]
    by_cases full : w.blockSize ≤ w.currentBlock.length + 1
    · have filled : max w.blockSize 1 ≤ w.currentBlock.length + 1 := by omega
      simp [SstStreamWriter.writeRecord, SstStreamWriter.flushBlock, full, filled]
    · have room : ¬ max w.blockSize 1 ≤ w.currentBlock.length + 1 := by omega
      simp [SstStreamWriter.writeRecord, full, room]

/-- Fed the same records, the stream writer leaves what `SstWriter::write` leaves. -/
theorem stream_run_written (records : List InternalRecord) (blockSize estimatedKeys bits : Nat) :
    (SstStreamWriter.run lz4 records blockSize estimatedKeys bits).1 =
      (SstWriter.write lz4 records blockSize bits).1 := by
  simp only [SstStreamWriter.run, stream_run_from, SstStreamWriter.new, SstWriter.write]
  rw [← chunks_slices, chunks]

theorem pushBlocks (chunks : List (List InternalRecord)) (w : Written) :
    chunks.foldl (Written.pushBlock lz4) w =
      { file := w.file ++ chunks.flatMap (blockBytes lz4)
        totalBytes := w.totalBytes +
          (chunks.map fun chunk => headerSize + (lz4.compress (encodeRecords chunk)).length).sum
        blockInfos := w.blockInfos ++ chunks.mapIdx fun i chunk => blockInfo (w.blockInfos.length + i) chunk } := by
  induction chunks generalizing w with
  | nil => simp
  | cons chunk rest ih =>
    rw [List.foldl_cons, ih]
    simp [Written.pushBlock, List.mapIdx_cons, Nat.add_assoc, Nat.add_comm 1]

/-- The file that the blocks of a table stand for. -/
theorem write_refines (records : List InternalRecord) (blockSize bits : Nat) :
    let table := (Sstable.SstWriter.write records blockSize bits).1
    (SstWriter.write lz4 records blockSize bits).1 =
      { file := table.blocks.flatMap (blockBytes lz4)
        totalBytes := table.totalBytes fun data => (lz4.compress data).length
        blockInfos := table.blockInfos } := by
  simp [SstWriter.write, pushBlocks, ← chunks_slices, Written.none, Sstable.SstWriter.write, SstFile.totalBytes,
    SstFile.blockInfos]

/-! ### What the reader finds in them -/

/-- Lengths inside the fields of a block header and of the record encoding. -/
structure BlockFits (chunk : List InternalRecord) : Prop where
  records : ∀ r ∈ chunk, TableFits r
  numRecords : chunk.length < 2 ^ 32
  dataLen : (encodeRecords chunk).length < 2 ^ 32
  compressedLen : (lz4.compress (encodeRecords chunk)).length < 2 ^ 32

/-- Where each block of a file begins whose first block begins at `pos`. -/
def blockOffsets (pos : Nat) : List (List InternalRecord) → List Nat
  | [] => []
  | chunk :: rest => pos :: blockOffsets (pos + (blockBytes lz4 chunk).length) rest

theorem extremum_range {values : List Int} (range : ∀ v ∈ values, InI64 v) :
    InI64 (minimum values) ∧ InI64 (maximum values) := by
  cases values with
  | nil => exact ⟨by decide, by decide⟩
  | cons v rest =>
    obtain ⟨bottom, low⟩ := Option.isSome_iff_exists.mp (List.isSome_min?_of_mem (List.mem_cons_self (a := v) (l := rest)))
    obtain ⟨top, high⟩ := Option.isSome_iff_exists.mp (List.isSome_max?_of_mem (List.mem_cons_self (a := v) (l := rest)))
    rw [minimum, maximum, low, high]
    exact ⟨range bottom (List.min?_mem low), range top (List.max?_mem high)⟩

theorem header_fits {chunk : List InternalRecord} (fits : BlockFits lz4 chunk) : (blockHeader lz4 chunk).Fits := by
  have times : ∀ v ∈ chunk.map (·.ts), InI64 v := fun v member => by
    obtain ⟨r, inside, rfl⟩ := List.mem_map.mp member
    exact (fits.records r inside).ts
  have expires : ∀ v ∈ chunk.map (·.expireAt), InI64 v := fun v member => by
    obtain ⟨r, inside, rfl⟩ := List.mem_map.mp member
    exact (fits.records r inside).expireAt
  exact ⟨fits.numRecords, (extremum_range times).1, (extremum_range times).2,
    (extremum_range expires).1, (extremum_range expires).2, fits.dataLen, fits.compressedLen⟩

theorem slice_middle (front middle back : Bytes) :
    slice (front ++ (middle ++ back)) front.length (front.length + middle.length) = middle := by
  rw [slice, List.drop_left, Nat.add_sub_cancel_left, List.take_left]

theorem length_blockBytes (chunk : List InternalRecord) :
    (blockBytes lz4 chunk).length = headerSize + (blockHeader lz4 chunk).compressedLen := by
  rw [blockBytes, List.length_append, length_toBytes, blockHeader]

/-- The header that stands where a block begins. -/
theorem header_at (front back : Bytes) {chunk : List InternalRecord} (fits : BlockFits lz4 chunk) :
    BlockHeader.fromBytes (slice (front ++ (blockBytes lz4 chunk ++ back)) front.length (front.length + headerSize)) =
      .ok (blockHeader lz4 chunk) := by
  have there := slice_middle front (blockHeader lz4 chunk).toBytes (lz4.compress (encodeRecords chunk) ++ back)
  rw [length_toBytes] at there
  rw [blockBytes, List.append_assoc, there, fromBytes_toBytes _ (header_fits lz4 fits)]

theorem scanOffsets_blocks (chunks : List (List InternalRecord)) (fits : ∀ chunk ∈ chunks, BlockFits lz4 chunk)
    (front : Bytes) (fuel : Nat) (enough : chunks.length ≤ fuel) :
    scanOffsets (front ++ chunks.flatMap (blockBytes lz4)) fuel front.length =
      .ok (blockOffsets lz4 front.length chunks) := by
  induction chunks generalizing front fuel with
  | nil =>
    cases fuel with
    | zero => rfl
    | succ fuel => simp [scanOffsets, blockOffsets, headerSize]
  | cons chunk rest ih =>
    obtain _ | fuel := fuel
    · simp at enough
    have room : front.length + headerSize ≤
        (front ++ (blockBytes lz4 chunk ++ rest.flatMap (blockBytes lz4))).length := by
      simp only [List.length_append, length_blockBytes]; omega
    have next := ih (fun c member => fits c (List.mem_cons_of_mem _ member)) (front ++ blockBytes lz4 chunk) fuel
      (by simpa using enough)
    rw [List.append_assoc, List.length_append, length_blockBytes, ← Nat.add_assoc] at next
    rw [List.flatMap_cons, scanOffsets, if_pos room, header_at lz4 front _ (fits chunk List.mem_cons_self)]
    simp only [bind, Except.bind, next, blockOffsets, length_blockBytes, ← Nat.add_assoc]

theorem blockOffsets_at (chunks : List (List InternalRecord)) (front : Bytes) (i : Nat) (chunk : List InternalRecord)
    (there : chunks[i]? = some chunk) :
    ∃ before back, front ++ chunks.flatMap (blockBytes lz4) = before ++ (blockBytes lz4 chunk ++ back) ∧
      (blockOffsets lz4 front.length chunks)[i]? = some before.length := by
  induction chunks generalizing front i with
  | nil => simp at there
  | cons first rest ih =>
    cases i with
    | zero =>
      obtain rfl : first = chunk := by simpa using there
      exact ⟨front, rest.flatMap (blockBytes lz4), rfl, rfl⟩
    | succ i =>
      obtain ⟨before, back, shape, offset⟩ := ih (front ++ blockBytes lz4 first) i (by simpa using there)
      rw [List.append_assoc] at shape
      rw [List.length_append] at offset
      exact ⟨before, back, shape, offset⟩

theorem length_blockOffsets (chunks : List (List InternalRecord)) (pos : Nat) :
    (blockOffsets lz4 pos chunks).length = chunks.length := by
  induction chunks generalizing pos with
  | nil => rfl
  | cons chunk rest ih => simp [blockOffsets, ih]

theorem open_blocks (chunks : List (List InternalRecord)) (fits : ∀ chunk ∈ chunks, BlockFits lz4 chunk)
    (sstId : Nat) :
    SstReader.open (chunks.flatMap (blockBytes lz4)) sstId =
      .ok ⟨chunks.flatMap (blockBytes lz4), sstId, blockOffsets lz4 0 chunks⟩ := by
  have many : chunks.length ≤ (chunks.flatMap (blockBytes lz4)).length := by
    rw [List.length_flatMap, ← List.length_map (fun chunk => (blockBytes lz4 chunk).length)]
    refine List.length_le_sum_of_one_le _ fun size member => ?_
    obtain ⟨chunk, -, rfl⟩ := List.mem_map.mp member
    rw [length_blockBytes, headerSize]
    omega
  have found := scanOffsets_blocks lz4 chunks fits [] _ many
  rw [List.nil_append, List.length_nil] at found
  rw [SstReader.open, found]
  rfl

theorem readBlock_blocks (lossless : lz4.Lossless) (chunks : List (List InternalRecord))
    (fits : ∀ chunk ∈ chunks, BlockFits lz4 chunk) (sstId i : Nat) :
    SstReader.readBlock lz4 ⟨chunks.flatMap (blockBytes lz4), sstId, blockOffsets lz4 0 chunks⟩ i =
      match chunks[i]? with
      | some chunk => .ok (chunk.map stored)
      | none => .error (.blockNotFound sstId i) := by
  cases there : chunks[i]? with
  | none =>
    have past : (blockOffsets lz4 0 chunks)[i]? = Option.none :=
      List.getElem?_eq_none (by rw [length_blockOffsets]; exact List.getElem?_eq_none_iff.mp there)
    simp only [SstReader.readBlock, past]
  | some chunk =>
    have chunkFits := fits chunk (List.mem_of_getElem? there)
    obtain ⟨before, back, shape, offset⟩ := blockOffsets_at lz4 chunks [] i chunk there
    rw [List.nil_append] at shape
    rw [List.length_nil] at offset
    have size := length_blockBytes lz4 chunk
    have headRoom : ¬ before.length + headerSize > (before ++ (blockBytes lz4 chunk ++ back)).length := by
      simp only [List.length_append]; omega
    have bodyRoom : ¬ before.length + headerSize + (blockHeader lz4 chunk).compressedLen >
        (before ++ (blockBytes lz4 chunk ++ back)).length := by
      simp only [List.length_append]; omega
    have compressed : (blockHeader lz4 chunk).compressedLen = (lz4.compress (encodeRecords chunk)).length := rfl
    have body : slice (before ++ (blockBytes lz4 chunk ++ back)) (before.length + headerSize)
        (before.length + headerSize + (blockHeader lz4 chunk).compressedLen) =
          lz4.compress (encodeRecords chunk) := by
      have middle := slice_middle (before ++ (blockHeader lz4 chunk).toBytes) (lz4.compress (encodeRecords chunk)) back
      rw [List.length_append, length_toBytes] at middle
      simpa only [blockBytes, List.append_assoc, compressed] using middle
    have raw : decompressBlock lz4 (lz4.compress (encodeRecords chunk)) (blockHeader lz4 chunk) =
        .ok (encodeRecords chunk) := by
      rw [decompressBlock, show (blockHeader lz4 chunk).dataLen = (encodeRecords chunk).length from rfl, lossless]
      rfl
    have count : (blockHeader lz4 chunk).numRecords = chunk.length := rfl
    simp only [SstReader.readBlock, offset, shape, if_neg headRoom, header_at lz4 before back chunkFits, bind,
      Except.bind, if_neg bodyRoom, body, raw, count, decode_encode_records chunk chunkFits.records]

/-- Reading the bytes of a table is reading the table, and only a block it has not is an error. -/
theorem readBlock_refines (lossless : lz4.Lossless) (table : SstFile) (fits : ∀ chunk ∈ table.blocks, BlockFits lz4 chunk)
    (sstId i : Nat) :
    (do let reader ← SstReader.open (table.blocks.flatMap (blockBytes lz4)) sstId; reader.readBlock lz4 i) =
      if i < table.blocks.length then .ok (table.readBlock i) else .error (.blockNotFound sstId i) := by
  have recordFits : ∀ r ∈ table.records, TableFits r := by
    intro r member
    obtain ⟨chunk, inside, member⟩ := List.mem_flatten.mp member
    exact (fits chunk inside).records r member
  rw [open_blocks lz4 _ fits, readBlock_eq table recordFits]
  simp only [bind, Except.bind, readBlock_blocks lz4 lossless _ fits]
  split_ifs with inside
  · rw [List.getElem?_eq_getElem inside, Option.getD_some]
  · rw [List.getElem?_eq_none (Nat.le_of_not_lt inside)]

theorem slices_at (n : Nat) (pos : 0 < n) (records : List InternalRecord) (i : Nat) :
    (slices n records)[i]? = if i * n < records.length then some ((records.drop (i * n)).take n) else none := by
  have reached : i < (records.length + n - 1) / n ↔ i * n < records.length := by
    rw [Nat.lt_iff_add_one_le, Nat.le_div_iff_mul_le pos, Nat.add_mul, Nat.one_mul]
    omega
  rw [slices, List.getElem?_map]
  split_ifs with inside
  · rw [List.getElem?_range (reached.mpr inside), Option.map_some]
  · rw [List.getElem?_eq_none (by rw [List.length_range]; exact Nat.le_of_not_lt (mt reached.mp inside)), Option.map_none]

end

/-- The limits a block's metadata gives for a record. -/
structure Bounds (info : BlockInfo) (r : InternalRecord) : Prop where
  minKey : info.minKey ≤ r.key
  maxKey : r.key ≤ info.maxKey
  minTs : info.minTs ≤ r.ts
  maxTs : r.ts ≤ info.maxTs
  minExpire : info.minExpire ≤ r.expireAt
  maxExpire : r.expireAt ≤ info.maxExpire

theorem key_le_of_slot {a b : InternalRecord} (ordered : a.slot ≤ b.slot) : a.key ≤ b.key :=
  (Prod.Lex.le_iff'.mp ordered).1

theorem blockInfo_bounds (blockIdx : Nat) (chunk : List InternalRecord)
    (sorted : chunk.Pairwise fun a b => a.slot ≤ b.slot) (r : InternalRecord) (member : r ∈ chunk) :
    Bounds (blockInfo blockIdx chunk) r := by
  obtain ⟨first, rest, rfl⟩ := List.exists_cons_of_ne_nil (List.ne_nil_of_mem member)
  have ts : r.ts ∈ (first :: rest).map (·.ts) := List.mem_map.mpr ⟨r, member, rfl⟩
  have expireAt : r.expireAt ∈ (first :: rest).map (·.expireAt) := List.mem_map.mpr ⟨r, member, rfl⟩
  refine ⟨?_, ?_, minimum_le ts, le_maximum ts, minimum_le expireAt, le_maximum expireAt⟩
  · show first.key ≤ r.key
    rcases List.mem_cons.mp member with rfl | later
    · exact le_rfl
    · exact key_le_of_slot (List.rel_of_pairwise_cons sorted later)
  · obtain ⟨init, last, shape⟩ := List.eq_nil_or_concat (first :: rest) |>.resolve_left (by simp)
    rw [List.concat_eq_append] at shape
    rw [shape] at sorted member
    have held : (blockInfo blockIdx (first :: rest)).maxKey = last.key := by simp [blockInfo, shape]
    rw [held]
    rcases List.mem_append.mp member with before | only
    · exact key_le_of_slot ((List.pairwise_append.mp sorted).2.2 r before last List.mem_cons_self)
    · rw [List.mem_singleton.mp only]

section
variable (lz4 : Lz4)

/-- A table file gives back what was written to it, block by block, whichever writer wrote it. -/
theorem sst_file_reads_back (lossless : lz4.Lossless) (records : List InternalRecord)
    (sorted : records.Pairwise fun a b => a.slot ≤ b.slot) (blockSize estimatedKeys bits sstId : Nat)
    (fits : ∀ chunk ∈ slices (max blockSize 1) records, BlockFits lz4 chunk) :
    let n := max blockSize 1
    let out := (SstWriter.write lz4 records blockSize bits).1
    (SstStreamWriter.run lz4 records blockSize estimatedKeys bits).1 = out ∧
      ∃ reader, SstReader.open out.file sstId = .ok reader ∧
        reader.blockOffsets = blockOffsets lz4 0 (slices n records) ∧
        ∀ i, if i * n < records.length then
            reader.readBlock lz4 i = .ok (((records.drop (i * n)).take n).map stored) ∧
              ∃ info, out.blockInfos[i]? = some info ∧ info.blockIdx = i ∧
                ∀ r ∈ (records.drop (i * n)).take n, Bounds info r
          else reader.readBlock lz4 i = .error (.blockNotFound sstId i) ∧ out.blockInfos[i]? = none := by
  intro n out
  have pos : 0 < n := by omega
  have file : out.file = (slices n records).flatMap (blockBytes lz4) := by
    simp [out, n, write_refines, Sstable.SstWriter.write, chunks_slices]
  have infos : out.blockInfos = (slices n records).mapIdx blockInfo := by
    simp [out, n, write_refines, Sstable.SstWriter.write, chunks_slices, SstFile.blockInfos]
  refine ⟨stream_run_written lz4 records blockSize estimatedKeys bits, _,
    file ▸ open_blocks lz4 (slices n records) fits sstId, rfl, fun i => ?_⟩
  rw [file, readBlock_blocks lz4 lossless _ fits, infos, List.getElem?_mapIdx, slices_at n pos]
  split_ifs with inside
  · refine ⟨rfl, _, rfl, rfl, fun r member => ?_⟩
    exact blockInfo_bounds i _ (sorted.sublist ((List.take_sublist n _).trans (List.drop_sublist _ _))) r member
  · exact ⟨rfl, rfl⟩

end

/-! A block of lz4 whose only sequence is literals, as data without a repeated run of four bytes compresses to. -/

def literals : Lz4 where
  compress data :=
    if data.length < 15 then UInt8.ofNat (data.length * 16) :: data
    else 240 :: (List.replicate ((data.length - 15) / 255) 255 ++ UInt8.ofNat ((data.length - 15) % 255) :: data)
  decompress data size :=
    match data with
    | [] => .error "expected another byte"
    | token :: rest =>
        let literal := if token.toNat / 16 < 15 then rest else (rest.dropWhile (· = 255)).drop 1
        if literal.length ≤ size then .ok literal else .error "provided output is too small"

theorem dropWhile_length_bytes (count : Nat) (last : UInt8) (rest : Bytes) (short : last ≠ 255) :
    (List.replicate count 255 ++ last :: rest).dropWhile (· = 255) = last :: rest := by
  induction count with
  | zero => simp [short]
  | succ count ih => simpa [List.replicate_succ] using ih

theorem literals_lossless : literals.Lossless := by
  intro data
  by_cases short : data.length < 15
  · have token : data.length * 16 % 256 / 16 < 15 := by omega
    simp [literals, short, token]
  · have last : UInt8.ofNat ((data.length - 15) % 255) ≠ 255 := by
      intro same
      have value := congrArg UInt8.toNat same
      rw [UInt8.toNat_ofNat', show (255 : UInt8).toNat = 255 from rfl] at value
      omega
    simp [literals, short, dropWhile_length_bytes _ _ data last]

theorem sst_file_reads_back_two_blocks :
    let records : List InternalRecord :=
      [⟨5, .put, [97], 0x0102030405060708, 0x1112131415161718, [1], none⟩,
        ⟨6, .put, [98], 0x2122232425262728, 0x3132333435363738, [2], some []⟩]
    let out := (SstWriter.write literals records 1 10).1
    (SstStreamWriter.run literals records 1 2 10).1 = out ∧
      ∃ reader, SstReader.open out.file 7 = .ok reader ∧ reader.blockOffsets = [0, 77] ∧
        reader.readBlock literals 1 =
          .ok [⟨0, .put, [98], 0x2122232425262728, 0x3132333435363738, [2], none⟩] := by
  intro records out
  have fits : ∀ chunk ∈ slices (max 1 1) records, BlockFits literals chunk := by
    intro chunk member
    have cases : chunk = [records[0]] ∨ chunk = [records[1]] := by
      have both : slices (max 1 1) records = [[records[0]], [records[1]]] := by decide
      rw [both] at member
      simpa only [List.mem_cons, List.not_mem_nil, or_false] using member
    rcases cases with rfl | rfl <;>
      exact ⟨by decide, by decide, by decide, by decide⟩
  obtain ⟨same, reader, opened, offsets, blocks⟩ :=
    sst_file_reads_back literals literals_lossless records (by decide) 1 2 10 7 fits
  refine ⟨same, reader, opened, offsets.trans (by decide), ?_⟩
  have second := blocks 1
  rw [if_pos (by decide)] at second
  exact second.1.trans (by decide)

end FlowDb.SstFormat
