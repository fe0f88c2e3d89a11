import FlowDb.Bloom

/-! The tables of sstable.rs. A file is kept as the blocks of records given to its
writer and every read goes through the record encoding, which drops sequence
numbers; in a file `seq` only tells how a record was numbered when it was written.
Block headers other than the record count, and the compression, which gives back
what it was given, are left out. -/
namespace FlowDb.Sstable
open ByteString Records WalCodec Bloom

/-! ### The record encoding
key_len(2) | key | ts(8) | expire_at(8) | op(1) | range_end_len(2) | range_end | val_len(4) | value -/

def encodeEntry (r : InternalRecord) : Bytes :=
  toBe 2 r.key.length ++ r.key ++ i64ToBe r.ts ++ i64ToBe r.expireAt ++ [r.op.toU8] ++
    toBe 2 (rangeEndBytes r).length ++ rangeEndBytes r ++ toBe 4 r.value.length ++ r.value

def encodeRecords (records : List InternalRecord) : Bytes := records.flatMap encodeEntry

def decodeEntry (data : Bytes) : Option (InternalRecord × Bytes) := do
  let (keyLen, rest) ← takeBytes 2 data
  let (key, rest) ← takeBytes (ofBe keyLen) rest
  let (fixed, rest) ← takeBytes 17 rest
  let (reLen, rest) ← takeBytes 2 rest
  let (rangeEnd, rest) ← takeBytes (ofBe reLen) rest
  let (valLen, rest) ← takeBytes 4 rest
  let (value, rest) ← takeBytes (ofBe valLen) rest
  some (⟨0, Op.fromU8 (fixed.getD 16 0), key, i64OfBe (fixed.take 8), i64OfBe ((fixed.drop 8).take 8), value,
    if rangeEnd = [] then none else some rangeEnd⟩, rest)

-- Running out of bytes ends the loop without an error.
def decodeRecords : Nat → Bytes → List InternalRecord
  | 0, _ => []
  | count + 1, data =>
      match decodeEntry data with
      | some (rec, rest) => rec :: decodeRecords count rest
      | none => []

/-- Fields inside the length prefixes of the table encoding. -/
structure TableFits (r : InternalRecord) : Prop where
  key : r.key.length < 2 ^ 16
  ts : InI64 r.ts
  expireAt : InI64 r.expireAt
  rangeEnd : ∀ re, r.rangeEnd = some re → re.length < 2 ^ 16
  value : r.value.length < 2 ^ 32

instance (r : InternalRecord) : Decidable (TableFits r) :=
  decidable_of_iff (r.key.length < 2 ^ 16 ∧ InI64 r.ts ∧ InI64 r.expireAt ∧ (∀ re ∈ r.rangeEnd, re.length < 2 ^ 16) ∧
    r.value.length < 2 ^ 32)
    ⟨fun ⟨key, ts, expireAt, rangeEnd, value⟩ => ⟨key, ts, expireAt, rangeEnd, value⟩,
      fun fits => ⟨fits.key, fits.ts, fits.expireAt, fits.rangeEnd, fits.value⟩⟩

/-- A record as a table gives it back. -/
def stored (r : InternalRecord) : InternalRecord := { r.dropEmptyEnd with seq := 0 }

@[simp] theorem stored_seq (r : InternalRecord) : (stored r).seq = 0 := rfl
@[simp] theorem stored_op (r : InternalRecord) : (stored r).op = r.op := rfl
@[simp] theorem stored_key (r : InternalRecord) : (stored r).key = r.key := rfl
@[simp] theorem stored_ts (r : InternalRecord) : (stored r).ts = r.ts := rfl
@[simp] theorem stored_expireAt (r : InternalRecord) : (stored r).expireAt = r.expireAt := rfl
@[simp] theorem stored_value (r : InternalRecord) : (stored r).value = r.value := rfl
@[simp] theorem stored_slot (r : InternalRecord) : (stored r).slot = r.slot := rfl
@[simp] theorem stored_toRecord (r : InternalRecord) : (stored r).toRecord = r.toRecord := rfl

theorem decodeEntry_encode (r : InternalRecord) (rest : Bytes) (fits : TableFits r) :
    decodeEntry (encodeEntry r ++ rest) = some (stored r, rest) := by
  have keyLen : r.key.length < 256 ^ 2 := by simpa using fits.key
  have valLen : r.value.length < 256 ^ 4 := by simpa using fits.value
  have endLen : (rangeEndBytes r).length < 256 ^ 2 := rangeEndBytes_lt (by decide) fits.rangeEnd
  have shape : encodeEntry r ++ rest =
      toBe 2 r.key.length ++ (r.key ++ ((i64ToBe r.ts ++ (i64ToBe r.expireAt ++ [r.op.toU8])) ++
        (toBe 2 (rangeEndBytes r).length ++ (rangeEndBytes r ++
          (toBe 4 r.value.length ++ (r.value ++ rest)))))) := by
    simp only [encodeEntry, List.append_assoc]
  have tsTake : (i64ToBe r.ts ++ (i64ToBe r.expireAt ++ [r.op.toU8])).take 8 = i64ToBe r.ts :=
    List.take_left' (length_i64ToBe r.ts)
  have tsDrop : (i64ToBe r.ts ++ (i64ToBe r.expireAt ++ [r.op.toU8])).drop 8 =
      i64ToBe r.expireAt ++ [r.op.toU8] := List.drop_left' (length_i64ToBe r.ts)
  have expireTake : (i64ToBe r.expireAt ++ [r.op.toU8]).take 8 = i64ToBe r.expireAt :=
    List.take_left' (length_i64ToBe r.expireAt)
  have opByte : (i64ToBe r.ts ++ (i64ToBe r.expireAt ++ [r.op.toU8])).getD 16 0 = r.op.toU8 := by
    simp [List.getD_eq_getElem?_getD]
  simp only [decodeEntry, shape, Option.bind_eq_bind, Option.bind_some, takeBytes_append, length_toBe,
    List.length_append, length_i64ToBe, List.length_singleton, ofBe_toBe 2 _ keyLen, ofBe_toBe 2 _ endLen,
    ofBe_toBe 4 _ valLen, tsTake, tsDrop, expireTake, opByte, from_to_u8, i64OfBe_i64ToBe _ fits.ts,
    i64OfBe_i64ToBe _ fits.expireAt, rangeEnd_readback]
  rfl

/-- A block gives back the records written to it, less their sequence numbers. -/
theorem decode_encode_records (records : List InternalRecord) (fits : ∀ r ∈ records, TableFits r) :
    decodeRecords records.length (encodeRecords records) = records.map stored := by
  induction records with
  | nil => rfl
  | cons r rest ih =>
    have first := decodeEntry_encode r (encodeRecords rest) (fits r List.mem_cons_self)
    simp only [encodeRecords] at first ih
    simp only [encodeRecords, List.flatMap_cons, List.length_cons, decodeRecords, first, List.map_cons]
    rw [ih fun r member => fits r (List.mem_cons_of_mem _ member)]

/-! ### Files -/

structure BlockInfo where
  blockIdx : Nat
  minKey : Bytes
  maxKey : Bytes
  minTs : Int
  maxTs : Int
  minExpire : Int
  maxExpire : Int
  deriving DecidableEq, Repr

structure SstFile where
  blocks : List (List InternalRecord)
  deriving DecidableEq, Repr

-- An index past the last block is an error to the reader, which every caller skips.
def SstFile.readBlock (file : SstFile) (blockIdx : Nat) : List InternalRecord :=
  match file.blocks[blockIdx]? with
  | some chunk => decodeRecords chunk.length (encodeRecords chunk)
  | none => []

/-- The records behind all blocks, as written. -/
def SstFile.records (file : SstFile) : List InternalRecord := file.blocks.flatten

-- The records of `write_record` so far, and a full block at every `block_size` of them.
def chunksFrom (n : Nat) (current : List InternalRecord) : List InternalRecord → List (List InternalRecord)
  | [] => if current = [] then [] else [current]
  | r :: rest =>
      let current := current ++ [r]
      if current.length ≥ n then current :: chunksFrom n [] rest else chunksFrom n current rest

/-- `records.chunks(block_size.max(1))`, and the blocks a stream writer flushes. -/
def chunks (blockSize : Nat) (records : List InternalRecord) : List (List InternalRecord) :=
  chunksFrom (max blockSize 1) [] records

def minimum (values : List Int) : Int := values.min?.getD 0
def maximum (values : List Int) : Int := values.max?.getD 0

theorem le_maximum {values : List Int} {v : Int} (member : v ∈ values) : v ≤ maximum values := by
  obtain ⟨top, found⟩ := Option.isSome_iff_exists.mp (List.isSome_max?_of_mem member)
  rw [maximum, found]
  exact (List.max?_eq_some_iff.mp found).2 v member

theorem minimum_le {values : List Int} {v : Int} (member : v ∈ values) : minimum values ≤ v := by
  obtain ⟨bottom, found⟩ := Option.isSome_iff_exists.mp (List.isSome_min?_of_mem member)
  rw [minimum, found]
  exact (List.min?_eq_some_iff.mp found).2 v member

def blockInfo (blockIdx : Nat) (chunk : List InternalRecord) : BlockInfo :=
  { blockIdx
    minKey := (chunk.head?.map (·.key)).getD []
    maxKey := (chunk.getLast?.map (·.key)).getD []
    minTs := minimum (chunk.map (·.ts))
    maxTs := maximum (chunk.map (·.ts))
    minExpire := minimum (chunk.map (·.expireAt))
    maxExpire := maximum (chunk.map (·.expireAt)) }

def SstFile.blockInfos (file : SstFile) : List BlockInfo :=
  file.blocks.mapIdx fun i chunk => blockInfo i chunk

def headerSize : Nat := 48

/-- Bytes of the file, for a compression given by the length of its output. -/
def SstFile.totalBytes (file : SstFile) (compressedLen : Bytes → Nat) : Nat :=
  (file.blocks.map fun chunk => headerSize + compressedLen (encodeRecords chunk)).sum

-- The keys of a list of records, a run of equal keys once.
def uniqueKeys (lastKey : Option Bytes) : List InternalRecord → List Bytes
  | [] => []
  | r :: rest =>
      if lastKey = some r.key then uniqueKeys lastKey rest else r.key :: uniqueKeys (some r.key) rest

/-- `SstWriter::write`. -/
def SstWriter.write (records : List InternalRecord) (blockSize bloomBitsPerKey : Nat) :
    SstFile × BloomFilter :=
  (⟨chunks blockSize records⟩, BloomFilter.fromKeysWithBits (uniqueKeys none records) bloomBitsPerKey)

/-- `SstStreamWriter`: one `write_record` for each record, then `finish`. -/
def SstStreamWriter.write (records : List InternalRecord) (blockSize estimatedKeys bloomBitsPerKey : Nat) :
    SstFile × BloomFilter :=
  (⟨chunks blockSize records⟩,
    (records.map (·.key)).foldl BloomFilter.insert
      (BloomFilter.withBitsPerKey (max estimatedKeys 1) bloomBitsPerKey))

theorem chunksFrom_flatten (n : Nat) (current records : List InternalRecord) :
    (chunksFrom n current records).flatten = current ++ records := by
  induction records generalizing current with
  | nil => by_cases empty : current = [] <;> simp [chunksFrom, empty]
  | cons r rest ih => simp only [chunksFrom]; split_ifs <;> simp [ih]

@[simp] theorem chunks_flatten (blockSize : Nat) (records : List InternalRecord) :
    (chunks blockSize records).flatten = records := by
  simp [chunks, chunksFrom_flatten]

theorem mem_uniqueKeys (lastKey : Option Bytes) (records : List InternalRecord) (r : InternalRecord)
    (member : r ∈ records) : lastKey = some r.key ∨ r.key ∈ uniqueKeys lastKey records := by
  induction records generalizing lastKey with
  | nil => cases member
  | cons first rest ih =>
    simp only [uniqueKeys]
    rcases List.mem_cons.mp member with rfl | later
    · split_ifs with seen
      · exact Or.inl seen
      · exact Or.inr List.mem_cons_self
    · split_ifs with seen
      · exact ih lastKey later
      · rcases ih (some first.key) later with same | inside
        · exact Or.inr (List.mem_cons.mpr (Or.inl (Option.some.inj same).symm))
        · exact Or.inr (List.mem_cons_of_mem _ inside)

/-- The filters of both writers answer for every key they wrote. -/
theorem write_mayContain (records : List InternalRecord) (blockSize bits : Nat) (r : InternalRecord)
    (member : r ∈ records) : (SstWriter.write records blockSize bits).2.mayContain r.key = true :=
  mayContain_fromKeys _ bits r.key ((mem_uniqueKeys none records r member).resolve_left (by simp))

theorem streamWrite_mayContain (records : List InternalRecord) (blockSize estimated bits : Nat)
    (r : InternalRecord) (member : r ∈ records) :
    (SstStreamWriter.write records blockSize estimated bits).2.mayContain r.key = true :=
  mayContain_inserts _ _ r.key (withBitsPerKey_length _ _) (Or.inl (List.mem_map.mpr ⟨r, member, rfl⟩))

theorem readBlock_eq (file : SstFile) (fits : ∀ r ∈ file.records, TableFits r) (i : Nat) :
    file.readBlock i = (file.blocks[i]?.getD []).map stored := by
  cases shape : file.blocks[i]? with
  | none => simp [SstFile.readBlock, shape]
  | some chunk =>
    have inside : ∀ r ∈ chunk, r ∈ file.records := fun r member =>
      List.mem_flatten.mpr ⟨chunk, List.mem_of_getElem? shape, member⟩
    simp only [SstFile.readBlock, shape, Option.getD_some]
    exact decode_encode_records chunk fun r member => fits r (inside r member)

end FlowDb.Sstable
