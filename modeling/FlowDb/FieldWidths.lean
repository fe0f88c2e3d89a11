import FlowDb.Sstable

/-! What the two record encodings can carry. Lengths are cast to the width of their
prefix and never checked on the way in, and a range end has four bytes of length in the
log but two in a table. -/
namespace FlowDb.FieldWidths
open ByteString Records WalCodec Sstable

/-- The fields that are machine integers. -/
structure Typed (r : InternalRecord) : Prop where
  seq : r.seq < 2 ^ 64
  ts : InI64 r.ts
  expireAt : InI64 r.expireAt

/-- Lengths below the widths of their prefixes, that of a range end having `endWidth` bytes. -/
structure Within (endWidth : Nat) (r : InternalRecord) : Prop where
  key : r.key.length < 2 ^ 16
  rangeEnd : ∀ re, r.rangeEnd = some re → re ≠ [] ∧ re.length < 256 ^ endWidth
  value : r.value.length < 2 ^ 32

def logEndWidth : Nat := 4
def tableEndWidth : Nat := 2

/-- A log segment and a block that begin with `r` give it back with all that was encoded after it. -/
def Survives (r : InternalRecord) (inLog inBlock : List InternalRecord) : Prop :=
  replaySegment (encodeBatch (r :: inLog)) = r :: inLog ∧
    decodeRecords (inBlock.length + 1) (encodeRecords (r :: inBlock)) =
      (r :: inBlock).map fun x => { x with seq := 0 }

/-! ### What a decoder can return -/

theorem takeBytes_length {n : Nat} {data a rest : Bytes} (taken : takeBytes n data = some (a, rest)) : a.length = n :=
  ((takeBytes_eq_some n data a rest).mp taken).2

theorem counted_lt {width : Nat} {data count rest field more : Bytes}
    (counted : takeBytes width data = some (count, rest)) {source : Bytes}
    (taken : takeBytes (ofBe count) source = some (field, more)) : field.length < 256 ^ width := by
  rw [takeBytes_length taken, ← takeBytes_length counted]
  exact ofBe_lt count

theorem optional_end {endWidth : Nat} {stop : Bytes} (short : stop.length < 256 ^ endWidth) (re : Bytes)
    (held : (if stop = [] then none else some stop) = some re) : re ≠ [] ∧ re.length < 256 ^ endWidth := by
  split_ifs at held with empty
  obtain rfl := Option.some.inj held
  exact ⟨empty, short⟩

theorem decodeBody_within {data rest : Bytes} {r : InternalRecord} (decoded : decodeBody data = some (r, rest)) :
    Within logEndWidth r := by
  obtain ⟨fits, stop, _⟩ := decodeBody_inv decoded
  exact ⟨fits.key, fun re held => ⟨fun empty => stop (empty ▸ held), fits.rangeEnd re held⟩, fits.value⟩

theorem decodeEntry_within {data rest : Bytes} {r : InternalRecord} (decoded : decodeEntry data = some (r, rest)) :
    Within tableEndWidth r := by
  simp only [decodeEntry, Option.bind_eq_bind, Option.bind_eq_some_iff, Prod.exists, Option.some.injEq,
    Prod.mk.injEq] at decoded
  obtain ⟨keyLen, r1, hk, key, r2, hkey, fixed, r3, -, endLen, r4, hendLen, stop, r5, hstop, valLen, r6, hvalLen,
    value, r7, hvalue, rfl, rfl⟩ := decoded
  exact ⟨counted_lt hk hkey, optional_end (counted_lt hendLen hstop), counted_lt hvalLen hvalue⟩

theorem replayLoop_within (fuel : Nat) (data : Bytes) (r : InternalRecord) (member : r ∈ replayLoop fuel data) :
    Within logEndWidth r := by
  induction fuel generalizing data with
  | zero => cases member
  | succ fuel ih =>
    rw [replayLoop] at member
    split at member
    · rename_i rec advance decoded
      obtain ⟨rest, body, -⟩ := (decodeRecord_eq_some data rec advance).mp decoded
      rcases List.mem_cons.mp member with rfl | later
      · exact decodeBody_within body
      · exact ih _ later
    · cases member

theorem decodeRecords_within (count : Nat) (data : Bytes) (r : InternalRecord) (member : r ∈ decodeRecords count data) :
    Within tableEndWidth r := by
  induction count generalizing data with
  | zero => cases member
  | succ count ih =>
    rw [decodeRecords] at member
    split at member
    · rename_i rec rest decoded
      rcases List.mem_cons.mp member with rfl | later
      · exact decodeEntry_within decoded
      · exact ih _ later
    · cases member

/-! ### What survives -/

theorem dropEmptyEnd_within {endWidth : Nat} {r : InternalRecord} (within : Within endWidth r) : r.dropEmptyEnd = r := by
  have kept : r.rangeEnd ≠ some [] := fun empty => (within.rangeEnd [] empty).1 rfl
  simp [InternalRecord.dropEmptyEnd, kept]

theorem fits_of_within {r : InternalRecord} (typed : Typed r) (within : Within logEndWidth r) : r.Fits :=
  ⟨typed.seq, within.key, typed.ts, typed.expireAt, fun re held => (within.rangeEnd re held).2, within.value⟩

theorem tableFits_of_within {r : InternalRecord} (typed : Typed r) (within : Within tableEndWidth r) : TableFits r :=
  ⟨within.key, typed.ts, typed.expireAt, fun re held => (within.rangeEnd re held).2, within.value⟩

theorem log_survives_iff (records : List InternalRecord) (typed : ∀ x ∈ records, Typed x) :
    replaySegment (encodeBatch records) = records ↔ ∀ x ∈ records, Within logEndWidth x := by
  constructor
  · intro same x member
    rw [← same] at member
    exact replayLoop_within _ _ x member
  · intro within
    rw [replay_batch records fun x member => fits_of_within (typed x member) (within x member)]
    exact (List.map_congr_left fun x member => dropEmptyEnd_within (within x member)).trans (List.map_id' records)

theorem block_survives_iff (records : List InternalRecord) (typed : ∀ x ∈ records, Typed x) :
    decodeRecords records.length (encodeRecords records) = records.map (fun x => { x with seq := 0 }) ↔
      ∀ x ∈ records, Within tableEndWidth x := by
  constructor
  · intro same x member
    have found : { x with seq := 0 } ∈ decodeRecords records.length (encodeRecords records) :=
      same ▸ List.mem_map.mpr ⟨x, member, rfl⟩
    have within := decodeRecords_within _ _ _ found
    exact ⟨within.key, within.rangeEnd, within.value⟩
  · intro within
    rw [decode_encode_records records fun x member => tableFits_of_within (typed x member) (within x member)]
    refine List.map_congr_left fun x member => ?_
    rw [stored, dropEmptyEnd_within (within x member)]

/-- Lengths below the prefixes are what a record and those behind it need to be read back. -/
theorem survives_iff (r : InternalRecord) (inLog inBlock : List InternalRecord)
    (typed : ∀ x ∈ r :: (inLog ++ inBlock), Typed x) :
    Survives r inLog inBlock ↔
      (∀ x ∈ r :: inLog, Within logEndWidth x) ∧ ∀ x ∈ r :: inBlock, Within tableEndWidth x := by
  have logged : ∀ x ∈ r :: inLog, Typed x := fun x member => typed x (by
    rcases List.mem_cons.mp member with rfl | later
    · exact List.mem_cons_self
    · exact List.mem_cons_of_mem r (List.mem_append_left inBlock later))
  have blocked : ∀ x ∈ r :: inBlock, Typed x := fun x member => typed x (by
    rcases List.mem_cons.mp member with rfl | later
    · exact List.mem_cons_self
    · exact List.mem_cons_of_mem r (List.mem_append_right inLog later))
  exact and_congr (log_survives_iff _ logged) (block_survives_iff _ blocked)

theorem survives_iff_neighbours :
    Survives (InternalRecord.deleteRange [97] [98] 1) [⟨2, .put, [99], 5, 6, [7], none⟩] [⟨3, .put, [99], 8, 9, [], none⟩] := by
  refine (survives_iff _ _ _ ?_).mpr ⟨?_, ?_⟩
  · intro x member
    simp only [List.cons_append, List.nil_append, List.mem_cons, List.not_mem_nil, or_false] at member
    rcases member with rfl | rfl | rfl <;> exact ⟨by decide, by decide, by decide⟩
  all_goals
    intro x member
    simp only [List.mem_cons, List.not_mem_nil, or_false] at member
    rcases member with rfl | rfl
    · exact ⟨by decide, by simp [InternalRecord.deleteRange, logEndWidth, tableEndWidth], by decide⟩
    · exact ⟨by decide, by simp, by decide⟩

/-- Behind a range end of 2^16 bytes nothing is decoded: the end is read as absent, and its bytes as the
length of a value that the block does not have. -/
theorem long_end_stops (more later : Bytes) (size : more.length = 65532) (room : later.length < 2 ^ 30) :
    decodeEntry (encodeEntry (InternalRecord.deleteRange [97] ([98, 98, 98, 98] ++ more) 1) ++ later) = none := by
  have wrapped : toBe 2 ([98, 98, 98, 98] ++ more : Bytes).length = [0, 0] := by
    rw [List.length_append, size]
    decide
  have shape : encodeEntry (InternalRecord.deleteRange [97] ([98, 98, 98, 98] ++ more) 1) ++ later =
      [0, 1] ++ ([97] ++ ((i64ToBe 0 ++ (i64ToBe i64Max ++ [2])) ++ ([0, 0] ++ ([] ++ ([98, 98, 98, 98] ++
        (more ++ ([0, 0, 0, 0] ++ later))))))) := by
    simp only [encodeEntry, InternalRecord.deleteRange, rangeEndBytes, Option.getD_some, wrapped, List.append_assoc]
    rfl
  have value : takeBytes (ofBe [98, 98, 98, 98]) (more ++ ([0, 0, 0, 0] ++ later)) = none := by
    have short : (more ++ ([0, 0, 0, 0] ++ later)).length < ofBe [98, 98, 98, 98] := by
      rw [List.length_append, List.length_append, size, show ofBe [98, 98, 98, 98] = 1650614882 from rfl]
      simp only [List.length_cons, List.length_nil]
      omega
    rw [takeBytes, if_pos short]
  have none_left : ofBe [0, 0] = 0 := rfl
  have one_byte : ofBe [0, 1] = 1 := rfl
  simp only [decodeEntry, shape, Option.bind_eq_bind, takeBytes_append [0, 1] _ 2 rfl, Option.bind_some, one_byte,
    takeBytes_append [97] _ 1 rfl, takeBytes_append (i64ToBe 0 ++ (i64ToBe i64Max ++ [2])) _ 17 rfl,
    takeBytes_append [0, 0] _ 2 rfl, none_left, takeBytes_append [] _ 0 rfl,
    takeBytes_append [98, 98, 98, 98] _ 4 rfl, value, Option.bind_none]

def longRange : InternalRecord := InternalRecord.deleteRange [97] ([98, 98, 98, 98] ++ List.replicate 65532 98) 1

def neighbour : InternalRecord := ⟨2, .put, [99], 5, 6, [7], none⟩

/-- The log returns both records; the block loses both. -/
theorem long_range_lost :
    replaySegment (encodeBatch [longRange, neighbour]) = [longRange, neighbour] ∧
      decodeRecords 2 (encodeRecords [longRange, neighbour]) = [] ∧ ¬ Survives longRange [neighbour] [neighbour] := by
  have lost : decodeRecords 2 (encodeRecords [longRange, neighbour]) = [] := by
    have stops := long_end_stops (List.replicate 65532 98) (encodeRecords [neighbour]) List.length_replicate (by decide)
    rw [encodeRecords, List.flatMap_cons, decodeRecords, longRange]
    rw [encodeRecords] at stops
    rw [stops]
  refine ⟨?_, lost, fun survives => ?_⟩
  · refine (log_survives_iff _ fun x member => ?_).mpr fun x member => ?_
    all_goals
      simp only [List.mem_cons, List.not_mem_nil, or_false] at member
    · rcases member with rfl | rfl <;> exact ⟨by decide, by decide, by decide⟩
    · rcases member with rfl | rfl
      · refine ⟨by decide, ?_, by decide⟩
        rintro re held
        obtain rfl := Option.some.inj held
        refine ⟨List.cons_ne_nil _ _, ?_⟩
        rw [List.length_append, List.length_replicate]
        decide
      · refine ⟨by decide, ?_, by decide⟩
        rintro re held
        cases held
  · have block := survives.2
    rw [List.length_singleton, lost] at block
    cases block

end FlowDb.FieldWidths
