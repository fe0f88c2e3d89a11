import Mathlib.Data.List.Perm.Subperm
import FlowDb.EngineOps

/-! What a log that ends inside a record still gives back, and what becomes of a
batch written behind such an end. -/
namespace FlowDb.TornLog
open ByteString Records WalCodec WalLog

theorem encodeBatch_takes (records : List InternalRecord) (k : Nat) :
    encodeBatch (records.take k) <+: encodeBatch records := by
  have split : encodeBatch records = encodeBatch (records.take k) ++ encodeBatch (records.drop k) := by
    rw [encodeBatch, encodeBatch, encodeBatch, ← List.flatMap_append, List.take_append_drop]
  exact ⟨_, split.symm⟩

/-- The whole records of a cut batch are its first ones, up to the first that
runs past the cut. -/
theorem wholeWithin_eq_take (n : Nat) (records : List InternalRecord) :
    ∃ k ≤ records.length, wholeWithin n records = records.take k ∧
      ∀ j ≤ records.length, (encodeBatch (records.take j)).length ≤ n ↔ j ≤ k := by
  induction records generalizing n with
  | nil => exact ⟨0, le_refl _, rfl, by simp [encodeBatch]⟩
  | cons r rest ih =>
    have width (j : Nat) : (encodeBatch ((r :: rest).take (j + 1))).length =
        encodedSize r + (encodeBatch (rest.take j)).length := by
      rw [List.take_succ_cons, encodeBatch, List.flatMap_cons, List.length_append, length_encodeRecord]
      rfl
    by_cases whole : encodedSize r ≤ n
    · obtain ⟨k, inside, taken, exactly⟩ := ih (n - encodedSize r)
      refine ⟨k + 1, by simpa using inside, ?_, fun j bound => ?_⟩
      · rw [wholeWithin, if_pos whole, taken, List.take_succ_cons]
      · cases j with
        | zero => simp [encodeBatch]
        | succ j =>
          have later := exactly j (by simpa using bound)
          rw [width]
          omega
    · refine ⟨0, Nat.zero_le _, by rw [wholeWithin, if_neg whole, List.take_zero], fun j _ => ?_⟩
      cases j with
      | zero => simp [encodeBatch]
      | succ j =>
        rw [width]
        omega

/-- Cutting an encoded batch anywhere loses exactly the records that run past the
cut; the uncut batch is read back whole. -/
theorem torn_batch_replays_whole_records (records : List InternalRecord) (p : Bytes)
    (fits : ∀ r ∈ records, r.Fits) (cut : p <+: encodeBatch records) :
    (∃ k ≤ records.length, (∀ j ≤ records.length, encodeBatch (records.take j) <+: p ↔ j ≤ k) ∧
      replaySegment p = (records.take k).map InternalRecord.dropEmptyEnd) ∧
    replaySegment (encodeBatch records) = records.map InternalRecord.dropEmptyEnd := by
  constructor
  · obtain ⟨k, inside, whole, exactly⟩ := wholeWithin_eq_take p.length records
    have replayed := replay_torn_batch records p.length fits
    rw [← List.prefix_iff_eq_take.mp cut, whole] at replayed
    refine ⟨k, inside, fun j bound => ?_, replayed⟩
    rw [← exactly j bound]
    constructor
    · exact List.IsPrefix.length_le
    · intro short
      exact List.prefix_of_prefix_length_le (encodeBatch_takes records j) cut short
  · exact replay_batch records fits

/-- A put and a delete cut one byte before the end of the second. -/
theorem torn_batch_replays_whole_records_short :
    let records := [InternalRecord.fromRecord (.new [97] 0 [1]) 1, InternalRecord.delete [97] 0 2]
    ∃ k ≤ 2, (∀ j ≤ 2, encodeBatch (records.take j) <+: (encodeBatch records).take 80 ↔ j ≤ k) ∧
      replaySegment ((encodeBatch records).take 80) = (records.take k).map InternalRecord.dropEmptyEnd := by
  intro records
  have fits : ∀ r ∈ records, r.Fits := by
    intro r member
    simp only [records, List.mem_cons, List.not_mem_nil, or_false] at member
    rcases member with rfl | rfl
    all_goals exact ⟨by decide, by decide, by decide, by decide, by decide, by decide⟩
  exact (torn_batch_replays_whole_records records _ fits ⟨_, List.take_append_drop 80 _⟩).1

/-! Reading back what stands behind the first bytes no record decodes from. -/

/-- The records decoded one after the other from the front of `data`. -/
inductive Spells : Bytes → List InternalRecord → Prop where
  | stop (data : Bytes) : Spells data []
  | read (data : Bytes) (r : InternalRecord) (advance : Nat) (rest : List InternalRecord)
      (decoded : decodeRecord data = some (r, advance)) (later : Spells (data.drop advance) rest) :
      Spells data (r :: rest)

theorem spells_iff (data : Bytes) (records : List InternalRecord) :
    Spells data records ↔ records <+: replaySegment data := by
  constructor
  · intro spelled
    induction spelled with
    | stop data => exact List.nil_prefix
    | read data r advance rest decoded later ih =>
      rw [replaySegment_step data r advance decoded]
      exact (List.prefix_cons_inj r).mpr ih
  · intro front
    induction records generalizing data with
    | nil => exact .stop data
    | cons r rest ih =>
      cases decoded : decodeRecord data with
      | none =>
        rw [replaySegment_stop data decoded] at front
        simp at front
      | some pair =>
        obtain ⟨first, advance⟩ := pair
        rw [replaySegment_step data first advance decoded, List.cons_prefix_cons] at front
        obtain ⟨rfl, front⟩ := front
        exact .read data r advance rest decoded (ih _ front)

/-- The records `replay_from(0)` does not skip. -/
def kept (records : List InternalRecord) : List InternalRecord := records.filter fun r => 0 < r.seq

/-- A log directory whose last segment holds whole records and then the first
bytes of one more. -/
structure TornDir where
  front : List (Nat × Bytes)
  lastId : Nat
  intact : List InternalRecord
  torn : InternalRecord
  cut : Nat
  isLast : ∀ f ∈ front, f.1 < lastId
  fits : ∀ r ∈ intact, r.Fits
  tornFits : torn.Fits
  cutInside : 0 < cut ∧ cut < encodedSize torn

namespace TornDir

def tornBytes (d : TornDir) : Bytes := (encodeRecord d.torn).take d.cut

def files (d : TornDir) : List (Nat × Bytes) := d.front ++ [(d.lastId, encodeBatch d.intact ++ d.tornBytes)]

/-- Everything a first recovery of the directory finds. -/
def found (d : TornDir) : List InternalRecord :=
  d.front.flatMap (fun f => replaySegment f.2) ++ d.intact.map InternalRecord.dropEmptyEnd

end TornDir

/-- Batches given to `write_encoded`, each with its largest seq. -/
def writeAll (w : Wal) (batches : List (List InternalRecord × Nat)) : Wal :=
  batches.foldl (fun w b => w.writeEncoded (encodeBatch b.1) b.2) w

theorem writeAll_logged (w : Wal) (batches : List (List InternalRecord × Nat)) :
    w.logged <+: (writeAll w batches).logged := by
  induction batches generalizing w with
  | nil => exact List.prefix_refl _
  | cons b rest ih =>
    refine List.IsPrefix.trans ?_ (ih _)
    rw [writeEncoded_logged]
    exact List.prefix_append _ _

theorem found_eq (d : TornDir) : d.files.flatMap (fun f => replaySegment f.2) = d.found := by
  have torn : replaySegment d.tornBytes = [] :=
    replaySegment_stop _ (decode_torn_record d.torn d.tornFits d.cut d.cutInside.2)
  have last : replaySegment (encodeBatch d.intact ++ d.tornBytes) = d.intact.map InternalRecord.dropEmptyEnd := by
    rw [replay_encoded_batch d.intact _ d.fits, torn, List.append_nil]
  simp [TornDir.files, TornDir.found, last]

/-- Whatever was written in between, the records of the first recovery are found again. -/
theorem found_again (d : TornDir) (firstMb nextMb : Nat) (earlier : List (List InternalRecord × Nat)) :
    (kept d.found).Subperm
      ((Wal.openDir (writeAll (Wal.openDir d.files firstMb) earlier).files nextMb).replayFrom 0) := by
  have opened := openDir_logged_perm d.files firstMb
  rw [found_eq] at opened
  have grown : d.found.Subperm (writeAll (Wal.openDir d.files firstMb) earlier).logged :=
    opened.symm.subperm.trans (writeAll_logged _ earlier).sublist.subperm
  exact (grown.filter _).trans (open_replay_perm _ nextMb 0).symm.subperm

theorem replay_after_write (w : Wal) (buf : Bytes) (batchMaxSeq nextMb : Nat) :
    ((Wal.openDir (w.writeEncoded buf batchMaxSeq).files nextMb).replayFrom 0).Perm
      ((Wal.openDir w.files nextMb).replayFrom 0 ++ kept (replaySegment (replayTail (lastData w) ++ buf))) := by
  have after := open_replay_perm (w.writeEncoded buf batchMaxSeq).files nextMb 0
  rw [← Wal.logged, writeEncoded_logged, List.filter_append] at after
  exact after.trans ((open_replay_perm w.files nextMb 0).symm.append_right _)

theorem subperm_kept (records more : List InternalRecord) : (kept records).Subperm (kept more) ↔ (kept records).Subperm more := by
  constructor
  · intro inside
    exact inside.trans List.filter_sublist.subperm
  · intro inside
    have again := inside.filter fun r => 0 < r.seq
    simpa [kept, List.filter_filter] using again

/-- The records of the batch are read back from where the segment it went to
stops being readable. -/
theorem gained_iff (tail : Bytes) (batch : List InternalRecord) (fits : ∀ r ∈ batch, r.Fits) :
    (kept (batch.map InternalRecord.dropEmptyEnd)).Subperm (kept (replaySegment (tail ++ encodeBatch batch))) ↔
      tail = [] ∨ kept batch = [] ∨
        ∃ records, Spells (tail ++ encodeBatch batch) records ∧
          (kept (batch.map InternalRecord.dropEmptyEnd)).Subperm records := by
  rw [subperm_kept]
  constructor
  · intro inside
    exact Or.inr (Or.inr ⟨_, (spells_iff _ _).mpr (List.prefix_refl _), inside⟩)
  · rintro (rfl | nothing | ⟨records, spelled, inside⟩)
    · rw [List.nil_append, replay_batch batch fits]
      exact List.filter_sublist.subperm
    · rw [show kept (batch.map _) = [] by rw [kept, kept_readback, ← kept, nothing]; rfl]
      exact List.nil_subperm
    · exact inside.trans ((spells_iff _ _).mp spelled).sublist.subperm

/-- A batch written after a torn log was opened survives the next recovery just
when the log is no longer torn where the batch lands, or the torn bytes happen
to run on into the batch so that its records can be decoded from there. -/
theorem batch_after_torn_log_iff (d : TornDir) (firstMb nextMb : Nat) (earlier : List (List InternalRecord × Nat))
    (batch : List InternalRecord) (batchMaxSeq : Nat) (fits : ∀ r ∈ batch, r.Fits) :
    let w := writeAll (Wal.openDir d.files firstMb) earlier
    let before := (Wal.openDir w.files nextMb).replayFrom 0
    let now := (Wal.openDir (w.writeEncoded (encodeBatch batch) batchMaxSeq).files nextMb).replayFrom 0
    ((before ++ kept (batch.map InternalRecord.dropEmptyEnd)).Subperm now ∧ (kept d.found).Subperm now) ↔
      replayTail (lastData w) = [] ∨ kept batch = [] ∨
        ∃ records, Spells (replayTail (lastData w) ++ encodeBatch batch) records ∧
          (kept (batch.map InternalRecord.dropEmptyEnd)).Subperm records := by
  intro w before now
  have replayed : now.Perm (before ++ kept (replaySegment (replayTail (lastData w) ++ encodeBatch batch))) :=
    replay_after_write w _ batchMaxSeq nextMb
  have intact : (kept d.found).Subperm now :=
    (found_again d firstMb nextMb earlier).trans ((List.sublist_append_left _ _).subperm.trans replayed.symm.subperm)
  rw [← gained_iff _ batch fits, and_iff_left intact, replayed.subperm_left, List.subperm_append_left]

def firstPut : InternalRecord := .fromRecord (.new [97] 0 [1]) 1

theorem fits_firstPut : firstPut.Fits := ⟨by decide, by decide, by decide, by decide, by decide, by decide⟩

/-- A directory whose only segment holds ten bytes of a put. -/
def tenBytes : TornDir :=
  ⟨[], 1, [], firstPut, 10, by simp, by simp, fits_firstPut, by decide⟩

/-- With segments of no size each write starts a new one, and the second is safe. -/
theorem batch_after_torn_log_rolled :
    let w := writeAll (Wal.openDir tenBytes.files 0) [([firstPut], 1)]
    let before := (Wal.openDir w.files 0).replayFrom 0
    let now := (Wal.openDir (w.writeEncoded (encodeBatch [firstPut]) 1).files 0).replayFrom 0
    (before ++ kept ([firstPut].map InternalRecord.dropEmptyEnd)).Subperm now ∧ (kept tenBytes.found).Subperm now := by
  refine (batch_after_torn_log_iff tenBytes 0 0 [([firstPut], 1)] [firstPut] 1 ?_).mpr (Or.inl (by decide +kernel))
  intro r member
  rw [List.mem_singleton.mp member]
  exact fits_firstPut

/-- The batch written right after the recovery is not there after the next. -/
theorem batch_after_torn_log_lost :
    let w := Wal.openDir tenBytes.files 64
    let before := (Wal.openDir w.files 64).replayFrom 0
    let now := (Wal.openDir (w.writeEncoded (encodeBatch [firstPut]) 1).files 64).replayFrom 0
    ¬ ((before ++ kept ([firstPut].map InternalRecord.dropEmptyEnd)).Subperm now ∧
      (kept tenBytes.found).Subperm now) := by
  intro w before now
  rintro ⟨inside, -⟩
  have nothing : now = [] := by decide +kernel
  rw [nothing] at inside
  have short := inside.length_le
  simp [kept, firstPut, InternalRecord.dropEmptyEnd, InternalRecord.fromRecord] at short

end FlowDb.TornLog
