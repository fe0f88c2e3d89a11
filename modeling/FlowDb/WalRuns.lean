import FlowDb.EngineOps

/-! Runs of the log: batches with increasing numbers, truncations and reopenings
of the same directory. The largest seq of a segment is kept while writing and
read off the file again, by a second parser, when the directory is reopened. -/
namespace FlowDb.WalRuns
open ByteString Records WalCodec WalLog EngineOps

/-! The two parsers of a segment agree on the records replay reads. -/

theorem slice_append (front chunk rest : Bytes) (pos n : Nat) (before : front.length = pos)
    (width : chunk.length = n) : slice (front ++ (chunk ++ rest)) pos n = chunk := by
  subst before width
  rw [slice, List.drop_left, List.take_left]

theorem skipRecord_of_decode (data : Bytes) (r : InternalRecord) (advance : Nat)
    (decoded : decodeRecord data = some (r, advance)) :
    skipRecord data = some advance ∧ ofBe (data.take 8) = r.seq ∧ 8 ≤ data.length := by
  obtain ⟨rest, body, checked, rfl⟩ := (decodeRecord_eq_some data r advance).mp decoded
  obtain ⟨fits, -, op, -, shape⟩ := decodeBody_inv body
  have layout : data = toBe 8 r.seq ++ ([op] ++ (toBe 2 r.key.length ++ (r.key ++ (i64ToBe r.ts ++ (i64ToBe r.expireAt ++
      (toBe 4 (rangeEndBytes r).length ++ (rangeEndBytes r ++ (toBe 4 r.value.length ++ (r.value ++ rest))))))))) := by
    rw [shape, bodyBytes_eq]
    simp only [List.append_assoc]
  have total : data.length =
      8 + 1 + 2 + r.key.length + 16 + 4 + (rangeEndBytes r).length + 4 + r.value.length + rest.length := by
    rw [layout]
    simp only [List.length_append, length_toBe, length_i64ToBe, List.length_singleton]
    omega
  have keyLen : ofBe (slice data (8 + 1) 2) = r.key.length := by
    rw [layout, ← List.append_assoc (toBe 8 r.seq), slice_append _ _ _ _ 2 (by simp) (length_toBe _ _)]
    exact ofBe_toBe 2 _ fits.key
  have endLen : ofBe (slice data (8 + 1 + (2 + r.key.length) + 16) 4) = (rangeEndBytes r).length := by
    have grouped : data = (toBe 8 r.seq ++ ([op] ++ (toBe 2 r.key.length ++ (r.key ++ (i64ToBe r.ts ++ i64ToBe r.expireAt))))) ++
        (toBe 4 (rangeEndBytes r).length ++ (rangeEndBytes r ++ (toBe 4 r.value.length ++ (r.value ++ rest)))) := by
      simp only [layout, List.append_assoc]
    rw [grouped, slice_append _ _ _ _ 4 ?_ (length_toBe _ _)]
    · exact ofBe_toBe 4 _ (rangeEndBytes_lt (by decide) fits.rangeEnd)
    · simp only [List.length_append, length_toBe, length_i64ToBe, List.length_singleton]
      omega
  have valLen : ofBe (slice data (8 + 1 + (2 + r.key.length) + 16 + (4 + (rangeEndBytes r).length)) 4) = r.value.length := by
    have grouped : data = (toBe 8 r.seq ++ ([op] ++ (toBe 2 r.key.length ++ (r.key ++ (i64ToBe r.ts ++ (i64ToBe r.expireAt ++
        (toBe 4 (rangeEndBytes r).length ++ rangeEndBytes r))))))) ++ (toBe 4 r.value.length ++ (r.value ++ rest)) := by
      simp only [layout, List.append_assoc]
    rw [grouped, slice_append _ _ _ _ 4 ?_ (length_toBe _ _)]
    · exact ofBe_toBe 4 _ fits.value
    · simp only [List.length_append, length_toBe, length_i64ToBe, List.length_singleton]
      omega
  refine ⟨?_, ?_, by omega⟩
  · simp only [skipRecord, keyLen, endLen, valLen]
    rw [if_neg (by omega), if_neg (by omega), if_neg (by omega), if_neg (by omega)]
    exact congrArg some (by omega)
  · rw [layout, List.take_left' (length_toBe _ _), ofBe_toBe 8 _ fits.seq]

theorem findMaxSeqLoop_ge (fuel : Nat) (data : Bytes) (maxSeq : Nat) : maxSeq ≤ findMaxSeqLoop fuel data maxSeq := by
  induction fuel generalizing data maxSeq with
  | zero => exact le_refl _
  | succ fuel ih =>
    rw [findMaxSeqLoop]
    split_ifs
    · exact le_refl _
    · cases skipRecord data with
      | none => exact le_refl _
      | some len => exact (le_max_left _ _).trans (ih _ _)

/-- Reopening never underestimates what a segment holds. -/
theorem replayLoop_le_findMaxSeq (fuel : Nat) (data : Bytes) (maxSeq : Nat) :
    ∀ r ∈ replayLoop fuel data, r.seq ≤ findMaxSeqLoop fuel data maxSeq := by
  induction fuel generalizing data maxSeq with
  | zero => exact fun r member => nomatch member
  | succ fuel ih =>
    intro r member
    rw [replayLoop] at member
    cases decoded : decodeRecord data with
    | none => simp [decoded] at member
    | some pair =>
      obtain ⟨first, advance⟩ := pair
      obtain ⟨skipped, number, long⟩ := skipRecord_of_decode data first advance decoded
      rw [findMaxSeqLoop, if_neg (by omega), skipped, number]
      rw [decoded] at member
      rcases List.mem_cons.mp member with rfl | later
      · exact (le_max_right _ _).trans (findMaxSeqLoop_ge _ _ _)
      · exact ih _ _ r later

theorem replay_le_findMaxSeq (data : Bytes) : ∀ r ∈ replaySegment data, r.seq ≤ findMaxSeqInSegment data :=
  replayLoop_le_findMaxSeq data.length data 0

/-! Segments that replay to their last byte. -/

theorem replayTailLoop_fuel (fuel more : Nat) (data : Bytes) (enough : data.length ≤ fuel) :
    replayTailLoop (fuel + more) data = replayTailLoop fuel data := by
  induction fuel generalizing data with
  | zero =>
    have empty : data = [] := List.length_eq_zero_iff.mp (by omega)
    subst empty
    cases more <;> rfl
  | succ fuel ih =>
    rw [Nat.succ_add_eq_add_succ, Nat.add_succ, replayTailLoop, replayTailLoop]
    cases decoded : decodeRecord data with
    | none => rfl
    | some pair =>
      obtain ⟨rec, advance⟩ := pair
      have progress := decodeRecord_advance data rec advance decoded
      exact ih _ (by rw [List.length_drop]; omega)

theorem replayTail_step (data : Bytes) (r : InternalRecord) (advance : Nat)
    (decoded : decodeRecord data = some (r, advance)) : replayTail data = replayTail (data.drop advance) := by
  have progress := decodeRecord_advance data r advance decoded
  have split : data.length = (data.drop advance).length + (advance - 1) + 1 := by
    rw [List.length_drop]; omega
  rw [replayTail, split, replayTailLoop, decoded]
  exact replayTailLoop_fuel _ _ _ (Nat.le_refl _)

theorem replayTailLoop_append (fuel : Nat) (data more : Bytes) (enough : data.length ≤ fuel) :
    replayTail (data ++ more) = replayTail (replayTailLoop fuel data ++ more) := by
  induction fuel generalizing data with
  | zero => rfl
  | succ fuel ih =>
    rw [replayTailLoop]
    cases decoded : decodeRecord data with
    | none => rfl
    | some pair =>
      obtain ⟨rec, advance⟩ := pair
      have progress := decodeRecord_advance data rec advance decoded
      rw [replayTail_step _ rec advance (decodeRecord_extend data more rec advance decoded),
        List.drop_append_of_le_length progress.2]
      exact ih (data.drop advance) (by rw [List.length_drop]; omega)

theorem replayTail_append (data more : Bytes) : replayTail (data ++ more) = replayTail (replayTail data ++ more) :=
  replayTailLoop_append data.length data more (Nat.le_refl _)

theorem replayTail_encodeBatch (records : List InternalRecord) (fits : ∀ r ∈ records, r.Fits) :
    replayTail (encodeBatch records) = [] := by
  induction records with
  | nil => rfl
  | cons r rest ih =>
    have decoded := decode_encode_record r (encodeBatch rest) (fits r List.mem_cons_self)
    rw [← length_encodeRecord] at decoded
    rw [show encodeBatch (r :: rest) = encodeRecord r ++ encodeBatch rest from rfl, replayTail_step _ _ _ decoded,
      List.drop_left]
    exact ih fun x member => fits x (List.mem_cons_of_mem r member)

/-- A segment that replays to its last byte and knows the largest number in it. -/
structure SegmentOk (s : WalSegment) : Prop where
  clean : replayTail s.data = []
  bound : ∀ r ∈ replaySegment s.data, r.seq ≤ s.maxSeq

theorem segmentOk_empty (id : Nat) : SegmentOk ⟨id, [], 0, 0, 0⟩ :=
  ⟨rfl, fun _ member => nomatch member⟩

theorem segmentOk_append {s : WalSegment} (ok : SegmentOk s) (batch : List InternalRecord) (batchMaxSeq : Nat)
    (fits : ∀ r ∈ batch, r.Fits) (bound : ∀ r ∈ batch, r.seq ≤ batchMaxSeq) :
    SegmentOk (s.append (encodeBatch batch) batchMaxSeq) := by
  have larger : s.maxSeq ≤ (s.append (encodeBatch batch) batchMaxSeq).maxSeq ∧
      batchMaxSeq ≤ (s.append (encodeBatch batch) batchMaxSeq).maxSeq := by
    simp only [WalSegment.append]
    split_ifs <;> omega
  constructor
  · show replayTail (s.data ++ encodeBatch batch) = []
    rw [replayTail_append, ok.clean, List.nil_append]
    exact replayTail_encodeBatch batch fits
  · intro r member
    have whole : replaySegment (s.data ++ encodeBatch batch) =
        replaySegment s.data ++ batch.map InternalRecord.dropEmptyEnd := by
      rw [replaySegment_append, ok.clean, List.nil_append, replay_batch batch fits]
    change r ∈ replaySegment (s.data ++ encodeBatch batch) at member
    rw [whole] at member
    rcases List.mem_append.mp member with old | new
    · exact (ok.bound r old).trans larger.1
    · obtain ⟨x, there, rfl⟩ := List.mem_map.mp new
      exact (bound x there).trans larger.2

/-- A log between two operations: segments in the order of their ids, all whole. -/
structure Sound (w : Wal) : Prop where
  ids : (w.segments.map WalSegment.id).Pairwise (· < ·)
  below : ∀ s ∈ w.segments, s.id < w.nextSegmentId
  whole : ∀ s ∈ w.segments, SegmentOk s

theorem sound_createNewSegment {w : Wal} (sound : Sound w) : Sound w.createNewSegment := by
  refine ⟨?_, fun s member => ?_, fun s member => ?_⟩
  · simp only [Wal.createNewSegment, List.map_append, List.map_cons, List.map_nil]
    refine List.pairwise_append.mpr ⟨sound.ids, List.pairwise_singleton _ _, fun a old b new => ?_⟩
    obtain ⟨s, there, rfl⟩ := List.mem_map.mp old
    rw [List.mem_singleton.mp new]
    exact sound.below s there
  · rcases List.mem_append.mp member with old | new
    · exact (sound.below s old).trans (Nat.lt_succ_self _)
    · rw [List.mem_singleton.mp new]
      exact Nat.lt_succ_self _
  · rcases List.mem_append.mp member with old | new
    · exact sound.whole s old
    · rw [List.mem_singleton.mp new]
      exact segmentOk_empty _

theorem sound_ensureSegment {w : Wal} (sound : Sound w) : Sound w.ensureSegment := by
  unfold Wal.ensureSegment
  split_ifs
  · exact sound_createNewSegment sound
  · exact sound

theorem sound_rollover {w : Wal} (sound : Sound w) : Sound w.rollover := by
  unfold Wal.rollover
  split
  · split_ifs
    · exact sound_createNewSegment sound
    · exact sound
  · exact sound

/-- Changing the last segment in place, under the same id, keeps the log sound. -/
theorem sound_modifyLast {w : Wal} (sound : Sound w) (f : WalSegment → WalSegment) (sameId : ∀ s, (f s).id = s.id)
    (keeps : ∀ s, SegmentOk s → SegmentOk (f s)) : Sound { w with segments := modifyLast f w.segments } := by
  rcases List.eq_nil_or_concat w.segments with empty | ⟨front, last, shape⟩
  · have same : modifyLast f w.segments = w.segments := by rw [empty]; rfl
    rw [same]
    exact sound
  · rw [List.concat_eq_append] at shape
    obtain ⟨ids, below, whole⟩ := sound
    rw [shape] at ids below whole
    rw [shape, modifyLast_append]
    refine ⟨by simpa [sameId] using ids, fun s member => ?_, fun s member => ?_⟩
    · rcases List.mem_append.mp member with old | new
      · exact below s (List.mem_append_left _ old)
      · rw [List.mem_singleton.mp new, sameId]
        exact below last (by simp)
    · rcases List.mem_append.mp member with old | new
      · exact whole s (List.mem_append_left _ old)
      · rw [List.mem_singleton.mp new]
        exact keeps last (whole last (by simp))

theorem sound_writeEncoded {w : Wal} (sound : Sound w) (batch : List InternalRecord) (batchMaxSeq : Nat)
    (fits : ∀ r ∈ batch, r.Fits) (bound : ∀ r ∈ batch, r.seq ≤ batchMaxSeq) :
    Sound (w.writeEncoded (encodeBatch batch) batchMaxSeq) := by
  apply sound_rollover
  apply sound_modifyLast (sound_ensureSegment sound)
  · intro s
    rfl
  · intro s ok
    exact segmentOk_append ok batch batchMaxSeq fits bound

theorem sound_truncateBefore {w : Wal} (sound : Sound w) (seq : Nat) : Sound (w.truncateBefore seq) := by
  apply sound_ensureSegment
  have fewer := List.filter_sublist (p := fun s : WalSegment => s.maxSeq == 0 || decide (seq < s.maxSeq)) (l := w.segments)
  exact ⟨sound.ids.sublist (fewer.map _), fun s member => sound.below s (fewer.subset member),
    fun s member => sound.whole s (fewer.subset member)⟩

/-- Reopening sorts the segment files by id, which leaves them in place, and reads
the largest number of each off its bytes. -/
theorem sound_openDir {w : Wal} (sound : Sound w) (sizeMb : Nat) :
    Sound (Wal.openDir w.files sizeMb) ∧ (Wal.openDir w.files sizeMb).logged = w.logged := by
  have inOrder : w.files.Pairwise byId := by
    rw [Wal.files, List.pairwise_map]
    exact (List.pairwise_map.mp sound.ids).imp Nat.le_of_lt
  let loaded : Wal :=
    { segments := w.segments.map fun s => ⟨s.id, s.data, s.data.length, 0, findMaxSeqInSegment s.data⟩
      maxSegmentBytes := sizeMb * 1024 * 1024
      nextSegmentId := (w.segments.map WalSegment.id).foldl max 0 + 1 }
  have entries : w.files.insertionSort byId = w.files := inOrder.insertionSort_eq
  have opened : Wal.openDir w.files sizeMb = loaded.ensureSegment := by
    rw [Wal.openDir, entries, Wal.files, List.map_map, List.map_map]
    rfl
  have held : loaded.logged = w.logged := by
    simp only [logged_eq, loaded, List.flatMap_map]
  have soundLoaded : Sound loaded := by
    refine ⟨?_, fun s member => ?_, fun s member => ?_⟩
    · simpa [loaded, Function.comp_def] using sound.ids
    · obtain ⟨x, there, rfl⟩ := List.mem_map.mp member
      exact Nat.lt_succ_of_le (ManifestLog.ManifestState.le_foldl_max _ 0 _ (Or.inl (List.mem_map.mpr ⟨x, there, rfl⟩)))
    · obtain ⟨x, there, rfl⟩ := List.mem_map.mp member
      exact ⟨(sound.whole x there).clean, replay_le_findMaxSeq x.data⟩
  rw [opened]
  exact ⟨sound_ensureSegment soundLoaded, (ensureSegment_logged loaded).trans held⟩

theorem lastData_clean {w : Wal} (sound : Sound w) : replayTail (lastData w) = [] := by
  rcases List.eq_nil_or_concat w.segments with empty | ⟨front, last, shape⟩
  · rw [lastData, empty]
    rfl
  · have member : last ∈ w.segments := by simp [shape]
    have tail : lastData w = last.data := by simp [lastData, shape]
    rw [tail]
    exact (sound.whole last member).clean

/-- A batch written to a whole log is what its replay reads last. -/
theorem writeEncoded_batch {w : Wal} (sound : Sound w) (batch : List InternalRecord) (batchMaxSeq : Nat)
    (fits : ∀ r ∈ batch, r.Fits) :
    (w.writeEncoded (encodeBatch batch) batchMaxSeq).logged = w.logged ++ batch.map InternalRecord.dropEmptyEnd := by
  rw [writeEncoded_logged, lastData_clean sound, List.nil_append, replay_batch batch fits]

inductive LogOp where
  | write (batch : List InternalRecord)
  | truncate (seq : Nat)
  | reopen (segmentSizeMb : Nat)
  deriving DecidableEq, Repr

def LogOp.exec (w : Wal) : LogOp → Wal
  | .write batch => w.writeEncoded (encodeBatch batch) (batchMaxSeq batch)
  | .truncate seq => w.truncateBefore seq
  | .reopen segmentSizeMb => Wal.openDir w.files segmentSizeMb

def runLog (w : Wal) (ops : List LogOp) : Wal := ops.foldl LogOp.exec w

def LogOp.records : LogOp → List InternalRecord
  | .write batch => batch
  | .truncate _ => []
  | .reopen _ => []

def written (ops : List LogOp) : List InternalRecord := ops.flatMap LogOp.records

/-- What a replay after `after` keeps of the records it reads. -/
def later (after : Nat) (records : List InternalRecord) : List InternalRecord :=
  records.filter fun r => after < r.seq

theorem le_batchMaxSeq (batch : List InternalRecord) (increasing : batch.Pairwise fun a b => a.seq < b.seq) :
    ∀ r ∈ batch, r.seq ≤ batchMaxSeq batch := by
  intro r member
  rcases List.eq_nil_or_concat batch with empty | ⟨front, last, shape⟩
  · rw [empty] at member
    cases member
  · rw [List.concat_eq_append] at shape
    subst shape
    have top : batchMaxSeq (front ++ [last]) = last.seq := by simp [batchMaxSeq]
    rw [top]
    rcases List.mem_append.mp member with before | same
    · exact Nat.le_of_lt ((List.pairwise_append.mp increasing).2.2 r before last (by simp))
    · rw [List.mem_singleton.mp same]

/-- Dropping segments that only hold numbers up to `after` drops nothing a replay
from there keeps. -/
theorem later_filter_segments (keeps : WalSegment → Bool) (after : Nat) (segments : List WalSegment)
    (whole : ∀ s ∈ segments, SegmentOk s) (dropped : ∀ s ∈ segments, keeps s = false → s.maxSeq ≤ after) :
    later after ((segments.filter keeps).flatMap fun s => replaySegment s.data) =
      later after (segments.flatMap fun s => replaySegment s.data) := by
  induction segments with
  | nil => rfl
  | cons s rest ih =>
    have tail := ih (fun x member => whole x (List.mem_cons_of_mem s member))
      fun x member => dropped x (List.mem_cons_of_mem s member)
    have split : later after ((s :: rest).flatMap fun s => replaySegment s.data) =
        later after (replaySegment s.data) ++ later after (rest.flatMap fun s => replaySegment s.data) :=
      List.filter_append ..
    rw [split, ← tail]
    cases stays : keeps s with
    | true =>
      rw [List.filter_cons_of_pos stays]
      exact List.filter_append ..
    | false =>
      have nothing : later after (replaySegment s.data) = [] := by
        refine List.filter_eq_nil_iff.mpr fun r member => ?_
        have bound := (whole s List.mem_cons_self).bound r member
        have low := dropped s List.mem_cons_self stays
        simp only [decide_eq_true_eq]
        omega
      rw [List.filter_cons_of_neg (by simp [stays]), nothing, List.nil_append]

theorem truncateBefore_logged {w : Wal} (sound : Sound w) (seq after : Nat) (below : seq ≤ after) :
    later after (w.truncateBefore seq).logged = later after w.logged := by
  rw [Wal.truncateBefore, ensureSegment_logged, logged_eq, logged_eq]
  apply later_filter_segments
  · exact sound.whole
  · intro s _ gone
    simp only [Bool.or_eq_false_iff, beq_eq_false_iff_ne, decide_eq_false_iff_not] at gone
    omega

/-- One operation keeps the log sound and adds its records to what is replayed. -/
theorem exec_step {w : Wal} (sound : Sound w) (op : LogOp) (after : Nat)
    (fits : ∀ r ∈ op.records, r.Fits) (increasing : op.records.Pairwise fun a b => a.seq < b.seq)
    (above : ∀ t, op = .truncate t → t ≤ after) :
    Sound (op.exec w) ∧ later after (op.exec w).logged =
      later after (w.logged ++ op.records.map InternalRecord.dropEmptyEnd) := by
  cases op with
  | write batch =>
    refine ⟨sound_writeEncoded sound batch _ fits (le_batchMaxSeq batch increasing), ?_⟩
    rw [LogOp.exec, writeEncoded_batch sound batch _ fits]
    rfl
  | truncate t =>
    refine ⟨sound_truncateBefore sound t, ?_⟩
    simpa [LogOp.exec, LogOp.records] using truncateBefore_logged sound t after (above t rfl)
  | reopen sizeMb =>
    obtain ⟨opened, same⟩ := sound_openDir sound sizeMb
    exact ⟨opened, by simp [LogOp.exec, LogOp.records, same]⟩

theorem runLog_logged {w : Wal} (sound : Sound w) (ops : List LogOp) (after : Nat)
    (fits : ∀ r ∈ written ops, r.Fits) (increasing : (written ops).Pairwise fun a b => a.seq < b.seq)
    (above : ∀ t, LogOp.truncate t ∈ ops → t ≤ after) :
    later after (runLog w ops).logged =
      later after (w.logged ++ (written ops).map InternalRecord.dropEmptyEnd) := by
  induction ops generalizing w with
  | nil => simp [runLog, written]
  | cons op rest ih =>
    have split : written (op :: rest) = op.records ++ written rest := List.flatMap_cons
    rw [split] at fits increasing
    obtain ⟨first, others, _⟩ := List.pairwise_append.mp increasing
    obtain ⟨sound', step⟩ := exec_step sound op after (fun r member => fits r (List.mem_append_left _ member)) first
      fun t same => above t (by simp [same])
    have tail := ih sound' (fun r member => fits r (List.mem_append_right _ member)) others
      fun t member => above t (List.mem_cons_of_mem op member)
    rw [show runLog w (op :: rest) = runLog (op.exec w) rest from rfl, tail, split, List.map_append, ← List.append_assoc]
    simp only [later, List.filter_append] at step ⊢
    rw [step]

theorem sound_new (sizeMb : Nat) : Sound (Wal.openDir [] sizeMb) := by
  refine ⟨?_, ?_, ?_⟩ <;> simp [Wal.openDir, Wal.createNewSegment, segmentOk_empty]

/-- Over any run of batches with increasing numbers, truncations and reopenings, a
replay from a point no truncation went beyond returns exactly the records written
after it, in order. -/
theorem replay_after_run (segmentSizeMb : Nat) (ops : List LogOp) (after : Nat)
    (fits : ∀ r ∈ written ops, r.Fits) (increasing : (written ops).Pairwise fun a b => a.seq < b.seq)
    (above : ∀ t, LogOp.truncate t ∈ ops → t ≤ after) :
    (runLog (Wal.openDir [] segmentSizeMb) ops).replayFrom after =
        ((written ops).filter fun r => after < r.seq).map InternalRecord.dropEmptyEnd ∧
      ((runLog (Wal.openDir [] segmentSizeMb) ops).replayFrom after).Pairwise fun a b => a.seq < b.seq := by
  have fresh : (Wal.openDir [] segmentSizeMb).logged = [] := by
    simp [Wal.openDir, Wal.createNewSegment, Wal.logged, Wal.files, replaySegment, replayLoop]
  have held := runLog_logged (sound_new segmentSizeMb) ops after fits increasing above
  rw [fresh, List.nil_append, later, later, kept_readback] at held
  have strict : (((written ops).filter fun r => after < r.seq).map InternalRecord.dropEmptyEnd).Pairwise
      fun a b => a.seq < b.seq := by
    rw [List.pairwise_map]
    exact increasing.filter _
  have replayed : (runLog (Wal.openDir [] segmentSizeMb) ops).replayFrom after =
      ((written ops).filter fun r => after < r.seq).map InternalRecord.dropEmptyEnd := by
    rw [Wal.replayFrom, ← logged_eq, held]
    exact List.Pairwise.insertionSort_eq (strict.imp Nat.le_of_lt)
  exact ⟨replayed, replayed ▸ strict⟩

/-- One record a segment, the first dropped before the directory is reopened. -/
theorem replay_after_run_rolled :
    let ops := [LogOp.write [InternalRecord.delete [97] 0 1], .write [InternalRecord.delete [98] 0 2], .truncate 1,
      .reopen 64, .write [InternalRecord.delete [99] 0 3]]
    (runLog (Wal.openDir [] 0) ops).replayFrom 1 =
        ((written ops).filter fun r => 1 < r.seq).map InternalRecord.dropEmptyEnd ∧
      ((runLog (Wal.openDir [] 0) ops).replayFrom 1).Pairwise fun a b => a.seq < b.seq := by
  intro ops
  apply replay_after_run 0 ops 1
  · intro r member
    simp only [ops, written, List.flatMap_cons, LogOp.records, List.flatMap_nil, List.append_nil, List.nil_append,
      List.cons_append, List.mem_cons, List.not_mem_nil, or_false] at member
    rcases member with rfl | rfl | rfl
    all_goals exact ⟨by decide, by decide, by decide, by decide, by decide, by decide⟩
  · decide
  · intro t member
    simp only [ops, List.mem_cons, reduceCtorEq, LogOp.truncate.injEq, List.not_mem_nil, or_false, false_or] at member
    exact member.le

end FlowDb.WalRuns
