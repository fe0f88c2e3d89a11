import FlowDb.CrashedWriters

/-! Segments with bytes of any kind. What the replay of a reopened segment reads is below the
number kept for the segment, so no truncation drops the file while the record is still needed. -/
namespace FlowDb.WalAgreement
open ByteString Records WalCodec WalLog WalRuns CrashedWriters

/-- Both parsers take the same bytes for a record, and the scan misses no number of the replay. -/
structure ParsersAgree (data : Bytes) : Prop where
  lengths : ∀ start r advance, decodeRecord (data.drop start) = some (r, advance) → skipRecord (data.drop start) = some advance
  maximum : ∀ r ∈ replaySegment data, r.seq ≤ findMaxSeqInSegment data

/-- The file is a segment still, under a number that covers the record. -/
def Kept (file : Nat × Bytes) (r : InternalRecord) (w : Wal) : Prop :=
  ∃ s ∈ w.segments, s.id = file.1 ∧ file.2 <+: s.data ∧ r.seq ≤ s.maxSeq

variable {file : Nat × Bytes} {r : InternalRecord} {w : Wal}

theorem kept_openDir {files : List (Nat × Bytes)} (member : file ∈ files) (replayed : r ∈ replaySegment file.2) (sizeMb : Nat) :
    Kept file r (Wal.openDir files sizeMb) := by
  have sorted : file ∈ files.insertionSort byId := (List.mem_insertionSort byId).mpr member
  refine ⟨⟨file.1, file.2, file.2.length, 0, findMaxSeqInSegment file.2⟩, ?_, rfl, List.prefix_rfl,
    replay_le_findMaxSeq file.2 r replayed⟩
  exact mem_ensureSegment (List.mem_map.mpr ⟨file, sorted, rfl⟩)

theorem kept_truncateBefore (kept : Kept file r w) {seq : Nat} (needed : seq < r.seq) : Kept file r (w.truncateBefore seq) := by
  obtain ⟨s, member, same, longer, bound⟩ := kept
  refine ⟨s, mem_ensureSegment (List.mem_filter.mpr ⟨member, ?_⟩), same, longer, bound⟩
  simp only [Bool.or_eq_true, decide_eq_true_eq]
  omega

theorem kept_writeEncoded (kept : Kept file r w) (buf : Bytes) (batchMaxSeq : Nat) :
    Kept file r (w.writeEncoded buf batchMaxSeq) := by
  obtain ⟨s, member, same, longer, bound⟩ := kept
  rcases mem_modifyLast (·.append buf batchMaxSeq) (mem_ensureSegment member) with untouched | appended
  · exact ⟨s, mem_rollover untouched, same, longer, bound⟩
  · refine ⟨s.append buf batchMaxSeq, mem_rollover appended, same, longer.trans (List.prefix_append _ _), bound.trans ?_⟩
    rw [WalSegment.append]
    dsimp only
    split_ifs with larger
    · exact larger.le
    · exact le_refl _

-- The number is read off the bytes again, which may have become more.
theorem kept_reopen (kept : Kept file r w) (replayed : r ∈ replaySegment file.2) (sizeMb : Nat) :
    Kept file r (Wal.openDir w.files sizeMb) := by
  obtain ⟨s, member, same, longer, _⟩ := kept
  have listed : (s.id, s.data) ∈ w.files := List.mem_map.mpr ⟨s, member, rfl⟩
  have again : r ∈ replaySegment s.data := replay_prefix longer replayed
  obtain ⟨s', member', same', longer', bound⟩ := kept_openDir listed again sizeMb
  exact ⟨s', member', same'.trans same, longer.trans longer', bound⟩

theorem kept_exec (kept : Kept file r w) (replayed : r ∈ replaySegment file.2) (op : LogOp)
    (needed : ∀ seq, op = .truncate seq → seq < r.seq) : Kept file r (op.exec w) := by
  cases op with
  | write batch => exact kept_writeEncoded kept _ _
  | truncate seq => exact kept_truncateBefore kept (needed seq rfl)
  | reopen sizeMb => exact kept_reopen kept replayed sizeMb

theorem kept_run (kept : Kept file r w) (replayed : r ∈ replaySegment file.2) (ops : List LogOp)
    (needed : ∀ seq, LogOp.truncate seq ∈ ops → seq < r.seq) : Kept file r (runLog w ops) := by
  induction ops generalizing w with
  | nil => exact kept
  | cons op rest ih =>
    have step := kept_exec kept replayed op fun seq same => needed seq (by simp [same])
    exact ih step fun seq member => needed seq (List.mem_cons_of_mem op member)

/-- A file that a log keeps is replayed as before. -/
theorem replayed_of_kept (kept : Kept file r w) (replayed : r ∈ replaySegment file.2) {after : Nat} (later : after < r.seq) :
    r ∈ w.replayFrom after := by
  obtain ⟨s, member, _, longer, _⟩ := kept
  exact (mem_replayFrom_iff w after r).mpr ⟨later, s, member, replay_prefix longer replayed⟩

/-- The parsers agree on any bytes, and in any run of writes, truncations and reopenings behind
the opening of a directory a file stays, and is replayed, for each record in it that no
truncation has passed. -/
theorem wal_parsers_agree : (∀ data, ParsersAgree data) ∧
    ∀ (files : List (Nat × Bytes)) (sizeMb : Nat) (ops : List LogOp), ∀ file ∈ files, ∀ r ∈ replaySegment file.2,
      (∀ seq, LogOp.truncate seq ∈ ops → seq < r.seq) →
        (∃ s ∈ (runLog (Wal.openDir files sizeMb) ops).segments, s.id = file.1 ∧ file.2 <+: s.data) ∧
          ∀ after < r.seq, r ∈ (runLog (Wal.openDir files sizeMb) ops).replayFrom after := by
  constructor
  · exact fun data => ⟨fun start r advance decoded => (skipRecord_of_decode _ r advance decoded).1, replay_le_findMaxSeq data⟩
  · intro files sizeMb ops file member r replayed needed
    have kept := kept_run (kept_openDir member replayed sizeMb) replayed ops needed
    refine ⟨?_, fun after later => replayed_of_kept kept replayed later⟩
    obtain ⟨s, there, same, longer, _⟩ := kept
    exact ⟨s, there, same, longer⟩

end FlowDb.WalAgreement
