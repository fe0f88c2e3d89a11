import Mathlib.Data.List.Sort
import Mathlib.Algebra.Order.Monoid.Defs
import FlowDb.WalCodec

/-! The segmented write-ahead log of wal.rs. A segment carries the bytes given to
its writer; `synced` counts those an fsync has put on disk. The files of the
directory are exactly the segments: ids only grow, so creating a segment never
meets an existing path. -/
namespace FlowDb.WalLog
open ByteString Records WalCodec

structure WalSegment where
  id : Nat
  data : Bytes
  synced : Nat
  writtenBytes : Nat
  maxSeq : Nat
  deriving DecidableEq, Repr

structure Wal where
  segments : List WalSegment
  maxSegmentBytes : Nat
  nextSegmentId : Nat
  deriving DecidableEq, Repr

def slice (data : Bytes) (pos n : Nat) : Bytes := (data.drop pos).take n

/-- Bytes from the front of `data` to the end of its first record, read off the
length fields alone. -/
def skipRecord (data : Bytes) : Option Nat :=
  let pos := 8 + 1
  if pos + 2 > data.length then none else
  let pos := pos + (2 + ofBe (slice data pos 2))
  if pos + 16 > data.length then none else
  let pos := pos + 16
  if pos + 4 > data.length then none else
  let pos := pos + (4 + ofBe (slice data pos 4))
  if pos + 4 > data.length then none else
  let pos := pos + (4 + ofBe (slice data pos 4))
  some (pos + 4)

def findMaxSeqLoop : Nat → Bytes → Nat → Nat
  | 0, _, maxSeq => maxSeq
  | fuel + 1, data, maxSeq =>
      if 8 > data.length then maxSeq
      else match skipRecord data with
        | some len => findMaxSeqLoop fuel (data.drop len) (max maxSeq (ofBe (data.take 8)))
        | none => maxSeq

def findMaxSeqInSegment (data : Bytes) : Nat := findMaxSeqLoop data.length data 0

def Wal.createNewSegment (w : Wal) : Wal :=
  { w with
    segments := w.segments ++ [⟨w.nextSegmentId, [], 0, 0, 0⟩]
    nextSegmentId := w.nextSegmentId + 1 }

def byId (a b : Nat × Bytes) : Prop := a.1 ≤ b.1

instance : DecidableRel byId := fun a b => inferInstanceAs (Decidable (a.1 ≤ b.1))

/-- `Wal::open` on a directory holding `files`, keyed by segment id. -/
def Wal.openDir (files : List (Nat × Bytes)) (segmentSizeMb : Nat) : Wal :=
  let entries := files.insertionSort byId
  let loaded : Wal :=
    { segments := entries.map fun e => ⟨e.1, e.2, e.2.length, 0, findMaxSeqInSegment e.2⟩
      maxSegmentBytes := segmentSizeMb * 1024 * 1024
      nextSegmentId := (entries.map Prod.fst).foldl max 0 + 1 }
  if loaded.segments = [] then loaded.createNewSegment else loaded

def Wal.files (w : Wal) : List (Nat × Bytes) := w.segments.map fun s => (s.id, s.data)

def WalSegment.append (s : WalSegment) (buf : Bytes) (batchMaxSeq : Nat) : WalSegment :=
  { s with
    data := s.data ++ buf
    writtenBytes := s.writtenBytes + buf.length
    maxSeq := if batchMaxSeq > s.maxSeq then batchMaxSeq else s.maxSeq }

def modifyLast (f : WalSegment → WalSegment) : List WalSegment → List WalSegment
  | [] => []
  | [s] => [f s]
  | s :: t :: rest => s :: modifyLast f (t :: rest)

def Wal.ensureSegment (w : Wal) : Wal := if w.segments = [] then w.createNewSegment else w

-- The bytes go to the last segment; only then is a full segment rolled over.
def Wal.appendLast (w : Wal) (buf : Bytes) (batchMaxSeq : Nat) : Wal :=
  let w := w.ensureSegment
  { w with segments := modifyLast (·.append buf batchMaxSeq) w.segments }

def Wal.rollover (w : Wal) : Wal :=
  match w.segments.getLast? with
  | some s =>
      if s.writtenBytes ≥ w.maxSegmentBytes then w.createNewSegment else w
  | none => w

def Wal.writeEncoded (w : Wal) (buf : Bytes) (batchMaxSeq : Nat) : Wal :=
  (w.appendLast buf batchMaxSeq).rollover

def Wal.syncAll (w : Wal) : Wal :=
  { w with segments := w.segments.map fun s => { s with synced := s.data.length } }

def bySeq (a b : InternalRecord) : Prop := a.seq ≤ b.seq

instance : DecidableRel bySeq := fun a b => inferInstanceAs (Decidable (a.seq ≤ b.seq))

def Wal.replayFrom (w : Wal) (afterSeq : Nat) : List InternalRecord :=
  ((w.segments.flatMap fun s => replaySegment s.data).filter fun r => afterSeq < r.seq).insertionSort bySeq

def Wal.truncateBefore (w : Wal) (seq : Nat) : Wal :=
  Wal.ensureSegment { w with segments := w.segments.filter fun s => s.maxSeq == 0 || seq < s.maxSeq }

theorem modifyLast_append (f : WalSegment → WalSegment) (front : List WalSegment) (s : WalSegment) :
    modifyLast f (front ++ [s]) = front ++ [f s] := by
  induction front with
  | nil => rfl
  | cons head rest ih =>
    cases rest with
    | nil => rfl
    | cons next rest => exact congrArg (List.cons head) ih

theorem mem_replayFrom_iff (w : Wal) (after : Nat) (r : InternalRecord) :
    r ∈ w.replayFrom after ↔ after < r.seq ∧ ∃ s ∈ w.segments, r ∈ replaySegment s.data := by
  simp only [Wal.replayFrom, List.mem_insertionSort, List.mem_filter, List.mem_flatMap, decide_eq_true_eq]
  exact And.comm

/-- Every record a replay of the log reads, before its seq filter and its sort. -/
def Wal.logged (w : Wal) : List InternalRecord := w.files.flatMap fun f => replaySegment f.2

theorem logged_eq (w : Wal) : w.logged = w.segments.flatMap fun s => replaySegment s.data := by
  rw [Wal.logged, Wal.files, List.flatMap_map]

theorem openDir_logged_perm (files : List (Nat × Bytes)) (sizeMb : Nat) :
    (Wal.openDir files sizeMb).logged.Perm (files.flatMap fun f => replaySegment f.2) := by
  have contents : (Wal.openDir files sizeMb).logged =
      (files.insertionSort byId).flatMap fun f => replaySegment f.2 := by
    rw [logged_eq]
    simp only [Wal.openDir, List.map_eq_nil_iff]
    split_ifs with none
    · simp [Wal.createNewSegment, none, replaySegment, replayLoop]
    · simp [List.flatMap_map]
  rw [contents]
  exact (List.perm_insertionSort byId files).flatMap_right _

theorem open_replay_perm (files : List (Nat × Bytes)) (sizeMb after : Nat) :
    ((Wal.openDir files sizeMb).replayFrom after).Perm
      ((files.flatMap fun f => replaySegment f.2).filter fun r => after < r.seq) := by
  refine (List.perm_insertionSort bySeq _).trans (List.Perm.filter _ ?_)
  rw [← logged_eq]
  exact openDir_logged_perm files sizeMb

/-! The bytes of a segment the replay loop does not get through. -/

def replayTailLoop : Nat → Bytes → Bytes
  | 0, data => data
  | fuel + 1, data =>
      match decodeRecord data with
      | some (_, advance) => replayTailLoop fuel (data.drop advance)
      | none => data

def replayTail (data : Bytes) : Bytes := replayTailLoop data.length data

-- Replay resumes, on whatever is appended, exactly where it stopped before.
theorem replayLoop_append (fuel : Nat) (data more : Bytes) (enough : data.length ≤ fuel) :
    replaySegment (data ++ more) =
      replayLoop fuel data ++ replaySegment (replayTailLoop fuel data ++ more) := by
  induction fuel generalizing data with
  | zero => rfl
  | succ fuel ih =>
    rw [replayLoop, replayTailLoop]
    cases decoded : decodeRecord data with
    | none => rfl
    | some pair =>
      obtain ⟨rec, advance⟩ := pair
      have progress := decodeRecord_advance data rec advance decoded
      rw [replaySegment_step _ rec advance (decodeRecord_extend data more rec advance decoded),
        List.drop_append_of_le_length progress.2, ih (data.drop advance) (by rw [List.length_drop]; omega)]
      rfl

theorem replaySegment_append (data more : Bytes) :
    replaySegment (data ++ more) = replaySegment data ++ replaySegment (replayTail data ++ more) :=
  replayLoop_append data.length data more (Nat.le_refl _)

/-! A batch written by `Engine::write_internal` and cut by a crash. -/

def assignSeqs (base : Nat) : List InternalRecord → List InternalRecord
  | [] => []
  | r :: rest => { r with seq := base } :: assignSeqs (base + 1) rest

def lastData (w : Wal) : Bytes := (w.segments.getLast?.map WalSegment.data).getD []

/-- The files a crash leaves when only `n` bytes of the appended buffer got to
the last segment. -/
def crashFiles (w : Wal) (buf : Bytes) (batchMaxSeq n : Nat) : List (Nat × Bytes) :=
  (w.appendLast (buf.take n) batchMaxSeq).files

/-- Reopening after the crash replays what the log held without the batch, plus
either nothing or every record of the batch. -/
def AllOrNone (w : Wal) (sizeMb after : Nat) (batch : List InternalRecord) (batchMaxSeq n : Nat) : Prop :=
  let before := (Wal.openDir w.files sizeMb).replayFrom after
  let now := (Wal.openDir (crashFiles w (encodeBatch batch) batchMaxSeq n) sizeMb).replayFrom after
  now.Perm before ∨ now.Perm (before ++ batch.map InternalRecord.dropEmptyEnd)

theorem appendLast_replay (w : Wal) (buf : Bytes) (batchMaxSeq : Nat) :
    (w.appendLast buf batchMaxSeq).logged = w.logged ++ replaySegment (replayTail (lastData w) ++ buf) := by
  unfold Wal.logged
  rcases List.eq_nil_or_concat w.segments with empty | ⟨front, last, shape⟩
  · simp [Wal.appendLast, Wal.ensureSegment, Wal.files, Wal.createNewSegment, empty, modifyLast,
      WalSegment.append, lastData, replayTail, replayTailLoop]
  · rw [List.concat_eq_append] at shape
    have ready : w.ensureSegment = w := if_neg (by simp [shape])
    have appended : (w.appendLast buf batchMaxSeq).files =
        front.map (fun s => (s.id, s.data)) ++ [(last.id, last.data ++ buf)] := by
      simp only [Wal.appendLast, ready, Wal.files, shape, modifyLast_append, List.map_append]
      rfl
    have held : w.files = front.map (fun s => (s.id, s.data)) ++ [(last.id, last.data)] := by
      simp [Wal.files, shape]
    have tail : lastData w = last.data := by simp [lastData, shape]
    rw [appended, held, tail]
    simp only [List.flatMap_append, List.flatMap_cons, List.flatMap_nil, List.append_nil,
      replaySegment_append last.data buf, List.append_assoc]

theorem createNewSegment_logged (w : Wal) : w.createNewSegment.logged = w.logged := by
  simp [Wal.logged, Wal.files, Wal.createNewSegment, replaySegment, replayLoop]

theorem ensureSegment_logged (w : Wal) : w.ensureSegment.logged = w.logged := by
  unfold Wal.ensureSegment
  split_ifs
  · exact createNewSegment_logged w
  · rfl

theorem rollover_logged (w : Wal) : w.rollover.logged = w.logged := by
  unfold Wal.rollover
  split
  · split_ifs
    · exact createNewSegment_logged w
    · rfl
  · rfl

theorem writeEncoded_logged (w : Wal) (buf : Bytes) (batchMaxSeq : Nat) :
    (w.writeEncoded buf batchMaxSeq).logged = w.logged ++ replaySegment (replayTail (lastData w) ++ buf) := by
  rw [Wal.writeEncoded, rollover_logged, appendLast_replay]

theorem crash_replay_perm (w : Wal) (sizeMb after : Nat) (batch : List InternalRecord) (batchMaxSeq n : Nat) :
    ((Wal.openDir (crashFiles w (encodeBatch batch) batchMaxSeq n) sizeMb).replayFrom after).Perm
      ((Wal.openDir w.files sizeMb).replayFrom after ++
        (replaySegment (replayTail (lastData w) ++ (encodeBatch batch).take n)).filter
          fun r => after < r.seq) := by
  refine (open_replay_perm _ sizeMb after).trans ?_
  rw [crashFiles, ← Wal.logged, appendLast_replay, List.filter_append]
  exact (open_replay_perm w.files sizeMb after).symm.append_right _

theorem allOrNone_iff (w : Wal) (sizeMb after : Nat) (batch : List InternalRecord) (batchMaxSeq n : Nat) :
    AllOrNone w sizeMb after batch batchMaxSeq n ↔
      let gained := (replaySegment (replayTail (lastData w) ++ (encodeBatch batch).take n)).filter
        fun r => after < r.seq
      gained = [] ∨ gained.Perm (batch.map InternalRecord.dropEmptyEnd) := by
  have gain := crash_replay_perm w sizeMb after batch batchMaxSeq n
  simp only [AllOrNone]
  refine or_congr ⟨fun h => ?_, fun h => ?_⟩ ⟨fun h => ?_, fun h => ?_⟩
  · have := gain.symm.trans h
    rw [← List.perm_nil, ← List.perm_append_left_iff ((Wal.openDir w.files sizeMb).replayFrom after),
      List.append_nil]
    exact this
  · rw [h, List.append_nil] at gain
    exact gain
  · exact (List.perm_append_left_iff _).mp (gain.symm.trans h)
  · exact gain.trans (h.append_left _)

/-- The log parses to its end, the batch fits, and either nothing of it that
replay would keep is whole within the surviving bytes, or all of it is. -/
def CutClean (after n : Nat) (batch : List InternalRecord) : Prop :=
  (∀ r ∈ wholeWithin n batch, r.seq ≤ after) ∨
    (wholeWithin n batch = batch ∧ ∀ r ∈ batch, after < r.seq)

/-- The log ends in bytes no record decodes from, and still none does once the
surviving bytes of the batch stand behind them. -/
def BehindTornTail (w : Wal) (batch : List InternalRecord) (n : Nat) : Prop :=
  decodeRecord (replayTail (lastData w) ++ (encodeBatch batch).take n) = none

theorem wholeWithin_take (n : Nat) (batch : List InternalRecord) : wholeWithin n batch <+: batch := by
  induction batch generalizing n with
  | nil => simp [wholeWithin]
  | cons r rest ih =>
    rw [wholeWithin]
    split_ifs
    · exact List.prefix_cons_inj r |>.mpr (ih _)
    · exact List.nil_prefix

-- Replay keeps a record or not by its seq, which the read-back leaves alone.
theorem kept_readback (after : Nat) (l : List InternalRecord) :
    ((l.map InternalRecord.dropEmptyEnd).filter fun r => after < r.seq) =
      (l.filter fun r => after < r.seq).map InternalRecord.dropEmptyEnd := by
  rw [List.filter_map]
  rfl

theorem cutClean_iff (after n : Nat) (batch : List InternalRecord) :
    (((wholeWithin n batch).map InternalRecord.dropEmptyEnd).filter fun r => after < r.seq) = [] ∨
      (((wholeWithin n batch).map InternalRecord.dropEmptyEnd).filter fun r => after < r.seq).Perm
        (batch.map InternalRecord.dropEmptyEnd) ↔ CutClean after n batch := by
  rw [kept_readback, List.map_eq_nil_iff, List.filter_eq_nil_iff, CutClean]
  refine or_congr (by simp) ⟨fun same => ?_, ?_⟩
  · have length : ((wholeWithin n batch).filter fun r => after < r.seq).length = batch.length := by
      simpa using same.length_eq
    have bound := (wholeWithin_take n batch).length_le
    have kept := List.length_filter_le (fun r : InternalRecord => decide (after < r.seq)) (wholeWithin n batch)
    have whole : wholeWithin n batch = batch :=
      (wholeWithin_take n batch).eq_of_length (by omega)
    rw [whole] at length ⊢
    exact ⟨rfl, fun r member => by
      simpa using List.length_filter_eq_length_iff.mp length r member⟩
  · rintro ⟨whole, later⟩
    rw [whole, List.filter_eq_self.mpr (by simpa using later)]

/-- A batch is recovered whole or not at all when the cut respects it or the log
is torn in front of it; on an intact log these are the only such cuts. -/
theorem write_internal_atomic (w : Wal) (sizeMb after base batchMaxSeq n : Nat) (records : List InternalRecord) :
    let batch := assignSeqs base records
    ((replayTail (lastData w) = [] ∧ (∀ r ∈ batch, r.Fits) ∧ CutClean after n batch) ∨
        BehindTornTail w batch n → AllOrNone w sizeMb after batch batchMaxSeq n) ∧
      (replayTail (lastData w) = [] → (∀ r ∈ batch, r.Fits) →
        AllOrNone w sizeMb after batch batchMaxSeq n → CutClean after n batch) := by
  intro batch
  have intact (clean : replayTail (lastData w) = []) (fits : ∀ r ∈ batch, r.Fits) :
      AllOrNone w sizeMb after batch batchMaxSeq n ↔ CutClean after n batch := by
    rw [allOrNone_iff, clean, List.nil_append, replay_torn_batch batch n fits]
    exact cutClean_iff after n batch
  constructor
  · rintro (⟨clean, fits, cut⟩ | torn)
    · exact (intact clean fits).mpr cut
    · rw [allOrNone_iff]
      exact Or.inl (by rw [replaySegment_stop _ torn]; rfl)
  · intro clean fits
    exact (intact clean fits).mp

/-- Two puts of one `write_internal` call, cut right after the first: reopening
the fresh log yields one of them. -/
def documentAndIndex : List InternalRecord :=
  [.fromRecord (.new [1, 117, 0, 97] 0 [123, 125]) 0, .fromRecord (.new [2, 117, 0, 105, 0, 1, 0, 97] 0 [97]) 0]

theorem write_internal_half_recovered :
    ¬ AllOrNone (Wal.openDir [] 64) 64 0 (assignSeqs 1000000 documentAndIndex) 1000001 45 := by
  rw [allOrNone_iff]
  have first : ((replaySegment (replayTail (lastData (Wal.openDir [] 64)) ++
      (encodeBatch (assignSeqs 1000000 documentAndIndex)).take 45)).filter fun r => 0 < r.seq) =
      (assignSeqs 1000000 documentAndIndex).take 1 := by decide +kernel
  rw [first]
  rintro (nothing | same)
  · exact absurd nothing (by decide)
  · exact absurd same.length_eq (by decide)

end FlowDb.WalLog
