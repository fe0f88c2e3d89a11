import FlowDb.TableStore
import FlowDb.MergeTies

/-! Does a compaction keep the last write? A table read back has no sequence
numbers and records of one slot tie in the heap, so which of them is written
depends on where they stand in the files and on how the heap breaks ties. The
numbers the records were flushed under are followed along by position. -/
namespace FlowDb.Compaction
open ByteString Records Sstable ManifestLog TableStore Merge MergeTies

/-- The records of a file in the order a compaction reads them, each under the
number it was written with. -/
def numbered (nowUs : Int) (file : SstFile) : List InternalRecord :=
  file.blocks.flatMap fun chunk => (chunk.filter fun r => decide (nowUs < r.expireAt)).insertionSort bySlotDesc

theorem iterated_eq (nowUs : Int) (file : SstFile) (fits : ∀ r ∈ file.records, TableFits r) :
    iterated nowUs file = (numbered nowUs file).map stored := by
  have block : ∀ chunk : List InternalRecord, blockRecords nowUs (chunk.map stored) =
      ((chunk.filter fun r => decide (nowUs < r.expireAt)).insertionSort bySlotDesc).map stored := by
    intro chunk
    have sorted := List.map_insertionSort (r := bySlotDesc) (s := bySlotDesc) stored
      (chunk.filter fun r => decide (nowUs < r.expireAt)) fun _ _ _ _ => Iff.rfl
    rw [blockRecords, sorted, List.filter_map, List.map_map]
    rfl
  have blocks : ∀ chunks : List (List InternalRecord), (List.range chunks.length).flatMap
      (fun i => blockRecords nowUs ((chunks[i]?.getD []).map stored)) =
      chunks.flatMap fun chunk => ((chunk.filter fun r => decide (nowUs < r.expireAt)).insertionSort bySlotDesc).map stored := by
    intro chunks
    induction chunks with
    | nil => rfl
    | cons chunk rest ih =>
      rw [List.length_cons, List.range_succ_eq_map, List.flatMap_cons, List.flatMap_map, List.flatMap_cons]
      simp only [List.getElem?_cons_zero, List.getElem?_cons_succ, Option.getD_some, block]
      rw [← ih]
      simp only [block]
  simp only [iterated, readBlock_eq file fits, blocks, numbered, List.map_flatMap]

/-- The order in which each candidate is read. -/
def readOrder (t : Tables) (nowUs : Int) (i : Fin t.candidates.length) : List InternalRecord :=
  numbered nowUs (t.file (t.candidates.get i))

/-- An order in which the heap can pop the candidates' records. The heap sees what
the files give back; `popped` has the records as they were written. -/
structure Merges (t : Tables) (nowUs : Int) (popped : List (Fin t.candidates.length × InternalRecord)) : Prop where
  heap : Run heapRank (fun i => iterated nowUs (t.file (t.candidates.get i))) (popped.map fun p => (p.1, stored p.2))
  places : ∀ i, (popped.filter fun p => p.1 = i).map Prod.snd = readOrder t nowUs i

def slotRank (r : InternalRecord) : (Bytes ×ₗ Int)ᵒᵈ ×ₗ Nat := heapRank (stored r)

theorem slotRank_eq_iff (a b : InternalRecord) : slotRank a = slotRank b ↔ a.slot = b.slot := by
  simp [slotRank, heapRank]

theorem mem_numbered (nowUs : Int) (file : SstFile) (r : InternalRecord) :
    r ∈ numbered nowUs file ↔ r ∈ file.records ∧ nowUs < r.expireAt := by
  simp only [numbered, SstFile.records, List.mem_flatMap, List.mem_insertionSort, List.mem_filter,
    List.mem_flatten, decide_eq_true_eq]
  constructor
  · rintro ⟨chunk, there, member, live⟩
    exact ⟨⟨chunk, there, member⟩, live⟩
  · rintro ⟨⟨chunk, there, member⟩, live⟩
    exact ⟨chunk, there, member, live⟩

/-- The live tables hold unexpired puts and deletes, each under a number of its own. -/
structure Plain (t : Tables) (nowUs : Int) : Prop where
  ok : Ok t
  numbers : (t.records.map (·.seq)).Nodup
  ops : ∀ r ∈ t.records, r.op = .put ∨ r.op = .delete
  unexpired : ∀ r ∈ t.records, nowUs < r.expireAt
  fits : ∀ r ∈ t.records, TableFits r

theorem plain_new (timeBucketSecs : Nat) (nowUs : Int) : Plain (Tables.new timeBucketSecs) nowUs := by
  refine ⟨ok_new timeBucketSecs, ?_, ?_, ?_, ?_⟩ <;> simp [Tables.new, Tables.records, Tables.activeIds, ManifestState.empty]

/-- Flushing puts and deletes that do not expire, under fresh numbers, keeps the tables plain. -/
theorem plain_addFlushed (config : Config) (compressedLen : Bytes → Nat) {t : Tables} {nowUs : Int}
    (plain : Plain t nowUs) (new : List InternalRecord) (fresh : ((t.records ++ new).map (·.seq)).Nodup)
    (each : ∀ r ∈ new, (r.op = .put ∨ r.op = .delete) ∧ nowUs < r.expireAt ∧ TableFits r) :
    Plain (addFlushed config compressedLen t new) nowUs := by
  have records := records_addFlushed config compressedLen t (nextSstId_absent t plain.ok) new
  refine ⟨ok_addFlushed config compressedLen t plain.ok new, records ▸ fresh, ?_, ?_, ?_⟩ <;>
    intro r member <;> rw [records] at member <;> rcases List.mem_append.mp member with old | late
  · exact plain.ops r old
  · exact (each r late).1
  · exact plain.unexpired r old
  · exact (each r late).2.1
  · exact plain.fits r old
  · exact (each r late).2.2

section
variable {t : Tables} {nowUs : Int} {popped : List (Fin t.candidates.length × InternalRecord)}

theorem candidate_active (i : Fin t.candidates.length) : t.candidates.get i ∈ t.activeIds :=
  (candidates_subperm t).subset (List.get_mem _ _)

theorem mem_records {id : Nat} (active : id ∈ t.activeIds) {r : InternalRecord} (member : r ∈ (t.file id).records) :
    r ∈ t.records := List.mem_flatMap.mpr ⟨id, active, member⟩

theorem merges_iff (fits : ∀ r ∈ t.records, TableFits r) :
    Merges t nowUs popped ↔ Run slotRank (readOrder t nowUs) popped := by
  have images : (fun i => iterated nowUs (t.file (t.candidates.get i))) =
      fun i => (readOrder t nowUs i).map stored := funext fun i =>
    iterated_eq nowUs _ fun r member => fits r (mem_records (candidate_active i) member)
  constructor
  · rintro ⟨heap, places⟩
    rw [images] at heap
    exact (steps_map_iff stored heapRank (fun _ => []) fun i => by rw [places, List.append_nil]).mp heap
  · intro run
    have places : ∀ i, readOrder t nowUs i = ((popped.filter fun p => p.1 = i).map Prod.snd) ++ [] :=
      steps_source run
    refine ⟨?_, fun i => by rw [places i, List.append_nil]⟩
    rw [images]
    exact (steps_map_iff stored heapRank (fun _ => []) places).mpr run

theorem numbers_inj (plain : Plain t nowUs) {a b : InternalRecord} (inA : a ∈ t.records) (inB : b ∈ t.records)
    (same : a.seq = b.seq) : a = b := List.inj_on_of_nodup_map plain.numbers inA inB same

theorem readOrder_nodup (plain : Plain t nowUs) (i : Fin t.candidates.length) : (readOrder t nowUs i).Nodup := by
  have whole := List.nodup_flatMap.mp (List.Nodup.of_map _ plain.numbers)
  have file := whole.1 _ (candidate_active i)
  have perm : ∀ blocks : List (List InternalRecord), (blocks.flatMap fun chunk =>
      (chunk.filter fun r => decide (nowUs < r.expireAt)).insertionSort bySlotDesc).Perm
      (blocks.flatten.filter fun r => decide (nowUs < r.expireAt)) := by
    intro blocks
    induction blocks with
    | nil => exact .refl _
    | cons chunk rest ih =>
      rw [List.flatMap_cons, List.flatten_cons, List.filter_append]
      exact (List.perm_insertionSort _ _).append ih
  exact (perm _).nodup_iff.mpr (file.filter _)

theorem source_unique (plain : Plain t nowUs) {i j : Fin t.candidates.length} {r : InternalRecord}
    (inI : r ∈ readOrder t nowUs i) (inJ : r ∈ readOrder t nowUs j) : i = j := by
  by_contra other
  have whole := (List.nodup_flatMap.mp (List.Nodup.of_map _ plain.numbers)).2
  have ids : t.candidates.get i ≠ t.candidates.get j := fun same =>
    other ((candidates_nodup t plain.ok).injective_get same)
  have symmetric : Std.Symm (Function.onFun List.Disjoint fun id => (t.file id).records) :=
    ⟨fun a b apart => apart.symm⟩
  have disjoint := whole.forall (candidate_active i) (candidate_active j) ids
  exact disjoint ((mem_numbered _ _ r).mp inI).1 ((mem_numbered _ _ r).mp inJ).1

/-! ### What one record's place decides -/

/-- Some order of the pops drops the candidate record `r`. -/
def CanDrop (t : Tables) (nowUs : Int) (r : InternalRecord) : Prop :=
  ∃ i front back, readOrder t nowUs i = front ++ r :: back ∧ Droppable slotRank (readOrder t nowUs) i front r

/-- Some order of the pops keeps the candidate record `r`. -/
def CanSurvive (t : Tables) (nowUs : Int) (r : InternalRecord) : Prop :=
  ∃ i front back, readOrder t nowUs i = front ++ r :: back ∧ Survivable slotRank (readOrder t nowUs) i front r

theorem lastKey_ne_iff (front : List (Fin t.candidates.length × InternalRecord)) (r : InternalRecord) :
    lastKey InternalRecord.slot none (front.map Prod.snd) ≠ some r.slot ↔
      previous slotRank front ≠ some (slotRank r) := by
  rw [lastKey, previous, List.getLast?_map]
  cases front.getLast? with
  | none => simp
  | some q => simp [slotRank_eq_iff]

theorem mem_written_iff (r : InternalRecord) (put : r.op = .put) : r ∈ written (popped.map Prod.snd) ↔
    ∃ i front back, popped = front ++ (i, r) :: back ∧ previous slotRank front ≠ some (slotRank r) := by
  rw [written, List.mem_filter, mem_firsts_iff]
  constructor
  · rintro ⟨⟨front, back, shape, differs⟩, -⟩
    obtain ⟨first, second, rfl, rfl, rest⟩ := List.map_eq_append_iff.mp shape
    obtain ⟨⟨i, x⟩, later, rfl, rfl, rfl⟩ := List.map_eq_cons_iff.mp rest
    exact ⟨i, first, later, rfl, (lastKey_ne_iff first x).mp differs⟩
  · rintro ⟨i, front, back, rfl, differs⟩
    exact ⟨⟨front.map Prod.snd, back.map Prod.snd, by simp, (lastKey_ne_iff front r).mpr differs⟩, by simp [put]⟩

/-- The pops in front of a record, as a way to reach its place in its source. -/
theorem next_of_popped (run : Run slotRank (readOrder t nowUs) popped) {i : Fin t.candidates.length}
    {r : InternalRecord} {before later : List (Fin t.candidates.length × InternalRecord)}
    (shape : popped = before ++ (i, r) :: later) :
    ∃ front back, readOrder t nowUs i = front ++ r :: back ∧ Next slotRank (readOrder t nowUs) i r back before := by
  subst shape
  obtain ⟨middle, first, rest⟩ := steps_append.mp run
  cases rest with
  | pop _ _ _ tail _ _ front least _ =>
    exact ⟨_, tail, by rw [steps_source first i, front], middle, first, front, least⟩

theorem run_of_next {i : Fin t.candidates.length} {r : InternalRecord} {back : List InternalRecord}
    {before : List (Fin t.candidates.length × InternalRecord)}
    (next : Next slotRank (readOrder t nowUs) i r back before) :
    ∃ later, Run slotRank (readOrder t nowUs) (before ++ (i, r) :: later) := by
  obtain ⟨after, steps, there, least⟩ := next
  obtain ⟨later, rest⟩ := exists_run slotRank (Function.update after i back)
  exact ⟨later, steps_append.mpr ⟨after, steps, .pop _ i r back _ _ there least rest⟩⟩

theorem canSurvive_iff (r : InternalRecord) (put : r.op = .put) : CanSurvive t nowUs r ↔
    ∃ popped, Run slotRank (readOrder t nowUs) popped ∧ r ∈ written (popped.map Prod.snd) := by
  constructor
  · rintro ⟨i, front, back, shape, survivable⟩
    obtain ⟨before, next, differs⟩ := next_of_survivable shape survivable
    obtain ⟨later, run⟩ := run_of_next next
    exact ⟨_, run, (mem_written_iff r put).mpr ⟨i, before, later, rfl, differs⟩⟩
  · rintro ⟨popped, run, kept⟩
    obtain ⟨i, before, later, rfl, differs⟩ := (mem_written_iff r put).mp kept
    obtain ⟨front, back, shape, next⟩ := next_of_popped run rfl
    exact ⟨i, front, back, shape, survivable_of_next shape next differs⟩

theorem canDrop_iff (plain : Plain t nowUs) (r : InternalRecord) (put : r.op = .put)
    {source : Fin t.candidates.length} (candidate : r ∈ readOrder t nowUs source) : CanDrop t nowUs r ↔
    ∃ popped, Run slotRank (readOrder t nowUs) popped ∧ r ∉ written (popped.map Prod.snd) := by
  constructor
  · rintro ⟨i, front, back, shape, droppable⟩
    obtain ⟨before, next, tie⟩ := next_of_droppable shape droppable
    obtain ⟨later, run⟩ := run_of_next next
    refine ⟨_, run, fun kept => ?_⟩
    obtain ⟨j, before', later', places, differs⟩ := (mem_written_iff r put).mp kept
    -- Each record is popped once, so both places are the same.
    have inJ : r ∈ readOrder t nowUs j := mem_of_popped run (places ▸ by simp)
    obtain rfl := source_unique plain (shape ▸ by simp : r ∈ readOrder t nowUs i) inJ
    have once := run_nodup run (readOrder_nodup plain)
    rw [places] at once
    obtain ⟨_, right, apart⟩ := List.nodup_append.mp once
    have outside : (i, r) ∉ before' := fun member => apart _ member _ List.mem_cons_self rfl
    have behind : (i, r) ∉ later' := (List.nodup_cons.mp right).1
    obtain ⟨rfl, _, _⟩ := (List.append_cons_inj_of_notMem outside behind).mp places.symm
    exact differs tie
  · rintro ⟨popped, run, dropped⟩
    obtain ⟨before, later, rfl⟩ := List.append_of_mem (popped_of_mem run candidate)
    obtain ⟨front, back, shape, next⟩ := next_of_popped run rfl
    refine ⟨source, front, back, shape, droppable_of_next shape next ?_⟩
    by_contra differs
    exact dropped ((mem_written_iff r put).mpr ⟨source, before, later, rfl, differs⟩)

/-! ### Last write wins -/

/-- The record of a slot with the largest number. -/
def Highest (records : List InternalRecord) (slot : Bytes ×ₗ Int) (r : InternalRecord) : Prop :=
  r ∈ records ∧ r.slot = slot ∧ ∀ x ∈ records, x.slot = slot → x.seq ≤ r.seq

/-- What replacing the records `before` by the records `after` must respect. -/
def KeepsLast (before after : List InternalRecord) (slot : Bytes ×ₗ Int) : Prop :=
  (∀ p, Highest before slot p → p.op = .put → Highest after slot p) ∧
    ∀ d, Highest before slot d → d.op = .delete → ∀ r, Highest after slot r → r.op ≠ .put

/-- The last put of the slot is in a table left alone or cannot be dropped; behind a
last delete that is merged away nothing can bring a put to the top. -/
structure Safe (t : Tables) (nowUs : Int) (slot : Bytes ×ₗ Int) : Prop where
  put : ∀ p, Highest t.records slot p → p.op = .put → p ∉ t.keptRecords → ¬ CanDrop t nowUs p
  delete : ∀ d, Highest t.records slot d → d.op = .delete → d ∉ t.keptRecords →
    (∀ k, Highest t.keptRecords slot k → k.op ≠ .put) ∧
      ∀ q, q.slot = slot → q.op = .put → (∀ k ∈ t.keptRecords, k.slot = slot → k.seq < q.seq) →
        ¬ CanSurvive t nowUs q

theorem exists_highest (records : List InternalRecord) (slot : Bytes ×ₗ Int) (x : InternalRecord)
    (member : x ∈ records) (here : x.slot = slot) : ∃ r, Highest records slot r := by
  obtain ⟨r, inside, largest⟩ := (records.filter fun r => r.slot = slot).toFinset.exists_max_image (·.seq)
    ⟨x, by simp [member, here]⟩
  simp only [List.mem_toFinset, List.mem_filter, decide_eq_true_eq] at inside largest
  exact ⟨r, inside.1, inside.2, fun y there same => largest y ⟨there, same⟩⟩

theorem kept_subset {r : InternalRecord} (kept : r ∈ t.keptRecords) : r ∈ t.records := by
  obtain ⟨id, active, member⟩ := List.mem_flatMap.mp kept
  exact mem_records (List.mem_of_mem_filter active) member

theorem popped_subset (run : Run slotRank (readOrder t nowUs) popped) {r : InternalRecord}
    (member : r ∈ popped.map Prod.snd) : ∃ i, r ∈ readOrder t nowUs i ∧ r ∈ t.records := by
  obtain ⟨⟨i, x⟩, inside, rfl⟩ := List.mem_map.mp member
  have read := mem_of_popped run inside
  exact ⟨i, read, mem_records (candidate_active i) ((mem_numbered _ _ x).mp read).1⟩

theorem written_put {records : List InternalRecord} {r : InternalRecord} (member : r ∈ written records) :
    r ∈ records ∧ r.op = .put := by
  obtain ⟨inside, op⟩ := List.mem_filter.mp member
  exact ⟨(firsts_sublist _ _ _).subset inside, by cases h : r.op <;> simp [h] at op ⊢⟩

theorem candidate_of_dropped (plain : Plain t nowUs) {r : InternalRecord} (member : r ∈ t.records)
    (other : r ∉ t.keptRecords) : ∃ i, r ∈ readOrder t nowUs i := by
  obtain ⟨id, active, inside⟩ := List.mem_flatMap.mp member
  have candidate : id ∈ t.candidates := by
    by_contra kept
    exact other (List.mem_flatMap.mpr ⟨id, List.mem_filter.mpr ⟨active, by simpa using kept⟩, inside⟩)
  obtain ⟨i, rfl⟩ := List.get_of_mem candidate
  exact ⟨i, (mem_numbered _ _ r).mpr ⟨inside, plain.unexpired r member⟩⟩

section
variable (config : Config) (compressedLen : Bytes → Nat)

theorem mem_after (ok : Ok t) (run : Run slotRank (readOrder t nowUs) popped)
    (enough : config.compactionThreshold ≤ t.manifest.state.sstables.entries.length) (r : InternalRecord) :
    r ∈ (CompactionRunner.run config compressedLen t (popped.map Prod.snd)).records ↔
      r ∈ t.keptRecords ∨ r ∈ written (popped.map Prod.snd) := by
  refine records_run config compressedLen t (nextSstId_absent t ok) _ enough (fun none => ?_) r
  refine List.eq_nil_iff_forall_not_mem.mpr fun x member => ?_
  obtain ⟨i, read, _⟩ := popped_subset run member
  have inside := ((mem_numbered _ _ x).mp read).1
  rw [none _ (List.get_mem _ _)] at inside
  cases inside

theorem keepsLast_of_safe (plain : Plain t nowUs) (run : Run slotRank (readOrder t nowUs) popped)
    {slot : Bytes ×ₗ Int} (safe : Safe t nowUs slot) {after : List InternalRecord}
    (members : ∀ r, r ∈ after ↔ r ∈ t.keptRecords ∨ r ∈ written (popped.map Prod.snd)) :
    KeepsLast t.records after slot := by
  have subset : ∀ r ∈ after, r ∈ t.records := by
    intro r member
    rcases (members r).mp member with kept | new
    · exact kept_subset kept
    · exact (popped_subset run (written_put new).1).elim fun _ h => h.2
  constructor
  · rintro p ⟨member, here, largest⟩ put
    refine ⟨(members p).mpr ?_, here, fun x inside same => largest x (subset x inside) same⟩
    by_cases kept : p ∈ t.keptRecords
    · exact Or.inl kept
    · obtain ⟨i, read⟩ := candidate_of_dropped plain member kept
      refine Or.inr (not_not.mp fun dropped => safe.put p ⟨member, here, largest⟩ put kept ?_)
      exact (canDrop_iff plain p put read).mpr ⟨popped, run, dropped⟩
  · rintro d ⟨member, here, largest⟩ delete r ⟨inside, same, top⟩ put
    by_cases kept : d ∈ t.keptRecords
    · -- The delete is still there, so it is what stands on top.
      have equal := le_antisymm (largest r (subset r inside) same) (top d ((members d).mpr (Or.inl kept)) here)
      obtain rfl := numbers_inj plain (subset r inside) member equal
      simp [put] at delete
    · obtain ⟨others, survivors⟩ := safe.delete d ⟨member, here, largest⟩ delete kept
      by_cases old : r ∈ t.keptRecords
      · exact others r ⟨old, same, fun x there slot => top x ((members x).mpr (Or.inl there)) slot⟩ put
      · have new := ((members r).mp inside).resolve_left old
        refine survivors r same put (fun k there slot => ?_) ((canSurvive_iff r put).mpr ⟨popped, run, new⟩)
        refine lt_of_le_of_ne (top k ((members k).mpr (Or.inl there)) slot) fun equal => old ?_
        exact numbers_inj plain (kept_subset there) (subset r inside) equal ▸ there

theorem safe_of_keepsLast (plain : Plain t nowUs) {slot : Bytes ×ₗ Int}
    (keeps : ∀ popped, Run slotRank (readOrder t nowUs) popped → ∀ after : List InternalRecord,
      (∀ r, r ∈ after ↔ r ∈ t.keptRecords ∨ r ∈ written (popped.map Prod.snd)) → KeepsLast t.records after slot) :
    Safe t nowUs slot := by
  have result := fun popped run => keeps popped run _ fun r => List.mem_append
  constructor
  · intro p top put other drops
    obtain ⟨i, read⟩ := candidate_of_dropped plain top.1 other
    obtain ⟨popped, run, dropped⟩ := (canDrop_iff plain p put read).mp drops
    exact (List.mem_append.mp ((result popped run).1 p top put).1).elim other dropped
  · intro d top delete other
    constructor
    · intro k kept put
      obtain ⟨popped, run⟩ := exists_run slotRank (readOrder t nowUs)
      obtain ⟨r, highest⟩ := exists_highest (t.keptRecords ++ written (popped.map Prod.snd)) slot k
        (List.mem_append_left _ kept.1) kept.2.1
      refine (result popped run).2 d top delete r highest ?_
      rcases List.mem_append.mp highest.1 with old | new
      · have equal := le_antisymm (kept.2.2 r old highest.2.1)
          (highest.2.2 k (List.mem_append_left _ kept.1) kept.2.1)
        exact numbers_inj plain (kept_subset old) (kept_subset kept.1) equal ▸ put
      · exact (written_put new).2
    · intro q here put above survives
      obtain ⟨popped, run, new⟩ := (canSurvive_iff q put).mp survives
      obtain ⟨r, highest⟩ := exists_highest (t.keptRecords ++ written (popped.map Prod.snd)) slot q
        (List.mem_append_right _ new) here
      refine (result popped run).2 d top delete r highest ?_
      rcases List.mem_append.mp highest.1 with old | written
      · have below := above r old highest.2.1
        exact absurd (highest.2.2 q (List.mem_append_right _ new) here) (not_le.mpr below)
      · exact (written_put written).2

/-- A compaction respects the last write of a slot, however its heap breaks ties,
exactly when it does not start or the slot is safe. -/
theorem compaction_keeps_last (t : Tables) (nowUs : Int) (plain : Plain t nowUs) (slot : Bytes ×ₗ Int) :
    (∀ popped, Merges t nowUs popped → KeepsLast t.records
      (CompactionRunner.run config compressedLen t (popped.map Prod.snd)).records slot) ↔
      t.manifest.state.sstables.entries.length < config.compactionThreshold ∨ Safe t nowUs slot := by
  by_cases idle : t.manifest.state.sstables.entries.length < config.compactionThreshold
  · refine iff_of_true (fun popped _ => ?_) (Or.inl idle)
    rw [CompactionRunner.run, if_pos idle]
    refine ⟨fun p top _ => top, fun d top delete r highest put => ?_⟩
    have equal := le_antisymm (top.2.2 r highest.1 highest.2.1) (highest.2.2 d top.1 top.2.1)
    obtain rfl := numbers_inj plain highest.1 top.1 equal
    simp [put] at delete
  · simp only [idle, false_or, merges_iff plain.fits]
    have members := fun popped (run : Run slotRank (readOrder t nowUs) popped) =>
      mem_after config compressedLen plain.ok run (not_lt.mp idle)
    constructor
    · refine fun keeps => safe_of_keepsLast plain fun popped run after same => ?_
      have sameMembers : ∀ r, r ∈ after ↔
          r ∈ (CompactionRunner.run config compressedLen t (popped.map Prod.snd)).records :=
        fun r => (same r).trans (members popped run r).symm
      simpa only [KeepsLast, Highest, sameMembers] using keeps popped run
    · exact fun safe popped run => keepsLast_of_safe plain run safe (members popped run)

end

end

/-! A key overwritten across two flushes is enough: both versions tie in the heap. -/

def older : InternalRecord := .fromRecord (.new [107] 1 [1]) 1000000
def newer : InternalRecord := .fromRecord (.new [107] 1 [2]) 1000001

def overwritten : Tables :=
  addFlushed {} List.length (addFlushed {} List.length (Tables.new 3600) [older]) [newer]

theorem overwritten_plain : Plain overwritten 0 := by
  have first : Plain (addFlushed {} List.length (Tables.new 3600) [older]) 0 := by
    refine plain_addFlushed {} List.length (plain_new 3600 0) [older] (by decide) fun r member => ?_
    obtain rfl := List.mem_singleton.mp member
    exact ⟨by decide, by decide, ⟨by decide, by decide, by decide, by decide, by decide⟩⟩
  refine plain_addFlushed {} List.length first [newer] (by decide) fun r member => ?_
  obtain rfl := List.mem_singleton.mp member
  exact ⟨by decide, by decide, ⟨by decide, by decide, by decide, by decide, by decide⟩⟩

theorem overwritten_put_lost : ∃ popped, Merges overwritten 0 popped ∧ ¬ KeepsLast overwritten.records
    (CompactionRunner.run {} List.length overwritten (popped.map Prod.snd)).records newer.slot := by
  have drops : CanDrop overwritten 0 newer :=
    ⟨⟨1, by decide⟩, [], [], by rfl, Or.inr ⟨by simp [Leads], older, [],
      ⟨⟨⟨0, by decide⟩, [], by decide, by rfl, by simp [Leads]⟩, by rfl⟩, by simp⟩⟩
  have read : newer ∈ readOrder overwritten 0 ⟨1, by decide⟩ := List.mem_singleton.mpr rfl
  obtain ⟨popped, run, dropped⟩ := (canDrop_iff overwritten_plain newer rfl read).mp drops
  refine ⟨popped, (merges_iff overwritten_plain.fits).mpr run, fun keeps => ?_⟩
  have top : Highest overwritten.records newer.slot newer := by
    unfold Highest
    decide
  have still := (mem_after {} List.length overwritten_plain.ok run (by decide) newer).mp (keeps.1 newer top rfl).1
  have none : overwritten.keptRecords = [] := by rfl
  rw [none] at still
  exact still.elim List.not_mem_nil dropped

theorem compaction_keeps_last_overwritten : (∀ popped, Merges overwritten 0 popped → KeepsLast overwritten.records
    (CompactionRunner.run {} List.length overwritten (popped.map Prod.snd)).records newer.slot) ↔
    overwritten.manifest.state.sstables.entries.length < Config.compactionThreshold {} ∨
      Safe overwritten 0 newer.slot :=
  compaction_keeps_last {} List.length overwritten 0 overwritten_plain newer.slot

end FlowDb.Compaction
