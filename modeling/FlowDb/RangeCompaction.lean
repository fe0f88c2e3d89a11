import FlowDb.Compaction
import FlowDb.EngineRuns

/-! Range deletes across a compaction. A merge writes puts only, so a range delete goes
with the table that held it, wherever the puts that it covers are. -/
namespace FlowDb.RangeCompaction
open ByteString Records Sstable ManifestLog TableStore EngineOps EngineRuns Merge MergeTies Compaction

structure Covers (d p : InternalRecord) : Prop where
  op : d.op = .deleteRange
  within : ∃ stop, d.rangeEnd = some stop ∧ d.key ≤ p.key ∧ p.key < stop

/-- A put of the live tables with a later range delete there that covers it. -/
structure RangeDeleted (t : Tables) (p : InternalRecord) : Prop where
  held : p ∈ t.records
  op : p.op = .put
  later : ∃ d ∈ t.records, Covers d p ∧ p.seq < d.seq

/-- A put is no longer held, or still covered. -/
def StaysDeleted (after : List InternalRecord) (p : InternalRecord) : Prop :=
  p ∈ after → ∃ d ∈ after, Covers d p

/-- A table left alone covers the put, or the put is merged and no order of the merge keeps it. -/
def Protected (t : Tables) (nowUs : Int) (p : InternalRecord) : Prop :=
  (∃ d ∈ t.keptRecords, Covers d p) ∨ p ∉ t.keptRecords ∧ ¬ CanSurvive t nowUs p

section
variable {t : Tables} {nowUs : Int} {after : List InternalRecord} {popped : List (Fin t.candidates.length × InternalRecord)}

theorem covered_after_iff (members : ∀ r, r ∈ after ↔ r ∈ t.keptRecords ∨ r ∈ written (popped.map Prod.snd))
    (p : InternalRecord) : (∃ d ∈ after, Covers d p) ↔ ∃ d ∈ t.keptRecords, Covers d p := by
  constructor
  · rintro ⟨d, inside, covers⟩
    rcases (members d).mp inside with kept | new
    · exact ⟨d, kept, covers⟩
    · have put := (written_put new).2
      rw [covers.op] at put
      cases put
  · exact fun ⟨d, kept, covers⟩ => ⟨d, (members d).mpr (Or.inl kept), covers⟩

theorem staysDeleted_of_protected (run : Run slotRank (readOrder t nowUs) popped)
    (members : ∀ r, r ∈ after ↔ r ∈ t.keptRecords ∨ r ∈ written (popped.map Prod.snd))
    {p : InternalRecord} (put : p.op = .put) (safe : Protected t nowUs p) : StaysDeleted after p := by
  intro still
  rw [covered_after_iff members]
  rcases safe with covered | ⟨merged, gone⟩
  · exact covered
  · have new := ((members p).mp still).resolve_left merged
    exact absurd ((canSurvive_iff p put).mpr ⟨popped, run, new⟩) gone

theorem protected_of_staysDeleted {p : InternalRecord} (put : p.op = .put)
    (stays : ∀ popped, Run slotRank (readOrder t nowUs) popped →
      StaysDeleted (t.keptRecords ++ written (popped.map Prod.snd)) p) : Protected t nowUs p := by
  have members := fun popped : List (Fin t.candidates.length × InternalRecord) => fun r : InternalRecord =>
    List.mem_append (a := r) (s := t.keptRecords) (t := written (popped.map Prod.snd))
  by_cases covered : ∃ d ∈ t.keptRecords, Covers d p
  · exact Or.inl covered
  · have lost : ∀ popped, Run slotRank (readOrder t nowUs) popped → p ∉ t.keptRecords ++ written (popped.map Prod.snd) :=
      fun popped run still => covered ((covered_after_iff (members popped) p).mp (stays popped run still))
    refine Or.inr ⟨fun kept => ?_, fun survives => ?_⟩
    · obtain ⟨popped, run⟩ := exists_run slotRank (readOrder t nowUs)
      exact lost popped run (List.mem_append_left _ kept)
    · obtain ⟨popped, run, new⟩ := (canSurvive_iff p put).mp survives
      exact lost popped run (List.mem_append_right _ new)

end

/-- A compaction of any live tables brings no range-deleted put back, however its heap
breaks ties, exactly when it does not start or all of them are protected. -/
theorem staysDeleted_iff (config : Config) (compressedLen : Bytes → Nat) (t : Tables) (nowUs : Int) (ok : Ok t)
    (fits : ∀ r ∈ t.records, TableFits r) :
    (∀ popped, Merges t nowUs popped → ∀ p, RangeDeleted t p →
      StaysDeleted (CompactionRunner.run config compressedLen t (popped.map Prod.snd)).records p) ↔
      t.manifest.state.sstables.entries.length < config.compactionThreshold ∨
        ∀ p, RangeDeleted t p → Protected t nowUs p := by
  by_cases idle : t.manifest.state.sstables.entries.length < config.compactionThreshold
  · refine iff_of_true (fun popped _ p deleted still => ?_) (Or.inl idle)
    obtain ⟨d, inside, covers, _⟩ := deleted.later
    rw [CompactionRunner.run, if_pos idle]
    exact ⟨d, inside, covers⟩
  · simp only [idle, false_or, merges_iff fits]
    have members := fun popped (run : Run slotRank (readOrder t nowUs) popped) =>
      mem_after config compressedLen ok run (not_lt.mp idle)
    constructor
    · intro stays p deleted
      refine protected_of_staysDeleted deleted.op fun popped run => ?_
      have same : ∀ r, r ∈ t.keptRecords ++ written (popped.map Prod.snd) ↔
          r ∈ (CompactionRunner.run config compressedLen t (popped.map Prod.snd)).records :=
        fun r => List.mem_append.trans (members popped run r).symm
      simpa only [StaysDeleted, same] using stays popped run p deleted
    · exact fun safe popped run p deleted =>
        staysDeleted_of_protected run (members popped run) deleted.op (safe p deleted)

section
variable (compressedLen : Bytes → Nat) (config : Config) (steps : List (Command × Int))

/-- The same for the tables that any run of writes, deletes and flushes leaves. -/
theorem compaction_keeps_range_deletes (fits : ∀ r ∈ history config firstSeq steps, TableFits r) (nowUs : Int) :
    let t := (run compressedLen (fresh config) steps).tables
    (∀ popped, Merges t nowUs popped → ∀ p, RangeDeleted t p →
      StaysDeleted (CompactionRunner.run config compressedLen t (popped.map Prod.snd)).records p) ↔
      t.manifest.state.sstables.entries.length < config.compactionThreshold ∨
        ∀ p, RangeDeleted t p → Protected t nowUs p := by
  intro t
  have session := session_run compressedLen config steps fits
  exact staysDeleted_iff config compressedLen t nowUs session.tables.ok fun r member => fits r (session.held r member)

end

/-! A put in one table and the range delete that covers it in the next: the merge drops the range delete only. -/

def rangeDeletedLater : List (Command × Int) :=
  [(.writeBatch [.new [107] 1 [1]] none, 0), (.flush, 0), (.deleteRange [107] [108], 0), (.flush, 0)]

def coveredPut : InternalRecord := .fromRecord (.new [107] 1 [1]) 1000000

theorem rangeDeletedLater_fits : ∀ r ∈ history {} firstSeq rangeDeletedLater, TableFits r := by
  intro r member
  have written : r ∈ [coveredPut, .deleteRange [107] [108] 1000001] := member
  rcases List.mem_pair.mp written with rfl | rfl <;> decide

theorem coveredPut_deleted : RangeDeleted (run List.length (fresh {}) rangeDeletedLater).tables coveredPut := by
  refine ⟨by decide +kernel, rfl, .deleteRange [107] [108] 1000001, by decide +kernel, ⟨rfl, [108], rfl, ?_, ?_⟩, ?_⟩ <;>
    decide

theorem compaction_keeps_range_deletes_later :
    let t := (run List.length (fresh {}) rangeDeletedLater).tables
    (∀ popped, Merges t 0 popped → ∀ p, RangeDeleted t p →
      StaysDeleted (CompactionRunner.run {} List.length t (popped.map Prod.snd)).records p) ↔
      t.manifest.state.sstables.entries.length < Config.compactionThreshold {} ∨
        ∀ p, RangeDeleted t p → Protected t 0 p :=
  compaction_keeps_range_deletes List.length {} rangeDeletedLater rangeDeletedLater_fits 0

theorem covered_put_comes_back : ∃ popped, Merges (run List.length (fresh {}) rangeDeletedLater).tables 0 popped ∧
    RangeDeleted (run List.length (fresh {}) rangeDeletedLater).tables coveredPut ∧
    ¬ StaysDeleted (CompactionRunner.run {} List.length (run List.length (fresh {}) rangeDeletedLater).tables
      (popped.map Prod.snd)).records coveredPut := by
  have session := session_run List.length {} rangeDeletedLater rangeDeletedLater_fits
  have fits := fun r member => rangeDeletedLater_fits r (session.held r member)
  have survives : CanSurvive (run List.length (fresh {}) rangeDeletedLater).tables 0 coveredPut :=
    ⟨⟨0, by decide +kernel⟩, [], [], by decide +kernel, Or.inl (by simp)⟩
  obtain ⟨popped, merge, new⟩ := (canSurvive_iff coveredPut rfl).mp survives
  refine ⟨popped, (merges_iff fits).mpr merge, coveredPut_deleted, fun stays => ?_⟩
  have members := mem_after {} List.length session.tables.ok merge (by decide +kernel)
  obtain ⟨d, kept, _⟩ := (covered_after_iff members coveredPut).mp (stays ((members coveredPut).mpr (Or.inr new)))
  have nothing : (run List.length (fresh {}) rangeDeletedLater).tables.keptRecords = [] := by decide +kernel
  rw [nothing] at kept
  cases kept

end FlowDb.RangeCompaction
