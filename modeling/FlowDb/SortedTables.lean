import FlowDb.MemoryTables

/-! A memory table before and after its sort. While it is written to, the index of a table
holds the position of the last insert of a slot; behind the sort the index is gone and a
lookup takes the largest number. -/
namespace FlowDb.SortedTables
open ByteString OrderedMap Records MemoryTables

/-- The answer is a record of the slot that none of the slot exceeds, or there is none. -/
def Highest (records : List InternalRecord) (slot : Bytes ×ₗ Int) : Option InternalRecord → Prop
  | some r => (r ∈ records ∧ r.slot = slot) ∧ ∀ x ∈ records, x.slot = slot → x.seq ≤ r.seq
  | none => ∀ x ∈ records, x.slot ≠ slot

/-- What is inserted last for a slot has the largest number of the slot. -/
def NewestLast (records : List InternalRecord) (slot : Bytes ×ₗ Int) : Prop :=
  ∀ front r back, records = front ++ r :: back → r.slot = slot → (∀ x ∈ back, x.slot ≠ slot) →
    ∀ x ∈ front, x.slot = slot → x.seq ≤ r.seq

/-- The table after a sequence of inserts. -/
def filled (records : List InternalRecord) : MemTable := records.foldl MemTable.insert .new

theorem filled_indexed (records : List InternalRecord) : Indexed (filled records) ∧ (filled records).records = records := by
  induction records using List.reverseRecOn with
  | nil => exact ⟨indexed_new, rfl⟩
  | append_singleton front rec ih =>
    obtain ⟨indexed, held⟩ := ih
    have step : filled (front ++ [rec]) = (filled front).insert rec := by
      rw [filled, List.foldl_append]
      rfl
    rw [step]
    exact ⟨indexed_insert _ indexed rec, by rw [MemTable.insert, held]⟩

-- The scan keeps the greater of two, so nothing it has passed exceeds what it keeps.
theorem maxBySeq_append (front : List InternalRecord) (rec : InternalRecord) :
    maxBySeq (front ++ [rec]) = match maxBySeq front with
      | some b => if b.seq ≤ rec.seq then some rec else some b
      | none => some rec := by
  rw [maxBySeq, List.foldl_append]
  rfl

theorem maxBySeq_greatest (records : List InternalRecord) : match maxBySeq records with
    | some r => r ∈ records ∧ ∀ x ∈ records, x.seq ≤ r.seq
    | none => records = [] := by
  induction records using List.reverseRecOn with
  | nil => rfl
  | append_singleton front rec ih =>
    rw [maxBySeq_append]
    cases kept : maxBySeq front with
    | none =>
      rw [kept] at ih
      subst ih
      simp
    | some b =>
      rw [kept] at ih
      obtain ⟨member, greatest⟩ := ih
      dsimp only
      by_cases newer : b.seq ≤ rec.seq
      · rw [if_pos newer]
        refine ⟨by simp, fun x inside => ?_⟩
        rcases List.mem_append.mp inside with early | same
        · exact (greatest x early).trans newer
        · rw [List.mem_singleton.mp same]
      · rw [if_neg newer]
        refine ⟨List.mem_append_left _ member, fun x inside => ?_⟩
        rcases List.mem_append.mp inside with early | same
        · exact greatest x early
        · rw [List.mem_singleton.mp same]
          omega

theorem highest_perm {records other : List InternalRecord} (perm : records.Perm other) {slot : Bytes ×ₗ Int}
    {answer : Option InternalRecord} (highest : Highest records slot answer) : Highest other slot answer := by
  cases answer with
  | none => exact fun x member => highest x (perm.mem_iff.mpr member)
  | some r =>
    exact ⟨⟨perm.mem_iff.mp highest.1.1, highest.1.2⟩, fun x member => highest.2 x (perm.mem_iff.mpr member)⟩

/-- A sorted table answers with the highest number. -/
theorem get_sort_highest (t : MemTable) (key : Bytes) (ts : Int) : Highest t.records (toLex (key, ts)) (t.sort.get key ts) := by
  refine highest_perm (List.perm_insertionSort byVersion t.records) ?_
  have scan : t.sort.get key ts = maxBySeq (t.sort.records.filter fun r => decide (r.slot = toLex (key, ts))) := by
    simp [MemTable.get, MemTable.sort]
  have greatest := maxBySeq_greatest (t.sort.records.filter fun r => decide (r.slot = toLex (key, ts)))
  rw [← scan] at greatest
  change Highest t.sort.records _ _
  cases found : t.sort.get key ts with
  | none =>
    rw [found] at greatest
    intro x member here
    have inside : x ∈ t.sort.records.filter fun r => decide (r.slot = toLex (key, ts)) :=
      List.mem_filter.mpr ⟨member, decide_eq_true here⟩
    rw [greatest] at inside
    cases inside
  | some r =>
    rw [found] at greatest
    obtain ⟨member, above⟩ := greatest
    obtain ⟨held, here⟩ := List.mem_filter.mp member
    exact ⟨⟨held, of_decide_eq_true here⟩, fun x inside same => above x (List.mem_filter.mpr ⟨inside, decide_eq_true same⟩)⟩

theorem lastVersion_eq_some {records : List InternalRecord} {slot : Bytes ×ₗ Int} {r : InternalRecord} :
    lastVersion records slot = some r ↔
      ∃ front back, records = front ++ r :: back ∧ r.slot = slot ∧ ∀ x ∈ back, x.slot ≠ slot := by
  constructor
  · intro last
    induction records using List.reverseRecOn with
    | nil => cases last
    | append_singleton early rec ih =>
      rw [lastVersion_append] at last
      split_ifs at last with here
      · obtain rfl := Option.some.inj last
        exact ⟨early, [], rfl, here, by simp⟩
      · obtain ⟨front, back, rfl, same, apart⟩ := ih last
        refine ⟨front, back ++ [rec], by simp, same, fun x member => ?_⟩
        rcases List.mem_append.mp member with inside | new
        · exact apart x inside
        · rw [List.mem_singleton.mp new]
          exact here
  · rintro ⟨front, back, rfl, rfl, apart⟩
    rw [List.append_cons, lastVersion_append_list, (lastVersion_eq_none back r.slot).mpr apart, lastVersion_append, if_pos rfl]
    rfl

/-- The last insert of a slot is its highest exactly if the numbers came in that order. -/
theorem lastVersion_highest_iff (records : List InternalRecord) (slot : Bytes ×ₗ Int) :
    Highest records slot (lastVersion records slot) ↔ NewestLast records slot := by
  constructor
  · intro highest front r back shape here apart x early same
    rw [lastVersion_eq_some.mpr ⟨front, back, shape, here, apart⟩] at highest
    exact highest.2 x (shape ▸ List.mem_append_left _ early) same
  · intro newest
    cases last : lastVersion records slot with
    | none => exact (lastVersion_eq_none records slot).mp last
    | some r =>
      obtain ⟨front, back, rfl, here, apart⟩ := lastVersion_eq_some.mp last
      refine ⟨⟨by simp, here⟩, fun x member same => ?_⟩
      rcases List.mem_append.mp member with early | late
      · exact newest front r back rfl here apart x early same
      · rcases List.mem_cons.mp late with rfl | behind
        · exact le_refl _
        · exact (apart x behind same).elim

/-- The answers before and behind the sort are the highest of the slot, and the sort orders the
same records by slot, the newest of a slot first. -/
structure SortKeepsAnswers (records : List InternalRecord) (key : Bytes) (ts : Int) : Prop where
  before : Highest records (toLex (key, ts)) ((filled records).get key ts)
  behind : Highest records (toLex (key, ts)) ((filled records).sort.get key ts)
  same : (filled records).sort.records.Perm records
  ordered : (filled records).sort.records.Pairwise byVersion

/-- A table answers alike before and behind its sort exactly if the last insert of the slot has
its largest number. -/
theorem sort_keeps_answers_iff (records : List InternalRecord) (key : Bytes) (ts : Int) :
    SortKeepsAnswers records key ts ↔ NewestLast records (toLex (key, ts)) := by
  obtain ⟨indexed, held⟩ := filled_indexed records
  have before : Highest records (toLex (key, ts)) ((filled records).get key ts) ↔ NewestLast records (toLex (key, ts)) := by
    rw [indexed.last, held, lastVersion_highest_iff]
  refine ⟨fun keeps => before.mp keeps.before, fun newest => ⟨before.mpr newest, ?_, ?_, ?_⟩⟩
  · have highest := get_sort_highest (filled records) key ts
    rwa [held] at highest
  · exact (List.perm_insertionSort byVersion _).trans (List.Perm.of_eq held)
  · exact List.pairwise_insertionSort byVersion _

def versionOf (seq : Nat) : InternalRecord := ⟨seq, .put, [97], 100, 9223372036854775807, [UInt8.ofNat seq], none⟩

theorem older_inserted_later : ¬∀ (records : List InternalRecord) (key : Bytes) (ts : Int),
    (records.map InternalRecord.seq).Nodup → SortKeepsAnswers records key ts := by
  intro keeps
  have highest := (keeps [versionOf 2, versionOf 1] [97] 100 (by decide)).before
  have answer : (filled [versionOf 2, versionOf 1]).get [97] 100 = some (versionOf 1) := by rfl
  rw [answer] at highest
  exact absurd (highest.2 (versionOf 2) List.mem_cons_self rfl) (by decide)

end FlowDb.SortedTables
