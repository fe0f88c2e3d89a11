import FlowDb.JsonStores
import FlowDb.ScanBounds

/-! The range from a prefix up to its successor, as scans and range deletes use it. A prefix with
a byte that can grow has exactly its extensions in that range. -/
namespace FlowDb.PrefixRanges
open ByteString OrderedMap Records JsonEncoding JsonDb JsonStores KeySpace PrefixOrder Reads ScanBounds

/-- A byte of the prefix is below the greatest. -/
def Grows (p : Bytes) : Prop := ∃ b ∈ p, b ≠ 255

theorem between_grows {p : Bytes} (grows : Grows p) (k : Bytes) : p ≤ k ∧ k < incrementPrefixBytes p ↔ p <+: k := by
  obtain ⟨b, member, other⟩ := grows
  have small : b < 255 := lt_of_le_of_ne (greatest_byte b) other
  exact between_successor greatest_byte (increment_successor member small)

/-- A range whose ends `is_prefix_range` takes for a prefix becomes a prefix filter that takes in
the keys between these ends. -/
theorem rewritten_exact {range : ScanRange} {p stop : Bytes} (grows : Grows p) (low : range.keyStart = .included p)
    (high : range.keyEnd = .excluded stop) (recognised : isPrefixRange p stop = true) (k : Bytes) :
    range.toQueryParams.1 = .keyPrefix p ∧ (range.toQueryParams.1.matchesKey k = true ↔ p <+: k) ∧ (keyInside range k ↔ p <+: k) := by
  have successor : stop = incrementPrefixBytes p := beq_iff_eq.mp recognised
  have filter : range.toQueryParams.1 = .keyPrefix p := by
    simp only [ScanRange.toQueryParams, low, high, recognised, ↓reduceIte]
  refine ⟨filter, ?_, ?_⟩
  · rw [filter, KeyFilter.matchesKey, List.isPrefixOf_iff_prefix]
  · rw [keyInside, low, high, successor]
    exact between_grows grows k

theorem tombstone_exact {p : Bytes} (grows : Grows p) (seq : Nat) (r : InternalRecord) :
    isTombstoned (tombstoneOf (.deleteRange p (incrementPrefixBytes p) seq)).toList r = true ↔ p <+: r.key := by
  rw [← between_grows grows]
  simp [tombstoneOf, InternalRecord.deleteRange, isTombstoned]

theorem get?_delete {p : Bytes} (grows : Grows p) (engine : Engine) (k : Bytes) :
    (applyRecord engine (rangeRecord p)).get? k = if p <+: k then none else engine.get? k := by
  have held : (applyRecord engine (rangeRecord p)).get? k =
      (engine.get? k).filter fun _ => !(decide (p ≤ k) && decide (k < incrementPrefixBytes p)) := get?_filter _ _ _
  rw [held]
  by_cases begins : p <+: k
  · have ⟨above, below⟩ := (between_grows grows k).mpr begins
    rw [if_pos begins, decide_eq_true above, decide_eq_true below]
    cases engine.get? k <;> rfl
  · have outside : (decide (p ≤ k) && decide (k < incrementPrefixBytes p)) = false := by
      rw [Bool.and_eq_false_iff, decide_eq_false_iff_not, decide_eq_false_iff_not]
      by_contra inside
      push Not at inside
      exact begins ((between_grows grows k).mp inside)
    rw [if_neg begins, outside]
    cases engine.get? k <;> rfl

/-- What reads the range of a prefix meets the keys that begin with it. -/
structure SelectsPrefix (p k : Bytes) : Prop where
  between : p <+: k ↔ p ≤ k ∧ k < incrementPrefixBytes p
  rewritten : ∀ (range : ScanRange) stop, range.keyStart = .included p → range.keyEnd = .excluded stop →
    isPrefixRange p stop = true → range.toQueryParams.1 = .keyPrefix p ∧
      (range.toQueryParams.1.matchesKey k = true ↔ p <+: k) ∧ (keyInside range k ↔ p <+: k)
  scanned : ∀ (engine : Engine) v, (k, v) ∈ scan engine (prefixRange p) ↔ (k, v) ∈ engine.entries ∧ p <+: k
  tombstoned : ∀ seq (r : InternalRecord), r.key = k →
    (isTombstoned (tombstoneOf (.deleteRange p (incrementPrefixBytes p) seq)).toList r = true ↔ p <+: k)
  deleted : ∀ engine : Engine, (applyRecord engine (rangeRecord p)).get? k = if p <+: k then none else engine.get? k

theorem prefix_range_exact (p k : Bytes) (grows : ∃ b ∈ p, b ≠ 255) : SelectsPrefix p k where
  between := (between_grows grows k).symm
  rewritten _ _ low high recognised := rewritten_exact grows low high recognised k
  scanned engine v := by
    rw [scan, List.mem_filter]
    exact and_congr_right fun _ => prefixRange_matches
  tombstoned seq r same := same ▸ tombstone_exact grows seq r
  deleted engine := get?_delete grows engine k

theorem prefix_range_exact_carry : SelectsPrefix [97, 255] [97, 255, 0] := prefix_range_exact _ _ (by decide)

end FlowDb.PrefixRanges
