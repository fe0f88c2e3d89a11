import Mathlib.Data.List.Nodup
import Mathlib.Algebra.Order.BigOperators.Group.List
import Mathlib.Algebra.Order.Ring.Nat
import Mathlib.Algebra.BigOperators.Group.Finset.Piecewise

/-! How often the parts of a list repeat its elements. Items are grouped by a key,
each group is a repetition of what stands behind the key, and the whole is a
permutation of one copy each exactly if every group is a single item. -/
namespace Multiplicity
variable {α β : Type}

-- The induction is on the keys: the first takes its items out of the list.
theorem perm_groups [DecidableEq β] (key : α → β) (keys : List β) (distinct : keys.Nodup) (items : List α)
    (covered : ∀ x ∈ items, key x ∈ keys) :
    items.Perm (keys.flatMap fun k => items.filter fun x => key x = k) := by
  induction keys generalizing items with
  | nil =>
    rw [List.eq_nil_iff_forall_not_mem.mpr fun x member => List.not_mem_nil (covered x member)]
    exact .nil
  | cons k rest ih =>
    obtain ⟨fresh, apart⟩ := List.nodup_cons.mp distinct
    have others := ih apart (items.filter fun x => !decide (key x = k)) fun x member => by
      obtain ⟨inside, other⟩ := List.mem_filter.mp member
      exact (List.mem_cons.mp (covered x inside)).resolve_left (by simpa using other)
    have same : ∀ j ∈ rest, ((items.filter fun x => !decide (key x = k)).filter fun x => key x = j) =
        items.filter fun x => key x = j := fun j member => by
      rw [List.filter_filter]
      refine List.filter_congr fun x _ => ?_
      by_cases here : key x = j
      · have other : key x ≠ k := fun h => fresh (h ▸ here.symm ▸ member)
        simp [here, here ▸ other]
      · simp [here]
    rw [List.flatMap_congr same] at others
    exact (List.filter_append_perm (fun x => decide (key x = k)) items).symm.trans (others.append_left _)

section Copies
variable {copies : α → Nat} {items : List α} (value : α → β)

def repeated (copies : α → Nat) (items : List α) : List β :=
  items.flatMap fun x => List.replicate (copies x) (value x)

theorem repeated_single (single : ∀ x ∈ items, copies x = 1) :
    repeated value copies items = items.map value := by
  rw [repeated, List.flatMap_congr fun x member => by rw [single x member]]
  exact List.flatMap_pure_eq_map value items

theorem filter_repeated (keep : β → Bool) :
    (repeated value copies items).filter keep = repeated value copies (items.filter fun x => keep (value x)) := by
  induction items with
  | nil => rfl
  | cons head rest ih =>
    rw [repeated] at ih
    rw [repeated, List.flatMap_cons, List.filter_append, ih, List.filter_replicate, List.filter_cons]
    split_ifs <;> simp [repeated]

theorem length_repeated : (repeated value copies items).length = (items.map copies).sum := by
  simp [repeated, List.length_flatMap]

theorem single_of_full (few : ∀ x ∈ items, copies x ≤ 1) (full : (items.map copies).sum = items.length) :
    ∀ x ∈ items, copies x = 1 := by
  have at_most : ∀ l : List α, (∀ x ∈ l, copies x ≤ 1) → (l.map copies).sum ≤ l.length := fun l short => by
    simpa using List.sum_le_card_nsmul (l.map copies) 1 (by simpa using short)
  induction items with
  | nil => exact fun x member => absurd member List.not_mem_nil
  | cons head rest ih =>
    have first := few head List.mem_cons_self
    have later := at_most rest fun x member => few x (List.mem_cons_of_mem _ member)
    rw [List.map_cons, List.sum_cons, List.length_cons] at full
    intro x member
    rcases List.mem_cons.mp member with rfl | there
    · omega
    · exact ih (fun x member => few x (List.mem_cons_of_mem _ member)) (by omega) x there

/-- Where nothing is repeated, what is missing shows in the length. -/
theorem repeated_perm_iff_of_few (few : ∀ x ∈ items, copies x ≤ 1) :
    (repeated value copies items).Perm (items.map value) ↔ ∀ x ∈ items, copies x = 1 := by
  constructor
  · intro perm
    have lengths := perm.length_eq
    rw [length_repeated, List.length_map] at lengths
    exact single_of_full few lengths
  · intro single
    rw [repeated_single value single]

theorem count_copies [DecidableEq β] (each : β → Nat) (values : List β) (y : β) :
    (repeated id each values).count y = each y * values.count y := by
  induction values with
  | nil => simp [repeated]
  | cons head rest ih =>
    rw [repeated, List.flatMap_cons, List.count_append, List.count_replicate]
    rw [repeated] at ih
    rw [ih, List.count_cons]
    by_cases here : head = y
    · subst here
      simp [Nat.mul_add, Nat.add_comm]
    · simp [here]

/-- Where equal values are repeated equally often, the counts show it. -/
theorem repeated_perm_iff_of_value (each : β → Nat) (agrees : ∀ x ∈ items, copies x = each (value x)) :
    (repeated value copies items).Perm (items.map value) ↔ ∀ x ∈ items, copies x = 1 := by
  classical
  constructor
  · intro perm x member
    have mapped : repeated value copies items = repeated id each (items.map value) := by
      rw [repeated, repeated, List.flatMap_map]
      exact List.flatMap_congr fun x member => by rw [agrees x member]; rfl
    have inside : 0 < (items.map value).count (value x) := List.count_pos_iff.mpr (List.mem_map_of_mem member)
    have counts := perm.count_eq (value x)
    rw [mapped, count_copies] at counts
    rw [agrees x member]
    exact Nat.eq_of_mul_eq_mul_right inside (by rw [counts, Nat.one_mul])
  · intro single
    rw [repeated_single value single]

end Copies

/-- What a list of keys shows, counted at the keys that show it. -/
theorem count_filterMap [BEq α] [LawfulBEq α] [DecidableEq β] (shown : α → Option β) (keys : Finset α) (items : List α)
    (y : β) (covered : ∀ k ∈ items, shown k = some y → k ∈ keys) :
    (items.filterMap shown).count y = ∑ k ∈ keys with shown k = some y, items.count k := by
  classical
  induction items with
  | nil => simp
  | cons first rest ih =>
    have step : (List.filterMap shown (first :: rest)).count y =
        (rest.filterMap shown).count y + if shown first = some y then 1 else 0 := by
      rw [List.filterMap_cons]
      cases shown first with
      | none => simp
      | some v => simp [List.count_cons]
    have here : ∑ k ∈ keys with shown k = some y, (if first = k then 1 else 0) = if shown first = some y then 1 else 0 := by
      rw [Finset.sum_ite_eq]
      by_cases shows' : shown first = some y
      · simp [shows', covered first List.mem_cons_self shows']
      · simp [shows']
    rw [step, ih fun k member => covered k (List.mem_cons_of_mem _ member), ← here, ← Finset.sum_add_distrib]
    refine Finset.sum_congr rfl fun k _ => ?_
    rw [List.count_cons]
    simp

/-! Entries let in one after the other, unless one like them is there already. -/

section Admission
variable {κ : Type} (takes : α → Bool) (same : α → α → Bool)

/-- The entries a loop lets in behind `docs`. -/
def admitted : List α → List (κ × α) → List (κ × α)
  | _, [] => []
  | docs, e :: rest =>
      if takes e.2 && !docs.any fun d => same d e.2 then e :: admitted (docs ++ [e.2]) rest else admitted docs rest

theorem admitted_sublist (docs : List α) (entries : List (κ × α)) : (admitted takes same docs entries).Sublist entries := by
  induction entries generalizing docs with
  | nil => exact .slnil
  | cons e rest ih =>
    rw [admitted]
    split_ifs
    · exact (ih _).cons_cons e
    · exact (ih docs).cons e

variable {takes same}

/-- An entry is let in where neither the start nor an earlier entry that qualifies is like it. -/
theorem mem_admitted (trans : ∀ a b c, same a b = true → same b c = true → same a c = true) (docs : List α)
    (entries : List (κ × α)) (e : κ × α) : e ∈ admitted takes same docs entries ↔
      ∃ front back, entries = front ++ e :: back ∧ takes e.2 = true ∧ (∀ d ∈ docs, same d e.2 = false) ∧
        ∀ earlier ∈ front, takes earlier.2 = true → same earlier.2 e.2 = false := by
  induction entries generalizing docs with
  | nil => simp [admitted]
  | cons first rest ih =>
    rw [admitted]
    split_ifs with enters
    · obtain ⟨taken, unlike⟩ : takes first.2 = true ∧ ∀ d ∈ docs, same d first.2 = false := by simpa using enters
      rw [List.mem_cons, ih]
      constructor
      · rintro (rfl | ⟨front, back, rfl, takes', apart, earlier⟩)
        · exact ⟨[], rest, rfl, taken, unlike, nofun⟩
        · refine ⟨first :: front, back, rfl, takes', fun d member => apart d (List.mem_append_left _ member), ?_⟩
          intro x member
          rcases List.mem_cons.mp member with rfl | later
          · exact fun _ => apart _ (List.mem_append_right _ List.mem_cons_self)
          · exact earlier x later
      · rintro ⟨front, back, shape, takes', apart, earlier⟩
        cases front with
        | nil => exact Or.inl (List.cons.inj shape).1.symm
        | cons x front =>
          obtain ⟨rfl, rfl⟩ := List.cons.inj shape
          refine Or.inr ⟨front, back, rfl, takes', fun d member => ?_, fun y member =>
            earlier y (List.mem_cons_of_mem _ member)⟩
          rcases List.mem_append.mp member with old | new
          · exact apart d old
          · obtain rfl := List.mem_singleton.mp new
            exact earlier first List.mem_cons_self taken
    · -- Whatever is like an entry that is turned away is like what turned it away.
      have refused : takes first.2 = true → ∃ d ∈ docs, same d first.2 = true := by simpa using enters
      rw [ih]
      constructor
      · rintro ⟨front, back, rfl, takes', apart, earlier⟩
        refine ⟨first :: front, back, rfl, takes', apart, fun x member => ?_⟩
        rcases List.mem_cons.mp member with rfl | later
        · intro taken
          obtain ⟨d, inside, like⟩ := refused taken
          by_contra both
          have whole := trans d _ _ like (by simpa using both)
          rw [apart d inside] at whole
          cases whole
        · exact earlier x later
      · rintro ⟨front, back, shape, takes', apart, earlier⟩
        cases front with
        | nil =>
          obtain ⟨rfl, rfl⟩ := List.cons.inj shape
          obtain ⟨d, inside, like⟩ := refused takes'
          rw [apart d inside] at like
          cases like
        | cons x front =>
          obtain ⟨rfl, rfl⟩ := List.cons.inj shape
          exact ⟨front, back, rfl, takes', apart, fun y member => earlier y (List.mem_cons_of_mem _ member)⟩

end Admission
end Multiplicity
