import Mathlib.Order.Basic
import Mathlib.Order.Lattice
import Mathlib.Data.List.Basic
import Mathlib.Data.List.Pairwise

/-! Finite maps kept as strictly key-sorted association lists. Sortedness is a
field, so an ill-ordered map cannot be built and iteration order is the key
order. Nothing here depends on what the keys or the values are. -/
namespace OrderedMap
variable {κ ν μ : Type} [LinearOrder κ]

structure OMap (κ ν : Type) [LinearOrder κ] where
  entries : List (κ × ν)
  sorted : entries.Pairwise fun a b => a.1 < b.1

instance [DecidableEq ν] : DecidableEq (OMap κ ν) := fun a b =>
  decidable_of_iff (a.entries = b.entries)
    ⟨fun h => by cases a; cases b; simp_all, fun h => congrArg OMap.entries h⟩

def OMap.empty : OMap κ ν := ⟨[], List.Pairwise.nil⟩

instance : EmptyCollection (OMap κ ν) := ⟨OMap.empty⟩

def OMap.get? (m : OMap κ ν) (k : κ) : Option ν :=
  (m.entries.find? fun e => e.1 == k).map Prod.snd

def OMap.keys (m : OMap κ ν) : List κ := m.entries.map Prod.fst

def OMap.values (m : OMap κ ν) : List ν := m.entries.map Prod.snd

def insertSorted (k : κ) (v : ν) : List (κ × ν) → List (κ × ν)
  | [] => [(k, v)]
  | e :: rest =>
      if k < e.1 then (k, v) :: e :: rest
      else if e.1 < k then e :: insertSorted k v rest
      else (k, v) :: rest

theorem mem_insertSorted (k : κ) (v : ν) (l : List (κ × ν))
    (ordered : l.Pairwise fun a b => a.1 < b.1) (e : κ × ν) :
    e ∈ insertSorted k v l ↔ e = (k, v) ∨ (e ∈ l ∧ e.1 ≠ k) := by
  induction l with
  | nil => simp [insertSorted]
  | cons head rest ih =>
    obtain ⟨headLt, tailOrdered⟩ := List.pairwise_cons.mp ordered
    simp only [insertSorted]
    split_ifs with before after
    · have distinct : ∀ x ∈ head :: rest, x.1 ≠ k := by
        intro x member
        rcases List.mem_cons.mp member with rfl | later
        · exact ne_of_gt before
        · exact ne_of_gt (before.trans (headLt x later))
      constructor
      · intro member
        rcases List.mem_cons.mp member with rfl | old
        · exact Or.inl rfl
        · exact Or.inr ⟨old, distinct e old⟩
      · rintro (rfl | ⟨old, _⟩)
        · exact List.mem_cons_self
        · exact List.mem_cons_of_mem _ old
    · have headNe : head.1 ≠ k := ne_of_lt after
      simp only [List.mem_cons, ih tailOrdered]
      constructor
      · rintro (rfl | rfl | ⟨old, ne⟩)
        · exact Or.inr ⟨Or.inl rfl, headNe⟩
        · exact Or.inl rfl
        · exact Or.inr ⟨Or.inr old, ne⟩
      · rintro (rfl | ⟨rfl | old, ne⟩)
        · exact Or.inr (Or.inl rfl)
        · exact Or.inl rfl
        · exact Or.inr (Or.inr ⟨old, ne⟩)
    · have same : head.1 = k := le_antisymm (not_lt.mp before) (not_lt.mp after)
      have distinct : ∀ x ∈ rest, x.1 ≠ k := fun x later => same ▸ ne_of_gt (headLt x later)
      simp only [List.mem_cons]
      constructor
      · rintro (rfl | old)
        · exact Or.inl rfl
        · exact Or.inr ⟨Or.inr old, distinct e old⟩
      · rintro (rfl | ⟨rfl | old, ne⟩)
        · exact Or.inl rfl
        · exact absurd same ne
        · exact Or.inr old

theorem insertSorted_sorted (k : κ) (v : ν) (l : List (κ × ν))
    (ordered : l.Pairwise fun a b => a.1 < b.1) :
    (insertSorted k v l).Pairwise fun a b => a.1 < b.1 := by
  induction l with
  | nil => simp [insertSorted]
  | cons head rest ih =>
    obtain ⟨headLt, tailOrdered⟩ := List.pairwise_cons.mp ordered
    simp only [insertSorted]
    split_ifs with before after
    · refine List.pairwise_cons.mpr ⟨fun e member => ?_, ordered⟩
      rcases List.mem_cons.mp member with rfl | later
      · exact before
      · exact before.trans (headLt e later)
    · refine List.pairwise_cons.mpr ⟨fun e member => ?_, ih tailOrdered⟩
      rcases (mem_insertSorted k v rest tailOrdered e).mp member with rfl | ⟨old, _⟩
      · exact after
      · exact headLt e old
    · have same : head.1 = k := le_antisymm (not_lt.mp before) (not_lt.mp after)
      exact List.pairwise_cons.mpr ⟨fun e later => same ▸ headLt e later, tailOrdered⟩

def OMap.insert (m : OMap κ ν) (k : κ) (v : ν) : OMap κ ν :=
  ⟨insertSorted k v m.entries, insertSorted_sorted k v m.entries m.sorted⟩

def OMap.filter (m : OMap κ ν) (keep : κ → ν → Bool) : OMap κ ν :=
  ⟨m.entries.filter fun e => keep e.1 e.2, m.sorted.filter _⟩

def OMap.erase (m : OMap κ ν) (k : κ) : OMap κ ν := m.filter fun key _ => key != k

/-- Rewrites every value and drops the keys whose value maps to `none`. -/
def OMap.filterMap (m : OMap κ ν) (f : ν → Option μ) : OMap κ μ :=
  ⟨m.entries.filterMap fun e => (f e.2).map fun v => (e.1, v), by
    refine List.Pairwise.filterMap _ ?_ m.sorted
    intro a a' below b hb b' hb'
    obtain ⟨v, _, rfl⟩ := Option.map_eq_some_iff.mp hb
    obtain ⟨v', _, rfl⟩ := Option.map_eq_some_iff.mp hb'
    exact below⟩

theorem get?_eq_some_iff (m : OMap κ ν) (k : κ) (v : ν) :
    m.get? k = some v ↔ (k, v) ∈ m.entries := by
  obtain ⟨entries, sorted⟩ := m
  simp only [OMap.get?]
  induction entries with
  | nil => simp
  | cons head rest ih =>
    obtain ⟨headLt, tailOrdered⟩ := List.pairwise_cons.mp sorted
    by_cases same : head.1 = k
    · simp only [List.find?_cons, beq_iff_eq.mpr same, Option.map_some, Option.some.injEq,
        List.mem_cons]
      constructor
      · rintro rfl
        exact Or.inl (Prod.ext same.symm rfl)
      · rintro (rfl | later)
        · rfl
        · exact absurd (headLt _ later) (same ▸ lt_irrefl _)
    · have distinct : (head.1 == k) = false := beq_eq_false_iff_ne.mpr same
      have headNe : (k, v) ≠ head := fun h => same (congrArg Prod.fst h).symm
      simp only [List.find?_cons, distinct, List.mem_cons, headNe, false_or]
      exact ih tailOrdered

theorem ext_get? {a b : OMap κ ν} (same : ∀ k, a.get? k = b.get? k) : a = b := by
  have members : ∀ e, e ∈ a.entries ↔ e ∈ b.entries := fun e => by
    rw [← get?_eq_some_iff a, ← get?_eq_some_iff b, same]
  have nodup : ∀ m : OMap κ ν, m.entries.Nodup := fun m =>
    m.sorted.imp (S := (· ≠ ·)) fun below h => ne_of_lt below (congrArg Prod.fst h)
  have perm : a.entries.Perm b.entries :=
    (List.perm_ext_iff_of_nodup (nodup a) (nodup b)).mpr members
  have equal : a.entries = b.entries :=
    List.Perm.eq_of_pairwise (fun x y _ _ xy yx => absurd (xy.trans yx) (lt_irrefl _))
      a.sorted b.sorted perm
  cases a; cases b; cases equal; rfl

@[simp] theorem get?_empty (k : κ) : (∅ : OMap κ ν).get? k = none := rfl

@[simp] theorem entries_empty : (∅ : OMap κ ν).entries = [] := rfl

theorem mem_insert_iff (m : OMap κ ν) (k : κ) (v : ν) (e : κ × ν) :
    e ∈ (m.insert k v).entries ↔ e = (k, v) ∨ (e ∈ m.entries ∧ e.1 ≠ k) :=
  mem_insertSorted k v m.entries m.sorted e

theorem get?_insert (m : OMap κ ν) (k : κ) (v : ν) (k' : κ) :
    (m.insert k v).get? k' = if k' = k then some v else m.get? k' := by
  apply Option.ext
  intro w
  rw [get?_eq_some_iff, mem_insert_iff]
  split_ifs with same
  · subst same
    simp [eq_comm]
  · simp [same, get?_eq_some_iff]

@[simp] theorem get?_insert_self (m : OMap κ ν) (k : κ) (v : ν) :
    (m.insert k v).get? k = some v := by simp [get?_insert]

theorem get?_filter (m : OMap κ ν) (keep : κ → ν → Bool) (k : κ) :
    (m.filter keep).get? k = (m.get? k).filter (keep k) := by
  apply Option.ext
  intro w
  rw [get?_eq_some_iff]
  simp only [OMap.filter, List.mem_filter, Option.filter_eq_some_iff, get?_eq_some_iff]

theorem get?_erase (m : OMap κ ν) (k k' : κ) :
    (m.erase k).get? k' = if k' = k then none else m.get? k' := by
  rw [OMap.erase, get?_filter]
  split_ifs with same
  · cases m.get? k' <;> simp [Option.filter, same]
  · cases m.get? k' <;> simp [Option.filter, same]

theorem mem_filterMap_iff (m : OMap κ ν) (f : ν → Option μ) (k : κ) (v : μ) :
    (k, v) ∈ (m.filterMap f).entries ↔ ∃ w, (k, w) ∈ m.entries ∧ f w = some v := by
  simp only [OMap.filterMap, List.mem_filterMap, Option.map_eq_some_iff, Prod.mk.injEq]
  constructor
  · rintro ⟨⟨key, w⟩, member, u, value, rfl, rfl⟩
    exact ⟨w, member, value⟩
  · rintro ⟨w, member, value⟩
    exact ⟨(k, w), member, v, value, rfl, rfl⟩

theorem mem_keys_iff (m : OMap κ ν) (k : κ) : k ∈ m.keys ↔ (m.get? k).isSome := by
  rw [Option.isSome_iff_exists]
  simp only [OMap.keys, List.mem_map, get?_eq_some_iff]
  constructor
  · rintro ⟨e, member, rfl⟩
    exact ⟨e.2, member⟩
  · rintro ⟨v, member⟩
    exact ⟨(k, v), member, rfl⟩

theorem keys_nodup (m : OMap κ ν) : m.keys.Nodup := by
  rw [OMap.keys, List.Nodup, List.pairwise_map]
  exact m.sorted.imp fun below => ne_of_lt below

end OrderedMap
