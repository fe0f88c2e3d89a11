import Mathlib.Data.List.Basic

/-! Slices of stable sorts. Around any element a stable sort lays first what is strictly below it, then
its equals in the order they came, then the rest. From this follows when the slice of a sorted front part
is the slice of the whole. -/
namespace StableSlices
variable {α : Type} {le : α → α → Bool}

/-- A comparison by keys. -/
structure Preordered (le : α → α → Bool) : Prop where
  trans : ∀ a b c, le a b → le b c → le a c
  total : ∀ a b, le a b || le b a

/-- Strictly below `t`. -/
def below (le : α → α → Bool) (t x : α) : Bool := !le t x

theorem Preordered.refl (order : Preordered le) (a : α) : le a a = true := by simpa using order.total a a

/-- A list whose members with `p` all come first. -/
theorem eq_filter_append {p : α → Bool} {l : List α} (first : l.Pairwise fun x y => p y = true → p x = true) :
    l = l.filter p ++ l.filter fun x => !p x := by
  induction l with
  | nil => rfl
  | cons x rest ih =>
    obtain ⟨head, tail⟩ := List.pairwise_cons.mp first
    by_cases holds : p x = true
    · rw [List.filter_cons_of_pos holds, List.filter_cons_of_neg (by simp [holds]), List.cons_append, ← ih tail]
    · have none_holds : ∀ y ∈ rest, p y = false := fun y member => by
        simpa using mt (head y member) holds
      rw [List.filter_cons_of_neg holds, List.filter_cons_of_pos (by simp [holds]),
        List.filter_eq_nil_iff.mpr fun y member => by simp [none_holds y member],
        List.filter_eq_self.mpr fun y member => by simp [none_holds y member]]
      rfl

/-- The sort of a list puts its head behind what is strictly below it and before the rest. -/
theorem mergeSort_head (order : Preordered le) (a : α) (l : List α) : ∃ front back, (a :: l).mergeSort le = front ++ a :: back ∧
    l.mergeSort le = front ++ back ∧ (∀ x ∈ front, below le a x = true) ∧ ∀ x ∈ back, le a x = true := by
  obtain ⟨front, back, whole, without, under⟩ := List.mergeSort_cons order.trans order.total a l
  have sorted := List.pairwise_mergeSort order.trans order.total (a :: l)
  rw [whole] at sorted
  exact ⟨front, back, whole, without, under, (List.pairwise_cons.mp (List.pairwise_append.mp sorted).2.1).1⟩

/-- One list parted twice by the same property. -/
theorem parts_unique {p : α → Bool} {front back front' back' : List α} (same : front ++ back = front' ++ back')
    (holds : ∀ x ∈ front, p x = true) (holds' : ∀ x ∈ front', p x = true) (fails : ∀ x ∈ back, p x = false)
    (fails' : ∀ x ∈ back', p x = false) : front = front' ∧ back = back' := by
  have filtered := congrArg (List.filter p) same
  rw [List.filter_append, List.filter_append, List.filter_eq_self.mpr holds, List.filter_eq_self.mpr holds',
    List.filter_eq_nil_iff.mpr fun x member => by simp [fails x member],
    List.filter_eq_nil_iff.mpr fun x member => by simp [fails' x member], List.append_nil, List.append_nil] at filtered
  exact ⟨filtered, List.append_cancel_left (filtered ▸ same)⟩

/-- Filtering commutes with a stable sort. -/
theorem filter_mergeSort (order : Preordered le) (p : α → Bool) (l : List α) :
    (l.mergeSort le).filter p = (l.filter p).mergeSort le := by
  induction l with
  | nil => simp
  | cons a rest ih =>
    obtain ⟨front, back, whole, without, under, above⟩ := mergeSort_head order a rest
    rw [without, List.filter_append] at ih
    rw [whole, List.filter_append]
    by_cases holds : p a = true
    · obtain ⟨front', back', whole', without', under', above'⟩ := mergeSort_head order a (rest.filter p)
      rw [List.filter_cons_of_pos holds, List.filter_cons_of_pos holds, whole']
      -- What is below `a` is the same front part of one list.
      obtain ⟨fronts, backs⟩ := @parts_unique _ (below le a) _ _ _ _ (ih.trans without')
        (fun x member => under x (List.mem_filter.mp member).1) under'
        (fun x member => by simp [below, above x (List.mem_filter.mp member).1]) fun x member => by simp [below, above' x member]
      rw [fronts, backs]
    · rw [List.filter_cons_of_neg holds, List.filter_cons_of_neg holds, ih]

/-- A stable sort around `t`. -/
theorem mergeSort_around (order : Preordered le) (t : α) (l : List α) :
    l.mergeSort le = (l.filter (below le t)).mergeSort le ++
      ((l.filter fun x => le t x && le x t) ++ (l.filter fun x => le t x && !le x t).mergeSort le) := by
  have sorted := List.pairwise_mergeSort order.trans order.total l
  have lower : (l.mergeSort le).Pairwise fun x y => below le t y = true → below le t x = true :=
    sorted.imp fun {x y} ordered under => by
      rw [below, Bool.not_eq_true'] at under ⊢
      exact Bool.eq_false_iff.mpr fun reaches => Bool.eq_false_iff.mp under (order.trans t x y reaches ordered)
  have middle : ((l.filter (le t)).mergeSort le).Pairwise fun x y => le y t = true → le x t = true :=
    (List.pairwise_mergeSort order.trans order.total _).imp fun {x y} ordered => order.trans x y t ordered
  have upper : (l.mergeSort le).filter (fun x => !below le t x) = (l.filter (le t)).mergeSort le := by
    rw [filter_mergeSort order]
    simp [below]
  have equals : ((l.filter fun x => le t x && le x t).mergeSort le) = l.filter fun x => le t x && le x t := by
    refine List.mergeSort_of_pairwise (List.pairwise_of_forall_mem_list fun x first y second => ?_)
    simp only [List.mem_filter, Bool.and_eq_true] at first second
    exact order.trans x t y first.2.2 second.2.1
  rw [eq_filter_append lower, filter_mergeSort order, upper, eq_filter_append middle, filter_mergeSort order,
    filter_mergeSort order, List.filter_filter, List.filter_filter]
  simp only [Bool.and_comm (le _ t), Bool.and_comm (!le _ t)]
  rw [equals]

/-- The missed elements do not show behind the first `m` of a sort of those seen: none is strictly below a
last one of those seen; or all that show are equals of that one, and those below it only put other
copies in their places. -/
def Undisturbed (le : α → α → Bool) (m n : Nat) (seen missed : List α) : Prop :=
  ∃ t ∈ seen, (∀ x ∈ seen, le x t = true) ∧ (missed.filter (below le t) = [] ∨
    ((seen ++ missed).filter (below le t)).length ≤ m ∧
      (seen.filter (le t)).drop (m - (seen.filter (below le t)).length) =
        ((seen.filter (le t)).drop (m - ((seen ++ missed).filter (below le t)).length)).take n)

section
variable {m n : Nat} {seen missed : List α} {t : α}

theorem length_parts (l : List α) : (l.filter (below le t)).length + (l.filter (le t)).length = l.length := by
  have parts := List.length_eq_length_filter_add (l := l) (le t)
  unfold below
  omega

theorem slice_front {front rest : List α} (enough : n + m ≤ front.length) :
    ((front ++ rest).drop m).take n = (front.drop m).take n := by
  rw [List.drop_append_of_le_length (by omega), List.take_append_of_le_length (by rw [List.length_drop]; omega)]

theorem drop_past {front rest : List α} (past : front.length ≤ m) : (front ++ rest).drop m = rest.drop (m - front.length) := by
  rw [List.drop_append, List.drop_eq_nil_of_le past, List.nil_append]

/-- The sort of those seen, and the sort of all, around a last one of those seen. -/
theorem sorts_around (order : Preordered le) (last : ∀ x ∈ seen, le x t = true) :
    seen.mergeSort le = (seen.filter (below le t)).mergeSort le ++ seen.filter (le t) ∧
      ∃ behind, (seen ++ missed).mergeSort le =
        ((seen ++ missed).filter (below le t)).mergeSort le ++ (seen.filter (le t) ++ behind) := by
  have equals : (seen.filter fun x => le t x && le x t) = seen.filter (le t) :=
    List.filter_congr fun x member => by rw [last x member, Bool.and_true]
  have above : (seen.filter fun x => le t x && !le x t) = [] :=
    List.filter_eq_nil_iff.mpr fun x member => by simp [last x member]
  constructor
  · rw [mergeSort_around order t seen, equals, above, List.mergeSort_nil, List.append_nil]
  · refine ⟨(missed.filter fun x => le t x && le x t) ++ ((seen ++ missed).filter fun x => le t x && !le x t).mergeSort le, ?_⟩
    rw [mergeSort_around order t (seen ++ missed), List.filter_append (p := fun x => le t x && le x t), equals]
    simp only [List.append_assoc]

/-- The slices where all of the front part is seen. -/
theorem slice_at_iff (order : Preordered le) (some_taken : 0 < n) (full : seen.length = n + m) (inside : t ∈ seen)
    (last : ∀ x ∈ seen, le x t = true) :
    ((seen.mergeSort le).drop m).take n = (((seen ++ missed).mergeSort le).drop m).take n ↔
      missed.filter (below le t) = [] ∨ ((seen ++ missed).filter (below le t)).length ≤ m ∧
        (seen.filter (le t)).drop (m - (seen.filter (below le t)).length) =
          ((seen.filter (le t)).drop (m - ((seen ++ missed).filter (below le t)).length)).take n := by
  obtain ⟨front, behind, whole⟩ := @sorts_around _ le seen missed t order last
  have size := @length_parts _ le t seen
  have here : t ∈ seen.filter (le t) := List.mem_filter.mpr ⟨inside, order.refl t⟩
  have some_here := List.length_pos_of_mem here
  have lower : ((seen ++ missed).filter (below le t)).length =
      (seen.filter (below le t)).length + (missed.filter (below le t)).length := by
    rw [List.filter_append, List.length_append]
  rw [front, whole]
  by_cases none_below : missed.filter (below le t) = []
  · refine iff_of_true ?_ (.inl none_below)
    rw [List.filter_append, none_below, List.append_nil, ← List.append_assoc]
    refine (slice_front ?_).symm
    rw [List.length_append, List.length_mergeSort]
    omega
  · have some_below := List.length_pos_iff.mpr none_below
    rw [or_iff_right none_below]
    by_cases behind_all : ((seen ++ missed).filter (below le t)).length ≤ m
    · rw [and_iff_right behind_all, drop_past (by rw [List.length_mergeSort]; omega), drop_past (by rw [List.length_mergeSort]; omega),
        List.length_mergeSort, List.length_mergeSort, slice_front (by omega),
        List.take_of_length_le (by rw [List.length_drop]; omega)]
    · refine iff_of_false (fun same => ?_) fun kept => behind_all kept.1
      -- At this place an equal of `t` meets one below it.
      have place := congrArg (fun l => l[max m (seen.filter (below le t)).length - m]?) same
      rw [List.getElem?_take_of_lt (by omega), List.getElem?_take_of_lt (by omega), List.getElem?_drop, List.getElem?_drop,
        Nat.add_sub_cancel' (Nat.le_max_left _ _), List.getElem?_append_right (by rw [List.length_mergeSort]; omega),
        List.getElem?_append_left (by rw [List.length_mergeSort]; omega), List.length_mergeSort] at place
      obtain ⟨x, found⟩ : ∃ x, (seen.filter (le t))[max m (seen.filter (below le t)).length - (seen.filter (below le t)).length]? =
          some x := ⟨_, List.getElem?_eq_getElem (by omega)⟩
      have equal := (List.mem_filter.mp (List.mem_of_getElem? found)).2
      have under := List.mem_mergeSort.mp (List.mem_of_getElem? (place.symm.trans found))
      rw [List.mem_filter, below, equal] at under
      cases under.2

/-- A last one in the order of the sort. -/
theorem exists_last (order : Preordered le) (some_seen : seen ≠ []) : ∃ t ∈ seen, ∀ x ∈ seen, le x t = true := by
  induction seen with
  | nil => exact absurd rfl some_seen
  | cons x rest ih =>
    cases rest with
    | nil => exact ⟨x, List.mem_singleton_self x, fun y member => by rw [List.mem_singleton.mp member]; exact order.refl x⟩
    | cons y more =>
      obtain ⟨t, inside, last⟩ := ih (List.cons_ne_nil y more)
      rcases Bool.or_eq_true_iff.mp (order.total x t) with up | down
      · exact ⟨t, List.mem_cons_of_mem x inside, List.forall_mem_cons.mpr ⟨up, last⟩⟩
      · exact ⟨x, List.mem_cons_self, List.forall_mem_cons.mpr ⟨order.refl x, fun z member => order.trans z t x (last z member) down⟩⟩

/-- When a slice of a sorted front part, of at most as many elements as the slice reaches, is the slice of the whole. -/
theorem slice_iff (order : Preordered le) (few : seen.length ≤ n + m) :
    ((seen.mergeSort le).drop m).take n = (((seen ++ missed).mergeSort le).drop m).take n ↔
      n = 0 ∨ missed = [] ∨ (seen ++ missed).length ≤ m ∨ seen.length = n + m ∧ Undisturbed le m n seen missed := by
  by_cases none_taken : n = 0
  · simp [none_taken]
  by_cases none_missed : missed = []
  · simp [none_missed]
  have some_missed := List.length_pos_iff.mpr none_missed
  rw [or_iff_right none_taken, or_iff_right none_missed]
  by_cases past : (seen ++ missed).length ≤ m
  · refine iff_of_true ?_ (.inl past)
    rw [List.length_append] at past
    rw [List.drop_eq_nil_of_le (by rw [List.length_mergeSort]; omega),
      List.drop_eq_nil_of_le (by rw [List.length_mergeSort, List.length_append]; omega)]
  rw [or_iff_right past]
  by_cases full : seen.length = n + m
  · rw [and_iff_right full]
    have some_taken : 0 < n := by omega
    constructor
    · intro same
      obtain ⟨t, inside, last⟩ := exists_last order (List.ne_nil_of_length_pos (by omega : 0 < seen.length))
      exact ⟨t, inside, last, (slice_at_iff order some_taken full inside last).mp same⟩
    · rintro ⟨t, inside, last, kept⟩
      exact (slice_at_iff order some_taken full inside last).mpr kept
  · -- Too few are seen: the whole goes on where the front part has ended.
    refine iff_of_false (fun same => ?_) fun kept => full kept.1
    have lengths := congrArg List.length same
    simp only [List.length_take, List.length_drop, List.length_mergeSort, List.length_append] at lengths past
    omega

end

end StableSlices
