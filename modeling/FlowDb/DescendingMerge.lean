import FlowDb.MergeStretches

/-! What a merge of unsorted sources keeps, the first of each run of equal rank and of
these the ones that pass a test. When does it fall strictly in rank, whatever order the
heap takes equal heads in? -/
namespace DescendingMerge
open Merge MergeStretches
variable {ι α γ : Type} [LinearOrder γ] {rank : α → γ}

/-! ### Lists built with the element before at hand -/

def along (f : Option (Stretch rank) → Stretch rank → List α) :
    Option (Stretch rank) → List (ι × Stretch rank) → List α
  | _, [] => []
  | before, p :: order => f before p.2 ++ along f (some p.2) order

/-- What stands right behind `front`, which `before` stands in front of. -/
def lastOf (before : Option (Stretch rank)) (front : List (ι × Stretch rank)) : Option (Stretch rank) :=
  (front.getLast?.map Prod.snd).or before

@[simp] theorem lastOf_nil (before : Option (Stretch rank)) : lastOf (ι := ι) before [] = before := rfl

@[simp] theorem lastOf_cons (before : Option (Stretch rank)) (p : ι × Stretch rank) (front : List (ι × Stretch rank)) :
    lastOf before (p :: front) = lastOf (some p.2) front := by
  cases front with
  | nil => rfl
  | cons q front => simp [lastOf, List.getLast?_cons]

theorem lastOf_append (before : Option (Stretch rank)) (x y : List (ι × Stretch rank)) :
    lastOf before (x ++ y) = lastOf (lastOf before x) y := by
  induction x generalizing before with
  | nil => rfl
  | cons p x ih => rw [List.cons_append, lastOf_cons, lastOf_cons, ih]

variable (f : Option (Stretch rank) → Stretch rank → List α)

theorem along_append (before : Option (Stretch rank)) (x y : List (ι × Stretch rank)) :
    along f before (x ++ y) = along f before x ++ along f (lastOf before x) y := by
  induction x generalizing before with
  | nil => rfl
  | cons p x ih => rw [List.cons_append, along, along, ih, lastOf_cons, List.append_assoc]

theorem mem_along (before : Option (Stretch rank)) (order : List (ι × Stretch rank)) (a : α) :
    a ∈ along f before order ↔ ∃ x p y, order = x ++ p :: y ∧ a ∈ f (lastOf before x) p.2 := by
  induction order generalizing before with
  | nil => simp [along]
  | cons p order ih =>
    rw [along, List.mem_append, ih]
    constructor
    · rintro (here | ⟨x, q, y, rfl, there⟩)
      · exact ⟨[], p, order, rfl, here⟩
      · exact ⟨p :: x, q, y, rfl, by rwa [lastOf_cons]⟩
    · rintro ⟨x, q, y, shape, there⟩
      cases x with
      | nil =>
        obtain ⟨rfl, rfl⟩ := List.cons.inj shape
        exact Or.inl there
      | cons _ x =>
        obtain ⟨rfl, rfl⟩ := List.cons.inj shape
        exact Or.inr ⟨x, q, y, rfl, by rwa [lastOf_cons] at there⟩

theorem along_pairwise {R : α → α → Prop} {before : Option (Stretch rank)} {order : List (ι × Stretch rank)}
    (each : ∀ x p y, order = x ++ p :: y → (f (lastOf before x) p.2).Pairwise R)
    (both : ∀ x p y q z, order = x ++ p :: (y ++ q :: z) → ∀ a ∈ f (lastOf before x) p.2,
      ∀ b ∈ f (lastOf (some p.2) y) q.2, R a b) : (along f before order).Pairwise R := by
  induction order generalizing before with
  | nil => exact .nil
  | cons p order ih =>
    refine List.pairwise_append.mpr ⟨each [] p order rfl, ih (fun x q y shape => ?_) (fun x q y r z shape => ?_), ?_⟩
    · have := each (p :: x) q y (by rw [shape, List.cons_append])
      rwa [lastOf_cons] at this
    · have := both (p :: x) q y r z (by rw [shape, List.cons_append])
      rwa [lastOf_cons] at this
    · intro a first b second
      obtain ⟨y, q, z, rfl, there⟩ := (mem_along f _ order b).mp second
      exact both [] p y q z rfl a first b there

variable {f}

theorem along_sublist {g : Option (Stretch rank) → Stretch rank → List α}
    (each : ∀ before s, (f before s).Sublist (g before s)) (before : Option (Stretch rank))
    (order : List (ι × Stretch rank)) : (along f before order).Sublist (along g before order) := by
  induction order generalizing before with
  | nil => exact .slnil
  | cons p order ih => exact (each before p.2).append (ih (some p.2))

theorem along_each {R : α → α → Prop} {before : Option (Stretch rank)} {x y : List (ι × Stretch rank)}
    {p : ι × Stretch rank} (whole : (along f before (x ++ p :: y)).Pairwise R) : (f (lastOf before x) p.2).Pairwise R := by
  rw [along_append, along] at whole
  exact (List.pairwise_append.mp (List.pairwise_append.mp whole).2.1).1

theorem along_both {R : α → α → Prop} {before : Option (Stretch rank)} {x y z : List (ι × Stretch rank)}
    {p q : ι × Stretch rank} (whole : (along f before (x ++ p :: (y ++ q :: z))).Pairwise R) {a b : α}
    (first : a ∈ f (lastOf before x) p.2) (second : b ∈ f (lastOf (some p.2) y) q.2) : R a b := by
  rw [along_append, along] at whole
  exact (List.pairwise_append.mp (List.pairwise_append.mp whole).2.1).2.2 a first b
    ((mem_along f _ _ b).mpr ⟨y, q, z, rfl, second⟩)

/-! ### What is kept of a merge -/

/-- Nothing of the same rank stands right in front of the head. -/
def Opens (before : Option (Stretch rank)) (s : Stretch rank) : Prop :=
  ∀ p ∈ before, p.level = s.level → p.carried ≠ []

instance (before : Option (Stretch rank)) (s : Stretch rank) : Decidable (Opens before s) :=
  inferInstanceAs (Decidable (∀ p ∈ before, _))

variable (keep : α → Bool)

/-- What is kept of the elements that a stretch carries. -/
def kept (s : Stretch rank) : List α := (firsts rank none s.carried).filter keep

def lead (before : Option (Stretch rank)) (s : Stretch rank) : List α :=
  if Opens before s ∧ keep s.head then [s.head] else []

def contribution (before : Option (Stretch rank)) (s : Stretch rank) : List α := lead keep before s ++ kept keep s

theorem kept_below {s : Stretch rank} {a : α} (member : a ∈ kept keep s) : rank a < s.level :=
  s.below a ((firsts_sublist _ _ _).subset (List.mem_of_mem_filter member))

theorem mem_lead {before : Option (Stretch rank)} {s : Stretch rank} {a : α} :
    a ∈ lead keep before s ↔ a = s.head ∧ Opens before s ∧ keep s.head := by
  rw [lead]
  split_ifs with opened <;> simp [opened]

/-- The rank of the last element of a stretch. -/
def ending (s : Stretch rank) : Option γ := lastKey rank (some s.level) s.carried

theorem ending_ne_iff {s t : Stretch rank} (order : s.level ≤ t.level) :
    ending s ≠ some t.level ↔ (s.level = t.level → s.carried ≠ []) := by
  cases last : s.carried.getLast? with
  | none => simp [ending, lastKey, List.getLast?_eq_none_iff.mp last]
  | some z =>
    have below := (s.below z (List.mem_of_getLast? last)).trans_le order
    have carries : s.carried ≠ [] := fun none => by simp [none] at last
    simp [ending, lastKey, last, carries, below.ne]

theorem firsts_stretch (s : Stretch rank) (before : Option (Stretch rank)) (order : ∀ p ∈ before, p.level ≤ s.level)
    (rest : List α) : (firsts rank (before.bind ending) (s.items ++ rest)).filter keep =
      contribution keep before s ++ (firsts rank (ending s) rest).filter keep := by
  have opened : before.bind ending ≠ some (rank s.head) ↔ Opens before s := by
    cases before with
    | none => simp [Opens]
    | some p => simpa [Opens, Stretch.level] using ending_ne_iff (order p rfl)
  have carried : firsts rank (some s.level) s.carried = firsts rank none s.carried := by
    refine firsts_fresh rank fun a first => ?_
    exact fun same => (s.below a (List.mem_of_mem_head? first)).ne (Option.some.inj same).symm
  rw [Stretch.items, List.cons_append, firsts]
  split_ifs with repeated
  · rw [firsts_append, List.filter_append, repeated, contribution, lead,
      if_neg fun h => absurd repeated (opened.mpr h.1), List.nil_append, kept, ← carried]
    rfl
  · rw [List.filter_cons, firsts_append, List.filter_append, contribution, lead, kept, ← carried]
    by_cases keeps : keep s.head <;> simp [keeps, opened.mp repeated, ending, Stretch.level]

/-- Of a merge of stretches each gives what the one before it lets through. -/
theorem kept_firsts {order : List (ι × Stretch rank)} (rising : order.Pairwise fun p q => p.2.level ≤ q.2.level)
    (before : Option (Stretch rank)) (behind : ∀ p ∈ before, ∀ q ∈ order, p.level ≤ q.2.level) :
    (firsts rank (before.bind ending) ((spread order).map Prod.snd)).filter keep =
      along (contribution keep) before order := by
  induction order generalizing before with
  | nil => rfl
  | cons p order ih =>
    obtain ⟨least, rest⟩ := List.pairwise_cons.mp rising
    have items : (spread (p :: order)).map Prod.snd = p.2.items ++ (spread order).map Prod.snd := by
      simp [spread, Function.comp_def]
    rw [items, firsts_stretch keep p.2 before fun q held => behind q held p List.mem_cons_self, along]
    have later := ih rest (some p.2) fun q held r member => by
      obtain rfl := Option.some.inj held
      exact least r member
    rw [← later]
    rfl

/-! ### Places in the sources -/

/-- A stretch at its place in its source. -/
structure Place (sources : ι → List (Stretch rank)) where
  source : ι
  front : List (Stretch rank)
  item : Stretch rank
  back : List (Stretch rank)
  shape : sources source = front ++ item :: back

variable {sources : ι → List (Stretch rank)}

theorem Place.mem (p : Place sources) : p.item ∈ sources p.source := p.shape ▸ by simp

/-- Some merge takes the one place before the other: it comes first in their source, or
is of another source and not larger. -/
def Place.Precedes (p q : Place sources) : Prop :=
  p.source = q.source ∧ p.front.length < q.front.length ∨ p.source ≠ q.source ∧ p.item.level ≤ q.item.level

/-- Some merge keeps the head of the place: it is kept behind the stretch before it in its
source, or a stretch of another source with the same level carries something. -/
def Place.MayLead (p : Place sources) : Prop :=
  keep p.item.head ∧ (Opens p.front.getLast? p.item ∨
    ∃ j, j ≠ p.source ∧ ∃ s ∈ sources j, s.level = p.item.level ∧ s.carried ≠ [])

def tied (sources : ι → List (Stretch rank)) (c : γ) (i : ι) : List (Stretch rank) :=
  (sources i).filter fun s => decide (s.level = c)

/-- What keeps the output of every merge falling. -/
structure Falls [DecidableEq ι] (sources : ι → List (Stretch rank)) : Prop where
  carried : ∀ p : Place sources, (kept keep p.item).Pairwise fun a b => rank b < rank a
  between : ∀ p q : Place sources, p.Precedes q → ∀ a ∈ kept keep p.item, ∀ b ∈ kept keep q.item, rank b < rank a
  behind : ∀ p q : Place sources, p.Precedes q → kept keep p.item ≠ [] → ¬ q.MayLead keep
  ahead : ∀ p q : Place sources, p.Precedes q → p.MayLead keep → ∀ b ∈ kept keep q.item, rank b < p.item.level
  leaders : ∀ p q : Place sources, p.MayLead keep → q.MayLead keep → p.item.level = q.item.level
  ties : ∀ c order, Interleaves (tied sources c) order → (along (lead keep) none order).length ≤ 1

/-! ### Orders with a stretch at a given place -/

theorem rising_split {l : List (Stretch rank)} (rising : Rising l) (c : γ) :
    l.filter (fun s => decide (s.level < c)) ++ (l.filter (fun s => decide (s.level = c)) ++
      l.filter fun s => decide (c < s.level)) = l := by
  induction l with
  | nil => rfl
  | cons s l ih =>
    obtain ⟨least, rest⟩ := List.pairwise_cons.mp rising
    have later := ih rest
    rcases lt_trichotomy s.level c with low | same | high
    · simp [low, low.ne, low.le, later]
    · have none : l.filter (fun t => decide (t.level < c)) = [] :=
        List.filter_eq_nil_iff.mpr fun t member => by simpa using same ▸ least t member
      rw [none, List.nil_append] at later
      simp [same, none, later]
    · have none : ∀ t ∈ l, c < t.level := fun t member => high.trans_le (least t member)
      have low : l.filter (fun t => decide (t.level < c)) = [] :=
        List.filter_eq_nil_iff.mpr fun t member => by simpa using (none t member).le
      have even : l.filter (fun t => decide (t.level = c)) = [] :=
        List.filter_eq_nil_iff.mpr fun t member => by simpa using (none t member).ne'
      rw [low, even, List.nil_append, List.nil_append] at later
      simp [high, high.ne', high.le, low, even, later]

theorem opens_behind {s : Stretch rank} {low x : List (Stretch rank)} (below : ∀ t ∈ low, t.level < s.level) :
    Opens (low ++ x).getLast? s ↔ Opens x.getLast? s := by
  cases last : x.getLast? with
  | some t => simp [List.getLast?_append, last]
  | none =>
    rw [List.getLast?_eq_none_iff.mp last, List.append_nil]
    refine iff_of_true (fun t held same => absurd same (below t (List.mem_of_getLast? held)).ne) (by simp [Opens])

theorem opens_tied {s : Stretch rank} {front : List (Stretch rank)} (rising : Rising front)
    (least : ∀ t ∈ front, t.level ≤ s.level) :
    Opens (front.filter fun t => decide (t.level = s.level)).getLast? s ↔ Opens front.getLast? s := by
  have none : front.filter (fun t => decide (s.level < t.level)) = [] :=
    List.filter_eq_nil_iff.mpr fun t member => by simpa using least t member
  have split := rising_split rising s.level
  rw [none, List.append_nil] at split
  conv_rhs => rw [← split]
  exact (opens_behind fun t member => by simpa using List.of_mem_filter member).symm

theorem lastOf_eq (x : List (ι × Stretch rank)) : lastOf none x = (x.map Prod.snd).getLast? := by
  simp [lastOf]

def lower (c : γ) (order : List (ι × Stretch rank)) : List (ι × Stretch rank) :=
  order.filter fun p => decide (p.2.level < c)

def upper (c : γ) (order : List (ι × Stretch rank)) : List (ι × Stretch rank) :=
  order.filter fun p => decide (c < p.2.level)

theorem mem_lower {c : γ} {order : List (ι × Stretch rank)} {p : ι × Stretch rank} :
    p ∈ lower c order ↔ p ∈ order ∧ p.2.level < c := by
  simp [lower]

theorem mem_upper {c : γ} {order : List (ι × Stretch rank)} {p : ι × Stretch rank} :
    p ∈ upper c order ↔ p ∈ order ∧ c < p.2.level := by
  simp [upper]

theorem opens_filter {x : List (ι × Stretch rank)} {s : Stretch rank}
    (sorted : x.Pairwise fun p q => p.2.level ≤ q.2.level) (least : ∀ q ∈ x, q.2.level ≤ s.level)
    (opened : Opens (lastOf none x) s) : Opens (lastOf none (x.filter fun p => decide (p.2.level = s.level))) s := by
  have small : ∀ t ∈ x.map Prod.snd, t.level ≤ s.level := by
    intro t member
    obtain ⟨q, inside, rfl⟩ := List.mem_map.mp member
    exact least q inside
  have tied := (opens_tied (List.pairwise_map.mpr sorted) small).mpr (by rwa [lastOf_eq] at opened)
  rwa [List.filter_map, ← lastOf_eq] at tied

theorem head_mem {before : Option (Stretch rank)} {s : Stretch rank} (opened : Opens before s) (keeps : keep s.head) :
    s.head ∈ contribution keep before s := List.mem_append_left _ ((mem_lead keep).mpr ⟨rfl, opened, keeps⟩)

theorem opens_lower (order : List (ι × Stretch rank)) {x : List (ι × Stretch rank)} {s : Stretch rank}
    (opened : Opens (lastOf none x) s) :
    Opens (lastOf none (lower s.level order ++ x)) s := by
  rw [lastOf_eq] at opened ⊢
  rw [List.map_append]
  refine (opens_behind fun t member => ?_).mpr opened
  obtain ⟨q, inside, rfl⟩ := List.mem_map.mp member
  exact (mem_lower.mp inside).2

variable [DecidableEq ι]

theorem split_at {order : List (ι × Stretch rank)} (takes : Interleaves sources order) (p : Place sources) :
    ∃ x y, order = x ++ (p.source, p.item) :: y ∧ (x.filter fun q => q.1 = p.source).map Prod.snd = p.front ∧
      (y.filter fun q => q.1 = p.source).map Prod.snd = p.back := by
  obtain ⟨first, second, whole, front, behind⟩ := List.map_eq_append_iff.mp ((takes p.source).trans p.shape)
  obtain ⟨⟨i, s⟩, rest, rfl, rfl, back⟩ := List.map_eq_cons_iff.mp behind
  obtain ⟨x, tail, rfl, rfl, shape⟩ := List.filter_eq_append_iff.mp whole
  obtain ⟨skipped, y, rfl, others, here, rfl⟩ := List.filter_eq_cons_iff.mp shape
  obtain rfl : i = p.source := by simpa using here
  refine ⟨x ++ skipped, y, by rw [List.append_assoc], ?_, back⟩
  rw [List.filter_append, List.filter_eq_nil_iff.mpr others, List.append_nil, front]

/-- The place of an element of an interleaving. -/
def placeAt {x y : List (ι × Stretch rank)} {i : ι} {s : Stretch rank} (takes : Interleaves sources (x ++ (i, s) :: y)) :
    Place sources where
  source := i
  front := (x.filter fun q => q.1 = i).map Prod.snd
  item := s
  back := (y.filter fun q => q.1 = i).map Prod.snd
  shape := by
    rw [← takes i, List.filter_append, List.filter_cons_of_pos (by simp), List.map_append, List.map_cons]

theorem mayLead_of_opens {x y : List (ι × Stretch rank)} {i : ι} {s : Stretch rank}
    (takes : Interleaves sources (x ++ (i, s) :: y)) (ordered : ∀ q ∈ x, q.2.level ≤ s.level)
    (latest : x.Pairwise fun p q => p.2.level ≤ q.2.level) (keeps : keep s.head)
    (opened : Opens (lastOf none x) s) : (placeAt takes).MayLead keep := by
  refine ⟨keeps, or_iff_not_imp_left.mpr fun closed => ?_⟩
  -- The stretch before it in its source ties and carries nothing, so another one was taken in between.
  simp only [Opens, not_forall, not_not] at closed
  obtain ⟨t, last, same, bare⟩ := closed
  have inside : (i, t) ∈ x := by
    have := List.mem_of_getLast? (Option.mem_def.mp last)
    simpa [placeAt] using this
  obtain ⟨⟨j, u⟩, final⟩ : ∃ q, x.getLast? = some q := by
    cases x with
    | nil => cases inside
    | cons q x => exact ⟨_, List.getLast?_eq_some_getLast (List.cons_ne_nil q x)⟩
  obtain ⟨before, rfl⟩ := List.getLast?_eq_some_iff.mp final
  have tie : u.level = s.level := by
    refine le_antisymm (ordered (j, u) (by simp)) ?_
    rcases List.mem_append.mp inside with early | here
    · exact same.symm.le.trans ((List.pairwise_append.mp latest).2.2 _ early (j, u) (by simp))
    · obtain ⟨_, rfl⟩ := Prod.mk.inj (List.mem_singleton.mp here)
      exact same.symm.le
  have carries : u.carried ≠ [] := opened u (by simp [lastOf]) tie
  refine ⟨j, ?_, u, (takes.mem_iff j u).mp (by simp), tie, carries⟩
  rintro rfl
  have ownLast : t = u := by simpa [placeAt] using last.symm
  exact carries (ownLast ▸ bare)

section
variable (rising : ∀ i, Rising (sources i))
include rising

omit [DecidableEq ι] in
theorem Place.front_le (p : Place sources) : ∀ t ∈ p.front, t.level ≤ p.item.level := fun t member =>
  (List.pairwise_append.mp (p.shape ▸ rising p.source)).2.2 t member p.item List.mem_cons_self

omit [DecidableEq ι] in
theorem Place.front_rising (p : Place sources) : Rising p.front :=
  (List.pairwise_append.mp (p.shape ▸ rising p.source)).1

/-- The stretches of one level can be taken in another way. -/
theorem run_splice {order tie : List (ι × Stretch rank)} (run : Run Stretch.level sources order) (c : γ)
    (takes : Interleaves (tied sources c) tie) : Run Stretch.level sources (lower c order ++ (tie ++ upper c order)) := by
  obtain ⟨whole, sorted⟩ := (run_iff_interleaves rising order).mp run
  have level : ∀ q ∈ tie, q.2.level = c := fun q member => by
    simpa using List.of_mem_filter ((takes.mem_iff q.1 q.2).mp member)
  refine (run_iff_interleaves rising _).mpr ⟨?_, ?_⟩
  · have parts := (whole.filter fun s => decide (s.level < c)).append
      (takes.append (whole.filter fun s => decide (c < s.level)))
    exact fun i => (parts i).trans (rising_split (rising i) c)
  · refine List.pairwise_append.mpr ⟨sorted.filter _, List.pairwise_append.mpr ⟨?_, sorted.filter _, ?_⟩, ?_⟩
    · exact List.pairwise_of_forall_mem_list fun p first q second => (level p first).trans (level q second).symm |>.le
    · exact fun p first q second => (level p first).le.trans (mem_upper.mp second).2.le
    · intro p first q second
      rcases List.mem_append.mp second with even | high
      · exact (mem_lower.mp first).2.le.trans (level q even).symm.le
      · exact ((mem_lower.mp first).2.trans (mem_upper.mp high).2).le

omit [DecidableEq ι] rising in
theorem Place.mem_of_before {p q : Place sources} (same : p.source = q.source) (before : p.front.length < q.front.length) :
    p.item ∈ q.front ∧ q.item ∈ p.back := by
  obtain ⟨i, front, s, back, shape⟩ := p
  obtain ⟨_, front', t, back', shape'⟩ := q
  obtain rfl : i = _ := same
  rcases List.append_eq_append_iff.mp (shape.symm.trans shape') with ⟨more, rfl, rest⟩ | ⟨more, rfl, _⟩
  · cases more with
    | nil => simp at before
    | cons u more =>
      obtain ⟨rfl, rfl⟩ := List.cons.inj rest
      simp
  · simp at before

omit [DecidableEq ι] in
theorem Place.Precedes.level_le {p q : Place sources} (precedes : p.Precedes q) : p.item.level ≤ q.item.level := by
  rcases precedes with ⟨same, before⟩ | ⟨_, level⟩
  · exact q.front_le rising _ (Place.mem_of_before same before).1
  · exact level

theorem mem_later {x y : List (ι × Stretch rank)} {p : ι × Stretch rank} (run : Run Stretch.level sources (x ++ p :: y))
    {j : ι} {t : Stretch rank} (held : t ∈ sources j) (larger : p.2.level < t.level) : (j, t) ∈ y := by
  obtain ⟨whole, sorted⟩ := (run_iff_interleaves rising _).mp run
  rcases List.mem_append.mp ((whole.mem_iff j t).mpr held) with early | here
  · exact absurd ((List.pairwise_append.mp sorted).2.2 _ early p List.mem_cons_self) (not_le.mpr larger)
  · rcases List.mem_cons.mp here with rfl | late
    · exact absurd larger (lt_irrefl _)
    · exact late

variable [Fintype ι]

omit rising [DecidableEq ι] [Fintype ι] in
theorem Place.tied_eq (p : Place sources) : tied sources p.item.level p.source =
    (p.front.filter fun t => decide (t.level = p.item.level)) ++ p.item ::
      p.back.filter fun t => decide (t.level = p.item.level) := by
  rw [tied, p.shape, List.filter_append, List.filter_cons_of_pos (by simp)]

omit rising in
theorem order_first (p : Place sources) : ∃ y, Interleaves (tied sources p.item.level)
    ((p.front.filter fun t => decide (t.level = p.item.level)).map (fun t => (p.source, t)) ++ (p.source, p.item) :: y) := by
  obtain ⟨y, takes⟩ := exists_interleaving (Function.update (tied sources p.item.level) p.source
    (p.back.filter fun t => decide (t.level = p.item.level)))
  refine ⟨y, interleaves_block p.tied_eq (interleaves_cons.mpr ⟨_, Function.update_self .., ?_⟩)⟩
  rwa [Function.update_idem]

omit rising in
/-- A stretch of another source with the same level can be taken right before the place. -/
theorem order_behind (p : Place sources) {j : ι} (other : j ≠ p.source) {s : Stretch rank} (member : s ∈ sources j)
    (level : s.level = p.item.level) : ∃ x y,
      Interleaves (tied sources p.item.level) (x ++ (j, s) :: (p.source, p.item) :: y) ∧
        ∀ t ∈ p.front, t.level = p.item.level → (p.source, t) ∈ x := by
  have held : s ∈ tied sources p.item.level j := List.mem_filter.mpr ⟨member, by simpa using level⟩
  obtain ⟨front, back, shape⟩ := List.append_of_mem held
  let own := (p.front.filter fun t => decide (t.level = p.item.level)).map fun t => (p.source, t)
  let rest := p.back.filter fun t => decide (t.level = p.item.level)
  obtain ⟨y, takes⟩ := exists_interleaving
    (Function.update (Function.update (tied sources p.item.level) j back) p.source rest)
  refine ⟨own ++ front.map fun t => (j, t), y, ?_, fun t inside same => List.mem_append_left _ ?_⟩
  · rw [List.append_assoc]
    refine interleaves_block p.tied_eq (interleaves_block ?_ (interleaves_cons.mpr ⟨back, Function.update_self .., ?_⟩))
    · rw [Function.update_of_ne other, shape]
    · refine interleaves_cons.mpr ⟨rest, ?_, ?_⟩
      · rw [Function.update_idem, Function.update_of_ne other.symm, Function.update_self]
      · rwa [Function.update_idem, Function.update_comm other.symm, Function.update_idem]
  · exact List.mem_map.mpr ⟨t, List.mem_filter.mpr ⟨inside, by simpa using same⟩, rfl⟩

theorem order_led {p : Place sources} (leads : p.MayLead keep) : ∃ x y,
    Interleaves (tied sources p.item.level) (x ++ (p.source, p.item) :: y) ∧ Opens (lastOf none x) p.item ∧
      ∀ t ∈ p.front, t.level = p.item.level → (p.source, t) ∈ x := by
  rcases leads.2 with own | ⟨j, other, s, member, level, carries⟩
  · obtain ⟨y, takes⟩ := order_first p
    refine ⟨_, y, takes, ?_, fun t inside same => List.mem_map.mpr ⟨t, ?_, rfl⟩⟩
    · rw [lastOf_eq, List.map_map]
      simpa [Function.comp_def] using (opens_tied (p.front_rising rising) (p.front_le rising)).mpr own
    · exact List.mem_filter.mpr ⟨inside, by simpa using same⟩
  · obtain ⟨x, y, takes, held⟩ := order_behind p other member level
    refine ⟨x ++ [(j, s)], y, by rwa [List.append_assoc], ?_, fun t inside same => ?_⟩
    · rw [lastOf_append]
      exact fun u last _ => Option.some.inj last ▸ carries
    · exact List.mem_append_left _ (held t inside same)

/-- Where the first place precedes the second, some merge takes it first. -/
theorem exists_before {p q : Place sources} (precedes : p.Precedes q) : ∃ x y z,
    Run Stretch.level sources (x ++ (p.source, p.item) :: (y ++ (q.source, q.item) :: z)) := by
  obtain ⟨order, run⟩ := exists_run Stretch.level sources
  have whole := ((run_iff_interleaves rising order).mp run).1
  have behind : ∀ {x y}, Run Stretch.level sources (x ++ (p.source, p.item) :: y) → (q.source, q.item) ∈ y →
      ∃ x y z, Run Stretch.level sources (x ++ (p.source, p.item) :: (y ++ (q.source, q.item) :: z)) := by
    intro x y run member
    obtain ⟨between, z, rfl⟩ := List.append_of_mem member
    exact ⟨x, between, z, run⟩
  obtain ⟨x, y, rfl, _, back⟩ := split_at whole p
  rcases precedes with ⟨same, before⟩ | ⟨other, level⟩
  · refine behind run ?_
    have inside := (Place.mem_of_before same before).2
    rw [← back] at inside
    obtain ⟨⟨i, t⟩, there, found⟩ := List.mem_map.mp inside
    obtain ⟨there, here⟩ := List.mem_filter.mp there
    obtain rfl : i = p.source := by simpa using here
    exact same ▸ found ▸ there
  · rcases level.lt_or_eq with smaller | tie
    · exact behind run (mem_later rising run q.mem smaller)
    · obtain ⟨u, v, takes, _⟩ := order_behind q other p.mem tie
      have spliced := run_splice rising run _ takes
      rw [List.append_assoc, List.cons_append, List.cons_append, ← List.append_assoc] at spliced
      exact behind spliced List.mem_cons_self

/-- A place that may lead does so in some merge, which is as before in front of its level. -/
theorem exists_leading {p : Place sources} (leads : p.MayLead keep) {order : List (ι × Stretch rank)}
    (run : Run Stretch.level sources order) : ∃ x y, Run Stretch.level sources
      (lower p.item.level order ++ x ++ (p.source, p.item) :: y) ∧
      Opens (lastOf none (lower p.item.level order ++ x)) p.item ∧
      ∀ t ∈ p.front, t.level = p.item.level → (p.source, t) ∈ x := by
  obtain ⟨x, y, takes, opened, held⟩ := order_led keep rising leads
  refine ⟨x, y ++ upper p.item.level order, ?_, opens_lower order opened, held⟩
  simpa using run_splice rising run _ takes

/-- Where a stretch that carries something precedes one that may lead, some merge takes it
first and the other leads. -/
theorem exists_behind {p q : Place sources} (precedes : p.Precedes q) (carries : p.item.carried ≠ [])
    (leads : q.MayLead keep) : ∃ x y z,
      Run Stretch.level sources (x ++ (p.source, p.item) :: (y ++ (q.source, q.item) :: z)) ∧
      Opens (lastOf (some p.item) y) q.item := by
  obtain ⟨order, run⟩ := exists_run Stretch.level sources
  by_cases tie : p.source ≠ q.source ∧ p.item.level = q.item.level
  · obtain ⟨u, v, takes, _⟩ := order_behind q tie.1 p.mem tie.2
    refine ⟨lower q.item.level order ++ u, [], v ++ upper q.item.level order, ?_, ?_⟩
    · simpa using run_splice rising run _ takes
    · exact fun s held _ => Option.some.inj held ▸ carries
  · obtain ⟨u, v, led, opened, held⟩ := exists_leading keep rising leads run
    have inside : (p.source, p.item) ∈ lower q.item.level order ++ u := by
      have whole := ((run_iff_interleaves rising order).mp run).1
      have taken := (whole.mem_iff p.source p.item).mpr p.mem
      rcases (precedes.level_le rising).lt_or_eq with smaller | same
      · exact List.mem_append_left _ (mem_lower.mpr ⟨taken, smaller⟩)
      · obtain ⟨own, before⟩ := precedes.resolve_right fun h => tie ⟨h.1, same⟩
        rw [own]
        exact List.mem_append_right _ (held _ (Place.mem_of_before own before).1 same)
    obtain ⟨x, y, shape⟩ := List.append_of_mem inside
    rw [shape] at led opened
    rw [lastOf_append, lastOf_cons] at opened
    exact ⟨x, y, v, by simpa using led, opened⟩

/-! ### Merges that fall -/

def Falling (keep : α → Bool) (order : List (ι × Stretch rank)) : Prop :=
  (along (contribution keep) none order).Pairwise fun a b => rank b < rank a

variable (all : ∀ order, Run Stretch.level sources order → Falling keep order)
include all

omit [DecidableEq ι] rising [Fintype ι] all in
theorem short_of_level {c : γ} {l : List α} (falls : l.Pairwise fun a b => rank b < rank a)
    (ranks : ∀ a ∈ l, rank a = c) : l.length ≤ 1 := by
  cases l with
  | nil => simp
  | cons a others =>
    cases others with
    | nil => simp
    | cons b others =>
      have smaller := (List.pairwise_cons.mp falls).1 b List.mem_cons_self
      rw [ranks a (by simp), ranks b (by simp)] at smaller
      exact absurd smaller (lt_irrefl c)

theorem falls_carried (p : Place sources) : (kept keep p.item).Pairwise fun a b => rank b < rank a := by
  obtain ⟨order, run⟩ := exists_run Stretch.level sources
  obtain ⟨x, y, rfl, _⟩ := split_at ((run_iff_interleaves rising order).mp run).1 p
  exact (List.pairwise_append.mp (along_each (all _ run))).2.1

theorem falls_between {p q : Place sources} (precedes : p.Precedes q) {a b : α} (first : a ∈ kept keep p.item)
    (second : b ∈ kept keep q.item) : rank b < rank a := by
  obtain ⟨x, y, z, run⟩ := exists_before rising precedes
  exact along_both (all _ run) (List.mem_append_right _ first) (List.mem_append_right _ second)

theorem falls_behind {p q : Place sources} (precedes : p.Precedes q) (keeps : kept keep p.item ≠ []) :
    ¬ q.MayLead keep := by
  intro leads
  obtain ⟨a, member⟩ := List.exists_mem_of_ne_nil _ keeps
  have carries : p.item.carried ≠ [] := fun none => by simp [kept, none, firsts] at keeps
  obtain ⟨x, y, z, run, opened⟩ := exists_behind keep rising precedes carries leads
  have later := along_both (all _ run) (List.mem_append_right _ member) (head_mem keep opened leads.1)
  exact absurd (later.trans (kept_below keep member)) (not_lt.mpr (precedes.level_le rising))

theorem falls_ahead {p q : Place sources} (precedes : p.Precedes q) (leads : p.MayLead keep) {b : α}
    (member : b ∈ kept keep q.item) : rank b < p.item.level := by
  rcases (precedes.level_le rising).lt_or_eq with smaller | tie
  · obtain ⟨order, run⟩ := exists_run Stretch.level sources
    obtain ⟨x, y, led, opened, _⟩ := exists_leading keep rising leads run
    obtain ⟨between, z, rfl⟩ := List.append_of_mem (mem_later rising led q.mem smaller)
    exact along_both (all _ led) (head_mem keep opened leads.1) (List.mem_append_right _ member)
  · exact tie ▸ kept_below keep member

theorem falls_leaders {p q : Place sources} (first : p.MayLead keep) (second : q.MayLead keep) :
    ¬ p.item.level < q.item.level := by
  intro smaller
  obtain ⟨order, run⟩ := exists_run Stretch.level sources
  obtain ⟨x, y, led, opened, _⟩ := exists_leading keep rising first run
  obtain ⟨x', y', led', opened', _⟩ := exists_leading keep rising second led
  -- All up to the first place is below the second one, and so taken as before.
  have ordered := ((run_iff_interleaves rising _).mp led).2
  have below : ∀ r ∈ lower p.item.level order ++ x, r.2.level < q.item.level := fun r member =>
    ((List.pairwise_append.mp ordered).2.2 r member _ List.mem_cons_self).trans_lt smaller
  have kept : lower q.item.level (lower p.item.level order ++ x ++ (p.source, p.item) :: y) =
      (lower p.item.level order ++ x) ++ (p.source, p.item) :: lower q.item.level y := by
    rw [lower, List.filter_append, List.filter_cons_of_pos (by simpa using smaller),
      List.filter_eq_self.mpr fun r member => by simpa using below r member]
    rfl
  rw [kept] at led' opened'
  rw [List.append_assoc, List.cons_append, lastOf_append, lastOf_cons] at opened'
  rw [List.append_assoc, List.append_assoc, List.cons_append, ← List.append_assoc (lower q.item.level y)] at led'
  have falls := along_both (all _ led') (head_mem keep opened first.1) (head_mem keep opened' second.1)
  exact lt_asymm smaller falls

theorem falls_ties (c : γ) {tie : List (ι × Stretch rank)} (takes : Interleaves (tied sources c) tie) :
    (along (lead keep) none tie).length ≤ 1 := by
  obtain ⟨order, run⟩ := exists_run Stretch.level sources
  have level : ∀ q ∈ tie, q.2.level = c := fun q member => by
    simpa using List.of_mem_filter ((takes.mem_iff q.1 q.2).mp member)
  have falls := all _ (run_splice rising run c takes)
  rw [Falling, along_append, along_append] at falls
  have within := (List.pairwise_append.mp (List.pairwise_append.mp falls).2.1).1
  have outside : along (lead keep) none tie = along (lead keep) (lastOf none (lower c order)) tie := by
    cases tie with
    | nil => rfl
    | cons q tie =>
      have opened : Opens (lastOf none (lower c order)) q.2 := by
        have first : Opens (lastOf none ([] : List (ι × Stretch rank))) q.2 := by simp [Opens]
        have behind := opens_lower order first
        rwa [List.append_nil, level q List.mem_cons_self] at behind
      have none : Opens none q.2 := by simp [Opens]
      simp [along, lead, opened, none]
  have heads := within.sublist (along_sublist
    (fun before s => List.sublist_append_left (lead keep before s) (kept keep s)) _ _)
  rw [← outside] at heads
  have ranks : ∀ a ∈ along (lead keep) none tie, rank a = c := by
    intro a member
    obtain ⟨x, q, y, rfl, inside⟩ := (mem_along _ _ _ a).mp member
    rw [((mem_lead keep).mp inside).1]
    exact level q (by simp)
  exact short_of_level heads ranks

omit [Fintype ι] all rising in
-- Two heads of one level that are both kept are kept among the ties too.
theorem leads_apart {c : γ} (few : ∀ tie, Interleaves (tied sources c) tie → (along (lead keep) none tie).length ≤ 1)
    {x y z : List (ι × Stretch rank)} {p q : ι × Stretch rank} (whole : Interleaves sources (x ++ p :: (y ++ q :: z)))
    (sorted : (x ++ p :: (y ++ q :: z)).Pairwise fun p q => p.2.level ≤ q.2.level) (first : p.2.level = c)
    (second : q.2.level = c) (opened : Opens (lastOf none x) p.2) (keeps : keep p.2.head)
    (opened' : Opens (lastOf none (x ++ p :: y)) q.2) (keeps' : keep q.2.head) : False := by
  have sortedLate : ((x ++ p :: y) ++ q :: z).Pairwise fun p q => p.2.level ≤ q.2.level := by
    rwa [List.append_assoc, List.cons_append]
  have here := opens_filter (List.pairwise_append.mp sorted).1
    (fun r member => (List.pairwise_append.mp sorted).2.2 r member p List.mem_cons_self) opened
  have there := opens_filter (List.pairwise_append.mp sortedLate).1
    (fun r member => (List.pairwise_append.mp sortedLate).2.2 r member q List.mem_cons_self) opened'
  rw [first] at here
  rw [second, List.filter_append, List.filter_cons_of_pos (by simpa using first), lastOf_append, lastOf_cons] at there
  have two := few _ (whole.filter fun s => decide (s.level = c))
  rw [List.filter_append, List.filter_cons_of_pos (by simpa using first), List.filter_append,
    List.filter_cons_of_pos (by simpa using second), along_append, along, along_append, along, lead,
    if_pos ⟨here, keeps⟩, lead, if_pos ⟨there, keeps'⟩] at two
  simp at two
  omega

omit [Fintype ι] all in
theorem falling_of_falls (falls : Falls keep sources) {order : List (ι × Stretch rank)}
    (run : Run Stretch.level sources order) : Falling keep order := by
  obtain ⟨whole, sorted⟩ := (run_iff_interleaves rising order).mp run
  refine along_pairwise _ (fun x p y shape => ?_) (fun x p y q z shape a first b second => ?_)
  · subst shape
    refine List.pairwise_append.mpr ⟨?_, falls.carried (placeAt whole), fun a leading b carried => ?_⟩
    · rw [lead]
      split_ifs <;> simp
    · rw [((mem_lead keep).mp leading).1]
      exact kept_below keep carried
  · have late : order = (x ++ p :: y) ++ q :: z := by rw [shape, List.append_assoc, List.cons_append]
    have takesFirst : Interleaves sources (x ++ (p.1, p.2) :: (y ++ q :: z)) := shape ▸ whole
    have takesSecond : Interleaves sources ((x ++ p :: y) ++ (q.1, q.2) :: z) := late ▸ whole
    obtain ⟨latest, _, before⟩ := List.pairwise_append.mp (late ▸ sorted)
    have leastSecond := fun r member => before r member q List.mem_cons_self
    obtain ⟨latestFirst, _, beforeFirst⟩ := List.pairwise_append.mp latest
    have leastFirst := fun r member => beforeFirst r member p List.mem_cons_self
    have precedes : (placeAt takesFirst).Precedes (placeAt takesSecond) := by
      by_cases same : p.1 = q.1
      · refine Or.inl ⟨same, ?_⟩
        simp [placeAt, same]
      · exact Or.inr ⟨same, leastSecond p (by simp)⟩
    have opensSecond : lastOf none (x ++ p :: y) = lastOf (some p.2) y := by rw [lastOf_append, lastOf_cons]
    rw [← opensSecond] at second
    rcases List.mem_append.mp first with leading | carried <;> rcases List.mem_append.mp second with leading' | carried'
    · obtain ⟨rfl, opened, keeps⟩ := (mem_lead keep).mp leading
      obtain ⟨rfl, opened', keeps'⟩ := (mem_lead keep).mp leading'
      have level := falls.leaders _ _ (mayLead_of_opens keep takesFirst leastFirst latestFirst keeps opened)
        (mayLead_of_opens keep takesSecond leastSecond latest keeps' opened')
      subst shape
      exact (leads_apart keep (falls.ties _) whole sorted rfl level.symm opened keeps opened' keeps').elim
    · obtain ⟨rfl, opened, keeps⟩ := (mem_lead keep).mp leading
      exact falls.ahead _ _ precedes (mayLead_of_opens keep takesFirst leastFirst latestFirst keeps opened) b carried'
    · obtain ⟨rfl, opened, keeps⟩ := (mem_lead keep).mp leading'
      exact absurd (mayLead_of_opens keep takesSecond leastSecond latest keeps opened)
        (falls.behind _ _ precedes (List.ne_nil_of_mem carried))
    · exact falls.between _ _ precedes a carried b carried'

end

/-- What every merge of the sources keeps falls in rank exactly if their stretches fall. -/
theorem merge_falls_iff [Fintype ι] (sources : ι → List α) :
    (∀ popped, Run rank sources popped →
      ((firsts rank none (popped.map Prod.snd)).filter keep).Pairwise fun a b => rank b < rank a) ↔
      Falls keep fun i => stretches rank (sources i) := by
  have rising : ∀ i, Rising (stretches rank (sources i)) := fun i => rising_stretches (sources i)
  have whole : (fun i => (stretches rank (sources i)).flatMap Stretch.items) = sources :=
    funext fun i => stretches_items (sources i)
  have merges : ∀ popped, Run rank sources popped ↔
      ∃ order, Run Stretch.level (fun i => stretches rank (sources i)) order ∧ popped = spread order := fun popped => by
    rw [← run_iff_stretches, whole]
  have output : ∀ order, Run Stretch.level (fun i => stretches rank (sources i)) order →
      (firsts rank none ((spread order).map Prod.snd)).filter keep = along (contribution keep) none order := fun order run =>
    kept_firsts keep ((run_iff_interleaves rising order).mp run).2 none (by simp)
  have orders : (∀ popped, Run rank sources popped →
      ((firsts rank none (popped.map Prod.snd)).filter keep).Pairwise fun a b => rank b < rank a) ↔
      ∀ order, Run Stretch.level (fun i => stretches rank (sources i)) order → Falling keep order := by
    constructor
    · intro falls order run
      have := falls _ ((merges _).mpr ⟨order, run, rfl⟩)
      rwa [output order run] at this
    · intro falls popped run
      obtain ⟨order, steps, rfl⟩ := (merges popped).mp run
      rw [output order steps]
      exact falls order steps
  rw [orders]
  constructor
  · intro all
    exact {
      carried := fun p => falls_carried keep rising all p
      between := fun p q precedes a first b second => falls_between keep rising all precedes first second
      behind := fun p q precedes keeps => falls_behind keep rising all precedes keeps
      ahead := fun p q precedes leads b member => falls_ahead keep rising all precedes leads member
      leaders := fun p q first second => le_antisymm (not_lt.mp (falls_leaders keep rising all second first))
        (not_lt.mp (falls_leaders keep rising all first second))
      ties := fun c tie takes => falls_ties keep rising all c takes }
  · exact fun falls order run => falling_of_falls keep rising falls run

/-! ### Sources without ties -/

section
variable [Fintype ι] {sources : ι → List α}

/-- All is kept and no two elements have one rank. -/
structure Distinct (rank : α → γ) (keep : α → Bool) (sources : ι → List α) : Prop where
  keeps : ∀ i, ∀ a ∈ sources i, keep a
  within : ∀ i, (sources i).Pairwise fun a b => rank a ≠ rank b
  across : ∀ i j, i ≠ j → ∀ a ∈ sources i, ∀ b ∈ sources j, rank a ≠ rank b

omit [Fintype ι] in
theorem distinct_pops {popped : List (ι × α)} {after : ι → List α} (steps : Steps rank sources popped after)
    (distinct : Distinct rank keep sources) : popped.Pairwise fun p q => rank p.2 ≠ rank q.2 := by
  induction steps with
  | refl => exact .nil
  | pop sources i r tail popped after front least later ih =>
    have within := List.pairwise_cons.mp (front ▸ distinct.within i)
    have subset : ∀ j, ∀ a ∈ Function.update sources i tail j, a ∈ sources j := by
      intro j a member
      by_cases here : j = i
      · subst here
        rw [Function.update_self] at member
        exact front ▸ List.mem_cons_of_mem r member
      · rwa [Function.update_of_ne here] at member
    refine List.pairwise_cons.mpr ⟨fun p member => ?_, ih ⟨?_, fun j => ?_, ?_⟩⟩
    · have there := mem_of_popped later (show (p.1, p.2) ∈ popped from member)
      by_cases here : p.1 = i
      · rw [here, Function.update_self] at there
        exact within.1 p.2 there
      · exact distinct.across i p.1 (Ne.symm here) r (front ▸ List.mem_cons_self) p.2 (subset p.1 p.2 there)
    · exact fun j a member => distinct.keeps j a (subset j a member)
    · by_cases here : j = i
      · subst here
        rw [Function.update_self]
        exact within.2
      · rw [Function.update_of_ne here]
        exact distinct.within j
    · exact fun j k other a first b second => distinct.across j k other a (subset j a first) b (subset k b second)

theorem firsts_distinct (last : Option γ) {l : List α} (distinct : l.Pairwise fun a b => rank a ≠ rank b)
    (fresh : ∀ c ∈ last, ∀ a ∈ l, c ≠ rank a) : firsts rank last l = l := by
  induction l generalizing last with
  | nil => rfl
  | cons a l ih =>
    obtain ⟨first, rest⟩ := List.pairwise_cons.mp distinct
    have other : last ≠ some (rank a) := fun held => fresh _ held a List.mem_cons_self rfl
    rw [firsts, if_neg other, ih _ rest fun c held b member => Option.some.inj held ▸ first b member]

/-- Without ties the output falls only if there is one source, which falls by itself. -/
theorem falls_distinct_iff (distinct : Distinct rank keep sources) :
    Falls keep (fun i => stretches rank (sources i)) ↔
      (∀ i j, sources i ≠ [] → sources j ≠ [] → i = j) ∧
        ∀ i, (sources i).Pairwise fun a b => rank b < rank a := by
  have output : ∀ popped, Run rank sources popped →
      (firsts rank none (popped.map Prod.snd)).filter keep = popped.map Prod.snd := by
    intro popped run
    rw [firsts_distinct none (List.pairwise_map.mpr (distinct_pops keep run distinct)) (by simp)]
    refine List.filter_eq_self.mpr fun a member => ?_
    obtain ⟨p, inside, rfl⟩ := List.mem_map.mp member
    exact distinct.keeps p.1 p.2 (mem_of_popped run inside)
  rw [← merge_falls_iff]
  constructor
  · intro falls
    obtain ⟨popped, run⟩ := exists_run rank sources
    have falling := falls popped run
    rw [output popped run] at falling
    constructor
    · intro i j filled filled'
      by_contra apart
      cases run with
      | refl => exact filled rfl
      | pop _ k r tail rest _ front least later =>
        -- The head of the other source is popped later and is not smaller.
        obtain ⟨l, other, some⟩ : ∃ l, l ≠ k ∧ sources l ≠ [] := by
          by_cases here : i = k
          · exact ⟨j, fun there => apart (here.trans there.symm), filled'⟩
          · exact ⟨i, here, filled⟩
        obtain ⟨h, back, shape⟩ := List.exists_cons_of_ne_nil some
        have waits : h ∈ Function.update sources k tail l := by
          rw [Function.update_of_ne other, shape]
          exact List.mem_cons_self
        have behind := List.mem_map_of_mem (f := Prod.snd) (popped_of_mem later waits)
        have falls := (List.pairwise_cons.mp falling).1 h behind
        exact absurd (least l h (by rw [shape]; rfl)) (not_le.mpr falls)
    · intro i
      have part := steps_source run i
      rw [List.append_nil] at part
      exact part ▸ falling.sublist (List.filter_sublist.map Prod.snd)
  · rintro ⟨single, each⟩ popped run
    rw [output popped run]
    cases popped with
    | nil => exact .nil
    | cons p rest =>
      have filled : ∀ q ∈ p :: rest, sources q.1 ≠ [] := fun q member => List.ne_nil_of_mem (mem_of_popped run member)
      have same : ∀ q ∈ p :: rest, q.1 = p.1 := fun q member =>
        single q.1 p.1 (filled q member) (filled p List.mem_cons_self)
      have part := steps_source run p.1
      rw [List.append_nil, List.filter_eq_self.mpr fun q member => by simpa using same q member] at part
      exact part ▸ each p.1

end

end DescendingMerge
