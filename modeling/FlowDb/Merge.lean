import Mathlib.Data.Fintype.Basic
import Mathlib.Data.Finset.Max
import Mathlib.Algebra.BigOperators.Group.Finset.Basic
import Mathlib.Algebra.Order.BigOperators.Group.Finset

/-! Merging several lists through a heap of their heads. Every step pops a head
of least rank; heads of equal rank may pop in any order, so a merge is a relation
between the sources and the order popped. Nothing is assumed about the order
inside a source unless a theorem says so. -/
namespace Merge
variable {ι α γ : Type} [DecidableEq ι] [LinearOrder γ]

/-- No head of a source has a smaller rank. -/
def Least (rank : α → γ) (sources : ι → List α) (r : α) : Prop :=
  ∀ j, ∀ h ∈ (sources j).head?, rank r ≤ rank h

/-- `popped` lists, in order, what was taken from which source on the way from the
first sources to the second. -/
inductive Steps (rank : α → γ) : (ι → List α) → List (ι × α) → (ι → List α) → Prop
  | refl (sources : ι → List α) : Steps rank sources [] sources
  | pop (sources : ι → List α) (i : ι) (r : α) (tail : List α) (popped : List (ι × α))
      (after : ι → List α) (front : sources i = r :: tail) (least : Least rank sources r)
      (later : Steps rank (Function.update sources i tail) popped after) :
      Steps rank sources ((i, r) :: popped) after

def Run (rank : α → γ) (sources : ι → List α) (popped : List (ι × α)) : Prop :=
  Steps rank sources popped fun _ => []

variable {rank : α → γ}

theorem steps_append {sources after : ι → List α} {a b : List (ι × α)} :
    Steps rank sources (a ++ b) after ↔
      ∃ middle, Steps rank sources a middle ∧ Steps rank middle b after := by
  constructor
  · intro steps
    induction a generalizing sources with
    | nil => exact ⟨sources, .refl sources, steps⟩
    | cons head rest ih =>
      cases steps with
      | pop _ i r tail _ _ front least later =>
        obtain ⟨middle, first, second⟩ := ih later
        exact ⟨middle, .pop _ i r tail _ _ front least first, second⟩
  · rintro ⟨middle, first, second⟩
    induction first with
    | refl sources => exact second
    | pop sources i r tail popped after front least later ih =>
      exact .pop sources i r tail _ _ front least (ih second)

/-- The pops of one source are a front of it, and what is left follows. -/
theorem steps_source {sources after : ι → List α} {popped : List (ι × α)}
    (steps : Steps rank sources popped after) (i : ι) :
    sources i = ((popped.filter fun p => p.1 = i).map Prod.snd) ++ after i := by
  induction steps with
  | refl sources => rfl
  | pop sources j r tail popped after front least later ih =>
    by_cases here : j = i
    · subst here
      rw [front, List.filter_cons_of_pos (by simp), List.map_cons, List.cons_append]
      simpa using ih
    · rw [List.filter_cons_of_neg (by simpa using here), ← ih,
        Function.update_of_ne (Ne.symm here)]

theorem mem_of_popped {sources after : ι → List α} {popped : List (ι × α)}
    (steps : Steps rank sources popped after) {i : ι} {r : α} (member : (i, r) ∈ popped) :
    r ∈ sources i := by
  rw [steps_source steps i]
  refine List.mem_append_left _ (List.mem_map.mpr ⟨(i, r), ?_, rfl⟩)
  exact List.mem_filter.mpr ⟨member, by simp⟩

theorem popped_of_mem {sources : ι → List α} {popped : List (ι × α)}
    (run : Run rank sources popped) {i : ι} {r : α} (member : r ∈ sources i) :
    (i, r) ∈ popped := by
  rw [steps_source run i, List.append_nil] at member
  obtain ⟨⟨j, x⟩, kept, rfl⟩ := List.mem_map.mp member
  obtain ⟨there, here⟩ := List.mem_filter.mp kept
  obtain rfl : j = i := by simpa using here
  exact there

theorem run_nodup {sources after : ι → List α} {popped : List (ι × α)}
    (steps : Steps rank sources popped after) (nodup : ∀ i, (sources i).Nodup) : popped.Nodup := by
  induction steps with
  | refl sources => exact .nil
  | pop sources i r tail popped after front least later ih =>
    have once := List.nodup_cons.mp (front ▸ nodup i)
    refine List.nodup_cons.mpr ⟨fun again => once.1 ?_, ih fun j => ?_⟩
    · simpa using mem_of_popped later again
    · by_cases here : j = i
      · subst here
        simpa using once.2
      · rw [Function.update_of_ne here]
        exact nodup j

/-- A merge of images, with the originals put back in their places, is a merge of
the originals. -/
theorem steps_map_iff {β : Type} (f : α → β) (rank : β → γ) {sources : ι → List α} (after : ι → List α)
    {popped : List (ι × α)}
    (places : ∀ i, sources i = ((popped.filter fun p => p.1 = i).map Prod.snd) ++ after i) :
    Steps rank (fun i => (sources i).map f) (popped.map fun p => (p.1, f p.2)) (fun i => (after i).map f) ↔
      Steps (fun a => rank (f a)) sources popped after := by
  induction popped generalizing sources with
  | nil =>
    obtain rfl : sources = after := funext fun i => by simpa using places i
    exact ⟨fun _ => .refl _, fun _ => .refl _⟩
  | cons first rest ih =>
    obtain ⟨i, r⟩ := first
    let tail := ((rest.filter fun p => p.1 = i).map Prod.snd) ++ after i
    have front : sources i = r :: tail := by
      rw [places i, List.filter_cons_of_pos (by simp)]
      rfl
    have placesLater : ∀ j, Function.update sources i tail j =
        ((rest.filter fun p => p.1 = j).map Prod.snd) ++ after j := by
      intro j
      by_cases here : j = i
      · subst here
        rw [Function.update_self]
      · rw [Function.update_of_ne here, places j, List.filter_cons_of_neg (by simpa using Ne.symm here)]
    have images : Function.update (fun j => (sources j).map f) i (tail.map f) =
        fun j => (Function.update sources i tail j).map f := by
      funext j
      by_cases here : j = i
      · subst here
        simp
      · rw [Function.update_of_ne here, Function.update_of_ne here]
    have heads : Least rank (fun j => (sources j).map f) (f r) ↔ Least (fun a => rank (f a)) sources r := by
      simp [Least]
    constructor
    · intro steps
      cases steps with
      | pop _ _ _ imageTail _ _ imageFront least later =>
        have imageFront : (sources i).map f = f r :: imageTail := imageFront
        rw [front, List.map_cons] at imageFront
        obtain ⟨_, rfl⟩ := List.cons.inj imageFront
        rw [images] at later
        exact .pop _ i r tail _ _ front (heads.mp least) ((ih placesLater).mp later)
    · intro steps
      cases steps with
      | pop _ _ _ otherTail _ _ otherFront least later =>
        obtain ⟨_, rfl⟩ := List.cons.inj (front.symm.trans otherFront)
        refine .pop _ i (f r) (tail.map f) _ _ (by rw [front, List.map_cons]) (heads.mpr least) ?_
        rw [images]
        exact (ih placesLater).mpr later

/-! Merges exist: some head is always least. -/

omit [DecidableEq ι] in
theorem exists_least [Fintype ι] (rank : α → γ) (sources : ι → List α)
    (some : ∃ i, sources i ≠ []) :
    ∃ i r tail, sources i = r :: tail ∧ Least rank sources r := by
  classical
  let heads : Finset γ := Finset.univ.biUnion fun i =>
    ((sources i).head?.map rank).toFinset
  have mem_heads : ∀ c, c ∈ heads ↔ ∃ i, ∃ h ∈ (sources i).head?, rank h = c := by
    intro c
    simp [heads]
  have nonempty : heads.Nonempty := by
    obtain ⟨i, nonempty⟩ := some
    obtain ⟨h, tail, shape⟩ := List.exists_cons_of_ne_nil nonempty
    exact ⟨rank h, (mem_heads _).mpr ⟨i, h, by simp [shape], rfl⟩⟩
  obtain ⟨i, r, front, same⟩ := (mem_heads _).mp (heads.min'_mem nonempty)
  obtain ⟨tail, shape⟩ : ∃ tail, sources i = r :: tail := by
    cases shape : sources i with
    | nil => simp [shape] at front
    | cons h tail => exact ⟨tail, by simpa [shape] using front⟩
  refine ⟨i, r, tail, shape, fun j h head => ?_⟩
  rw [same]
  exact heads.min'_le _ ((mem_heads _).mpr ⟨j, h, head, rfl⟩)

def remaining [Fintype ι] (sources : ι → List α) : Nat := ∑ i, (sources i).length

theorem remaining_pop [Fintype ι] {sources : ι → List α} {i : ι} {r : α} {tail : List α}
    (front : sources i = r :: tail) :
    remaining (Function.update sources i tail) < remaining sources := by
  apply Finset.sum_lt_sum
  · intro j _
    by_cases here : j = i
    · subst here
      simp [front]
    · rw [Function.update_of_ne here]
  · exact ⟨i, Finset.mem_univ i, by simp [front]⟩

/-- Every element below a bound can be popped first; then all heads reach it. -/
theorem drain [Fintype ι] (rank : α → γ) (bound : γ) (sources : ι → List α) :
    ∃ popped after, Steps rank sources popped after ∧ (∀ p ∈ popped, rank p.2 < bound) ∧
      ∀ j, ∀ h ∈ (after j).head?, bound ≤ rank h := by
  induction size : remaining sources using Nat.strong_induction_on generalizing sources with
  | _ n ih =>
    by_cases reached : ∀ j, ∀ h ∈ (sources j).head?, bound ≤ rank h
    · exact ⟨[], sources, .refl sources, by simp, reached⟩
    · simp only [not_forall] at reached
      obtain ⟨j, h, head, below⟩ := reached
      obtain ⟨i, r, tail, front, least⟩ := exists_least rank sources
        ⟨j, fun empty => by simp [empty] at head⟩
      have small : rank r < bound := (least j h head).trans_lt (not_le.mp below)
      obtain ⟨popped, after, steps, low, ready⟩ :=
        ih _ (size ▸ remaining_pop front) (Function.update sources i tail) rfl
      refine ⟨(i, r) :: popped, after, .pop _ i r tail _ _ front least steps, ?_, ready⟩
      intro p member
      rcases List.mem_cons.mp member with rfl | later
      · exact small
      · exact low p later

theorem exists_run [Fintype ι] (rank : α → γ) (sources : ι → List α) :
    ∃ popped, Run rank sources popped := by
  induction size : remaining sources using Nat.strong_induction_on generalizing sources with
  | _ n ih =>
    by_cases done : ∀ i, sources i = []
    · refine ⟨[], ?_⟩
      rw [funext done]
      exact .refl _
    · simp only [not_forall] at done
      obtain ⟨i, r, tail, front, least⟩ := exists_least rank sources done
      obtain ⟨popped, run⟩ := ih _ (size ▸ remaining_pop front) (Function.update sources i tail) rfl
      exact ⟨(i, r) :: popped, .pop _ i r tail _ _ front least run⟩

/-! Keeping the first of each stretch of equal keys. -/

section
variable {κ : Type} [DecidableEq κ]

@[grind] def firsts (key : α → κ) : Option κ → List α → List α
  | _, [] => []
  | last, a :: rest =>
      if last = some (key a) then firsts key last rest
      else a :: firsts key (some (key a)) rest

/-- The key of the element in front of what follows `front`. -/
def lastKey (key : α → κ) (last : Option κ) (front : List α) : Option κ :=
  match front.getLast? with
  | some a => some (key a)
  | none => last

omit [DecidableEq κ] in
theorem lastKey_cons (key : α → κ) (last : Option κ) (a : α) (front : List α) :
    lastKey key last (a :: front) = lastKey key (some (key a)) front := by
  cases front with
  | nil => rfl
  | cons b rest => simp [lastKey, List.getLast?_cons]

theorem mem_firsts_iff (key : α → κ) (last : Option κ) (l : List α) (a : α) :
    a ∈ firsts key last l ↔
      ∃ front back, l = front ++ a :: back ∧ lastKey key last front ≠ some (key a) := by
  induction l generalizing last with
  | nil => simp [firsts]
  | cons b rest ih =>
    have later : (∃ front back, b :: rest = front ++ a :: back ∧
        lastKey key last front ≠ some (key a)) ↔ (b = a ∧ last ≠ some (key a)) ∨
        ∃ front back, rest = front ++ a :: back ∧ lastKey key (some (key b)) front ≠ some (key a) := by
      constructor
      · rintro ⟨front, back, shape, differs⟩
        cases front with
        | nil =>
          obtain ⟨rfl, rfl⟩ := List.cons.inj shape
          exact Or.inl ⟨rfl, differs⟩
        | cons c front =>
          obtain ⟨rfl, rfl⟩ := List.cons.inj shape
          exact Or.inr ⟨front, back, rfl, lastKey_cons key last b front ▸ differs⟩
      · rintro (⟨rfl, differs⟩ | ⟨front, back, rfl, differs⟩)
        · exact ⟨[], rest, rfl, differs⟩
        · exact ⟨b :: front, back, rfl, (lastKey_cons key last b front).symm ▸ differs⟩
    rw [later, firsts]
    split_ifs with repeated
    · rw [ih, repeated]
      refine ⟨Or.inr, fun found => found.resolve_left ?_⟩
      rintro ⟨rfl, differs⟩
      exact differs rfl
    · rw [List.mem_cons, ih]
      refine or_congr_left ⟨?_, fun h => h.1.symm⟩
      rintro rfl
      exact ⟨rfl, repeated⟩

theorem firsts_append (key : α → κ) (last : Option κ) (x y : List α) :
    firsts key last (x ++ y) = firsts key last x ++ firsts key (lastKey key last x) y := by
  induction x generalizing last with
  | nil => rfl
  | cons a x ih =>
    rw [List.cons_append, firsts, firsts, lastKey_cons]
    split_ifs with repeated
    · rw [ih, repeated]
    · rw [ih, List.cons_append]

theorem firsts_fresh (key : α → κ) {last : Option κ} {l : List α} (fresh : ∀ a ∈ l.head?, last ≠ some (key a)) :
    firsts key last l = firsts key none l := by
  cases l with
  | nil => rfl
  | cons a l => simp [firsts, fresh a rfl]

/-- Keys that tell the same elements apart keep the same ones. -/
theorem firsts_congr {κ' : Type} [DecidableEq κ'] {key : α → κ} {other : α → κ'}
    (same : ∀ a b, key a = key b ↔ other a = other b) (last : Option α) (l : List α) :
    firsts key (last.map key) l = firsts other (last.map other) l := by
  induction l generalizing last with
  | nil => rfl
  | cons a rest ih =>
    have repeated : last.map key = some (key a) ↔ last.map other = some (other a) := by
      cases last with
      | none => simp
      | some b => simpa using same b a
    rw [firsts, firsts]
    by_cases again : last.map other = some (other a)
    · rw [if_pos again, if_pos (repeated.mpr again), ih]
    · rw [if_neg again, if_neg fun h => again (repeated.mp h)]
      exact congrArg (a :: ·) (ih (some a))

theorem firsts_sublist (key : α → κ) (last : Option κ) (l : List α) :
    (firsts key last l).Sublist l := by
  induction l generalizing last with
  | nil => exact .slnil
  | cons a rest ih =>
    rw [firsts]
    split_ifs
    · exact (ih last).cons a
    · exact (ih _).cons_cons a

/-- Each key of the list is the key of an element that is kept. -/
theorem exists_first (key : α → κ) (last : Option κ) {l : List α} {a : α} (member : a ∈ l)
    (fresh : last ≠ some (key a)) : ∃ first ∈ firsts key last l, key first = key a := by
  induction l generalizing last with
  | nil => cases member
  | cons b rest ih =>
    rw [firsts]
    split_ifs with repeated
    · rcases List.mem_cons.mp member with rfl | later
      · exact absurd repeated fresh
      · exact ih last later fresh
    · by_cases same : key b = key a
      · exact ⟨b, List.mem_cons_self, same⟩
      · rcases List.mem_cons.mp member with rfl | later
        · exact absurd rfl same
        · obtain ⟨first, kept, here⟩ := ih (some (key b)) later fun h => same (Option.some.inj h)
          exact ⟨first, List.mem_cons_of_mem b kept, here⟩

end

section
variable {κ : Type} [LinearOrder κ] [DecidableEq κ]

-- On a list sorted by key, a stretch of equal keys is all there is of the key.
theorem firsts_sorted (key : α → κ) (last : Option κ) (l : List α)
    (sorted : l.Pairwise fun a b => key a ≤ key b) (behind : ∀ k ∈ last, ∀ a ∈ l, k ≤ key a) :
    (firsts key last l).Pairwise (fun a b => key a < key b) ∧
      ∀ k ∈ last, ∀ a ∈ firsts key last l, k < key a := by
  induction l generalizing last with
  | nil => simp [firsts]
  | cons a rest ih =>
    obtain ⟨least, restSorted⟩ := List.pairwise_cons.mp sorted
    rw [firsts]
    split_ifs with repeated
    · exact ih last restSorted fun k held b member => behind k held b (List.mem_cons_of_mem a member)
    · obtain ⟨ordered, above⟩ := ih (some (key a)) restSorted fun k held b member => by
        obtain rfl := Option.some.inj held
        exact least b member
      refine ⟨List.pairwise_cons.mpr ⟨above (key a) rfl, ordered⟩, fun k held b member => ?_⟩
      have strict : k < key a := lt_of_le_of_ne (behind k held a List.mem_cons_self) fun same =>
        repeated (by rw [← same]; exact held)
      rcases List.mem_cons.mp member with rfl | later
      · exact strict
      · exact strict.trans (above (key a) rfl b later)

theorem find?_firsts (key : α → κ) (last : Option κ) (l : List α)
    (sorted : l.Pairwise fun a b => key a ≤ key b) (k : κ) (other : last ≠ some k) :
    (firsts key last l).find? (fun a => key a = k) = l.find? fun a => key a = k := by
  induction l generalizing last with
  | nil => rfl
  | cons a rest ih =>
    obtain ⟨least, restSorted⟩ := List.pairwise_cons.mp sorted
    rw [firsts]
    split_ifs with repeated
    · have differs : key a ≠ k := fun same => other (same ▸ repeated)
      rw [ih last restSorted other, List.find?_cons_of_neg (by simpa using differs)]
    · by_cases here : key a = k
      · rw [List.find?_cons_of_pos (by simpa using here), List.find?_cons_of_pos (by simpa using here)]
      · rw [List.find?_cons_of_neg (by simpa using here), List.find?_cons_of_neg (by simpa using here)]
        exact ih _ restSorted fun same => here (Option.some.inj same)

theorem find?_strict (key : α → κ) (l : List α) (sorted : l.Pairwise fun a b => key a < key b)
    (a : α) (member : a ∈ l) : l.find? (fun b => key b = key a) = some a := by
  induction l with
  | nil => cases member
  | cons b rest ih =>
    obtain ⟨below, restSorted⟩ := List.pairwise_cons.mp sorted
    rcases List.mem_cons.mp member with rfl | later
    · rw [List.find?_cons_of_pos (by simp)]
    · rw [List.find?_cons_of_neg (by simpa using ne_of_lt (below a later))]
      exact ih restSorted later

end

/-! Sources sorted by rank. -/

theorem run_sorted {sources after : ι → List α} {popped : List (ι × α)}
    (sorted : ∀ i, (sources i).Pairwise fun a b => rank a ≤ rank b)
    (steps : Steps rank sources popped after) :
    (popped.map Prod.snd).Pairwise fun a b => rank a ≤ rank b := by
  induction steps with
  | refl sources => exact .nil
  | pop sources i r tail popped after front least later ih =>
    have tailSorted := (List.pairwise_cons.mp (front ▸ sorted i)).2
    have restSorted : ∀ j, (Function.update sources i tail j).Pairwise fun a b => rank a ≤ rank b := by
      intro j
      by_cases here : j = i
      · subst here
        simpa using tailSorted
      · rw [Function.update_of_ne here]
        exact sorted j
    refine List.pairwise_cons.mpr ⟨fun x member => ?_, ih restSorted⟩
    obtain ⟨⟨j, y⟩, there, rfl⟩ := List.mem_map.mp member
    have inSource : y ∈ sources j := by
      have := mem_of_popped later there
      by_cases here : j = i
      · subst here
        rw [Function.update_self] at this
        rw [front]
        exact List.mem_cons_of_mem r this
      · rwa [Function.update_of_ne here] at this
    cases shape : sources j with
    | nil => simp [shape] at inSource
    | cons h rest =>
      have atHead := least j h (by simp [shape])
      rcases List.mem_cons.mp (shape ▸ inSource) with rfl | behind
      · exact atHead
      · exact atHead.trans ((List.pairwise_cons.mp (shape ▸ sorted j)).1 y behind)

section
variable {κ : Type} [DecidableEq κ] {key : α → κ}

-- The first element popped of a key is its first in some source, of least rank.
theorem run_first {sources : ι → List α} {popped : List (ι × α)}
    (sorted : ∀ i, (sources i).Pairwise fun a b => rank a ≤ rank b)
    (run : Run rank sources popped) {k : κ} {h : α}
    (first : (popped.map Prod.snd).find? (fun a => key a = k) = some h) :
    (∃ i, (sources i).find? (fun a => key a = k) = some h) ∧
      ∀ j, ∀ x ∈ sources j, key x = k → rank h ≤ rank x := by
  rw [List.find?_map, Option.map_eq_some_iff] at first
  obtain ⟨⟨i, h⟩, found, rfl⟩ := first
  obtain ⟨here, before, behind, shape, none⟩ := List.find?_eq_some_iff_append.mp found
  have sortedPops := run_sorted sorted run
  constructor
  · refine ⟨i, ?_⟩
    rw [steps_source run i, shape, List.append_nil, List.filter_append, List.map_append,
      List.filter_cons_of_pos (by simp), List.map_cons]
    refine List.find?_eq_some_iff_append.mpr ⟨by simpa using here, _, _, rfl, fun a member => ?_⟩
    obtain ⟨p, kept, rfl⟩ := List.mem_map.mp member
    simpa using none p (List.mem_of_mem_filter kept)
  · intro j x member keyed
    have popped := popped_of_mem run member
    rw [shape, List.mem_append, List.mem_cons] at popped
    rw [shape, List.map_append, List.map_cons, List.pairwise_append, List.pairwise_cons] at sortedPops
    rcases popped with early | same | late
    · exact absurd keyed (by simpa using none (j, x) early)
    · obtain ⟨rfl, rfl⟩ := Prod.mk.inj same
      exact le_refl _
    · exact sortedPops.2.1.1 x (List.mem_map.mpr ⟨(j, x), late, rfl⟩)

/-- Whichever source's first element of a key has least rank can be the first of
its key to be popped. -/
theorem exists_run_first [Fintype ι] {sources : ι → List α}
    (sorted : ∀ i, (sources i).Pairwise fun a b => rank a ≤ rank b)
    (keyed : ∀ a b, rank a = rank b → key a = key b) {i : ι} {k : κ} {h : α}
    (first : (sources i).find? (fun a => key a = k) = some h)
    (least : ∀ j, ∀ x ∈ sources j, key x = k → rank h ≤ rank x) :
    ∃ popped, Run rank sources popped ∧
      (popped.map Prod.snd).find? (fun a => key a = k) = some h := by
  obtain ⟨low, ready, steps, below, reached⟩ := drain rank (rank h) sources
  obtain ⟨here, before, behind, shape, none⟩ := List.find?_eq_some_iff_append.mp first
  have here : key h = k := by simpa using here
  have lowSource := steps_source steps i
  have sourceSorted := sorted i
  rw [shape, List.pairwise_append] at sourceSorted
  have strict : ∀ z ∈ before, rank z < rank h := fun z member =>
    lt_of_le_of_ne (sourceSorted.2.2 z member h List.mem_cons_self) fun same => by
      have other : key z ≠ k := by simpa using none z member
      exact other ((keyed z h same).trans here)
  -- The drain takes exactly what stands before `h` in its source.
  obtain ⟨tail, front⟩ : ∃ tail, ready i = h :: tail := by
    rw [shape] at lowSource
    rcases List.append_eq_append_iff.mp lowSource with ⟨more, taken, rest⟩ | ⟨more, taken, rest⟩
    · cases more with
      | nil => exact ⟨behind, by simpa using rest.symm⟩
      | cons x more =>
        obtain ⟨rfl, _⟩ := List.cons.inj rest
        have popped : h ∈ ((low.filter fun p => p.1 = i).map Prod.snd) := taken ▸ by simp
        obtain ⟨p, kept, same⟩ := List.mem_map.mp popped
        exact absurd (same ▸ below p (List.mem_of_mem_filter kept)) (lt_irrefl _)
    · cases more with
      | nil => exact ⟨behind, by simpa using rest⟩
      | cons z more =>
        have head := reached i z (by simp [rest])
        exact absurd (strict z (taken ▸ by simp)) (not_lt.mpr head)
  obtain ⟨more, rest⟩ := exists_run rank (Function.update ready i tail)
  have step : Run rank ready ((i, h) :: more) :=
    .pop _ i h tail _ _ front (fun j x head => reached j x head) rest
  refine ⟨low ++ (i, h) :: more, steps_append.mpr ⟨ready, steps, step⟩, ?_⟩
  rw [List.map_append, List.map_cons]
  refine List.find?_eq_some_iff_append.mpr ⟨by simpa using here, _, _, rfl, fun a member => ?_⟩
  obtain ⟨⟨j, x⟩, there, rfl⟩ := List.mem_map.mp member
  have small := below _ there
  have inSource : x ∈ sources j := mem_of_popped steps there
  simpa using fun same => absurd (least j x inSource same) (not_le.mpr small)

end

end Merge
