import FlowDb.Merge

/-! Merges of sources in any order, cut into stretches: an element with nothing larger
in front of it, and the smaller ones behind it, which come out with it. The heads of the
stretches of a source rise, so a merge interleaves stretches in the order of their heads. -/
namespace MergeStretches
open Merge
variable {ι α γ : Type} [DecidableEq ι]

/-! ### Interleavings -/

/-- `order` takes every source's elements in their order, tagged by source. -/
def Interleaves (sources : ι → List α) (order : List (ι × α)) : Prop :=
  ∀ i, (order.filter fun p => p.1 = i).map Prod.snd = sources i

theorem interleaves_nil {sources : ι → List α} : Interleaves sources [] ↔ sources = fun _ => [] :=
  ⟨fun order => funext fun i => (order i).symm, fun empty i => by rw [empty]; rfl⟩

theorem interleaves_cons {sources : ι → List α} {i : ι} {a : α} {order : List (ι × α)} :
    Interleaves sources ((i, a) :: order) ↔
      ∃ tail, sources i = a :: tail ∧ Interleaves (Function.update sources i tail) order := by
  constructor
  · intro takes
    have front := takes i
    rw [List.filter_cons_of_pos (by simp), List.map_cons] at front
    refine ⟨_, front.symm, fun j => ?_⟩
    by_cases here : j = i
    · subst here
      rw [Function.update_self]
    · have rest := takes j
      rw [List.filter_cons_of_neg (by simpa using Ne.symm here)] at rest
      rw [Function.update_of_ne here, rest]
  · rintro ⟨tail, front, takes⟩ j
    have rest := takes j
    by_cases here : j = i
    · subst here
      rw [Function.update_self] at rest
      rw [List.filter_cons_of_pos (by simp), List.map_cons, rest, front]
    · rw [Function.update_of_ne here] at rest
      rw [List.filter_cons_of_neg (by simpa using Ne.symm here), rest]

theorem Interleaves.append {first second : ι → List α} {a b : List (ι × α)} (left : Interleaves first a)
    (right : Interleaves second b) : Interleaves (fun i => first i ++ second i) (a ++ b) := by
  intro i
  rw [List.filter_append, List.map_append, left i, right i]

/-- Some elements of one source, then the rest. -/
theorem interleaves_block {sources : ι → List α} {i : ι} {block rest : List α} {order : List (ι × α)}
    (shape : sources i = block ++ rest) (takes : Interleaves (Function.update sources i rest) order) :
    Interleaves sources (block.map (fun a => (i, a)) ++ order) := by
  induction block generalizing sources with
  | nil =>
    rw [List.nil_append] at shape
    rwa [← shape, Function.update_eq_self] at takes
  | cons a block ih =>
    refine interleaves_cons.mpr ⟨block ++ rest, shape, ih (Function.update_self ..) ?_⟩
    rwa [Function.update_idem]

theorem exists_interleaving [Fintype ι] (sources : ι → List α) : ∃ order, Interleaves sources order := by
  obtain ⟨order, run⟩ := exists_run (fun _ : α => ()) sources
  exact ⟨order, fun i => by rw [steps_source run i, List.append_nil]⟩

theorem Interleaves.filter {sources : ι → List α} {order : List (ι × α)} (takes : Interleaves sources order)
    (keep : α → Bool) : Interleaves (fun i => (sources i).filter keep) (order.filter fun p => keep p.2) := by
  intro i
  simp only [← takes i]
  rw [List.filter_comm, List.filter_map]
  rfl

theorem Interleaves.mem_iff {sources : ι → List α} {order : List (ι × α)} (takes : Interleaves sources order) (i : ι)
    (a : α) : (i, a) ∈ order ↔ a ∈ sources i := by
  rw [← takes i]
  simp

variable [LinearOrder γ] {rank : α → γ}

/-- A merge of sorted sources is an interleaving in the order of rank. -/
theorem run_iff_interleaves {sources : ι → List α} (sorted : ∀ i, (sources i).Pairwise fun a b => rank a ≤ rank b)
    (order : List (ι × α)) :
    Run rank sources order ↔ Interleaves sources order ∧ order.Pairwise fun p q => rank p.2 ≤ rank q.2 := by
  constructor
  · intro run
    have rising := run_sorted sorted run
    rw [List.pairwise_map] at rising
    exact ⟨fun i => by rw [steps_source run i, List.append_nil], rising⟩
  · rintro ⟨takes, rising⟩
    induction order generalizing sources with
    | nil =>
      rw [interleaves_nil.mp takes]
      exact .refl _
    | cons p order ih =>
      obtain ⟨i, a⟩ := p
      obtain ⟨tail, front, rest⟩ := interleaves_cons.mp takes
      obtain ⟨least, risingRest⟩ := List.pairwise_cons.mp rising
      refine .pop _ i a tail _ _ front (fun j h head => ?_) (ih (fun j => ?_) rest risingRest)
      · have inside := (takes.mem_iff j h).mpr (List.mem_of_mem_head? head)
        rcases List.mem_cons.mp inside with same | later
        · rw [(Prod.mk.inj same).2]
        · exact least _ later
      · by_cases here : j = i
        · subst here
          rw [Function.update_self]
          exact (List.pairwise_cons.mp (front ▸ sorted j)).2
        · rw [Function.update_of_ne here]
          exact sorted j

/-! ### Stretches -/

/-- An element and smaller ones behind it. -/
structure Stretch (rank : α → γ) where
  head : α
  carried : List α
  below : ∀ z ∈ carried, rank z < rank head

namespace Stretch

def items (s : Stretch rank) : List α := s.head :: s.carried

def level (s : Stretch rank) : γ := rank s.head

end Stretch

theorem items_le {s : Stretch rank} {z : α} (member : z ∈ s.items) : rank z ≤ s.level := by
  rcases List.mem_cons.mp member with rfl | carried
  · exact le_refl _
  · exact (s.below z carried).le

/-- A source cut in front of every element that has nothing larger in front of it. -/
def stretches (rank : α → γ) : List α → List (Stretch rank)
  | [] => []
  | a :: rest =>
      let later := stretches rank rest
      ⟨a, (later.takeWhile fun s => decide (s.level < rank a)).flatMap Stretch.items, by
        intro z member
        obtain ⟨s, taken, inside⟩ := List.mem_flatMap.mp member
        exact (items_le inside).trans_lt (by simpa using List.all_eq_true.mp List.all_takeWhile s taken)⟩ ::
      later.dropWhile fun s => decide (s.level < rank a)

def Rising (stretches : List (Stretch rank)) : Prop := stretches.Pairwise fun s t => s.level ≤ t.level

theorem stretches_items (l : List α) : (stretches rank l).flatMap Stretch.items = l := by
  induction l with
  | nil => rfl
  | cons a rest ih =>
    rw [stretches, List.flatMap_cons, Stretch.items, List.cons_append, ← List.flatMap_append,
      List.takeWhile_append_dropWhile, ih]

theorem rising_stretches (l : List α) : Rising (stretches rank l) := by
  induction l with
  | nil => exact .nil
  | cons a rest ih =>
    have later := ih.sublist (List.dropWhile_sublist fun s => decide (s.level < rank a))
    refine List.pairwise_cons.mpr ⟨fun s member => ?_, later⟩
    -- The first stretch that is left is not below `a`, and the others are not below it.
    cases shape : (stretches rank rest).dropWhile fun s => decide (s.level < rank a) with
    | nil => simp [shape] at member
    | cons first others =>
      have stays : rank a ≤ first.level := by
        have := List.head?_dropWhile_not (fun s : Stretch rank => decide (s.level < rank a)) (stretches rank rest)
        simpa [shape] using this
      rw [shape] at member later
      rcases List.mem_cons.mp member with rfl | behind
      · exact stays
      · exact stays.trans ((List.pairwise_cons.mp later).1 s behind)

-- Elements smaller than all other heads come out next.
theorem run_forced {sources : ι → List α} {popped : List (ι × α)} {i : ι} {block rest : List α}
    (shape : sources i = block ++ rest)
    (least : ∀ z ∈ block, ∀ j, j ≠ i → ∀ h ∈ (sources j).head?, rank z < rank h) :
    Run rank sources popped ↔ ∃ later, popped = block.map (fun z => (i, z)) ++ later ∧
      Run rank (Function.update sources i rest) later := by
  induction block generalizing sources popped with
  | nil =>
    rw [List.nil_append] at shape
    simp [← shape]
  | cons z block ih =>
    have others : ∀ y ∈ block, ∀ j, j ≠ i →
        ∀ h ∈ (Function.update sources i (block ++ rest) j).head?, rank y < rank h := by
      intro y member j other h head
      rw [Function.update_of_ne other] at head
      exact least y (List.mem_cons_of_mem z member) j other h head
    have later : ∀ popped, Run rank (Function.update sources i (block ++ rest)) popped ↔
        ∃ later, popped = block.map (fun z => (i, z)) ++ later ∧ Run rank (Function.update sources i rest) later := by
      intro popped
      rw [ih (Function.update_self ..) others, Function.update_idem]
    constructor
    · intro run
      cases run with
      | refl => simp at shape
      | pop _ j r tail _ _ front first after =>
        have here : j = i := by
          by_contra other
          have small := first i z (by simp [shape])
          exact absurd (least z List.mem_cons_self j other r (by simp [front])) (not_lt.mpr small)
        subst here
        obtain ⟨rfl, rfl⟩ := List.cons.inj (front.symm.trans shape)
        obtain ⟨behind, rfl, run⟩ := (later _).mp after
        exact ⟨behind, rfl, run⟩
    · rintro ⟨behind, rfl, run⟩
      refine .pop _ i z (block ++ rest) _ _ shape (fun j h head => ?_) ((later _).mpr ⟨behind, rfl, run⟩)
      by_cases here : j = i
      · subst here
        rw [shape] at head
        obtain rfl : z = h := by simpa using head
        exact le_refl _
      · exact (least z List.mem_cons_self j here h head).le

def spread (order : List (ι × Stretch rank)) : List (ι × α) := order.flatMap fun p => p.2.items.map fun z => (p.1, z)

omit [DecidableEq ι] in
theorem head?_items (sources : List (Stretch rank)) :
    (sources.flatMap Stretch.items).head? = sources.head?.map Stretch.head := by
  cases sources <;> rfl

theorem items_update (sources : ι → List (Stretch rank)) (i : ι) (tail : List (Stretch rank)) :
    Function.update (fun j => (sources j).flatMap Stretch.items) i (tail.flatMap Stretch.items) =
      fun j => (Function.update sources i tail j).flatMap Stretch.items := by
  funext j
  by_cases here : j = i
  · subst here
    rw [Function.update_self, Function.update_self]
  · rw [Function.update_of_ne here, Function.update_of_ne here]

-- A stretch whose head is least comes out whole.
theorem run_stretch {sources : ι → List (Stretch rank)} {i : ι} {s : Stretch rank} {tail : List (Stretch rank)}
    (least : Least Stretch.level sources s) (popped : List (ι × α)) :
    Run rank (Function.update (fun j => (sources j).flatMap Stretch.items) i
        (s.carried ++ tail.flatMap Stretch.items)) popped ↔
      ∃ later, popped = s.carried.map (fun z => (i, z)) ++ later ∧
        Run rank (fun j => (Function.update sources i tail j).flatMap Stretch.items) later := by
  refine (run_forced (Function.update_self ..) fun z member j other h head => ?_).trans ?_
  · rw [Function.update_of_ne other, head?_items] at head
    obtain ⟨t, first, rfl⟩ := Option.map_eq_some_iff.mp head
    exact (s.below z member).trans_le (least j t first)
  · rw [Function.update_idem, items_update]

/-- A merge of any sources is a merge of their stretches. -/
theorem run_iff_stretches (sources : ι → List (Stretch rank)) (popped : List (ι × α)) :
    Run rank (fun i => (sources i).flatMap Stretch.items) popped ↔
      ∃ order, Run Stretch.level sources order ∧ popped = spread order := by
  constructor
  · intro run
    induction size : popped.length using Nat.strong_induction_on generalizing sources popped with
    | _ n ih =>
      generalize shape : (fun i => (sources i).flatMap Stretch.items) = items at run
      cases run with
      | refl =>
        have empty : sources = fun _ => [] := by
          funext i
          have none := congrFun shape i
          cases source : sources i with
          | nil => rfl
          | cons s tail => simp [source, Stretch.items] at none
        exact ⟨[], empty ▸ .refl _, rfl⟩
      | pop _ i r rest popped _ front least later =>
        subst shape
        cases source : sources i with
        | nil => simp [source] at front
        | cons s tail =>
          have front : (sources i).flatMap Stretch.items = r :: rest := front
          rw [source, List.flatMap_cons, Stretch.items, List.cons_append] at front
          obtain ⟨rfl, rfl⟩ := List.cons.inj front
          have first : Least Stretch.level sources s := fun j t head =>
            least j t.head (by rw [head?_items, Option.mem_def.mp head]; rfl)
          obtain ⟨behind, rfl, run⟩ := (run_stretch first popped).mp later
          have smaller : behind.length < n := by
            rw [← size, List.length_cons, List.length_append]
            omega
          obtain ⟨order, merged, rfl⟩ := ih behind.length smaller _ behind run rfl
          exact ⟨(i, s) :: order, .pop _ i s tail _ _ source first merged, rfl⟩
  · rintro ⟨order, merged, rfl⟩
    induction order generalizing sources with
    | nil =>
      cases merged
      exact .refl _
    | cons p order ih =>
      cases merged with
      | pop _ i s tail _ _ front least later =>
        refine .pop _ i s.head (s.carried ++ tail.flatMap Stretch.items) _ _ ?_ (fun j h head => ?_)
          ((run_stretch least _).mpr ⟨_, rfl, ih _ later⟩)
        · rw [front]
          rfl
        · rw [head?_items] at head
          obtain ⟨t, first, rfl⟩ := Option.map_eq_some_iff.mp head
          exact least j t first

end MergeStretches
