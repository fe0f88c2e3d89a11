import Mathlib.Data.List.Lex
import Mathlib.Data.List.Infix
import Mathlib.Order.Cover

/-! Lexicographic order and prefixes. The words with a given prefix are a convex
set, and where the letters have a greatest one they are the words from the
prefix up to its successor: the last letter that can grow grows, what follows it
is cut off. -/
namespace PrefixOrder
variable {α : Type} [LinearOrder α] {p a b k : List α}

theorem cons_lt_cons {x y : α} : x :: a < y :: b ↔ x < y ∨ x = y ∧ a < b := List.cons_lt_cons_iff

theorem cons_le_cons {x y : α} : x :: a ≤ y :: b ↔ x < y ∨ x = y ∧ a ≤ b := by
  rw [← not_lt, cons_lt_cons, ← not_lt (a := b)]
  constructor
  · intro above
    rcases lt_trichotomy x y with less | rfl | greater
    · exact Or.inl less
    · exact Or.inr ⟨rfl, fun below => above (Or.inr ⟨rfl, below⟩)⟩
    · exact absurd (Or.inl greater) above
  · rintro (less | ⟨rfl, notBelow⟩) (greater | ⟨same, below⟩)
    · exact lt_asymm less greater
    · exact less.ne same.symm
    · exact lt_irrefl _ greater
    · exact notBelow below

theorem not_cons_le_nil {x : α} : ¬x :: a ≤ [] := not_le.mpr (List.nil_lt_cons x a)

@[simp] theorem append_le_append_left : p ++ a ≤ p ++ b ↔ a ≤ b := by
  induction p with
  | nil => rfl
  | cons x rest ih => rw [List.cons_append, List.cons_append, cons_le_cons, ih]; simp

@[simp] theorem append_lt_append_left : p ++ a < p ++ b ↔ a < b := by
  rw [← not_le, append_le_append_left, not_le]

-- Words of one length in front decide before what follows them.
theorem append_lt_append {c d : List α} (level : a.length = b.length) :
    a ++ c < b ++ d ↔ a < b ∨ a = b ∧ c < d := by
  induction a generalizing b with
  | nil =>
    obtain rfl := List.length_eq_zero_iff.mp level.symm
    simp
  | cons x rest ih =>
    cases b with
    | nil => cases level
    | cons y tail =>
      rw [List.cons_append, List.cons_append, cons_lt_cons, cons_lt_cons, ih (Nat.succ.inj level), List.cons.injEq]
      tauto

theorem prefix_le (front : p <+: k) : p ≤ k := by
  obtain ⟨rest, rfl⟩ := front
  exact not_lt.mp fun less => List.not_lt_nil rest <| by
    rwa [← append_lt_append_left (p := p), List.append_nil]

theorem prefix_lt (front : p <+: k) (proper : p ≠ k) : p < k := lt_of_le_of_ne (prefix_le front) proper

theorem prefix_between (low : p <+: a) (high : p <+: b) (above : a ≤ k) (below : k ≤ b) : p <+: k := by
  induction p generalizing a b k with
  | nil => exact List.nil_prefix
  | cons x rest ih =>
    obtain ⟨a', rfl⟩ := low
    obtain ⟨b', rfl⟩ := high
    cases k with
    | nil => exact absurd above not_cons_le_nil
    | cons y k =>
      rcases cons_le_cons.mp above with greater | ⟨rfl, tailAbove⟩
      · rcases cons_le_cons.mp below with less | ⟨same, _⟩
        · exact absurd (greater.trans less) (lt_irrefl _)
        · exact absurd same greater.ne'
      · rcases cons_le_cons.mp below with less | ⟨_, tailBelow⟩
        · exact absurd less (lt_irrefl _)
        · exact (List.prefix_cons_inj _).mpr <|
            ih (List.prefix_append rest a') (List.prefix_append rest b') tailAbove tailBelow

-- Nothing lies between a word and the word with a least letter added.
theorem between_least {bottom : α} (least : ∀ x, bottom ≤ x) : p ≤ k ∧ k < p ++ [bottom] ↔ k = p := by
  constructor
  · rintro ⟨above, below⟩
    obtain ⟨rest, rfl⟩ := prefix_between List.prefix_rfl (List.prefix_append p [bottom]) above below.le
    rw [append_lt_append_left] at below
    cases rest with
    | nil => exact List.append_nil p
    | cons x rest =>
      rcases cons_lt_cons.mp below with less | ⟨_, less⟩
      · exact absurd less (not_lt.mpr (least x))
      · exact absurd less (List.not_lt_nil rest)
  · rintro rfl
    exact ⟨le_refl k, prefix_lt (List.prefix_append k _) (by simp)⟩

omit [LinearOrder α] in
-- A word without the mark that begins a marked word ends before the mark.
theorem prefix_before_mark {mark : α} (free : mark ∉ p) (front : p <+: a ++ mark :: b) : p <+: a := by
  rcases List.prefix_or_prefix_of_prefix front (List.prefix_append a (mark :: b)) with inside | ⟨rest, rfl⟩
  · exact inside
  · rw [List.prefix_append_right_inj] at front
    cases rest with
    | nil => simp
    | cons x more =>
      obtain rfl := (List.cons_prefix_cons.mp front).1
      exact absurd (List.mem_append_right a List.mem_cons_self) free

-- A word that lies before another without beginning it lies before it however it goes on.
theorem append_lt_of_lt (less : a < b) (apart : ¬a <+: b) (back : List α) : a ++ back < b := by
  induction a generalizing b with
  | nil => exact absurd List.nil_prefix apart
  | cons x rest ih =>
    cases b with
    | nil => exact absurd less (List.not_lt_nil _)
    | cons y tail =>
      rcases cons_lt_cons.mp less with first | ⟨rfl, later⟩
      · exact cons_lt_cons.mpr (Or.inl first)
      · refine cons_lt_cons.mpr (Or.inr ⟨rfl, ih later fun front => apart ?_⟩)
        exact (List.prefix_cons_inj x).mpr front

-- A least mark behind a word moves it across no word that does not go on with the mark.
theorem marked_lt {mark : α} (least : ∀ x, mark ≤ x) (free : ¬a ++ [mark] <+: b) : a ++ mark :: k < b ↔ a < b := by
  refine ⟨(prefix_lt (List.prefix_append a _) (by simp)).trans, fun less => ?_⟩
  by_cases front : a <+: b
  · obtain ⟨back, rfl⟩ := front
    rw [append_lt_append_left]
    cases back with
    | nil => simp at less
    | cons x rest =>
      have other : mark ≠ x := by
        rintro rfl
        exact free ⟨rest, by simp⟩
      exact cons_lt_cons.mpr (Or.inl (lt_of_le_of_ne (least x) other))
  · exact append_lt_of_lt less front _

theorem le_marked {mark : α} (least : ∀ x, mark ≤ x) (free : ¬a ++ [mark] <+: b) : b ≤ a ++ mark :: k ↔ b ≤ a := by
  rw [← not_lt, marked_lt least free, not_lt]

theorem marked_le {mark : α} (least : ∀ x, mark ≤ x) (free : ¬a ++ [mark] <+: b) : a ++ mark :: k ≤ b ↔ a < b := by
  rw [le_iff_lt_or_eq, marked_lt least free, or_iff_left]
  rintro rfl
  exact free ⟨k, by simp⟩

section Successor
variable {top : α} (greatest : ∀ x, x ≤ top)

/-- The least word above all words with the prefix `p`. -/
def Successor (top : α) (p q : List α) : Prop :=
  ∃ front x y n, p = front ++ x :: List.replicate n top ∧ x ⋖ y ∧ q = front ++ [y]

include greatest in
theorem tops_begin (n : Nat) (above : List.replicate n top ≤ k) : List.replicate n top <+: k := by
  induction n generalizing k with
  | zero => exact List.nil_prefix
  | succ n ih =>
    rw [List.replicate_succ] at above ⊢
    cases k with
    | nil => exact absurd above not_cons_le_nil
    | cons y k =>
      rcases cons_le_cons.mp above with less | ⟨rfl, rest⟩
      · exact absurd less (not_lt.mpr (greatest y))
      · exact (List.prefix_cons_inj _).mpr (ih rest)

include greatest in
theorem between_successor {q : List α} (next : Successor top p q) : p ≤ k ∧ k < q ↔ p <+: k := by
  obtain ⟨front, x, y, n, rfl, cover, rfl⟩ := next
  constructor
  · rintro ⟨above, below⟩
    obtain ⟨rest, rfl⟩ := prefix_between (List.prefix_append front _) (List.prefix_append front _) above below.le
    rw [append_le_append_left] at above
    rw [append_lt_append_left] at below
    refine (List.prefix_append_right_inj front).mpr ?_
    cases rest with
    | nil => exact absurd above not_cons_le_nil
    | cons z rest =>
      have less : z < y := by simpa using cons_lt_cons.mp below
      rcases cons_le_cons.mp above with greater | ⟨rfl, tops⟩
      · exact absurd less (cover.2 greater)
      · exact (List.prefix_cons_inj _).mpr (tops_begin greatest n tops)
  · rintro ⟨rest, rfl⟩
    refine ⟨prefix_le (List.prefix_append _ rest), ?_⟩
    rw [List.append_assoc, append_lt_append_left, List.cons_append, cons_lt_cons]
    exact Or.inl cover.1

-- What stands before the successor's last letter stands in the prefix already.
theorem proper_prefix_successor {q : List α} (next : Successor top p q) (inside : k <+: q) (proper : k ≠ q) :
    k <+: p ∧ k.length < p.length := by
  obtain ⟨front, x, y, n, rfl, _, rfl⟩ := next
  rcases List.prefix_concat_iff.mp inside with whole | front_of
  · exact absurd whole proper
  · exact ⟨front_of.trans (List.prefix_append _ _), Nat.lt_of_le_of_lt front_of.length_le (by simp)⟩

end Successor
end PrefixOrder
