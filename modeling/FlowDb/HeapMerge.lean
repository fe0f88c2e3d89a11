import FlowDb.Merge

/-! Merging through a priority queue of the heads. The queue holds an entry for the
head of each source that has one; popping an entry and pushing the next of its source
keeps it so, and pops least heads. Which of several greatest entries is popped, and
how the queue lays out what it holds, is left open. -/
namespace HeapMerge

/-- A priority queue that pops greatest elements first. -/
structure MaxHeap {ε : Type} (cmp : ε → ε → Ordering) where
  push : List ε → ε → List ε
  pop : List ε → Option (ε × List ε)
  push_perm : ∀ held e, (push held e).Perm (e :: held)
  pop_empty : ∀ held, pop held = none → held = []
  pop_perm : ∀ held e rest, pop held = some (e, rest) → held.Perm (e :: rest)
  pop_greatest : ∀ held e rest, pop held = some (e, rest) → ∀ x ∈ held, cmp x e ≠ .gt

variable {α ε : Type} (entry : Nat → α → ε)

/-- The entries of the heads, sources counted from `i`. -/
def heads : Nat → List (List α) → List ε
  | _, [] => []
  | i, source :: rest => (source.head?.map (entry i)).toList ++ heads (i + 1) rest

variable {entry}

theorem mem_heads {i : Nat} {sources : List (List α)} {e : ε} :
    e ∈ heads entry i sources ↔ ∃ (j : Nat) (r : α) (tail : List α), sources[j]? = some (r :: tail) ∧ e = entry (i + j) r := by
  induction sources generalizing i with
  | nil => simp [heads]
  | cons source rest ih =>
    rw [heads, List.mem_append, ih]
    constructor
    · rintro (first | ⟨j, r, tail, there, rfl⟩)
      · cases source with
        | nil => simp at first
        | cons r tail => exact ⟨0, r, tail, rfl, by simpa using first⟩
      · exact ⟨j + 1, r, tail, there, by rw [Nat.add_right_comm, Nat.add_assoc]⟩
    · rintro ⟨j, r, tail, there, rfl⟩
      cases j with
      | zero =>
        obtain rfl : source = r :: tail := by simpa using there
        simp
      | succ j => exact Or.inr ⟨j, r, tail, there, by rw [Nat.add_right_comm, Nat.add_assoc]⟩

/-- Taking the head of a source off exchanges its entry for that of the next. -/
theorem heads_set {i j : Nat} {sources : List (List α)} {r : α} {tail : List α} (there : sources[j]? = some (r :: tail)) :
    ∃ others, (heads entry i sources).Perm (entry (i + j) r :: others) ∧
      (heads entry i (sources.set j tail)).Perm ((tail.head?.map (entry (i + j))).toList ++ others) := by
  induction sources generalizing i j with
  | nil => simp at there
  | cons source rest ih =>
    cases j with
    | zero =>
      obtain rfl : source = r :: tail := by simpa using there
      exact ⟨heads entry (i + 1) rest, .refl _, .refl _⟩
    | succ j =>
      obtain ⟨others, before, after⟩ := ih (i := i + 1) there
      rw [Nat.add_right_comm, Nat.add_assoc] at before after
      let first := (source.head?.map (entry i)).toList
      refine ⟨first ++ others, ?_, ?_⟩
      · exact (before.append_left first).trans List.perm_middle
      · rw [List.set_cons_succ]
        refine (after.append_left first).trans ?_
        rw [← List.append_assoc, ← List.append_assoc]
        exact List.perm_append_comm.append_right _

theorem heads_empty {i : Nat} {sources : List (List α)} (none : heads entry i sources = []) (source : List α)
    (member : source ∈ sources) : source = [] := by
  cases source with
  | nil => rfl
  | cons r tail =>
    obtain ⟨j, there⟩ := List.mem_iff_getElem?.mp member
    have listed : entry (i + j) r ∈ heads entry i sources := mem_heads.mpr ⟨j, r, tail, there, rfl⟩
    rw [none] at listed
    cases listed

end HeapMerge
