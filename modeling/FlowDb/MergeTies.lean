import FlowDb.Merge

/-! Merges of sources in any order. When does an element come out right behind one
of equal rank, the case in which a merge that keeps the first of each rank loses
it? An element that stands behind one of larger rank in its source comes out right
after its predecessor there; any other can meet an equal head of another source. -/
namespace MergeTies
open Merge
variable {ι α γ : Type} [DecidableEq ι] [LinearOrder γ] {rank : α → γ}

theorem steps_split_at {sources after : ι → List α} {popped : List (ι × α)}
    (steps : Steps rank sources popped after) {j : ι} {front back : List α} {z : α}
    (shape : sources j = front ++ z :: back) (taken : (after j).length ≤ back.length) :
    ∃ before behind middle, popped = before ++ (j, z) :: behind ∧
      Steps rank sources before middle ∧ middle j = z :: back ∧ Least rank middle z ∧
      Steps rank (Function.update middle j back) behind after := by
  induction steps generalizing front with
  | refl sources =>
    rw [shape, List.length_append, List.length_cons] at taken
    omega
  | pop sources i r tail popped after head least later ih =>
    by_cases here : i = j
    · subst here
      cases front with
      | nil =>
        obtain ⟨rfl, rfl⟩ := List.cons.inj (head.symm.trans shape)
        exact ⟨[], popped, sources, rfl, .refl sources, shape, least, later⟩
      | cons f front =>
        obtain ⟨rfl, rfl⟩ := List.cons.inj (head.symm.trans shape)
        obtain ⟨before, behind, middle, rfl, first, atZ, leastZ, rest⟩ :=
          ih (show _ = front ++ z :: back from Function.update_self ..) taken
        exact ⟨(i, r) :: before, behind, middle, rfl, .pop _ i r _ _ _ head least first, atZ, leastZ, rest⟩
    · obtain ⟨before, behind, middle, rfl, first, atZ, leastZ, rest⟩ :=
        ih ((Function.update_of_ne (Ne.symm here) _ _).trans shape) taken
      exact ⟨(i, r) :: before, behind, middle, rfl, .pop _ i r _ _ _ head least first, atZ, leastZ, rest⟩

-- While every other head is larger, only this source is popped.
theorem burst {sources after : ι → List α} {popped : List (ι × α)}
    (steps : Steps rank sources popped after) {j : ι} {run back : List α} {x : α}
    (shape : sources j = run ++ x :: back) (reached : after j = x :: back)
    (low : ∀ w ∈ run, rank w ≤ rank x)
    (high : ∀ k, k ≠ j → ∀ h ∈ (sources k).head?, rank x < rank h) :
    popped = run.map (fun w => (j, w)) ∧ ∀ k, k ≠ j → after k = sources k := by
  induction steps generalizing run with
  | refl sources =>
    have empty : run = [] := List.append_left_eq_self.mp (shape.symm.trans reached)
    exact ⟨by simp [empty], fun k _ => rfl⟩
  | pop sources i r tail popped after head least later ih =>
    have here : i = j := by
      by_contra other
      have above := high i other r (by simp [head])
      have bounded : ∃ h ∈ (sources j).head?, rank h ≤ rank x := by
        cases run with
        | nil => exact ⟨x, by simp [shape], le_refl _⟩
        | cons w run => exact ⟨w, by simp [shape], low w List.mem_cons_self⟩
      obtain ⟨h, atHead, small⟩ := bounded
      exact absurd ((least j h atHead).trans small) (not_le.mpr above)
    subst here
    cases run with
    | nil =>
      obtain ⟨rfl, rfl⟩ := List.cons.inj (head.symm.trans shape)
      have length := congrArg List.length (steps_source later i)
      rw [Function.update_self, List.length_append, reached, List.length_cons] at length
      omega
    | cons w run =>
      obtain ⟨rfl, rfl⟩ := List.cons.inj (head.symm.trans shape)
      obtain ⟨rfl, kept⟩ := ih (show _ = run ++ x :: back from Function.update_self ..) reached
        (fun w member => low w (List.mem_cons_of_mem r member))
        (fun k other h atHead => high k other h (by rwa [Function.update_of_ne other] at atHead))
      exact ⟨rfl, fun k other => (kept k other).trans (Function.update_of_ne other _ _)⟩

theorem exists_last {P : α → Prop} (l : List α) (some : ∃ z ∈ l, P z) :
    ∃ front z back, l = front ++ z :: back ∧ P z ∧ ∀ w ∈ back, ¬ P w := by
  induction l with
  | nil => simp at some
  | cons a rest ih =>
    by_cases later : ∃ z ∈ rest, P z
    · obtain ⟨front, z, back, rfl, holds, none⟩ := ih later
      exact ⟨a :: front, z, back, rfl, holds, none⟩
    · obtain ⟨z, member, holds⟩ := some
      rcases List.mem_cons.mp member with rfl | there
      · exact ⟨[], z, rest, rfl, holds, fun w inside bad => later ⟨w, inside, bad⟩⟩
      · exact absurd ⟨z, there, holds⟩ later

/-- From the last larger element in front of it on, an element and what stands
between come out in one burst, the other sources waiting. -/
theorem overtaken {sources after : ι → List α} {popped : List (ι × α)}
    (steps : Steps rank sources popped after) {j : ι} {front back : List α} {x : α}
    (shape : sources j = front ++ x :: back) (reached : after j = x :: back)
    (larger : ∃ z ∈ front, rank x < rank z) :
    popped.getLast? = front.getLast?.map (fun w => (j, w)) ∧
      ∀ k, k ≠ j → ∀ h ∈ (after k).head?, rank x < rank h := by
  obtain ⟨early, z, run, rfl, above, low⟩ := exists_last front larger
  rw [List.append_assoc, List.cons_append] at shape
  obtain ⟨before, behind, middle, rfl, first, atZ, least, rest⟩ :=
    steps_split_at steps shape (by simp [reached])
  obtain ⟨rfl, kept⟩ := burst rest (Function.update_self ..) reached
    (fun w member => not_lt.mp (low w member)) (fun k other h atHead => by
      rw [Function.update_of_ne other] at atHead
      exact above.trans_le (least k h atHead))
  constructor
  · simp [List.getLast?_append, List.getLast?_cons, List.getLast?_map]
  · intro k other h atHead
    rw [kept k other, Function.update_of_ne other] at atHead
    exact above.trans_le (least k h atHead)

/-- Nothing larger stands in front of the element. -/
def Leads (rank : α → γ) (front : List α) (p : α) : Prop := ∀ z ∈ front, rank z ≤ rank p

-- Two heads of equal rank: neither stood behind a larger element, or the other would wait.
theorem leads_of_head {sources after : ι → List α} {popped : List (ι × α)}
    (steps : Steps rank sources popped after) {i j : ι} {front back tail : List α} {p h : α}
    (shape : sources i = front ++ p :: back) (reached : after i = p :: back)
    (other : j ≠ i) (head : after j = h :: tail) (small : rank h ≤ rank p) : Leads rank front p := by
  intro z member
  by_contra above
  have waiting := (overtaken steps shape reached ⟨z, member, not_le.mp above⟩).2 j other h
    (by rw [head]; rfl)
  exact absurd waiting (not_lt.mpr small)

theorem untouched {sources after : ι → List α} {popped : List (ι × α)}
    (steps : Steps rank sources popped after) {j : ι} {front back : List α} {x : α}
    (shape : sources j = front ++ x :: back) (kept : ∀ z, (j, z) ∈ popped → rank z ≠ rank x) :
    ∃ gone left, front = gone ++ left ∧ after j = left ++ x :: back := by
  have source := shape.symm.trans (steps_source steps j)
  rcases List.append_eq_append_iff.mp source with ⟨more, taken, rest⟩ | ⟨more, taken, rest⟩
  · cases more with
    | nil => exact ⟨front, [], by simp, by simpa using rest.symm⟩
    | cons y more =>
      obtain ⟨rfl, _⟩ := List.cons.inj rest
      have popped : x ∈ ((popped.filter fun p => p.1 = j).map Prod.snd) := taken ▸ by simp
      obtain ⟨⟨k, z⟩, inside, rfl⟩ := List.mem_map.mp popped
      obtain ⟨there, here⟩ := List.mem_filter.mp inside
      obtain rfl : k = j := by simpa using here
      exact absurd rfl (kept z there)
  · exact ⟨_, more, taken, rest⟩

/-- An element that leads can be brought to the head of its source while every other
source gives up smaller elements only. -/
theorem reach [Fintype ι] {sources : ι → List α} {i : ι} {front back : List α} {p : α}
    (shape : sources i = front ++ p :: back) (leads : Leads rank front p) :
    ∃ popped after, Steps rank sources popped after ∧ after i = p :: back ∧
      (∀ j, ∀ h ∈ (after j).head?, rank p ≤ rank h) ∧
      ∀ q ∈ popped, rank q.2 < rank p ∨ q.1 = i := by
  induction size : front.length using Nat.strong_induction_on generalizing sources front with
  | _ n ih =>
    obtain ⟨low, middle, steps, below, ready⟩ := drain rank (rank p) sources
    obtain ⟨gone, left, rfl, there⟩ :=
      untouched steps shape fun z inside => (below _ inside).ne
    cases left with
    | nil => exact ⟨low, middle, steps, there, ready, fun q inside => Or.inl (below q inside)⟩
    | cons z left =>
      have same : rank z = rank p := le_antisymm (leads z (by simp)) (ready i z (by simp [there]))
      obtain ⟨more, after, rest, reached, high, few⟩ :=
        ih left.length (by simp [← size]; omega)
          (show Function.update middle i (left ++ p :: back) i = left ++ p :: back from Function.update_self ..)
          (fun w inside => leads w (by simp [inside])) rfl
      have step : Steps rank middle ((i, z) :: more) after :=
        .pop _ i z _ _ _ there (fun j h head => same ▸ ready j h head) rest
      refine ⟨low ++ (i, z) :: more, after, steps_append.mpr ⟨middle, steps, step⟩, reached, high, ?_⟩
      intro q inside
      rcases List.mem_append.mp inside with early | late
      · exact Or.inl (below q early)
      · rcases List.mem_cons.mp late with rfl | later
        · exact Or.inr rfl
        · exact few q later

/-- `popped` brings `p`, which stands behind `front` in source `i`, to be popped next. -/
def Next (rank : α → γ) (sources : ι → List α) (i : ι) (p : α) (back : List α)
    (popped : List (ι × α)) : Prop :=
  ∃ after, Steps rank sources popped after ∧ after i = p :: back ∧ Least rank after p

def previous (rank : α → γ) (popped : List (ι × α)) : Option γ := (popped.getLast?).map fun q => rank q.2

/-- An element of another source that can be at the head together with `p`. -/
structure Rival (rank : α → γ) (sources : ι → List α) (i : ι) (p x : α) (rest : List α) : Prop where
  place : ∃ j front, j ≠ i ∧ sources j = front ++ x :: rest ∧ Leads rank front x
  same : rank x = rank p

theorem reach_both [Fintype ι] {sources : ι → List α} {i : ι} {front back rest : List α} {p x : α}
    (shape : sources i = front ++ p :: back) (leads : Leads rank front p)
    (rival : Rival rank sources i p x rest) :
    ∃ popped after j, j ≠ i ∧ Steps rank sources popped after ∧ after i = p :: back ∧
      after j = x :: rest ∧ ∀ k, ∀ h ∈ (after k).head?, rank p ≤ rank h := by
  obtain ⟨⟨j, front', other, shape', leads'⟩, same⟩ := rival
  obtain ⟨first, middle, steps, reached, _, few⟩ := reach shape leads
  obtain ⟨gone, left, rfl, there⟩ := untouched steps shape' fun z inside => by
    rcases few _ inside with low | here
    · exact (same ▸ low).ne
    · exact absurd here other
  obtain ⟨second, after, more, reached', high, few'⟩ :=
    reach there fun z inside => leads' z (by simp [inside])
  obtain ⟨none, left', empty, kept⟩ := untouched more (show _ = [] ++ _ from reached) fun z inside => by
    rcases few' _ inside with low | here
    · exact (same ▸ low).ne
    · exact absurd here.symm other
  obtain ⟨-, rfl⟩ := List.append_eq_nil_iff.mp empty.symm
  exact ⟨first ++ second, after, j, other, steps_append.mpr ⟨middle, steps, more⟩, kept, reached',
    fun k h head => same ▸ high k h head⟩

/-! Positions in the sources that decide the two outcomes. -/

/-- Some order of the pops takes an element of equal rank right before `p`. -/
def Droppable (rank : α → γ) (sources : ι → List α) (i : ι) (front : List α) (p : α) : Prop :=
  front.getLast?.map rank = some (rank p) ∨
    Leads rank front p ∧ ∃ x rest, Rival rank sources i p x rest ∧ ∀ y ∈ rest.head?, rank p ≤ rank y

/-- Some order of the pops takes no element of equal rank right before `p`. -/
def Survivable (rank : α → γ) (sources : ι → List α) (i : ι) (front : List α) (p : α) : Prop :=
  front.getLast?.map rank ≠ some (rank p) ∨
    Leads rank front p ∧ ∃ x y rest, Rival rank sources i p x (y :: rest) ∧ rank y < rank p

omit [DecidableEq ι] [LinearOrder γ] in
@[simp] theorem previous_append (popped : List (ι × α)) (q : ι × α) :
    previous rank (popped ++ [q]) = some (rank q.2) := by
  simp [previous]

omit [DecidableEq ι] [LinearOrder γ] in
theorem previous_behind (early : List (ι × α)) {late : List (ι × α)} {c : γ}
    (last : previous rank late = some c) : previous rank (early ++ late) = some c := by
  obtain ⟨q, isLast, same⟩ := Option.map_eq_some_iff.mp last
  simp [previous, List.getLast?_append, isLast, same]

/-- Popping up to the predecessor of `p` in its source. -/
theorem to_predecessor [Fintype ι] (rank : α → γ) {sources : ι → List α} {i : ι} {front back : List α} {z p : α}
    (shape : sources i = (front ++ [z]) ++ p :: back) :
    ∃ before middle, Steps rank sources (before ++ [(i, z)]) (Function.update middle i (p :: back)) ∧
      Least rank middle z := by
  obtain ⟨popped, run⟩ := exists_run rank sources
  rw [List.append_assoc, List.singleton_append] at shape
  obtain ⟨before, _, middle, _, first, there, least, _⟩ := steps_split_at run shape (by simp)
  exact ⟨before, middle, steps_append.mpr ⟨middle, first, .pop _ i z _ _ _ there least (.refl _)⟩, least⟩

theorem droppable_of_next {sources : ι → List α} {i : ι} {front back : List α} {p : α}
    {popped : List (ι × α)} (shape : sources i = front ++ p :: back)
    (next : Next rank sources i p back popped) (tie : previous rank popped = some (rank p)) :
    Droppable rank sources i front p := by
  obtain ⟨after, steps, reached, least⟩ := next
  obtain ⟨last, isLast, same⟩ := Option.map_eq_some_iff.mp tie
  obtain ⟨j, x⟩ := last
  obtain ⟨before, rfl⟩ := List.getLast?_eq_some_iff.mp isLast
  obtain ⟨middle, first, step⟩ := steps_append.mp steps
  cases step with
  | pop _ _ _ rest _ _ atX leastX done =>
    cases done
    by_cases here : j = i
    · -- The predecessor in the source of `p` itself.
      subst here
      left
      have source := steps_source steps j
      rw [shape, reached, List.filter_append, List.map_append] at source
      have taken := List.append_cancel_right source
      rw [taken]
      simpa using same
    · right
      have there : middle i = p :: back := by
        rw [← reached, Function.update_of_ne (Ne.symm here)]
      have placeX := steps_source first j
      rw [atX] at placeX
      have leadsX := leads_of_head first placeX atX (Ne.symm here) there same.ge
      exact ⟨leads_of_head first shape there here atX same.le, x, rest,
        ⟨⟨j, _, here, placeX, leadsX⟩, same⟩, fun y head => least j y (by rwa [Function.update_self])⟩

theorem next_of_droppable [Fintype ι] {sources : ι → List α} {i : ι} {front back : List α} {p : α}
    (shape : sources i = front ++ p :: back) (droppable : Droppable rank sources i front p) :
    ∃ popped, Next rank sources i p back popped ∧ previous rank popped = some (rank p) := by
  rcases droppable with inside | ⟨leads, x, rest, rival, after⟩
  · obtain ⟨z, isLast, same⟩ := Option.map_eq_some_iff.mp inside
    obtain ⟨front, rfl⟩ := List.getLast?_eq_some_iff.mp isLast
    obtain ⟨before, middle, steps, least⟩ := to_predecessor rank shape
    refine ⟨_, ⟨_, steps, Function.update_self .., fun k h head => ?_⟩, by simp [same]⟩
    by_cases here : k = i
    · subst here
      simp only [Function.update_self, List.head?_cons, Option.mem_def, Option.some.injEq] at head
      exact head ▸ le_refl _
    · rw [Function.update_of_ne here] at head
      exact same ▸ least k h head
  · obtain ⟨popped, middle, j, other, steps, atP, atX, high⟩ := reach_both shape leads rival
    have leastX : Least rank middle x := fun k h head => rival.same ▸ high k h head
    have step : Steps rank middle [(j, x)] (Function.update middle j rest) :=
      .pop _ j x _ _ _ atX leastX (.refl _)
    refine ⟨popped ++ [(j, x)], ⟨_, steps_append.mpr ⟨middle, steps, step⟩, ?_, fun k h head => ?_⟩,
      by simp [rival.same]⟩
    · rw [Function.update_of_ne (Ne.symm other), atP]
    · by_cases here : k = j
      · subst here
        exact after h (by rwa [Function.update_self] at head)
      · exact high k h (by rwa [Function.update_of_ne here] at head)

-- Between two equal neighbours of one source only an element of equal rank can
-- uncover something smaller.
theorem uncovers {sources after : ι → List α} {popped : List (ι × α)}
    (steps : Steps rank sources popped after) {i : ι} {back : List α} {p : α}
    (there : sources i = p :: back) (reached : after i = p :: back)
    (high : ∀ j, ∀ h ∈ (sources j).head?, rank p ≤ rank h) (nonempty : popped ≠ [])
    (other : previous rank popped ≠ some (rank p)) :
    ∃ early middle j x y rest, Steps rank sources early middle ∧ j ≠ i ∧ middle i = p :: back ∧
      middle j = x :: y :: rest ∧ rank x = rank p ∧ rank y < rank p := by
  induction steps with
  | refl => exact absurd rfl nonempty
  | pop sources k r tail popped after head least later ih =>
    have elsewhere : k ≠ i := by
      rintro rfl
      obtain ⟨rfl, rfl⟩ := List.cons.inj (head.symm.trans there)
      have length := congrArg List.length (steps_source later k)
      rw [Function.update_self, reached, List.length_append, List.length_cons] at length
      omega
    have same : rank r = rank p :=
      le_antisymm (least i p (by simp [there])) (high k r (by simp [head]))
    have still : Function.update sources k tail i = p :: back := by
      rw [Function.update_of_ne (Ne.symm elsewhere), there]
    by_cases small : ∃ y ∈ tail.head?, rank y < rank p
    · obtain ⟨y, first, below⟩ := small
      obtain ⟨rest, rfl⟩ := List.head?_eq_some_iff.mp first
      exact ⟨[], sources, k, r, y, rest, .refl _, elsewhere, there, head, same, below⟩
    · obtain ⟨early, middle, j, x, y, rest, more, found⟩ := ih still reached
        (fun j h atHead => by
          by_cases here : j = k
          · subst here
            rw [Function.update_self] at atHead
            exact not_lt.mp fun below => small ⟨h, atHead, below⟩
          · exact high j h (by rwa [Function.update_of_ne here] at atHead))
        (fun empty => by simp [empty, previous, same] at other)
        (fun tie => other (previous_behind [(k, r)] tie))
      exact ⟨(k, r) :: early, middle, j, x, y, rest, .pop _ k r tail _ _ head least more, found⟩

theorem survivable_of_next {sources : ι → List α} {i : ι} {front back : List α} {p : α}
    {popped : List (ι × α)} (shape : sources i = front ++ p :: back)
    (next : Next rank sources i p back popped) (other : previous rank popped ≠ some (rank p)) :
    Survivable rank sources i front p := by
  obtain ⟨after, steps, reached, least⟩ := next
  by_cases inside : front.getLast?.map rank = some (rank p)
  · obtain ⟨z, isLast, same⟩ := Option.map_eq_some_iff.mp inside
    have leads : Leads rank front p := by
      intro w member
      by_contra above
      have burst := (overtaken steps shape reached ⟨w, member, not_le.mp above⟩).1
      exact other (by simp [previous, burst, isLast, same])
    obtain ⟨front, rfl⟩ := List.getLast?_eq_some_iff.mp isLast
    rw [List.append_assoc, List.singleton_append] at shape
    obtain ⟨before, behind, middle, rfl, first, there, leastZ, rest⟩ :=
      steps_split_at steps shape (by simp [reached])
    have step : Steps rank middle [(i, z)] (Function.update middle i (p :: back)) :=
      .pop _ i z _ _ _ there leastZ (.refl _)
    obtain ⟨early, ready, j, x, y, tail, more, elsewhere, atP, atX, equal, below⟩ :=
      uncovers rest (Function.update_self ..) reached
        (fun j h head => by
          by_cases here : j = i
          · subst here
            simp only [Function.update_self, List.head?_cons, Option.mem_def, Option.some.injEq] at head
            exact head ▸ le_refl _
          · exact same ▸ leastZ j h (by rwa [Function.update_of_ne here] at head))
        (fun empty => other (by simp [empty, same]))
        (fun tie => other (previous_behind before (previous_behind [(i, z)] tie)))
    have whole := steps_append.mpr ⟨_, steps_append.mpr ⟨_, first, step⟩, more⟩
    have placeX := steps_source whole j
    rw [atX] at placeX
    have leadsX := leads_of_head whole placeX atX (Ne.symm elsewhere) atP equal.ge
    exact Or.inr ⟨leads, x, y, tail, ⟨⟨j, _, elsewhere, placeX, leadsX⟩, equal⟩, below⟩
  · exact Or.inl inside

-- With `p` at its head everything smaller may go first.
theorem drain_to_next [Fintype ι] {sources middle : ι → List α} {i : ι} {back : List α} {p : α}
    {popped : List (ι × α)} (steps : Steps rank sources popped middle) (there : middle i = p :: back)
    (fresh : previous rank popped ≠ some (rank p) ∨ ∃ j, ∃ h ∈ (middle j).head?, rank h < rank p) :
    ∃ popped, Next rank sources i p back popped ∧ previous rank popped ≠ some (rank p) := by
  obtain ⟨low, after, more, below, ready⟩ := drain rank (rank p) middle
  obtain ⟨_, left, empty, reached⟩ := untouched more (show _ = [] ++ _ from there) fun z inside => (below _ inside).ne
  obtain ⟨-, rfl⟩ := List.append_eq_nil_iff.mp empty.symm
  refine ⟨popped ++ low, ⟨after, steps_append.mpr ⟨middle, steps, more⟩, reached, ready⟩, ?_⟩
  cases isLast : low.getLast? with
  | some q =>
    have small := below q (List.mem_of_getLast? isLast)
    simpa [previous, List.getLast?_append, isLast] using small.ne
  | none =>
    obtain rfl := List.getLast?_eq_none_iff.mp isLast
    cases more
    rcases fresh with other | ⟨j, h, head, small⟩
    · simpa using other
    · exact absurd small (not_lt.mpr (ready j h head))

theorem next_of_survivable [Fintype ι] {sources : ι → List α} {i : ι} {front back : List α} {p : α}
    (shape : sources i = front ++ p :: back) (survivable : Survivable rank sources i front p) :
    ∃ popped, Next rank sources i p back popped ∧ previous rank popped ≠ some (rank p) := by
  rcases survivable with other | ⟨leads, x, y, rest, rival, below⟩
  · rcases List.eq_nil_or_concat front with rfl | ⟨front, z, rfl⟩
    · exact drain_to_next (.refl sources) shape (Or.inl (by simp [previous]))
    · rw [List.concat_eq_append] at shape other
      obtain ⟨before, middle, steps, _⟩ := to_predecessor rank shape
      exact drain_to_next steps (Function.update_self ..) (Or.inl (by simpa using other))
  · obtain ⟨popped, middle, j, elsewhere, steps, atP, atX, high⟩ := reach_both shape leads rival
    have leastX : Least rank middle x := fun k h head => rival.same ▸ high k h head
    have step : Steps rank middle [(j, x)] (Function.update middle j (y :: rest)) :=
      .pop _ j x _ _ _ atX leastX (.refl _)
    refine drain_to_next (steps_append.mpr ⟨middle, steps, step⟩) ?_ (Or.inr ⟨j, y, ?_, below⟩)
    · rw [Function.update_of_ne (Ne.symm elsewhere), atP]
    · simp

end MergeTies
