import FlowDb.OptimisticRuns

/-! Calls that ask a shared state and then make several updates of it, one at a time, their
steps interleaved. What a call has been told is kept, so that a program can be read back from
the answers it was given. -/
namespace StagedRuns
open Interleaving OptimisticRuns

section
variable {Error Query : Type} {Answer : Query → Type} {α β : Type}

/-- The program gets to the last one if it is given these answers in turn. -/
inductive Follows : Program Error Query Answer α → List (Σ q, Answer q) → Program Error Query Answer α → Prop where
  | here (p : Program Error Query Answer α) : Follows p [] p
  | told (q : Query) (more : Answer q → Program Error Query Answer α) (a : Answer q) (seen : List (Σ q, Answer q))
      (last : Program Error Query Answer α) (later : Follows (more a) seen last) : Follows (.ask q more) (⟨q, a⟩ :: seen) last

/-- One more answer. -/
theorem Follows.snoc {p : Program Error Query Answer α} {seen : List (Σ q, Answer q)} {q : Query}
    {more : Answer q → Program Error Query Answer α} (follows : Follows p seen (.ask q more)) (a : Answer q) :
    Follows p (seen ++ [⟨q, a⟩]) (more a) := by
  generalize asked : (Program.ask q more) = last at follows
  induction follows with
  | here p =>
    subst asked
    exact .told q more a [] _ (.here _)
  | told q' more' a' seen last _ ih => exact .told q' more' a' _ _ (ih asked)

theorem follows_pure {a : α} {seen : List (Σ q, Answer q)} {last : Program Error Query Answer α}
    (follows : Follows (pure a) seen last) : seen = [] ∧ last = .done a := by
  cases follows
  exact ⟨rfl, rfl⟩

theorem follows_fail {e : Error} {seen : List (Σ q, Answer q)} {a : α}
    (follows : Follows (Program.fail e : Program Error Query Answer α) seen (.done a)) : False := by
  cases follows

theorem follows_ofExcept {x : Except Error α} {seen : List (Σ q, Answer q)} {a : α}
    (follows : Follows (Program.ofExcept x : Program Error Query Answer α) seen (.done a)) : seen = [] ∧ x = .ok a := by
  cases x with
  | error e => exact (follows_fail follows).elim
  | ok b =>
    obtain ⟨rfl, same⟩ := follows_pure follows
    cases same
    exact ⟨rfl, rfl⟩

theorem follows_question {q : Query} {seen : List (Σ q, Answer q)} {a : Answer q}
    (follows : Follows (Program.question q : Program Error Query Answer (Answer q)) seen (.done a)) : seen = [⟨q, a⟩] := by
  cases follows with
  | told _ _ b rest _ later =>
    cases later
    rfl

/-- A composed program ends where its second part does, and its first part has ended before. -/
theorem follows_bind {p : Program Error Query Answer α} {f : α → Program Error Query Answer β} {seen : List (Σ q, Answer q)}
    {b : β} (follows : Follows (p >>= f) seen (.done b)) :
    ∃ front back a, seen = front ++ back ∧ Follows p front (.done a) ∧ Follows (f a) back (.done b) := by
  induction p generalizing seen with
  | done a => exact ⟨[], seen, a, rfl, .here _, follows⟩
  | fail e => exact (follows_fail follows).elim
  | ask q more ih =>
    cases follows with
    | told _ _ a rest _ later =>
      obtain ⟨front, back, c, rfl, first, second⟩ := ih a later
      exact ⟨⟨q, a⟩ :: front, back, c, rfl, .told q more a front _ first, second⟩

theorem follows_bind_ofExcept {x : Except Error α} {f : α → Program Error Query Answer β} {seen : List (Σ q, Answer q)}
    {b : β} (follows : Follows (Program.ofExcept x >>= f) seen (.done b)) :
    ∃ a, x = .ok a ∧ Follows (f a) seen (.done b) := by
  obtain ⟨front, back, a, rfl, first, second⟩ := follows_bind follows
  obtain ⟨nothing, ok⟩ := follows_ofExcept first
  rw [nothing, List.nil_append]
  exact ⟨a, ok, second⟩

theorem follows_bind_question {q : Query} {f : Answer q → Program Error Query Answer β} {seen : List (Σ q, Answer q)}
    {b : β} (follows : Follows (Program.question q >>= f) seen (.done b)) :
    ∃ a back, seen = ⟨q, a⟩ :: back ∧ Follows (f a) back (.done b) := by
  obtain ⟨front, back, a, rfl, first, second⟩ := follows_bind follows
  rw [follows_question first]
  exact ⟨a, back, rfl, second⟩

end

section
variable (Id State Error Query : Type) (Answer : Query → Type) (Result Update : Type)

/-- An exclusive call holds the lock from its start to its end. -/
structure Call where
  exclusive : Bool
  program : Program Error Query Answer (Result × List Update)

inductive Thread where
  | waiting
  | running (seen : List (Σ q, Answer q)) (rest : Program Error Query Answer (Result × List Update))
  | updating (seen : List (Σ q, Answer q)) (left : List Update) (result : Result)
  | returned (result : Except Error Result)

structure Shared where
  state : State
  holder : Option Id
  threads : Id → Thread Error Query Answer Result Update
end

variable {Id State Error Query : Type} {Answer : Query → Type} {Result Update : Type}
variable (answer : State → ∀ q, Answer q) (apply : State → Update → State)

def initial (s : State) : Shared Id State Error Query Answer Result Update := ⟨s, none, fun _ => .waiting⟩

/-- A call run from start to end with no other in between. -/
def alone (c : Call Error Query Answer Result Update) (s : State) : Except Error Result × State :=
  match c.program.run (answer s) with
  | .ok (r, updates) => (.ok r, updates.foldl apply s)
  | .error e => (.error e, s)

section
variable (calls : Id → Call Error Query Answer Result Update) [DecidableEq Id]

def finish (s : Shared Id State Error Query Answer Result Update) (k : Id) (result : Except Error Result) :
    Shared Id State Error Query Answer Result Update :=
  { s with
    holder := if (calls k).exclusive then none else s.holder
    threads := Function.update s.threads k (.returned result) }

/-- The next of the updates a call has to make; it returns with the last one. -/
def settle (s : Shared Id State Error Query Answer Result Update) (k : Id) (seen : List (Σ q, Answer q)) (r : Result) :
    List Update → Shared Id State Error Query Answer Result Update
  | [] => finish calls s k (.ok r)
  | [u] => { finish calls s k (.ok r) with state := apply s.state u }
  | u :: left => { s with state := apply s.state u, threads := Function.update s.threads k (.updating seen left r) }

def next (s : Shared Id State Error Query Answer Result Update) :
    Choice Id → Option (Shared Id State Error Query Answer Result Update)
  | .start k =>
      match s.threads k with
      | .waiting =>
          if (calls k).exclusive && s.holder.isSome then none
          else some { s with
            holder := if (calls k).exclusive then some k else s.holder
            threads := Function.update s.threads k (.running [] (calls k).program) }
      | _ => none
  | .step k =>
      match s.threads k with
      | .running seen (.ask q more) => some { s with
          threads := Function.update s.threads k
            (.running (seen ++ [⟨q, answer s.state q⟩]) (more (answer s.state q))) }
      | .running seen (.done (r, updates)) => some (settle apply calls s k seen r updates)
      | .running _ (.fail e) => some (finish calls s k (.error e))
      | .updating seen left r => some (settle apply calls s k seen r left)
      | _ => none

variable {answer apply calls}

/-- What a step does. -/
theorem next_cases {s s' : Shared Id State Error Query Answer Result Update} {c : Choice Id}
    (moved : next answer apply calls s c = some s') :
    (∃ k, c = .start k ∧ s.threads k = .waiting ∧ ((calls k).exclusive = true → s.holder = none) ∧
      s' = { s with
        holder := if (calls k).exclusive then some k else s.holder
        threads := Function.update s.threads k (.running [] (calls k).program) }) ∨
    (∃ k seen q more, c = .step k ∧ s.threads k = .running seen (.ask q more) ∧
      s' = { s with
        threads := Function.update s.threads k
          (.running (seen ++ [⟨q, answer s.state q⟩]) (more (answer s.state q))) }) ∨
    (∃ k seen r updates, c = .step k ∧ s.threads k = .running seen (.done (r, updates)) ∧
      s' = settle apply calls s k seen r updates) ∨
    (∃ k seen left r, c = .step k ∧ s.threads k = .updating seen left r ∧ s' = settle apply calls s k seen r left) ∨
    (∃ k seen e, c = .step k ∧ s.threads k = .running seen (.fail e) ∧ s' = finish calls s k (.error e)) := by
  cases c with
  | start k =>
    simp only [next] at moved
    split at moved
    · next waiting =>
      by_cases blocked : ((calls k).exclusive && s.holder.isSome) = true
      · rw [if_pos blocked] at moved
        cases moved
      · rw [if_neg blocked] at moved
        refine .inl ⟨k, rfl, waiting, fun exclusive => ?_, (Option.some.inj moved).symm⟩
        simpa [exclusive] using blocked
    · cases moved
  | step k =>
    simp only [next] at moved
    split at moved
    · next seen q more asking => exact .inr (.inl ⟨k, seen, q, more, rfl, asking, (Option.some.inj moved).symm⟩)
    · next seen r updates ending =>
      exact .inr (.inr (.inl ⟨k, seen, r, updates, rfl, ending, (Option.some.inj moved).symm⟩))
    · next seen e failing => exact .inr (.inr (.inr (.inr ⟨k, seen, e, rfl, failing, (Option.some.inj moved).symm⟩)))
    · next seen left r going =>
      exact .inr (.inr (.inr (.inl ⟨k, seen, left, r, rfl, going, (Option.some.inj moved).symm⟩)))
    · cases moved

/-! ### Where a thread stands in its call -/

def Thread.Active : Thread Error Query Answer Result Update → Prop
  | .running _ _ | .updating _ _ _ => True
  | _ => False

/-- A thread has been told what leads to where it stands. -/
def Thread.Tracks (c : Call Error Query Answer Result Update) : Thread Error Query Answer Result Update → Prop
  | .running seen rest => Follows c.program seen rest
  | .updating seen left r => ∃ made, made ≠ [] ∧ left ≠ [] ∧ Follows c.program seen (.done (r, made ++ left))
  | _ => True

structure Tracked (calls : Id → Call Error Query Answer Result Update)
    (s : Shared Id State Error Query Answer Result Update) : Prop where
  tracks : ∀ k, (s.threads k).Tracks (calls k)
  holds : ∀ k, (calls k).exclusive = true → (s.threads k).Active → s.holder = some k

/-- The thread of one call moves on. -/
theorem tracked_update {s : Shared Id State Error Query Answer Result Update} (tracked : Tracked calls s) (k : Id)
    {t : Thread Error Query Answer Result Update} {holder : Option Id} (state : State) (tracks : t.Tracks (calls k))
    (own : (calls k).exclusive = true → t.Active → holder = some k)
    (others : ∀ j, j ≠ k → (calls j).exclusive = true → (s.threads j).Active → holder = some j) :
    Tracked calls ⟨state, holder, Function.update s.threads k t⟩ := by
  refine ⟨fun j => ?_, fun j exclusive active => ?_⟩
  · by_cases same : j = k
    · subst same
      simpa using tracks
    · simpa [Function.update_of_ne same] using tracked.tracks j
  · by_cases same : j = k
    · subst same
      exact own exclusive (by simpa using active)
    · exact others j same exclusive (by simpa [Function.update_of_ne same] using active)

theorem tracked_finish {s : Shared Id State Error Query Answer Result Update} (tracked : Tracked calls s) {k : Id}
    (active : (s.threads k).Active) (result : Except Error Result) (state : State) :
    Tracked calls { finish calls s k result with state } := by
  refine tracked_update tracked k state trivial nofun fun j other exclusive active' => ?_
  have holds := tracked.holds j exclusive active'
  change (if (calls k).exclusive then none else s.holder) = some j
  split_ifs with mine
  · exact absurd (Option.some.inj (holds.symm.trans (tracked.holds k mine active))) other
  · exact holds

theorem tracked_settle {s : Shared Id State Error Query Answer Result Update} (tracked : Tracked calls s) {k : Id}
    (active : (s.threads k).Active) {seen : List (Σ q, Answer q)} {r : Result} {made left : List Update}
    (follows : Follows (calls k).program seen (.done (r, made ++ left))) :
    Tracked calls (settle apply calls s k seen r left) := by
  match left, follows with
  | [], _ => exact tracked_finish tracked active (.ok r) s.state
  | [u], _ => exact tracked_finish tracked active (.ok r) (apply s.state u)
  | u :: v :: later, follows =>
    refine tracked_update tracked k _ ⟨made ++ [u], by simp, by simp, ?_⟩ (fun exclusive _ => tracked.holds k exclusive active)
      fun j _ => tracked.holds j
    simpa using follows

theorem tracked_step {s s' : Shared Id State Error Query Answer Result Update} {c : Choice Id} (tracked : Tracked calls s)
    (moved : next answer apply calls s c = some s') : Tracked calls s' := by
  obtain ⟨k, _, waiting, free, rfl⟩ | ⟨k, seen, q, more, _, asking, rfl⟩ | ⟨k, seen, r, updates, _, ending, rfl⟩ |
    ⟨k, seen, left, r, _, going, rfl⟩ | ⟨k, seen, e, _, failing, rfl⟩ := next_cases moved
  · refine tracked_update tracked k _ (.here _) (fun exclusive _ => if_pos exclusive) fun j other exclusive active => ?_
    have holds := tracked.holds j exclusive active
    split_ifs with mine
    · exact nomatch (free mine).symm.trans holds
    · exact holds
  · have tracks := tracked.tracks k
    rw [asking] at tracks
    exact tracked_update tracked k _ (tracks.snoc _) (fun exclusive _ => tracked.holds k exclusive (asking ▸ trivial))
      fun j _ => tracked.holds j
  · have tracks := tracked.tracks k
    rw [ending] at tracks
    exact tracked_settle tracked (ending ▸ trivial) (List.nil_append updates ▸ tracks)
  · have tracks := tracked.tracks k
    rw [going] at tracks
    obtain ⟨made, _, _, follows⟩ := tracks
    exact tracked_settle tracked (going ▸ trivial) follows
  · exact tracked_finish tracked (failing ▸ trivial) (.error e) s.state

omit [DecidableEq Id] in
theorem tracked_initial (s : State) : Tracked calls (initial s : Shared Id State Error Query Answer Result Update) :=
  ⟨fun _ => trivial, fun _ _ => nofun⟩

end

end StagedRuns
