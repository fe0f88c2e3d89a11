import Mathlib.Tactic.SplitIfs

/-! Transition systems whose steps are named by choices: which party moves, and
what its environment answers. A choice that is not enabled has no successor. -/
namespace Interleaving

variable {State Choice : Type}

/-- One step, by a choice that `allowed` admits in the state it is made in. -/
def Step (next : State → Choice → Option State) (allowed : State → Choice → Prop) (s s' : State) : Prop :=
  ∃ c, allowed s c ∧ next s c = some s'

/-- The states of runs from `start` all of whose steps are allowed. -/
inductive Reachable (next : State → Choice → Option State) (allowed : State → Choice → Prop)
    (start : State → Prop) : State → Prop where
  | start (s : State) (initial : start s) : Reachable next allowed start s
  | step (s s' : State) (earlier : Reachable next allowed start s) (taken : Step next allowed s s') :
      Reachable next allowed start s'

/-- Any step may be taken. -/
def anyStep (_ : State) (_ : Choice) : Prop := True

variable {next : State → Choice → Option State} {allowed : State → Choice → Prop} {start : State → Prop}

/-- What holds at the start and is kept by every allowed step holds throughout. -/
theorem Reachable.invariant {Inv : State → Prop} (initial : ∀ s, start s → Inv s)
    (kept : ∀ s c s', Inv s → allowed s c → next s c = some s' → Inv s') {s : State}
    (reached : Reachable next allowed start s) : Inv s := by
  induction reached with
  | start s here => exact initial s here
  | step s s' _ taken ih =>
    obtain ⟨c, admitted, moved⟩ := taken
    exact kept s c s' ih admitted moved

theorem Reachable.mono {allowed' : State → Choice → Prop} (weaker : ∀ s c, allowed s c → allowed' s c) {s : State}
    (reached : Reachable next allowed start s) : Reachable next allowed' start s := by
  induction reached with
  | start s here => exact .start s here
  | step s s' _ taken ih =>
    obtain ⟨c, admitted, moved⟩ := taken
    exact .step s s' ih ⟨c, weaker s c admitted, moved⟩

theorem Reachable.mono_start {start' : State → Prop} (weaker : ∀ s, start s → start' s) {s : State}
    (reached : Reachable next allowed start s) : Reachable next allowed start' s := by
  induction reached with
  | start s here => exact .start s (weaker s here)
  | step s s' _ taken ih => exact .step s s' ih taken

instance (s : State) (c : Choice) : Decidable (anyStep s c) := isTrue trivial

/-- The state after a list of choices, if each is allowed and enabled in its turn. -/
def follow (next : State → Choice → Option State) (allowed : State → Choice → Prop)
    [∀ s c, Decidable (allowed s c)] : State → List Choice → Option State
  | s, [] => some s
  | s, c :: rest => if allowed s c then (next s c).bind fun s' => follow next allowed s' rest else none

variable [∀ s c, Decidable (allowed s c)]

theorem Reachable.follow {s s' : State} (choices : List Choice) (reached : Reachable next allowed start s)
    (ran : follow next allowed s choices = some s') : Reachable next allowed start s' := by
  induction choices generalizing s with
  | nil =>
    obtain rfl := Option.some.inj ran
    exact reached
  | cons c rest ih =>
    rw [Interleaving.follow] at ran
    split_ifs at ran with fine
    obtain ⟨middle, moved, later⟩ := Option.bind_eq_some_iff.mp ran
    exact ih (.step s middle reached ⟨c, fine, moved⟩) later

/-- A run of choices to a state that passes a test. -/
theorem reachable_of_follow (s : State) (choices : List Choice) (test : State → Bool) (initial : start s)
    (passed : (follow next allowed s choices).any test = true) :
    ∃ s', Reachable next allowed start s' ∧ test s' = true := by
  obtain ⟨s', ran, ok⟩ := (Option.any_eq_true test _).mp passed
  exact ⟨s', .follow choices (.start s initial) ran, ok⟩

end Interleaving
