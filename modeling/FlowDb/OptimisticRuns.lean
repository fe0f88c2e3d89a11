import Mathlib.Logic.Function.Basic
import FlowDb.Interleaving

/-! Calls that ask a shared state and end in one update of it, their questions
interleaved. A run is serial if every call that succeeds would, when it makes its
update, still be given the answers it worked from; calls that hold a lock from start
to end always would. -/
namespace OptimisticRuns
open Interleaving

/-- A computation that may fail and that goes on with the answers to its questions. -/
inductive Program (Error Query : Type) (Answer : Query → Type) (α : Type) where
  | done (a : α)
  | fail (e : Error)
  | ask (q : Query) (more : Answer q → Program Error Query Answer α)

namespace Program
variable {Error Query : Type} {Answer : Query → Type} {α β : Type}

def bind : Program Error Query Answer α → (α → Program Error Query Answer β) → Program Error Query Answer β
  | .done a, f => f a
  | .fail e, _ => .fail e
  | .ask q more, f => .ask q fun a => bind (more a) f

instance : Monad (Program Error Query Answer) where
  pure := .done
  bind := bind

def question (q : Query) : Program Error Query Answer (Answer q) := .ask q .done

def ofExcept : Except Error α → Program Error Query Answer α
  | .ok a => .done a
  | .error e => .fail e

/-- The run in which nothing changes between the questions. -/
def run (answers : ∀ q, Answer q) : Program Error Query Answer α → Except Error α
  | .done a => .ok a
  | .fail e => .error e
  | .ask q more => (more (answers q)).run answers

variable (answers : ∀ q, Answer q)

@[simp] theorem run_pure (a : α) : (pure a : Program Error Query Answer α).run answers = .ok a := rfl

@[simp] theorem run_fail (e : Error) : (fail e : Program Error Query Answer α).run answers = .error e := rfl

@[simp] theorem run_question (q : Query) :
    (question q : Program Error Query Answer (Answer q)).run answers = .ok (answers q) := rfl

@[simp] theorem run_ofExcept (x : Except Error α) :
    (ofExcept x : Program Error Query Answer α).run answers = x := by
  cases x <;> rfl

@[simp] theorem run_bind (p : Program Error Query Answer α) (f : α → Program Error Query Answer β) :
    (p >>= f).run answers = p.run answers >>= fun a => (f a).run answers := by
  induction p with
  | done a => rfl
  | fail e => rfl
  | ask q more ih => exact ih (answers q)

theorem run_forM (items : List α) (f : α → Program Error Query Answer Unit) :
    (items.forM f).run answers = items.forM fun x => (f x).run answers := by
  induction items with
  | nil => rfl
  | cons head rest ih =>
    change (f head >>= fun _ => rest.forM f).run answers = _
    rw [run_bind]
    exact congrArg _ (funext fun _ => ih)

/-- Every result of a successful run has the property, whatever the answers. -/
def Ensures (p : Program Error Query Answer α) (P : α → Prop) : Prop := ∀ answers a, p.run answers = .ok a → P a

variable {P : α → Prop}

theorem ensures_pure {a : α} (holds : P a) : (pure a : Program Error Query Answer α).Ensures P := fun _ _ ran =>
  Except.ok.inj ran ▸ holds

theorem ensures_fail (e : Error) : (fail e : Program Error Query Answer α).Ensures P := nofun

theorem ensures_ofExcept {x : Except Error α} (holds : ∀ a, x = .ok a → P a) :
    (ofExcept x : Program Error Query Answer α).Ensures P := fun answers a ran =>
  holds a ((run_ofExcept answers x).symm.trans ran)

theorem ensures_true (p : Program Error Query Answer α) : p.Ensures fun _ => True := fun _ _ _ => trivial

theorem Ensures.mono {Q : α → Prop} {p : Program Error Query Answer α} (holds : p.Ensures P) (weaker : ∀ a, P a → Q a) :
    p.Ensures Q := fun answers a ran => weaker a (holds answers a ran)

theorem Ensures.bind {Q : β → Prop} {p : Program Error Query Answer β} {f : β → Program Error Query Answer α}
    (first : p.Ensures Q) (later : ∀ b, Q b → (f b).Ensures P) : (p >>= f).Ensures P := fun answers a ran => by
  rw [run_bind] at ran
  cases half : p.run answers with
  | error e =>
    rw [half] at ran
    cases ran
  | ok b =>
    rw [half] at ran
    exact later b (first answers b half) answers a ran

/-- The rule for a computation of which nothing is needed. -/
theorem ensures_after (p : Program Error Query Answer β) {f : β → Program Error Query Answer α}
    (later : ∀ b, (f b).Ensures P) : (p >>= f).Ensures P := (ensures_true p).bind fun b _ => later b

/-- Whatever the answers, the computation asks no other questions. -/
inductive Asks (asked : Query → Prop) : Program Error Query Answer α → Prop where
  | done (a : α) : Asks asked (.done a)
  | fail (e : Error) : Asks asked (.fail e)
  | ask (q : Query) (more : Answer q → Program Error Query Answer α) (here : asked q) (later : ∀ a, Asks asked (more a)) :
      Asks asked (.ask q more)

variable {asked : Query → Prop}

theorem Asks.bind {p : Program Error Query Answer β} {f : β → Program Error Query Answer α} (first : p.Asks asked)
    (later : ∀ b, (f b).Asks asked) : (p >>= f).Asks asked := by
  induction first with
  | done b => exact later b
  | fail e => exact .fail e
  | ask q more here _ ih => exact .ask q _ here ih

theorem asks_question {q : Query} (here : asked q) : (question q : Program Error Query Answer (Answer q)).Asks asked :=
  .ask q _ here fun a => .done a

theorem asks_ofExcept (x : Except Error α) : (ofExcept x : Program Error Query Answer α).Asks asked := by
  cases x with
  | ok a => exact .done a
  | error e => exact .fail e

theorem asks_forM (items : List α) {f : α → Program Error Query Answer Unit} (each : ∀ a, (f a).Asks asked) :
    (items.forM f).Asks asked := by
  induction items with
  | nil => exact .done ()
  | cons head rest ih => exact (each head).bind fun _ => ih

/-- Answers that agree on the questions asked come to the same. -/
theorem Asks.run_congr {p : Program Error Query Answer α} (asks : p.Asks asked) {answers answers' : ∀ q, Answer q}
    (same : ∀ q, asked q → answers q = answers' q) : p.run answers = p.run answers' := by
  induction asks with
  | done a => rfl
  | fail e => rfl
  | ask q more here _ ih =>
    rw [run, run, same q here]
    exact ih (answers' q)

end Program

section
variable (Id State Error Query : Type) (Answer : Query → Type) (Result Update : Type)

/-- An exclusive call holds the lock from its start to its end. -/
structure Call where
  exclusive : Bool
  program : Program Error Query Answer (Result × Update)

inductive Thread where
  | waiting
  | running (seen : List (Σ q, Answer q)) (rest : Program Error Query Answer (Result × Update))
  | returned (result : Except Error Result)

/-- The shared state, and as bookkeeping the calls that have made their updates, in order. -/
structure Shared where
  state : State
  holder : Option Id
  threads : Id → Thread Error Query Answer Result Update
  order : List (Id × Result)

inductive Choice where
  | start (k : Id)
  | step (k : Id)
end

variable {Id State Error Query : Type} {Answer : Query → Type} {Result Update : Type}
variable (answer : State → ∀ q, Answer q) (apply : State → Update → State)

def initial (s : State) : Shared Id State Error Query Answer Result Update :=
  ⟨s, none, fun _ => .waiting, []⟩

/-- A call run from start to end with no other in between. -/
def alone (c : Call Error Query Answer Result Update) (s : State) : Except Error Result × State :=
  match c.program.run (answer s) with
  | .ok (r, u) => (.ok r, apply s u)
  | .error e => (.error e, s)

/-- One call after the other, each successful. -/
inductive Serial (perform : Id → State → Except Error Result × State) (s : State) :
    List (Id × Result) → State → Prop where
  | nil : Serial perform s [] s
  | snoc {order : List (Id × Result)} {before after : State} {k : Id} {r : Result}
      (earlier : Serial perform s order before) (last : perform k before = (.ok r, after)) :
      Serial perform s (order ++ [(k, r)]) after

/-- What every successful call keeps holds after a serial run. -/
theorem Serial.keeps {perform : Id → State → Except Error Result × State} {s after : State}
    {order : List (Id × Result)} {Inv : State → Prop} (here : Inv s)
    (kept : ∀ k before, Inv before → Inv (perform k before).2) (ran : Serial perform s order after) :
    Inv after := by
  induction ran with
  | nil => exact here
  | @snoc _ before _ k _ _ last ih => simpa [last] using kept k before ih

section
variable (calls : Id → Call Error Query Answer Result Update)

/-- What holds in every state of a run from `start`. -/
structure Sound (start : State) (s : Shared Id State Error Query Answer Result Update) : Prop where
  serial : Serial (fun k => alone answer apply (calls k)) start s.order s.state
  once : (s.order.map Prod.fst).Nodup
  succeeded : ∀ k r, (k, r) ∈ s.order ↔ s.threads k = .returned (.ok r)
  followed : ∀ k seen rest, s.threads k = .running seen rest →
    ∀ answers : ∀ q, Answer q, (∀ x ∈ seen, answers x.1 = x.2) →
      (calls k).program.run answers = rest.run answers

theorem sound_initial (start : State) : Sound answer apply calls start (initial start) :=
  ⟨.nil, by simp [initial], by simp [initial], nofun⟩

variable [DecidableEq Id]

def finish (s : Shared Id State Error Query Answer Result Update) (k : Id) (result : Except Error Result) :
    Shared Id State Error Query Answer Result Update :=
  { s with
    holder := if (calls k).exclusive then none else s.holder
    threads := Function.update s.threads k (.returned result) }

def next (s : Shared Id State Error Query Answer Result Update) :
    Choice Id → Option (Shared Id State Error Query Answer Result Update)
  | .start k =>
      match s.threads k with
      | .waiting =>
          if (calls k).exclusive && s.holder.isSome then none
          else some { s with
            holder := if (calls k).exclusive then some k else s.holder
            threads := Function.update s.threads k (.running [] (calls k).program) }
      | _ => none
  | .step k =>
      match s.threads k with
      | .running seen (.ask q more) => some { s with
          threads := Function.update s.threads k
            (.running (seen ++ [⟨q, answer s.state q⟩]) (more (answer s.state q))) }
      | .running _ (.done (r, u)) => some { finish calls s k (.ok r) with
          state := apply s.state u
          order := s.order ++ [(k, r)] }
      | .running _ (.fail e) => some (finish calls s k (.error e))
      | _ => none

/-- A call that makes its update would still be given every answer it was given. -/
def Current (s : Shared Id State Error Query Answer Result Update) : Choice Id → Prop
  | .start _ => True
  | .step k =>
      match s.threads k with
      | .running seen (.done _) => ∀ x ∈ seen, answer s.state x.1 = x.2
      | _ => True

instance [∀ q, DecidableEq (Answer q)] (s : Shared Id State Error Query Answer Result Update) :
    (c : Choice Id) → Decidable (Current answer s c)
  | .start _ => isTrue trivial
  | .step k => by
      unfold Current
      dsimp only
      split <;> infer_instance

variable {answer apply calls}

/-- What a step does: a call begins, is given an answer, succeeds or fails. -/
theorem next_cases {s s' : Shared Id State Error Query Answer Result Update} {c : Choice Id}
    (moved : next answer apply calls s c = some s') :
    (∃ k, s.threads k = .waiting ∧ ((calls k).exclusive = true → s.holder = none) ∧
      s' = { s with
        holder := if (calls k).exclusive then some k else s.holder
        threads := Function.update s.threads k (.running [] (calls k).program) }) ∨
    (∃ k seen q more, s.threads k = .running seen (.ask q more) ∧
      s' = { s with
        threads := Function.update s.threads k
          (.running (seen ++ [⟨q, answer s.state q⟩]) (more (answer s.state q))) }) ∨
    (∃ k seen r u, c = .step k ∧ s.threads k = .running seen (.done (r, u)) ∧
      s' = { finish calls s k (.ok r) with
        state := apply s.state u
        order := s.order ++ [(k, r)] }) ∨
    (∃ k seen e, s.threads k = .running seen (.fail e) ∧ s' = finish calls s k (.error e)) := by
  cases c with
  | start k =>
    simp only [next] at moved
    split at moved
    · next waiting =>
      by_cases blocked : ((calls k).exclusive && s.holder.isSome) = true
      · rw [if_pos blocked] at moved
        cases moved
      · rw [if_neg blocked] at moved
        refine .inl ⟨k, waiting, fun exclusive => ?_, (Option.some.inj moved).symm⟩
        simpa [exclusive] using blocked
    · cases moved
  | step k =>
    simp only [next] at moved
    split at moved
    · next seen q more asking => exact .inr (.inl ⟨k, seen, q, more, asking, (Option.some.inj moved).symm⟩)
    · next seen r u ending =>
      exact .inr (.inr (.inl ⟨k, seen, r, u, rfl, ending, (Option.some.inj moved).symm⟩))
    · next seen e failing => exact .inr (.inr (.inr ⟨k, seen, e, failing, (Option.some.inj moved).symm⟩))
    · cases moved

-- A thread that has not returned may move on as long as it follows its program.
theorem sound_thread {start : State} {s : Shared Id State Error Query Answer Result Update}
    (sound : Sound answer apply calls start s) (k : Id) (t : Thread Error Query Answer Result Update)
    (holder : Option Id) (before : ∀ r, s.threads k ≠ .returned (.ok r)) (after : ∀ r, t ≠ .returned (.ok r))
    (followed : ∀ seen rest, t = .running seen rest → ∀ answers : ∀ q, Answer q,
      (∀ x ∈ seen, answers x.1 = x.2) → (calls k).program.run answers = rest.run answers) :
    Sound answer apply calls start
      { s with holder := holder, threads := Function.update s.threads k t } := by
  refine ⟨sound.serial, sound.once, fun k' r => ?_, fun k' seen rest running => ?_⟩
  · rw [sound.succeeded]
    by_cases same : k' = k
    · subst same
      simpa using iff_of_false (before r) (after r)
    · simp [Function.update_of_ne same]
  · by_cases same : k' = k
    · subst same
      exact followed seen rest (by simpa using running)
    · exact sound.followed k' seen rest (by simpa [Function.update_of_ne same] using running)

theorem sound_step {start : State} {s s' : Shared Id State Error Query Answer Result Update} {c : Choice Id}
    (sound : Sound answer apply calls start s) (current : Current answer s c)
    (moved : next answer apply calls s c = some s') : Sound answer apply calls start s' := by
  obtain ⟨k, waiting, -, rfl⟩ | ⟨k, seen, q, more, asking, rfl⟩ | ⟨k, seen, r, u, rfl, ending, rfl⟩ |
    ⟨k, seen, e, failing, rfl⟩ := next_cases moved
  · refine sound_thread sound k _ _ (by simp [waiting]) nofun fun seen rest same answers _ => ?_
    obtain ⟨rfl, rfl⟩ := Thread.running.inj same
    rfl
  · refine sound_thread sound k _ _ (by simp [asking]) nofun fun seen' rest same answers agree => ?_
    obtain ⟨rfl, rfl⟩ := Thread.running.inj same
    rw [sound.followed k seen _ asking answers fun x member => agree x (List.mem_append_left _ member)]
    have given : answers q = answer s.state q := agree ⟨q, _⟩ (List.mem_append_right _ List.mem_cons_self)
    rw [Program.run, given]
  · have stillGiven : ∀ x ∈ seen, answer s.state x.1 = x.2 := by
      simpa only [Current, ending] using current
    have ran := sound.followed k seen _ ending (answer s.state) stillGiven
    have absent : k ∉ s.order.map Prod.fst := by
      rintro member
      obtain ⟨⟨_, r'⟩, there, rfl⟩ := List.mem_map.mp member
      exact absurd (ending.symm.trans ((sound.succeeded _ r').mp there)) nofun
    refine ⟨.snoc sound.serial ?_, ?_, fun k' r' => ?_, fun k' seen' rest running => ?_⟩
    · simp [alone, ran, Program.run]
    · rw [List.map_append, List.nodup_append]
      refine ⟨sound.once, by simp, fun k₁ old k₂ new same => ?_⟩
      obtain rfl := List.mem_singleton.mp new
      exact absent (same ▸ old)
    · by_cases same : k' = k
      · subst same
        have notYet : (k', r') ∉ s.order := fun there => absent (List.mem_map.mpr ⟨_, there, rfl⟩)
        simp only [List.mem_append, notYet, List.mem_singleton, Prod.mk.injEq, true_and, false_or, finish,
          Function.update_self, Thread.returned.injEq, Except.ok.injEq]
        exact eq_comm
      · simp [finish, sound.succeeded, same]
    · by_cases same : k' = k
      · subst same
        simp [finish] at running
      · exact sound.followed k' seen' rest (by simpa [finish, Function.update_of_ne same] using running)
  · exact sound_thread sound k _ _ (by simp [failing]) (by simp) nofun

/-- In a run whose updates are current, the calls that have succeeded took effect one
after the other. -/
theorem reachable_sound {start : State} {s : Shared Id State Error Query Answer Result Update}
    (reached : Reachable (next answer apply calls) (Current answer) (· = initial start) s) :
    Sound answer apply calls start s := by
  refine Reachable.invariant (fun s here => ?_) (fun s c s' sound current moved => ?_) reached
  · obtain rfl := here
    exact sound_initial answer apply calls start
  · exact sound_step sound current moved

/-! A lock that every call holds. -/

/-- A call that runs holds the lock, and what it was told still stands. -/
structure Locked (answer : State → ∀ q, Answer q) (s : Shared Id State Error Query Answer Result Update) :
    Prop where
  holds : ∀ k seen rest, s.threads k = .running seen rest → s.holder = some k
  stands : ∀ k seen rest, s.threads k = .running seen rest → ∀ x ∈ seen, answer s.state x.1 = x.2

theorem locked_step {s s' : Shared Id State Error Query Answer Result Update} {c : Choice Id}
    (exclusive : ∀ k, (calls k).exclusive = true) (locked : Locked answer s)
    (moved : next answer apply calls s c = some s') : Locked answer s' := by
  have alone_runs : ∀ k seen rest, s.threads k = .running seen rest →
      ∀ k' seen' rest', s.threads k' = .running seen' rest' → k' = k := by
    intro k seen rest running k' seen' rest' running'
    exact Option.some.inj ((locked.holds k' seen' rest' running').symm.trans (locked.holds k seen rest running))
  obtain ⟨k, waiting, free, rfl⟩ | ⟨k, seen, q, more, asking, rfl⟩ | ⟨k, seen, r, u, rfl, ending, rfl⟩ |
    ⟨k, seen, e, failing, rfl⟩ := next_cases moved
  · have none_runs : ∀ k' seen rest, s.threads k' ≠ .running seen rest := by
      intro k' seen rest running
      exact absurd ((locked.holds k' seen rest running).symm.trans (free (exclusive k))) nofun
    constructor <;> intro k' seen rest running <;> by_cases same : k' = k
    · simp [exclusive, same]
    · exact absurd (by simpa [Function.update_of_ne same] using running) (none_runs k' seen rest)
    · subst same
      obtain ⟨rfl, -⟩ : [] = seen ∧ (calls k').program = rest := by simpa using running
      simp
    · exact absurd (by simpa [Function.update_of_ne same] using running) (none_runs k' seen rest)
  · constructor <;> intro k' seen' rest running <;> by_cases same : k' = k
    · exact same ▸ locked.holds k seen _ asking
    · exact locked.holds k' seen' rest (by simpa [Function.update_of_ne same] using running)
    · subst same
      obtain ⟨rfl, -⟩ : seen ++ [⟨q, answer s.state q⟩] = seen' ∧ more (answer s.state q) = rest := by
        simpa using running
      intro x member
      rcases List.mem_append.mp member with old | new
      · exact locked.stands k' seen _ asking x old
      · obtain rfl := List.mem_singleton.mp new
        rfl
    · exact locked.stands k' seen' rest (by simpa [Function.update_of_ne same] using running)
  all_goals
    have none_runs : ∀ t k' seen' rest, Function.update s.threads k (.returned t) k' ≠ .running seen' rest := by
      intro t k' seen' rest running
      by_cases same : k' = k
      · subst same
        simp at running
      · rw [Function.update_of_ne same] at running
        exact same (alone_runs k _ _ (by assumption) k' seen' rest running)
    exact ⟨fun k' seen' rest running => absurd running (none_runs _ k' seen' rest),
      fun k' seen' rest running => absurd running (none_runs _ k' seen' rest)⟩

/-- Under a lock that every call holds, every update is current. -/
theorem current_of_exclusive {start : State} {s : Shared Id State Error Query Answer Result Update}
    (exclusive : ∀ k, (calls k).exclusive = true)
    (reached : Reachable (next answer apply calls) anyStep (· = initial start) s) :
    Reachable (next answer apply calls) (Current answer) (· = initial start) s := by
  have both : Reachable (next answer apply calls) (Current answer) (· = initial start) s ∧ Locked answer s := by
    induction reached with
    | start s here =>
      obtain rfl := here
      exact ⟨.start _ rfl, nofun, nofun⟩
    | step s s' _ taken ih =>
      obtain ⟨c, -, moved⟩ := taken
      refine ⟨.step s s' ih.1 ⟨c, ?_, moved⟩, locked_step exclusive ih.2 moved⟩
      cases c with
      | start k => trivial
      | step k =>
        unfold Current
        dsimp only
        split
        · next running => exact ih.2.stands k _ _ running
        · trivial
  exact both.1

end
end OptimisticRuns
