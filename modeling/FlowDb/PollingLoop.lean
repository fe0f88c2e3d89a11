import FlowDb.Interleaving
import Mathlib.Logic.Function.Basic

/-! A thread that sleeps, reads a clock and runs those of its tasks that are due, one
after the other, while others use the same store. Each task keeps the reading taken
behind its last run. The reading at the head of a pass decides for all tasks. -/
namespace PollingLoop
open Interleaving

structure Task (Store Env : Type) where
  period : Nat
  run : Env → Store → Store

/-- Where the thread stands; `now` is the reading of its pass. -/
inductive Place where
  | top
  | sleeping (till : Nat)
  | visiting (now i : Nat)
  | ran (now i : Nat)
  | stopped
  deriving DecidableEq, Repr

/-- `reading` is the latest reading at the head of a pass. -/
structure State (Store : Type) where
  store : Store
  clock : Nat
  place : Place
  last : Nat → Nat
  reading : Nat
  stop : Bool

/-- `outside` is an operation of another thread, `tick` time that goes by, `halt` the
request to stop, and `turn` the next step of the thread. -/
inductive Choice (Env Op : Type) where
  | outside (op : Op)
  | tick (d : Nat)
  | halt
  | turn (env : Env)

section
variable {Store Env Op : Type} (tasks : List (Task Store Env)) (poll : Nat) (exec : Op → Store → Store)

def turn (s : State Store) (env : Env) : Option (State Store) :=
  match s.place with
  | .top => some { s with place := if s.stop then .stopped else .sleeping (s.clock + poll) }
  | .sleeping till => if till ≤ s.clock then some { s with place := .visiting s.clock 0, reading := s.clock } else none
  | .visiting now i =>
      match tasks[i]? with
      | none => some { s with place := .top }
      | some task =>
          if task.period ≤ now - s.last i then some { s with store := task.run env s.store, place := .ran now i }
          else some { s with place := .visiting now (i + 1) }
  | .ran now i => some { s with last := Function.update s.last i s.clock, place := .visiting now (i + 1) }
  | .stopped => none

def next (s : State Store) : Choice Env Op → Option (State Store)
  | .outside op => some { s with store := exec op s.store }
  | .tick d => some { s with clock := s.clock + d }
  | .halt => some { s with stop := true }
  | .turn env => turn tasks poll s env

/-- Until the thread has stopped no reading is more than `lag` behind the one before,
and what the others do and what the tasks are answered is as `fine` and `answers` say. -/
def Prompt (lag : Nat) (fine : Store → Op → Prop) (answers : Store → Env → Prop) (s : State Store) :
    Choice Env Op → Prop
  | .outside op => fine s.store op
  | .tick d => s.place ≠ .stopped → s.clock + d ≤ s.reading + lag
  | .halt => True
  | .turn env => answers s.store env

/-- A thread that starts. -/
def begin (store : Store) (clock : Nat) : State Store :=
  { store, clock, place := .top, last := fun _ => clock, reading := clock, stop := false }

/-- The readings of a thread that has not stopped. -/
structure InTime (lag : Nat) (s : State Store) : Prop where
  last : ∀ i, s.last i ≤ s.clock
  reading : s.reading ≤ s.clock
  visiting : ∀ now i, s.place = .visiting now i → now = s.reading
  ran : ∀ now i, s.place = .ran now i → now = s.reading
  lag : s.place ≠ .stopped → s.clock ≤ s.reading + lag

theorem inTime_begin (lag : Nat) (store : Store) (clock : Nat) : InTime lag (begin store clock) := by
  refine ⟨fun _ => Nat.le_refl _, Nat.le_refl _, ?_, ?_, fun _ => Nat.le_add_right _ _⟩
  · intro now i place
    cases place
  · intro now i place
    cases place

/-- What a step of the thread does, by where it stands. -/
theorem turn_cases {s s' : State Store} {env : Env} (moved : turn tasks poll s env = some s') :
    (s.place = .top ∧ s' = { s with place := if s.stop then .stopped else .sleeping (s.clock + poll) }) ∨
      (∃ till, s.place = .sleeping till ∧ till ≤ s.clock ∧
        s' = { s with place := .visiting s.clock 0, reading := s.clock }) ∨
      (∃ now i, s.place = .visiting now i ∧ tasks[i]? = none ∧ s' = { s with place := .top }) ∨
      (∃ now i task, s.place = .visiting now i ∧ tasks[i]? = some task ∧ task.period ≤ now - s.last i ∧
        s' = { s with store := task.run env s.store, place := .ran now i }) ∨
      (∃ now i task, s.place = .visiting now i ∧ tasks[i]? = some task ∧ now - s.last i < task.period ∧
        s' = { s with place := .visiting now (i + 1) }) ∨
      (∃ now i, s.place = .ran now i ∧
        s' = { s with last := Function.update s.last i s.clock, place := .visiting now (i + 1) }) := by
  unfold turn at moved
  split at moved
  case h_1 place => exact Or.inl ⟨place, (Option.some.inj moved).symm⟩
  case h_2 till place =>
    split_ifs at moved with late
    exact Or.inr (Or.inl ⟨till, place, late, (Option.some.inj moved).symm⟩)
  case h_3 now i place =>
    split at moved
    case h_1 none => exact Or.inr (Or.inr (Or.inl ⟨now, i, place, none, (Option.some.inj moved).symm⟩))
    case h_2 task some =>
      split_ifs at moved with due
      · exact Or.inr (Or.inr (Or.inr (Or.inl ⟨now, i, task, place, some, due, (Option.some.inj moved).symm⟩)))
      · exact Or.inr (Or.inr (Or.inr (Or.inr (Or.inl
          ⟨now, i, task, place, some, Nat.lt_of_not_le due, (Option.some.inj moved).symm⟩))))
  case h_4 now i place =>
    exact Or.inr (Or.inr (Or.inr (Or.inr (Or.inr ⟨now, i, place, (Option.some.inj moved).symm⟩))))
  case h_5 => cases moved

theorem inTime_turn {lag : Nat} {s s' : State Store} {env : Env} (timely : InTime lag s)
    (moved : turn tasks poll s env = some s') : InTime lag s' := by
  have within : s.place ≠ .stopped → s.clock ≤ s.reading + lag := timely.lag
  rcases turn_cases tasks poll moved with ⟨place, rfl⟩ | ⟨till, place, _, rfl⟩ | ⟨now, i, place, _, rfl⟩ |
    ⟨now, i, task, place, _, _, rfl⟩ | ⟨now, i, task, place, _, _, rfl⟩ | ⟨now, i, place, rfl⟩
  · refine ⟨timely.last, timely.reading, ?_, ?_, fun _ => within (by simp [place])⟩ <;>
    · intro now i next
      dsimp only at next
      split_ifs at next
  · refine ⟨timely.last, Nat.le_refl _, ?_, ?_, fun _ => Nat.le_add_right _ _⟩
    · intro now i next
      exact (Place.visiting.inj next).1.symm
    · intro now i next
      cases next
  · refine ⟨timely.last, timely.reading, ?_, ?_, fun _ => within (by simp [place])⟩ <;>
    · intro now i next
      cases next
  · refine ⟨timely.last, timely.reading, ?_, ?_, fun _ => within (by simp [place])⟩
    · intro now i next
      cases next
    · intro now' i' next
      rw [← (Place.ran.inj next).1]
      exact timely.visiting now i place
  · refine ⟨timely.last, timely.reading, ?_, ?_, fun _ => within (by simp [place])⟩
    · intro now' i' next
      rw [← (Place.visiting.inj next).1]
      exact timely.visiting now i place
    · intro now i next
      cases next
  · refine ⟨?_, timely.reading, ?_, ?_, fun _ => within (by simp [place])⟩
    · intro k
      dsimp only
      by_cases same : k = i
      · exact Nat.le_of_eq (by rw [same, Function.update_self])
      · rw [Function.update_of_ne same]
        exact timely.last k
    · intro now' i' next
      rw [← (Place.visiting.inj next).1]
      exact timely.ran now i place
    · intro now i next
      cases next

theorem inTime_next {lag : Nat} {fine : Store → Op → Prop} {answers : Store → Env → Prop} {s s' : State Store}
    {choice : Choice Env Op} (timely : InTime lag s) (prompt : Prompt lag fine answers s choice)
    (moved : next tasks poll exec s choice = some s') : InTime lag s' := by
  cases choice with
  | outside op =>
    obtain rfl := Option.some.inj moved
    exact ⟨timely.last, timely.reading, timely.visiting, timely.ran, timely.lag⟩
  | tick d =>
    obtain rfl := Option.some.inj moved
    exact ⟨fun i => Nat.le_add_right_of_le (timely.last i), Nat.le_add_right_of_le timely.reading, timely.visiting,
      timely.ran, prompt⟩
  | halt =>
    obtain rfl := Option.some.inj moved
    exact ⟨timely.last, timely.reading, timely.visiting, timely.ran, timely.lag⟩
  | turn env => exact inTime_turn tasks poll timely moved

/-! ### What the tasks make of the store -/

/-- Kept by the others and by every task. -/
structure Kept (fine : Store → Op → Prop) (answers : Store → Env → Prop) (P : Store → Prop) : Prop where
  outside : ∀ store op, fine store op → P store → P (exec op store)
  task : ∀ task ∈ tasks, ∀ store env, answers store env → P store → P (task.run env store)

variable {tasks poll exec} {lag : Nat} {fine : Store → Op → Prop} {answers : Store → Env → Prop} {P Q : Store → Prop}

theorem Kept.next (kept : Kept tasks exec fine answers P) {s s' : State Store} {choice : Choice Env Op}
    (held : P s.store) (prompt : Prompt lag fine answers s choice) (moved : next tasks poll exec s choice = some s') :
    P s'.store := by
  cases choice with
  | outside op =>
    obtain rfl := Option.some.inj moved
    exact kept.outside s.store op prompt held
  | tick d =>
    obtain rfl := Option.some.inj moved
    exact held
  | halt =>
    obtain rfl := Option.some.inj moved
    exact held
  | turn env =>
    rcases turn_cases tasks poll moved with ⟨_, rfl⟩ | ⟨_, _, _, rfl⟩ | ⟨_, _, _, _, rfl⟩ |
      ⟨_, i, task, _, here, _, rfl⟩ | ⟨_, _, _, _, _, _, rfl⟩ | ⟨_, _, _, rfl⟩
    · exact held
    · exact held
    · exact held
    · exact kept.task task (List.mem_of_getElem? here) s.store env prompt held
    · exact held
    · exact held

theorem Kept.reachable (kept : Kept tasks exec fine answers P) {start : State Store → Prop}
    (initial : ∀ s, start s → P s.store) {s : State Store}
    (reached : Reachable (PollingLoop.next tasks poll exec) (Prompt lag fine answers) start s) : P s.store := by
  refine reached.invariant initial ?_
  intro s choice s' held prompt moved
  exact kept.next held prompt moved

/-! ### When a task runs next -/

/-- The pass is behind task `i`, or there is none. -/
def Passed (i : Nat) : Place → Prop
  | .visiting _ j => i < j
  | .ran _ j => i ≤ j
  | _ => True

/-- Task `i` has not run since the clock showed `t`. -/
structure Waiting (lag period t i : Nat) (s : State Store) : Prop where
  last : s.last i ≤ t + lag
  reading : s.reading ≤ t + period + 2 * lag
  passed : Passed i s.place → s.reading ≤ t + period + lag
  pending : ∀ now, s.place = .ran now i → s.reading ≤ t

theorem waiting_here {period i : Nat} {s : State Store} (timely : InTime lag s) :
    Waiting lag period s.clock i s := by
  have last := timely.last i
  have reading := timely.reading
  exact ⟨by omega, by omega, fun _ => by omega, fun _ _ => reading⟩

variable {i t : Nat} {task : Task Store Env}

/-- A step of the thread runs the task or leaves it waiting. -/
theorem waiting_turn (here : tasks[i]? = some task) {s s' : State Store} {env : Env} (timely : InTime lag s)
    (waiting : Waiting lag task.period t i s) (moved : turn tasks poll s env = some s') :
    (s'.store = task.run env s.store) ∨ Waiting lag task.period t i s' := by
  have within : s.place ≠ .stopped → s.clock ≤ s.reading + lag := timely.lag
  obtain ⟨last, reading, passed, pending⟩ := waiting
  rcases turn_cases tasks poll moved with ⟨place, rfl⟩ | ⟨till, place, _, rfl⟩ | ⟨now, j, place, none, rfl⟩ |
    ⟨now, j, other, place, some, due, rfl⟩ | ⟨now, j, other, place, some, early, rfl⟩ | ⟨now, j, place, rfl⟩
  · right
    refine ⟨last, reading, fun _ => passed (by simp [place, Passed]), fun now next => ?_⟩
    dsimp only at next
    split_ifs at next
  · right
    have before : s.reading ≤ t + task.period + lag := passed (by simp [place, Passed])
    have soon := within (by simp [place])
    refine ⟨last, ?_, fun behind => absurd behind (Nat.not_lt_zero i), fun now next => ?_⟩
    · dsimp only
      omega
    · cases next
  · right
    -- The pass is through with all tasks, of which `i` is one.
    have length : tasks.length ≤ j := List.getElem?_eq_none_iff.mp none
    have before : i < tasks.length := (List.getElem?_eq_some_iff.mp here).1
    refine ⟨last, reading, fun _ => passed ?_, fun now next => ?_⟩
    · rw [place]
      exact Nat.lt_of_lt_of_le before length
    · cases next
  · by_cases same : j = i
    · left
      subst same
      obtain rfl := Option.some.inj (here.symm.trans some)
      rfl
    · right
      refine ⟨last, reading, fun behind => passed ?_, fun now' next => ?_⟩
      · rw [place]
        exact Nat.lt_of_le_of_ne behind (Ne.symm same)
      · exact absurd (Place.ran.inj next).2 same
  · right
    refine ⟨last, reading, fun behind => ?_, fun now' next => ?_⟩
    · by_cases same : j = i
      · subst same
        obtain rfl := Option.some.inj (here.symm.trans some)
        have reads := timely.visiting now j place
        dsimp only
        omega
      · apply passed
        rw [place]
        exact Nat.lt_of_le_of_ne (Nat.le_of_lt_succ behind) (Ne.symm same)
    · cases next
  · right
    have soon := within (by simp [place])
    refine ⟨?_, reading, fun behind => passed ?_, fun now' next => ?_⟩
    · dsimp only
      by_cases same : i = j
      · subst same
        rw [Function.update_self]
        have old := pending now place
        omega
      · rw [Function.update_of_ne same]
        exact last
    · rw [place]
      exact Nat.le_of_lt_succ behind
    · cases next

/-- What a run of the task brings about, and everything else keeps, holds a period and
three lags after any moment, if the thread has not stopped by then. -/
theorem brought_within (here : tasks[i]? = some task) (keepsQ : Kept tasks exec fine answers Q)
    (keepsP : Kept tasks exec fine answers fun store => Q store ∧ P store)
    (brings : ∀ store env, answers store env → Q store → P (task.run env store))
    {s s' : State Store} (timely : InTime lag s) (ready : Q s.store)
    (reached : Reachable (next tasks poll exec) (Prompt lag fine answers) (· = s) s') (running : s'.place ≠ .stopped)
    (late : s.clock + task.period + 3 * lag < s'.clock) : P s'.store := by
  have along : InTime lag s' ∧ Q s'.store ∧ (P s'.store ∨ Waiting lag task.period s.clock i s') := by
    apply reached.invariant
    · rintro u rfl
      exact ⟨timely, ready, Or.inr (waiting_here timely)⟩
    · rintro u choice u' ⟨timely, ready, reach⟩ prompt moved
      refine ⟨inTime_next tasks poll exec timely prompt moved, keepsQ.next ready prompt moved, ?_⟩
      rcases reach with held | waiting
      · exact Or.inl (keepsP.next (P := fun store => Q store ∧ P store) ⟨ready, held⟩ prompt moved).2
      · cases choice with
        | outside op =>
          obtain rfl := Option.some.inj moved
          exact Or.inr ⟨waiting.last, waiting.reading, waiting.passed, waiting.pending⟩
        | tick d =>
          obtain rfl := Option.some.inj moved
          exact Or.inr ⟨waiting.last, waiting.reading, waiting.passed, waiting.pending⟩
        | halt =>
          obtain rfl := Option.some.inj moved
          exact Or.inr ⟨waiting.last, waiting.reading, waiting.passed, waiting.pending⟩
        | turn env =>
          refine (waiting_turn here timely waiting moved).imp_left fun ran => ?_
          rw [ran]
          exact brings u.store env prompt ready
  obtain ⟨timely, _, held | waiting⟩ := along
  · exact held
  · have soon := timely.lag running
    have reading := waiting.reading
    omega

/-- Between two runs of a task lies its period. -/
theorem runs_apart (here : tasks[i]? = some task) {s s' s'' : State Store} {now : Nat} (timely : InTime lag s)
    (done : s.place = .ran now i)
    (reached : Reachable (next tasks poll exec) (Prompt lag fine answers) (· = s) s') {env : Env} {now' : Nat}
    (visited : s'.place = .visiting now' i) (moved : turn tasks poll s' env = some s'') (again : s''.place = .ran now' i) :
    s.clock + task.period ≤ s'.clock := by
  have along : InTime lag s' ∧ s.clock ≤ s'.clock ∧ ((∃ now, s'.place = .ran now i) ∨ s.clock ≤ s'.last i) := by
    apply reached.invariant
    · rintro u rfl
      exact ⟨timely, Nat.le_refl _, Or.inl ⟨now, done⟩⟩
    · rintro u choice u' ⟨timely, clock, since⟩ prompt moved
      refine ⟨inTime_next tasks poll exec timely prompt moved, ?_⟩
      cases choice with
      | outside op =>
        obtain rfl := Option.some.inj moved
        exact ⟨clock, since⟩
      | tick d =>
        obtain rfl := Option.some.inj moved
        exact ⟨Nat.le_add_right_of_le clock, since⟩
      | halt =>
        obtain rfl := Option.some.inj moved
        exact ⟨clock, since⟩
      | turn env =>
        have other : (∀ now, u.place ≠ .ran now i) → s.clock ≤ u.last i := fun elsewhere =>
          since.resolve_left fun ⟨now, place⟩ => elsewhere now place
        rcases turn_cases tasks poll moved with ⟨place, rfl⟩ | ⟨till, place, _, rfl⟩ | ⟨now, j, place, _, rfl⟩ |
          ⟨now, j, _, place, _, _, rfl⟩ | ⟨now, j, _, place, _, _, rfl⟩ | ⟨now, j, place, rfl⟩
        · exact ⟨clock, Or.inr (other (by simp [place]))⟩
        · exact ⟨clock, Or.inr (other (by simp [place]))⟩
        · exact ⟨clock, Or.inr (other (by simp [place]))⟩
        · exact ⟨clock, Or.inr (other (by simp [place]))⟩
        · exact ⟨clock, Or.inr (other (by simp [place]))⟩
        · refine ⟨clock, Or.inr ?_⟩
          dsimp only
          by_cases same : i = j
          · subst same
            rw [Function.update_self]
            exact clock
          · rw [Function.update_of_ne same]
            refine other fun now' place' => same ?_
            exact (Place.ran.inj (place'.symm.trans place)).2
  obtain ⟨timely', clock, ⟨earlier, place⟩ | since⟩ := along
  · rw [visited] at place
    cases place
  · have reads := timely'.visiting now' i visited
    have reading := timely'.reading
    rcases turn_cases tasks poll moved with ⟨place, _⟩ | ⟨till, place, _, _⟩ | ⟨now, j, place, _, rfl⟩ |
      ⟨now, j, other, place, some, due, rfl⟩ | ⟨now, j, other, place, some, early, rfl⟩ | ⟨now, j, place, _⟩
    · rw [visited] at place
      cases place
    · rw [visited] at place
      cases place
    · cases again
    · rw [visited] at place
      obtain ⟨rfl, rfl⟩ := Place.visiting.inj place
      obtain rfl := Option.some.inj (here.symm.trans some)
      omega
    · cases again
    · rw [visited] at place
      cases place

end

end PollingLoop
