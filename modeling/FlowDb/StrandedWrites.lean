import Mathlib.Data.Fintype.Basic
import FlowDb.WritePipeline

/-! Whether a submission can be left in the queue with nobody to take it: the
leader looks at the queue and clears the flag in two steps. -/
namespace FlowDb.StrandedWrites
open ByteString EngineOps Interleaving WritePipeline

section
variable {Caller : Type} [DecidableEq Caller] (compressedLen : Bytes → Nat) (sub : Caller → Submission)

/-- The caller waits for a completion nobody has signalled. -/
def Blocked (s : Pipeline Caller) (c : Caller) : Prop := s.pc c = .waiting ∧ s.completion c = none

def Stranded (s : Pipeline Caller) : Prop :=
  ∃ c ∈ s.queue, Blocked s c ∧ s.committing = false ∧
    ∀ d, d ≠ c → (∃ errMsg, s.pc d = .returned errMsg) ∨ Blocked s d

/-- The choice is a `compare_exchange` that fails although the thread holding the
flag has already seen the queue empty and will only clear it. -/
def FailsLate (s : Pipeline Caller) : Choice Caller → Prop
  | .step c _ _ => s.pc c = .enqueued ∧ s.committing = true ∧ ∃ d, s.pc d = .leading .clearing
  | _ => False

instance [Fintype Caller] (s : Pipeline Caller) (choice : Choice Caller) : Decidable (FailsLate s choice) :=
  match choice with
  | .step c _ _ => inferInstanceAs (Decidable (s.pc c = .enqueued ∧ s.committing = true ∧ ∃ d, s.pc d = .leading .clearing))
  | .fail .. => isFalse id
  | .other .. => isFalse id

/-- Without a leader that will look at the queue again, everybody in it is still
about to try for the flag. -/
structure Attended (s : Pipeline Caller) : Prop where
  ok : Ok sub s
  trying : s.committing = false ∨ (∃ d, s.pc d = .leading .clearing) → ∀ c ∈ s.queue, s.pc c = .enqueued

end

section
variable {Caller : Type} [DecidableEq Caller] {compressedLen : Bytes → Nat} {sub : Caller → Submission}
  {s s' : Pipeline Caller} {c : Caller}

/-- While it leads, a caller goes from stage to stage, adds nothing to the queue,
and gets ready to clear the flag only when it finds the queue empty. -/
theorem leaderStep_effect {stage : Stage Caller} (nowUs : Int) (synced : Bool) (notClearing : stage ≠ .clearing)
    (moved : s.leaderStep compressedLen sub c nowUs synced stage = some s') :
    ∃ stage', s'.pc = Function.update s.pc c (.leading stage') ∧ (stage' = .clearing → s'.queue = []) := by
  cases stage with
  | checking =>
    simp only [Pipeline.leaderStep] at moved
    split_ifs at moved with empty <;> obtain rfl := Option.some.inj moved
    · exact ⟨.clearing, rfl, fun _ => empty⟩
    · exact ⟨.taken s.queue, rfl, by simp⟩
  | taken pending =>
    simp only [Pipeline.leaderStep] at moved
    split_ifs at moved
    obtain rfl := Option.some.inj moved
    exact ⟨.backlog pending, rfl, by simp⟩
  | backlog pending =>
    simp only [Pipeline.leaderStep] at moved
    split_ifs at moved <;> obtain rfl := Option.some.inj moved
    · exact ⟨.backlog pending, rfl, by simp⟩
    · exact ⟨.appending pending [] pending, rfl, by simp⟩
  | appending pending done todo =>
    cases todo with
    | nil =>
      simp only [Pipeline.leaderStep] at moved
      split_ifs at moved <;> obtain rfl := Option.some.inj moved
      · exact ⟨.syncing pending, rfl, by simp⟩
      · exact ⟨.flushing pending, rfl, by simp⟩
    | cons x todo =>
      obtain rfl := Option.some.inj moved
      exact ⟨.inserting pending done x todo, rfl, by simp⟩
  | inserting pending done x todo =>
    obtain rfl := Option.some.inj moved
    exact ⟨.appending pending (done ++ [x]) todo, rfl, by simp⟩
  | syncing pending =>
    obtain rfl := Option.some.inj moved
    exact ⟨.flushing pending, rfl, by simp⟩
  | flushing pending =>
    simp only [Pipeline.leaderStep] at moved
    split_ifs at moved <;> obtain rfl := Option.some.inj moved
    · exact ⟨.signalling pending none pending, rfl, by simp⟩
    · exact ⟨.signalling pending none pending, rfl, by simp⟩
  | signalling pending errMsg todo =>
    cases todo with
    | nil =>
      obtain rfl := Option.some.inj moved
      exact ⟨.checking, rfl, by simp⟩
    | cons x todo =>
      obtain rfl := Option.some.inj moved
      exact ⟨.signalling pending errMsg todo, rfl, by simp⟩
  | clearing => exact absurd rfl notClearing

theorem leaderFail_effect {stage : Stage Caller} (errMsg : String) (left : Engine) (reached : Bool)
    (moved : s.leaderFail c errMsg left reached stage = some s') :
    ∃ stage', s'.pc = Function.update s.pc c (.leading stage') ∧ (stage' = .clearing → s'.queue = []) := by
  cases stage with
  | backlog pending | flushing pending =>
    simp only [Pipeline.leaderFail] at moved
    split_ifs at moved
    obtain rfl := Option.some.inj moved
    exact ⟨.signalling pending (some errMsg) pending, rfl, by simp⟩
  | appending pending done todo =>
    cases todo with
    | nil => cases moved
    | cons x todo =>
      obtain rfl := Option.some.inj moved
      exact ⟨.signalling pending (some errMsg) pending, rfl, by simp⟩
  | syncing pending =>
    obtain rfl := Option.some.inj moved
    exact ⟨.signalling pending (some errMsg) pending, rfl, by simp⟩
  | _ => cases moved

/-- A leader that moves on asks nothing of the queue, or has found it empty. -/
theorem attended_lead (ok : Ok sub s') {stage' : Stage Caller} (pc : s'.pc = Function.update s.pc c (.leading stage'))
    (empty : stage' = .clearing → s'.queue = []) : Attended sub s' := by
  have own : s'.pc c = .leading stage' := by rw [pc, Function.update_self]
  refine ⟨ok, fun idle d member => ?_⟩
  have clearing : stage' = .clearing := by
    rcases idle with free | ⟨e, leads⟩
    · have taken := ok.committing c stage' own
      rw [free] at taken
      cases taken
    · obtain rfl := ok.oneLeader c e stage' .clearing own leads
      rw [own] at leads
      exact Pc.leading.inj leads
  rw [empty clearing] at member
  cases member

/-- A caller that leads nothing, and has not just failed to get the flag from a
leader past its last look at the queue, leaves the others as they were. -/
theorem attended_follow (attended : Attended sub s) (ok : Ok sub s') {pc' : Pc Caller}
    (pc : s'.pc = Function.update s.pc c pc') (committing : s'.committing = s.committing)
    (stays : ∀ stage, pc' ≠ .leading stage)
    (queue : ∀ d ∈ s'.queue, d = c ∨ d ∈ s.queue)
    (own : c ∈ s'.queue → pc' = .enqueued ∨ s.committing = true ∧ ∀ d, s.pc d ≠ .leading .clearing) :
    Attended sub s' := by
  refine ⟨ok, fun idle d member => ?_⟩
  have before : s.committing = false ∨ ∃ e, s.pc e = .leading .clearing := by
    rcases idle with free | ⟨e, leads⟩
    · exact Or.inl (committing ▸ free)
    · refine Or.inr ⟨e, ?_⟩
      by_cases same : e = c
      · rw [pc, same, Function.update_self] at leads
        exact absurd leads (stays .clearing)
      · rwa [pc, Function.update_of_ne same] at leads
  by_cases same : d = c
  · subst same
    rw [pc, Function.update_self]
    rcases own member with enqueued | ⟨taken, nobody⟩
    · exact enqueued
    · rcases before with free | ⟨e, leads⟩
      · rw [free] at taken
        cases taken
      · exact absurd leads (nobody e)
  · rw [pc, Function.update_of_ne same]
    exact attended.trying before d ((queue d member).resolve_left same)

/-- A caller that is past the queue leaves it, and what is in it, as they were. -/
theorem attended_leave (attended : Attended sub s) (ok : Ok sub s') {pc' : Pc Caller} (past : s.pc c ≠ .enqueued)
    (pc : s'.pc = Function.update s.pc c pc') (queue : s'.queue = s.queue)
    (before : s'.committing = false ∨ (∃ d, s'.pc d = .leading .clearing) →
      s.committing = false ∨ ∃ d, s.pc d = .leading .clearing) : Attended sub s' := by
  refine ⟨ok, fun idle d member => ?_⟩
  have enqueued := attended.trying (before idle) d (queue ▸ member)
  have other : d ≠ c := by
    rintro rfl
    exact past enqueued
  rw [pc, Function.update_of_ne other, enqueued]

/-- Every step but a late failure to get the flag keeps the queue attended. -/
theorem attended_next (attended : Attended sub s) (choice : Choice Caller) (timely : ¬ FailsLate s choice)
    (moved : s.next compressedLen sub choice = some s') : Attended sub s' := by
  have ok := ok_next attended.ok choice moved
  cases moves_of_next moved with
  | enqueue c nowUs synced starts =>
    refine attended_follow attended ok rfl rfl (fun _ => nofun) (fun d member => ?_) fun _ => Or.inl rfl
    rcases List.mem_append.mp member with old | new
    · exact Or.inr old
    · exact Or.inl (List.mem_singleton.mp new)
  | wait c nowUs synced place busy =>
    refine attended_follow attended ok rfl rfl (fun _ => nofun) (fun d => Or.inr) fun _ => Or.inr ⟨busy, ?_⟩
    intro d leads
    exact timely ⟨place, busy, d, leads⟩
  | elect c nowUs synced place free => exact attended_lead (s := { s with committing := true }) ok rfl nofun
  | clear c nowUs synced leads =>
    exact attended_leave attended ok (by rw [leads]; nofun) rfl rfl fun _ => Or.inr ⟨c, leads⟩
  | lead c nowUs synced stage _ leads notClearing led =>
    obtain ⟨stage', pc, empty⟩ := leaderStep_effect nowUs synced notClearing led
    exact attended_lead ok pc empty
  | finish c nowUs synced errMsg place done =>
    refine attended_leave attended ok (by rw [place]; nofun) rfl rfl fun idle => idle.imp id ?_
    rintro ⟨e, leads⟩
    refine ⟨e, ?_⟩
    by_cases same : e = c
    · rw [same, show (s.setPc c (.returned errMsg)).pc c = _ from Function.update_self ..] at leads
      cases leads
    · rwa [show (s.setPc c (.returned errMsg)).pc e = s.pc e from Function.update_of_ne same ..] at leads
  | fail c errMsg left reached stage _ leads failed =>
    obtain ⟨stage', pc, empty⟩ := leaderFail_effect errMsg left reached failed
    exact attended_lead ok pc empty
  | other left synced => exact ⟨ok, attended.trying⟩

/-- As long as no exchange of the flag fails after its holder has seen the queue
empty, no submission is ever left behind in the queue. -/
theorem never_stranded
    (reached : Reachable (Pipeline.next compressedLen sub) (fun s choice => ¬ FailsLate s choice) Initial s) :
    ¬ Stranded s := by
  have attended : Attended sub s := by
    apply Reachable.invariant _ _ reached
    · rintro s ⟨worker, rfl⟩
      exact ⟨ok_new worker, fun _ d member => nomatch member⟩
    · intro s choice s' before timely moved
      exact attended_next before choice timely moved
  rintro ⟨c, queued, ⟨waiting, -⟩, free, -⟩
  have enqueued := attended.trying (Or.inl free) c queued
  rw [waiting] at enqueued
  cases enqueued

end

/-- One caller commits and is done before the other comes: the other leads in its turn. -/
theorem never_stranded_apart :
    ∃ s : Pipeline Bool, s.pc true = .returned none ∧ s.pc false = .returned none ∧ ¬ Stranded s := by
  obtain ⟨s, reached, returned⟩ := reachable_of_follow (Pipeline.new oneWorker)
    (List.replicate 15 (.step true 0 true) ++ List.replicate 15 (.step false 0 true))
    (fun s => s.pc true = .returned none ∧ s.pc false = .returned none) (initial_new oneWorker)
    (show (follow (Pipeline.next (fun _ => 0) onePut) (fun s choice => ¬ FailsLate s choice) _ _).any _ = true by
      decide +kernel)
  obtain ⟨first, second⟩ := of_decide_eq_true returned
  exact ⟨s, first, second, never_stranded reached⟩

/-- The second caller enqueues when the first has seen the queue empty, fails to
get the flag, and waits; the first clears the flag and returns. -/
theorem submission_stranded :
    ¬ ∀ s : Pipeline Bool, Reachable (Pipeline.next (fun _ => 0) onePut) anyStep Initial s → ¬ Stranded s := by
  intro never
  obtain ⟨s, reached, late⟩ := reachable_of_follow (Pipeline.new oneWorker)
    (List.replicate 13 (.step true 0 true) ++ List.replicate 2 (.step false 0 true) ++
      List.replicate 2 (.step true 0 true))
    (fun s => false ∈ s.queue ∧ s.pc false = .waiting ∧ s.completion false = none ∧ s.committing = false ∧
      s.pc true = .returned none) (initial_new oneWorker)
    (show (follow (Pipeline.next (fun _ => 0) onePut) anyStep _ _).any _ = true by decide +kernel)
  obtain ⟨queued, waiting, unanswered, free, returned⟩ := of_decide_eq_true late
  refine never s reached ⟨false, queued, ⟨waiting, unanswered⟩, free, fun d other => Or.inl ⟨none, ?_⟩⟩
  cases d with
  | false => exact absurd rfl other
  | true => exact returned

end FlowDb.StrandedWrites
