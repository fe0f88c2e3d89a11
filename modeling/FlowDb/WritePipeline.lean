import FlowDb.EngineOps
import FlowDb.Interleaving

/-! The group commit of write_worker.rs: any number of callers of
`WritePipeline::submit`, each making one submission, and the other holders of the
worker lock (the maintenance threads and explicit flushes). A step is one atomic
access to the queue, the flag, a lock or a completion, or one operation of the
worker under its lock. -/
namespace FlowDb.WritePipeline
open ByteString Records WalCodec WalLog MemoryTables EngineOps Interleaving

structure Submission where
  records : List InternalRecord
  walBuf : Bytes
  batchMaxSeq : Nat
  syncMode : SyncMode
  deriving DecidableEq, Repr

/-- Where a leader stands in `drain_and_process`; from `backlog` to `flushing` it
is inside `process_batch_group` and holds the worker lock. -/
inductive Stage (Caller : Type) where
  | checking
  | taken (pending : List Caller)
  | backlog (pending : List Caller)
  | appending (pending done todo : List Caller)
  | inserting (pending done : List Caller) (current : Caller) (todo : List Caller)
  | syncing (pending : List Caller)
  | flushing (pending : List Caller)
  | signalling (pending : List Caller) (errMsg : Option String) (todo : List Caller)
  | clearing
  deriving DecidableEq, Repr

/-- Where a caller stands in `submit`. `returned none` is Ok. -/
inductive Pc (Caller : Type) where
  | start
  | enqueued
  | leading (stage : Stage Caller)
  | waiting
  | returned (errMsg : Option String)
  deriving DecidableEq, Repr

/-- The shared state, and as bookkeeping the groups taken from the queue and the
submissions whose bytes were appended, whose records were inserted, and whose
bytes a `sync_all` covered, in the order in which that happened. -/
structure Pipeline (Caller : Type) where
  pc : Caller → Pc Caller
  queue : List Caller
  committing : Bool
  holder : Option Caller
  worker : Engine
  completion : Caller → Option (Option String)
  groups : List (List Caller)
  appended : List Caller
  inserted : List Caller
  durable : List Caller

/-- `step` is the next step of a caller; the clock reading and whether the fsync
succeeds (its error is only logged) matter where the step is a flush. `fail` is an
I/O error of the caller's worker operation, which leaves the worker in any state
and an append done or not. `other` is anything another holder of the lock does. -/
inductive Choice (Caller : Type) where
  | step (c : Caller) (nowUs : Int) (synced : Bool)
  | fail (c : Caller) (errMsg : String) (left : Engine) (reached : Bool)
  | other (left : Engine) (synced : Bool)

section
variable {Caller : Type} [DecidableEq Caller] (compressedLen : Bytes → Nat) (sub : Caller → Submission)

namespace Pipeline

def new (worker : Engine) : Pipeline Caller :=
  ⟨fun _ => .start, [], false, none, worker, fun _ => none, [], [], [], []⟩

def setPc (s : Pipeline Caller) (c : Caller) (pc : Pc Caller) : Pipeline Caller :=
  { s with pc := Function.update s.pc c pc }

def lead (s : Pipeline Caller) (c : Caller) (stage : Stage Caller) : Pipeline Caller := s.setPc c (.leading stage)

def syncedIf (s : Pipeline Caller) (synced : Bool) : Pipeline Caller :=
  { s with durable := if synced then s.appended else s.durable }

/-- `do_flush` by the holder of the worker lock. -/
def flush (s : Pipeline Caller) (nowUs : Int) (synced : Bool) : Pipeline Caller :=
  { s with worker := s.worker.doFlush compressedLen nowUs }.syncedIf synced

/-- `process_batch_group` returns and its guard is dropped. -/
def release (s : Pipeline Caller) (c : Caller) (pending : List Caller) (errMsg : Option String) : Pipeline Caller :=
  { s with holder := none }.lead c (.signalling pending errMsg pending)

def leaderStep (s : Pipeline Caller) (c : Caller) (nowUs : Int) (synced : Bool) : Stage Caller → Option (Pipeline Caller)
  | .checking =>
      if s.queue = [] then some (s.lead c .clearing)
      else some ({ s with queue := [], groups := s.groups ++ [s.queue] }.lead c (.taken s.queue))
  | .taken pending => if s.holder = none then some ({ s with holder := some c }.lead c (.backlog pending)) else none
  | .backlog pending =>
      if s.worker.memtables.frozenBackpressure then some ((s.flush compressedLen nowUs synced).lead c (.backlog pending))
      else some (s.lead c (.appending pending [] pending))
  | .appending pending done (x :: todo) =>
      some ({ s with
        worker := { s.worker with wal := s.worker.wal.writeEncoded (sub x).walBuf (sub x).batchMaxSeq }
        appended := s.appended ++ [x] }.lead c (.inserting pending done x todo))
  | .inserting pending done x todo =>
      some ({ s with
        worker := { s.worker with memtables := (sub x).records.foldl MemTables.insert s.worker.memtables }
        inserted := s.inserted ++ [x] }.lead c (.appending pending (done ++ [x]) todo))
  | .appending pending _ [] =>
      if pending.any fun x => (sub x).syncMode == .always then some (s.lead c (.syncing pending))
      else some (s.lead c (.flushing pending))
  | .syncing pending =>
      some (({ s with worker := { s.worker with wal := s.worker.wal.syncAll } }.syncedIf true).lead c (.flushing pending))
  | .flushing pending =>
      if s.worker.memtables.shouldFlush then some ((s.flush compressedLen nowUs synced).release c pending none)
      else some (s.release c pending none)
  | .signalling pending errMsg (x :: todo) =>
      some ({ s with completion := Function.update s.completion x (some errMsg) }.lead c (.signalling pending errMsg todo))
  | .signalling _ _ [] => some (s.lead c .checking)
  | .clearing => some ({ s with committing := false }.setPc c .waiting)

def leaderFail (s : Pipeline Caller) (c : Caller) (errMsg : String) (left : Engine) (reached : Bool) :
    Stage Caller → Option (Pipeline Caller)
  | .backlog pending =>
      if s.worker.memtables.frozenBackpressure then some ({ s with worker := left }.release c pending (some errMsg))
      else none
  | .appending pending _ (x :: _) =>
      some ({ s with worker := left, appended := if reached then s.appended ++ [x] else s.appended }.release
        c pending (some errMsg))
  | .syncing pending => some ({ s with worker := left }.release c pending (some errMsg))
  | .flushing pending =>
      if s.worker.memtables.shouldFlush then some ({ s with worker := left }.release c pending (some errMsg))
      else none
  | _ => none

def next (s : Pipeline Caller) : Choice Caller → Option (Pipeline Caller)
  | .step c nowUs synced =>
      match s.pc c with
      | .start => some ({ s with queue := s.queue ++ [c] }.setPc c .enqueued)
      | .enqueued =>
          if s.committing then some (s.setPc c .waiting)
          else some ({ s with committing := true }.lead c .checking)
      | .leading stage => s.leaderStep compressedLen sub c nowUs synced stage
      | .waiting => (s.completion c).map fun errMsg => s.setPc c (.returned errMsg)
      | .returned _ => none
  | .fail c errMsg left reached =>
      match s.pc c with
      | .leading stage => s.leaderFail c errMsg left reached stage
      | _ => none
  | .other left synced => if s.holder = none then some ({ s with worker := left }.syncedIf synced) else none

end Pipeline

end

section
variable {Caller : Type} (sub : Caller → Submission)

/-- A submission that was appended and inserted in a group, and synced if any
submission of the group asks for it. -/
def Finished (s : Pipeline Caller) (c : Caller) : Prop :=
  ∃ g ∈ s.groups, c ∈ g ∧ c ∈ s.appended ∧ c ∈ s.inserted ∧
    ((∃ d ∈ g, (sub d).syncMode = .always) → c ∈ s.durable)

/-- How far the leader's own group has got. -/
def StageOk (s : Pipeline Caller) : Stage Caller → Prop
  | .checking => True
  | .clearing => True
  | .taken pending => pending ∈ s.groups ∧ ∀ c ∈ pending, c ∉ s.appended ∧ c ∉ s.inserted
  | .backlog pending => pending ∈ s.groups ∧ ∀ c ∈ pending, c ∉ s.appended ∧ c ∉ s.inserted
  | .appending pending done todo =>
      pending ∈ s.groups ∧ pending = done ++ todo ∧ (∀ c ∈ done, c ∈ s.appended ∧ c ∈ s.inserted) ∧
        ∀ c ∈ todo, c ∉ s.appended ∧ c ∉ s.inserted
  | .inserting pending done x todo =>
      pending ∈ s.groups ∧ pending = done ++ x :: todo ∧ (∀ c ∈ done, c ∈ s.appended ∧ c ∈ s.inserted) ∧
        x ∈ s.appended ∧ x ∉ s.inserted ∧ ∀ c ∈ todo, c ∉ s.appended ∧ c ∉ s.inserted
  | .syncing pending => pending ∈ s.groups ∧ ∀ c ∈ pending, c ∈ s.appended ∧ c ∈ s.inserted
  | .flushing pending => ∀ c ∈ pending, Finished sub s c
  | .signalling _ none todo => ∀ c ∈ todo, Finished sub s c
  | .signalling _ (some _) _ => True

/-- Each submission is in one group or still queued; each event happens once, to a
submission of a group; only appended bytes are synced. -/
structure Events (s : Pipeline Caller) : Prop where
  distinct : (s.groups.flatten ++ s.queue).Nodup
  appendedOnce : s.appended.Nodup
  insertedOnce : s.inserted.Nodup
  appendedTaken : ∀ c ∈ s.appended, c ∈ s.groups.flatten
  insertedTaken : ∀ c ∈ s.inserted, c ∈ s.groups.flatten
  synced : ∀ c ∈ s.durable, c ∈ s.appended

/-- What holds of the pipeline between any two steps. -/
structure Ok (s : Pipeline Caller) : Prop where
  events : Events s
  fresh : ∀ c, s.pc c = .start → c ∉ s.groups.flatten ++ s.queue
  oneLeader : ∀ c d stage stage', s.pc c = .leading stage → s.pc d = .leading stage' → c = d
  committing : ∀ c stage, s.pc c = .leading stage → s.committing = true
  stage : ∀ c stage, s.pc c = .leading stage → StageOk sub s stage
  answered : ∀ c, s.completion c = some none → Finished sub s c
  returned : ∀ c, s.pc c = .returned none → Finished sub s c

/-- Nothing that happened is forgotten. -/
structure Grown (s s' : Pipeline Caller) : Prop where
  groups : ∀ g ∈ s.groups, g ∈ s'.groups
  appended : ∀ c ∈ s.appended, c ∈ s'.appended
  inserted : ∀ c ∈ s.inserted, c ∈ s'.inserted
  durable : ∀ c ∈ s.durable, c ∈ s'.durable

variable {sub} {s s' : Pipeline Caller} {c : Caller}

theorem finished_mono (grown : Grown s s') (finished : Finished sub s c) : Finished sub s' c := by
  obtain ⟨g, there, member, appended, inserted, durable⟩ := finished
  exact ⟨g, grown.groups g there, member, grown.appended c appended, grown.inserted c inserted,
    fun always => grown.durable c (durable always)⟩

theorem ok_new (worker : Engine) : Ok sub (Pipeline.new worker : Pipeline Caller) := by
  refine ⟨⟨?_, ?_, ?_, ?_, ?_, ?_⟩, ?_, ?_, ?_, ?_, ?_, ?_⟩ <;> simp [Pipeline.new]

/-- The pipeline before any caller has moved. -/
def Initial (s : Pipeline Caller) : Prop := ∃ worker, s = .new worker

theorem initial_new (worker : Engine) : Initial (.new worker : Pipeline Caller) := ⟨worker, rfl⟩

theorem events_append (events : Events s) (x : Caller) (taken : x ∈ s.groups.flatten) (new : x ∉ s.appended)
    (same : s'.groups = s.groups ∧ s'.queue = s.queue ∧ s'.inserted = s.inserted ∧ s'.durable = s.durable)
    (appended : s'.appended = s.appended ++ [x]) : Events s' := by
  obtain ⟨groups, queue, inserted, durable⟩ := same
  refine ⟨?_, ?_, ?_, fun d member => ?_, ?_, fun d member => ?_⟩
  · rw [groups, queue]
    exact events.distinct
  · rw [appended]
    exact List.nodup_append.mpr ⟨events.appendedOnce, List.nodup_singleton x,
      fun a old b single => by rintro rfl; exact new (List.mem_singleton.mp single ▸ old)⟩
  · rw [inserted]
    exact events.insertedOnce
  · rw [appended] at member
    rw [groups]
    rcases List.mem_append.mp member with old | same
    · exact events.appendedTaken d old
    · rwa [List.mem_singleton.mp same]
  · rw [groups, inserted]
    exact events.insertedTaken
  · rw [durable] at member
    rw [appended]
    exact List.mem_append_left _ (events.synced d member)

theorem events_insert (events : Events s) (x : Caller) (taken : x ∈ s.groups.flatten) (new : x ∉ s.inserted)
    (same : s'.groups = s.groups ∧ s'.queue = s.queue ∧ s'.appended = s.appended ∧ s'.durable = s.durable)
    (inserted : s'.inserted = s.inserted ++ [x]) : Events s' := by
  obtain ⟨groups, queue, appended, durable⟩ := same
  refine ⟨?_, ?_, ?_, ?_, fun d member => ?_, ?_⟩
  · rw [groups, queue]
    exact events.distinct
  · rw [appended]
    exact events.appendedOnce
  · rw [inserted]
    exact List.nodup_append.mpr ⟨events.insertedOnce, List.nodup_singleton x,
      fun a old b single => by rintro rfl; exact new (List.mem_singleton.mp single ▸ old)⟩
  · rw [groups, appended]
    exact events.appendedTaken
  · rw [inserted] at member
    rw [groups]
    rcases List.mem_append.mp member with old | same
    · exact events.insertedTaken d old
    · rwa [List.mem_singleton.mp same]
  · rw [appended, durable]
    exact events.synced

theorem events_synced (events : Events s) (synced : Bool)
    (same : s'.groups = s.groups ∧ s'.queue = s.queue ∧ s'.appended = s.appended ∧ s'.inserted = s.inserted)
    (durable : s'.durable = if synced then s.appended else s.durable) : Events s' ∧ Grown s s' := by
  obtain ⟨groups, queue, appended, inserted⟩ := same
  constructor
  · refine ⟨?_, ?_, ?_, ?_, ?_, fun d member => ?_⟩
    · rw [groups, queue]
      exact events.distinct
    · rw [appended]
      exact events.appendedOnce
    · rw [inserted]
      exact events.insertedOnce
    · rw [groups, appended]
      exact events.appendedTaken
    · rw [groups, inserted]
      exact events.insertedTaken
    · rw [durable] at member
      rw [appended]
      cases synced with
      | true => exact member
      | false => exact events.synced d member
  · refine ⟨by simp [groups], by simp [appended], by simp [inserted], fun d member => ?_⟩
    rw [durable]
    cases synced with
    | true => exact events.synced d member
    | false => exact member

theorem pending_nodup (ok : Ok sub s) {pending : List Caller} (there : pending ∈ s.groups) : pending.Nodup :=
  (List.nodup_flatten.mp (List.nodup_append.mp ok.events.distinct).1).1 pending there

theorem mem_flatten {pending : List Caller} (there : pending ∈ s.groups) {x : Caller} (member : x ∈ pending) :
    x ∈ s.groups.flatten := List.mem_flatten.mpr ⟨pending, there, member⟩

/-- A group whose submissions are all appended and inserted, and synced if need
be, is finished. -/
theorem finished_group {pending : List Caller} (there : pending ∈ s.groups)
    (all : ∀ d ∈ pending, d ∈ s.appended ∧ d ∈ s.inserted)
    (durable : (∃ d ∈ pending, (sub d).syncMode = .always) → ∀ d ∈ pending, d ∈ s.durable) :
    ∀ d ∈ pending, Finished sub s d :=
  fun d member => ⟨pending, there, member, (all d member).1, (all d member).2, fun always => durable always d member⟩

theorem ok_other (ok : Ok sub s) (left : Engine) (synced : Bool) : Ok sub ({ s with worker := left }.syncedIf synced) := by
  have both : Events ({ s with worker := left }.syncedIf synced) ∧ Grown s ({ s with worker := left }.syncedIf synced) :=
    events_synced ok.events synced ⟨rfl, rfl, rfl, rfl⟩ rfl
  obtain ⟨sound, grown⟩ := both
  refine ⟨sound, ok.fresh, ok.oneLeader, ok.committing, fun c stage leading => ?_,
    fun c done => finished_mono grown (ok.answered c done), fun c done => finished_mono grown (ok.returned c done)⟩
  have before := ok.stage c stage leading
  cases stage with
  | flushing pending => exact fun d member => finished_mono grown (before d member)
  | signalling pending errMsg todo =>
    cases errMsg with
    | none => exact fun d member => finished_mono grown (before d member)
    | some msg => trivial
  | _ => exact before

end

section
variable {Caller : Type} [DecidableEq Caller] {compressedLen : Bytes → Nat} {sub : Caller → Submission}
  {s s' : Pipeline Caller} {c : Caller}

/-- One caller moves. What remains to be seen is where it goes, and that the
leader, if it is another caller, stands as before. -/
theorem ok_update (ok : Ok sub s) {pc' : Pc Caller} (pc : s'.pc = Function.update s.pc c pc') (moves : pc' ≠ .start)
    (events : Events s') (grown : Grown s s')
    (queued : ∀ d, d ≠ c → d ∈ s'.groups.flatten ++ s'.queue → d ∈ s.groups.flatten ++ s.queue)
    (answered : ∀ d, s'.completion d = some none → s.completion d = some none ∨ Finished sub s d)
    (others : ∀ d stage, d ≠ c → s.pc d = .leading stage →
      s'.committing = true ∧ StageOk sub s' stage ∧ ∀ stage', pc' ≠ .leading stage')
    (leads : ∀ stage, pc' = .leading stage → s'.committing = true ∧ StageOk sub s' stage)
    (returns : pc' = .returned none → Finished sub s c) : Ok sub s' := by
  have own : s'.pc c = pc' := by rw [pc, Function.update_self]
  have same (d : Caller) (other : d ≠ c) : s'.pc d = s.pc d := by rw [pc, Function.update_of_ne other]
  have leader (d : Caller) (stage : Stage Caller) (leading : s'.pc d = .leading stage) :
      s'.committing = true ∧ StageOk sub s' stage := by
    by_cases here : d = c
    · rw [here, own] at leading
      exact leads stage leading
    · obtain ⟨committing, stageOk, -⟩ := others d stage here (same d here ▸ leading)
      exact ⟨committing, stageOk⟩
  refine ⟨events, fun d start => ?_, fun d d' stage stage' first second => ?_, fun d stage leading => ?_,
    fun d stage leading => ?_, fun d done => ?_, fun d done => ?_⟩
  · by_cases here : d = c
    · rw [here, own] at start
      exact absurd start moves
    · exact fun inside => ok.fresh d (same d here ▸ start) (queued d here inside)
  · by_cases here : d = c <;> by_cases here' : d' = c
    · rw [here, here']
    · rw [here, own] at first
      exact absurd first ((others d' stage' here' (same d' here' ▸ second)).2.2 stage)
    · rw [here', own] at second
      exact absurd second ((others d stage here (same d here ▸ first)).2.2 stage')
    · exact ok.oneLeader d d' stage stage' (same d here ▸ first) (same d' here' ▸ second)
  · exact (leader d stage leading).1
  · exact (leader d stage leading).2
  · rcases answered d done with before | finished
    · exact finished_mono grown (ok.answered d before)
    · exact finished_mono grown finished
  · by_cases here : d = c
    · rw [here, own] at done
      rw [here]
      exact finished_mono grown (returns done)
    · exact finished_mono grown (ok.returned d (same d here ▸ done))

/-- The leader moves on, and stays the only one. -/
theorem ok_lead (ok : Ok sub s) {stage stage' : Stage Caller} (leads : s.pc c = .leading stage)
    (pc : s'.pc = Function.update s.pc c (.leading stage')) (committing : s'.committing = s.committing)
    (queued : s'.groups.flatten ++ s'.queue = s.groups.flatten ++ s.queue) (grown : Grown s s') (events : Events s')
    (answered : ∀ d, s'.completion d = some none → s.completion d = some none ∨ Finished sub s d)
    (stageOk : StageOk sub s' stage') : Ok sub s' := by
  apply ok_update ok pc nofun events grown
  · intro d _ inside
    rwa [queued] at inside
  · exact answered
  · intro d st other leading
    exact absurd (ok.oneLeader d c st stage leading leads) other
  · intro st same
    cases same
    exact ⟨committing.trans (ok.committing c stage leads), stageOk⟩
  · exact nofun

/-- The usual case: the leader touches neither queue, groups nor completions. -/
theorem ok_move (ok : Ok sub s) {stage stage' : Stage Caller} (leads : s.pc c = .leading stage)
    (pc : s'.pc = Function.update s.pc c (.leading stage'))
    (same : s'.committing = s.committing ∧ s'.groups = s.groups ∧ s'.queue = s.queue ∧ s'.completion = s.completion)
    (grown : Grown s s') (events : Events s') (stageOk : StageOk sub s' stage') : Ok sub s' := by
  obtain ⟨committing, groups, queue, completion⟩ := same
  apply ok_lead ok leads pc committing (by rw [groups, queue]) grown events
  · intro d done
    exact Or.inl (completion ▸ done)
  · exact stageOk

/-- Taking the queue turns it into the leader's group. -/
theorem ok_take (ok : Ok sub s) (leads : s.pc c = .leading .checking) :
    Ok sub ({ s with queue := [], groups := s.groups ++ [s.queue] }.lead c (.taken s.queue)) := by
  have moved : (s.groups ++ [s.queue]).flatten = s.groups.flatten ++ s.queue := by simp
  have taken : ∀ d ∈ s.groups.flatten, d ∈ (s.groups ++ [s.queue]).flatten := by
    intro d member
    rw [moved]
    exact List.mem_append_left _ member
  have events := ok.events
  refine ok_lead ok leads rfl rfl ?_ ?_ ?_ ?_ ?_
  · show (s.groups ++ [s.queue]).flatten ++ [] = _
    rw [moved, List.append_nil]
  · exact ⟨fun g member => List.mem_append_left _ member, fun _ => id, fun _ => id, fun _ => id⟩
  · refine ⟨?_, events.appendedOnce, events.insertedOnce, fun d member => taken d (events.appendedTaken d member),
      fun d member => taken d (events.insertedTaken d member), events.synced⟩
    show ((s.groups ++ [s.queue]).flatten ++ []).Nodup
    rw [moved, List.append_nil]
    exact events.distinct
  · exact fun d done => Or.inl done
  · have apart := (List.nodup_append.mp events.distinct).2.2
    refine ⟨by simp [Pipeline.lead, Pipeline.setPc], fun d member => ⟨fun old => ?_, fun old => ?_⟩⟩
    · exact apart d (events.appendedTaken d old) d member rfl
    · exact apart d (events.insertedTaken d old) d member rfl

/-- Signalling one submission of a group that went through, or failed. -/
theorem ok_signal (ok : Ok sub s) {pending todo : List Caller} {errMsg : Option String} {x : Caller}
    (leads : s.pc c = .leading (.signalling pending errMsg (x :: todo))) :
    Ok sub ({ s with completion := Function.update s.completion x (some errMsg) }.lead c
      (.signalling pending errMsg todo)) := by
  have stageOk := ok.stage c _ leads
  refine ok_lead ok leads rfl rfl rfl ⟨fun _ => id, fun _ => id, fun _ => id, fun _ => id⟩
    ⟨ok.events.distinct, ok.events.appendedOnce, ok.events.insertedOnce, ok.events.appendedTaken,
      ok.events.insertedTaken, ok.events.synced⟩ ?_ ?_
  · intro d done
    by_cases same : d = x
    · subst same
      have own : Function.update s.completion d (some errMsg) d = some errMsg := Function.update_self ..
      obtain rfl := Option.some.inj (own.symm.trans done)
      exact Or.inr (stageOk d List.mem_cons_self)
    · exact Or.inl ((Function.update_of_ne same _ s.completion).symm.trans done)
  · cases errMsg with
    | none => exact fun d member => stageOk d (List.mem_cons_of_mem x member)
    | some msg => trivial

theorem ok_append (ok : Ok sub s) {pending done todo : List Caller} {x : Caller}
    (leads : s.pc c = .leading (.appending pending done (x :: todo))) (worker : Engine) :
    Ok sub ({ s with worker, appended := s.appended ++ [x] }.lead c (.inserting pending done x todo)) := by
  obtain ⟨there, shape, ready, fresh⟩ := ok.stage c _ leads
  have nodup := pending_nodup ok there
  rw [shape] at nodup
  have apart := (List.nodup_cons.mp (List.nodup_append.mp nodup).2.1).1
  obtain ⟨notAppended, notInserted⟩ := fresh x List.mem_cons_self
  refine ok_move ok leads rfl ⟨rfl, rfl, rfl, rfl⟩ ⟨fun _ => id, fun d => List.mem_append_left _, fun _ => id, fun _ => id⟩
    (events_append ok.events x (mem_flatten there (shape ▸ by simp)) notAppended ⟨rfl, rfl, rfl, rfl⟩ rfl) ?_
  refine ⟨there, shape, fun d member => ⟨List.mem_append_left _ (ready d member).1, (ready d member).2⟩,
    List.mem_append_right _ List.mem_cons_self, notInserted, fun d member => ⟨fun old => ?_, ?_⟩⟩
  · rcases List.mem_append.mp old with before | same
    · exact (fresh d (List.mem_cons_of_mem x member)).1 before
    · exact apart (List.mem_singleton.mp same ▸ member)
  · exact (fresh d (List.mem_cons_of_mem x member)).2

theorem ok_insert (ok : Ok sub s) {pending done todo : List Caller} {x : Caller}
    (leads : s.pc c = .leading (.inserting pending done x todo)) (worker : Engine) :
    Ok sub ({ s with worker, inserted := s.inserted ++ [x] }.lead c (.appending pending (done ++ [x]) todo)) := by
  obtain ⟨there, shape, ready, appended, notInserted, fresh⟩ := ok.stage c _ leads
  have nodup := pending_nodup ok there
  rw [shape] at nodup
  have apart := (List.nodup_cons.mp (List.nodup_append.mp nodup).2.1).1
  refine ok_move ok leads rfl ⟨rfl, rfl, rfl, rfl⟩ ⟨fun _ => id, fun _ => id, fun d => List.mem_append_left _, fun _ => id⟩
    (events_insert ok.events x (mem_flatten there (shape ▸ by simp)) notInserted ⟨rfl, rfl, rfl, rfl⟩ rfl) ?_
  refine ⟨there, by rw [shape, List.append_assoc]; rfl, fun d member => ?_, fun d member => ⟨?_, fun old => ?_⟩⟩
  · rcases List.mem_append.mp member with before | same
    · exact ⟨(ready d before).1, List.mem_append_left _ (ready d before).2⟩
    · rw [List.mem_singleton.mp same]
      exact ⟨appended, List.mem_append_right _ List.mem_cons_self⟩
  · exact (fresh d member).1
  · rcases List.mem_append.mp old with before | same
    · exact (fresh d member).2 before
    · exact apart (List.mem_singleton.mp same ▸ member)

/-- A flush or an fsync by the leader changes the worker and what is synced only. -/
theorem ok_synced (ok : Ok sub s) {stage stage' : Stage Caller} (leads : s.pc c = .leading stage) (synced : Bool)
    (pc : s'.pc = Function.update s.pc c (.leading stage'))
    (same : s'.committing = s.committing ∧ s'.groups = s.groups ∧ s'.queue = s.queue ∧ s'.completion = s.completion)
    (events : s'.appended = s.appended ∧ s'.inserted = s.inserted)
    (durable : s'.durable = if synced then s.appended else s.durable)
    (stageOk : Grown s s' → StageOk sub s' stage') : Ok sub s' := by
  obtain ⟨sound, grown⟩ := events_synced ok.events synced ⟨same.2.1, same.2.2.1, events.1, events.2⟩ durable
  exact ok_move ok leads pc same grown sound (stageOk grown)

/-- The leader moves on with nothing else changed that matters. -/
theorem ok_stage (ok : Ok sub s) {stage stage' : Stage Caller} (leads : s.pc c = .leading stage)
    (pc : s'.pc = Function.update s.pc c (.leading stage'))
    (same : s'.committing = s.committing ∧ s'.groups = s.groups ∧ s'.queue = s.queue ∧ s'.completion = s.completion)
    (events : s'.appended = s.appended ∧ s'.inserted = s.inserted ∧ s'.durable = s.durable)
    (stageOk : Grown s s' → StageOk sub s' stage') : Ok sub s' :=
  ok_synced ok leads false pc same ⟨events.1, events.2.1⟩ events.2.2 stageOk

theorem ok_leaderStep (ok : Ok sub s) {stage : Stage Caller} (leads : s.pc c = .leading stage) (nowUs : Int)
    (synced : Bool) (notClearing : stage ≠ .clearing)
    (moved : s.leaderStep compressedLen sub c nowUs synced stage = some s') : Ok sub s' := by
  have stageOk := ok.stage c stage leads
  cases stage with
  | checking =>
    simp only [Pipeline.leaderStep] at moved
    split_ifs at moved with empty <;> obtain rfl := Option.some.inj moved
    · exact ok_stage ok leads rfl ⟨rfl, rfl, rfl, rfl⟩ ⟨rfl, rfl, rfl⟩ fun _ => trivial
    · exact ok_take ok leads
  | taken pending =>
    simp only [Pipeline.leaderStep] at moved
    split_ifs at moved
    obtain rfl := Option.some.inj moved
    exact ok_stage ok leads rfl ⟨rfl, rfl, rfl, rfl⟩ ⟨rfl, rfl, rfl⟩ fun _ => stageOk
  | backlog pending =>
    simp only [Pipeline.leaderStep] at moved
    split_ifs at moved <;> obtain rfl := Option.some.inj moved
    · exact ok_synced ok leads synced rfl ⟨rfl, rfl, rfl, rfl⟩ ⟨rfl, rfl⟩ rfl fun _ => stageOk
    · refine ok_stage ok leads rfl ⟨rfl, rfl, rfl, rfl⟩ ⟨rfl, rfl, rfl⟩ fun _ => ?_
      exact ⟨stageOk.1, rfl, fun d member => (List.not_mem_nil member).elim, stageOk.2⟩
  | appending pending done todo =>
    cases todo with
    | nil =>
      obtain ⟨there, shape, ready, -⟩ := stageOk
      rw [List.append_nil] at shape
      rw [← shape] at ready
      simp only [Pipeline.leaderStep] at moved
      split_ifs at moved with any <;> obtain rfl := Option.some.inj moved
      · exact ok_stage ok leads rfl ⟨rfl, rfl, rfl, rfl⟩ ⟨rfl, rfl, rfl⟩ fun _ => ⟨there, ready⟩
      · refine ok_stage ok leads rfl ⟨rfl, rfl, rfl, rfl⟩ ⟨rfl, rfl, rfl⟩ fun _ => ?_
        refine finished_group there ready fun always => absurd ?_ any
        obtain ⟨d, member, mode⟩ := always
        exact List.any_eq_true.mpr ⟨d, member, by simp [mode]⟩
    | cons x todo =>
      obtain rfl := Option.some.inj moved
      exact ok_append ok leads _
  | inserting pending done x todo =>
    obtain rfl := Option.some.inj moved
    exact ok_insert ok leads _
  | syncing pending =>
    obtain rfl := Option.some.inj moved
    refine ok_synced ok leads true rfl ⟨rfl, rfl, rfl, rfl⟩ ⟨rfl, rfl⟩ rfl fun _ => ?_
    exact finished_group stageOk.1 stageOk.2 fun _ d member => (stageOk.2 d member).1
  | flushing pending =>
    simp only [Pipeline.leaderStep] at moved
    split_ifs at moved <;> obtain rfl := Option.some.inj moved
    · exact ok_synced ok leads synced rfl ⟨rfl, rfl, rfl, rfl⟩ ⟨rfl, rfl⟩ rfl
        fun grown d member => finished_mono grown (stageOk d member)
    · exact ok_stage ok leads rfl ⟨rfl, rfl, rfl, rfl⟩ ⟨rfl, rfl, rfl⟩
        fun grown d member => finished_mono grown (stageOk d member)
  | signalling pending errMsg todo =>
    cases todo with
    | nil =>
      obtain rfl := Option.some.inj moved
      exact ok_stage ok leads rfl ⟨rfl, rfl, rfl, rfl⟩ ⟨rfl, rfl, rfl⟩ fun _ => trivial
    | cons x todo =>
      obtain rfl := Option.some.inj moved
      exact ok_signal ok leads
  | clearing => exact absurd rfl notClearing

/-- An I/O error takes the leader to signalling it to the whole group. -/
theorem ok_leaderFail (ok : Ok sub s) {stage : Stage Caller} (leads : s.pc c = .leading stage) (errMsg : String)
    (left : Engine) (reached : Bool) (moved : s.leaderFail c errMsg left reached stage = some s') : Ok sub s' := by
  have stageOk := ok.stage c stage leads
  cases stage with
  | appending pending done todo =>
    cases todo with
    | nil => cases moved
    | cons x todo =>
      obtain rfl := Option.some.inj moved
      obtain ⟨there, shape, -, fresh⟩ := stageOk
      cases reached with
      | true =>
        exact ok_move ok leads rfl ⟨rfl, rfl, rfl, rfl⟩
          ⟨fun _ => id, fun d => List.mem_append_left _, fun _ => id, fun _ => id⟩
          (events_append ok.events x (mem_flatten there (shape ▸ by simp)) (fresh x List.mem_cons_self).1
            ⟨rfl, rfl, rfl, rfl⟩ rfl) trivial
      | false => exact ok_stage ok leads rfl ⟨rfl, rfl, rfl, rfl⟩ ⟨rfl, rfl, rfl⟩ fun _ => trivial
  | backlog pending | flushing pending =>
    simp only [Pipeline.leaderFail] at moved
    split_ifs at moved
    obtain rfl := Option.some.inj moved
    exact ok_stage ok leads rfl ⟨rfl, rfl, rfl, rfl⟩ ⟨rfl, rfl, rfl⟩ fun _ => trivial
  | syncing pending =>
    obtain rfl := Option.some.inj moved
    exact ok_stage ok leads rfl ⟨rfl, rfl, rfl, rfl⟩ ⟨rfl, rfl, rfl⟩ fun _ => trivial
  | _ => cases moved

/-- A caller that leads nothing moves without touching anything but its own place. -/
theorem ok_follow (ok : Ok sub s) {pc' : Pc Caller} (pc : s'.pc = Function.update s.pc c pc')
    (same : s' = { s with pc := s'.pc }) (stays : ∀ stage, pc' ≠ .leading stage) (moves : pc' ≠ .start)
    (returns : pc' = .returned none → Finished sub s c) : Ok sub s' := by
  have events := ok.events
  have sound : Events s' := by
    rw [same]
    exact ⟨events.distinct, events.appendedOnce, events.insertedOnce, events.appendedTaken, events.insertedTaken,
      events.synced⟩
  have grown : Grown s s' := by
    rw [same]
    exact ⟨fun _ => id, fun _ => id, fun _ => id, fun _ => id⟩
  apply ok_update ok pc moves sound grown
  · intro d _ inside
    rwa [same] at inside
  · intro d done
    rw [same] at done
    exact Or.inl done
  · intro d stage _ leading
    refine ⟨?_, ?_, stays⟩
    · rw [same]
      exact ok.committing d stage leading
    · have before := ok.stage d stage leading
      rw [same]
      exact before
  · intro stage leading
    exact absurd leading (stays stage)
  · exact returns

theorem ok_enqueue (ok : Ok sub s) (starts : s.pc c = .start) :
    Ok sub ({ s with queue := s.queue ++ [c] }.setPc c .enqueued) := by
  have events := ok.events
  have fresh := ok.fresh c starts
  have longer : s.groups.flatten ++ (s.queue ++ [c]) = (s.groups.flatten ++ s.queue) ++ [c] :=
    (List.append_assoc ..).symm
  refine ok_update ok rfl nofun ⟨?_, events.appendedOnce, events.insertedOnce, events.appendedTaken,
    events.insertedTaken, events.synced⟩ ⟨fun _ => id, fun _ => id, fun _ => id, fun _ => id⟩ ?_ ?_ ?_ ?_ ?_
  · show (s.groups.flatten ++ (s.queue ++ [c])).Nodup
    rw [longer]
    refine List.nodup_append.mpr ⟨events.distinct, List.nodup_singleton c, fun a old b single => ?_⟩
    rintro rfl
    exact fresh (List.mem_singleton.mp single ▸ old)
  · intro d other inside
    change d ∈ s.groups.flatten ++ (s.queue ++ [c]) at inside
    rw [longer] at inside
    rcases List.mem_append.mp inside with old | new
    · exact old
    · exact absurd (List.mem_singleton.mp new) other
  · exact fun d done => Or.inl done
  · exact fun d stage _ leading => ⟨ok.committing d stage leading, ok.stage d stage leading, fun _ => nofun⟩
  · exact fun _ => nofun
  · exact nofun

/-- The flag is free, so no one leads, and the winner of the exchange does. -/
theorem ok_elect (ok : Ok sub s) (free : s.committing = false) :
    Ok sub ({ s with committing := true }.lead c .checking) := by
  have events := ok.events
  refine ok_update ok rfl nofun ⟨events.distinct, events.appendedOnce, events.insertedOnce,
    events.appendedTaken, events.insertedTaken, events.synced⟩ ⟨fun _ => id, fun _ => id, fun _ => id, fun _ => id⟩
    (fun _ _ => id) (fun _ => Or.inl) ?_ ?_ nofun
  · intro d stage _ leading
    have taken := ok.committing d stage leading
    rw [free] at taken
    cases taken
  · intro stage same
    cases same
    exact ⟨rfl, trivial⟩

/-- The leader gives the flag back and leaves no leader. -/
theorem ok_clear (ok : Ok sub s) (leads : s.pc c = .leading .clearing) :
    Ok sub ({ s with committing := false }.setPc c .waiting) := by
  have events := ok.events
  refine ok_update ok rfl nofun ⟨events.distinct, events.appendedOnce, events.insertedOnce,
    events.appendedTaken, events.insertedTaken, events.synced⟩ ⟨fun _ => id, fun _ => id, fun _ => id, fun _ => id⟩
    (fun _ _ => id) (fun _ => Or.inl) ?_ (fun _ => nofun) nofun
  intro d stage other leading
  exact absurd (ok.oneLeader d c stage .clearing leading leads) other

/-- What one step can be. -/
inductive Moves (compressedLen : Bytes → Nat) (sub : Caller → Submission) (s : Pipeline Caller) :
    Choice Caller → Pipeline Caller → Prop where
  | enqueue (c : Caller) (nowUs : Int) (synced : Bool) (starts : s.pc c = .start) :
      Moves compressedLen sub s (.step c nowUs synced) ({ s with queue := s.queue ++ [c] }.setPc c .enqueued)
  | wait (c : Caller) (nowUs : Int) (synced : Bool) (place : s.pc c = .enqueued) (busy : s.committing = true) :
      Moves compressedLen sub s (.step c nowUs synced) (s.setPc c .waiting)
  | elect (c : Caller) (nowUs : Int) (synced : Bool) (place : s.pc c = .enqueued) (free : s.committing = false) :
      Moves compressedLen sub s (.step c nowUs synced) ({ s with committing := true }.lead c .checking)
  | clear (c : Caller) (nowUs : Int) (synced : Bool) (leads : s.pc c = .leading .clearing) :
      Moves compressedLen sub s (.step c nowUs synced) ({ s with committing := false }.setPc c .waiting)
  | lead (c : Caller) (nowUs : Int) (synced : Bool) (stage : Stage Caller) (s' : Pipeline Caller)
      (leads : s.pc c = .leading stage) (notClearing : stage ≠ .clearing)
      (moved : s.leaderStep compressedLen sub c nowUs synced stage = some s') :
      Moves compressedLen sub s (.step c nowUs synced) s'
  | finish (c : Caller) (nowUs : Int) (synced : Bool) (errMsg : Option String) (place : s.pc c = .waiting)
      (done : s.completion c = some errMsg) :
      Moves compressedLen sub s (.step c nowUs synced) (s.setPc c (.returned errMsg))
  | fail (c : Caller) (errMsg : String) (left : Engine) (reached : Bool) (stage : Stage Caller) (s' : Pipeline Caller)
      (leads : s.pc c = .leading stage) (moved : s.leaderFail c errMsg left reached stage = some s') :
      Moves compressedLen sub s (.fail c errMsg left reached) s'
  | other (left : Engine) (synced : Bool) :
      Moves compressedLen sub s (.other left synced) ({ s with worker := left }.syncedIf synced)

theorem moves_of_next {choice : Choice Caller} (moved : s.next compressedLen sub choice = some s') :
    Moves compressedLen sub s choice s' := by
  cases choice with
  | step c nowUs synced =>
    simp only [Pipeline.next] at moved
    cases place : s.pc c with
    | start =>
      rw [place] at moved
      obtain rfl := Option.some.inj moved
      exact .enqueue c nowUs synced place
    | enqueued =>
      rw [place] at moved
      dsimp only at moved
      split_ifs at moved with busy <;> obtain rfl := Option.some.inj moved
      · exact .wait c nowUs synced place busy
      · exact .elect c nowUs synced place (Bool.eq_false_iff.mpr busy)
    | leading stage =>
      rw [place] at moved
      by_cases last : stage = .clearing
      · subst last
        obtain rfl := Option.some.inj moved
        exact .clear c nowUs synced place
      · exact .lead c nowUs synced stage s' place last moved
    | waiting =>
      rw [place] at moved
      obtain ⟨errMsg, done, rfl⟩ := Option.map_eq_some_iff.mp moved
      exact .finish c nowUs synced errMsg place done
    | returned errMsg =>
      rw [place] at moved
      cases moved
  | fail c errMsg left reached =>
    simp only [Pipeline.next] at moved
    cases place : s.pc c with
    | leading stage =>
      rw [place] at moved
      exact .fail c errMsg left reached stage s' place moved
    | _ =>
      rw [place] at moved
      cases moved
  | other left synced =>
    simp only [Pipeline.next] at moved
    split_ifs at moved
    obtain rfl := Option.some.inj moved
    exact .other left synced

/-- Every step keeps the pipeline in order. -/
theorem ok_next (ok : Ok sub s) (choice : Choice Caller) (moved : s.next compressedLen sub choice = some s') :
    Ok sub s' := by
  cases moves_of_next moved with
  | enqueue c nowUs synced starts => exact ok_enqueue ok starts
  | wait c nowUs synced place busy => exact ok_follow ok rfl rfl (fun _ => nofun) nofun nofun
  | elect c nowUs synced place free => exact ok_elect ok free
  | clear c nowUs synced leads => exact ok_clear ok leads
  | lead c nowUs synced stage _ leads notClearing led => exact ok_leaderStep ok leads nowUs synced notClearing led
  | finish c nowUs synced errMsg place done =>
    refine ok_follow ok rfl rfl (fun _ => nofun) nofun fun same => ?_
    cases same
    exact ok.answered c done
  | fail c errMsg left reached stage _ leads failed => exact ok_leaderFail ok leads errMsg left reached failed
  | other left synced => exact ok_other ok left synced

theorem ok_reachable {allowed : Pipeline Caller → Choice Caller → Prop}
    (reached : Reachable (Pipeline.next compressedLen sub) allowed Initial s) : Ok sub s := by
  apply Reachable.invariant _ _ reached
  · rintro s ⟨worker, rfl⟩
    exact ok_new worker
  · intro s choice s' ok _ moved
    exact ok_next ok choice moved

end

def oneWorker : Engine := Engine.open {} [] ⟨[]⟩ ∅

def onePut (_ : Bool) : Submission :=
  let records := [InternalRecord.fromRecord (.new [97] 0 [1]) 1]
  ⟨records, encodeBatch records, 1, .always⟩

end FlowDb.WritePipeline
