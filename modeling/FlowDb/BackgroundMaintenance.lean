import FlowDb.CrashRecovery
import FlowDb.PollingLoop
import FlowDb.SequenceNumbers

/-! The maintenance thread of `Engine::spawn_background_maintenance` beside the commands of a
session. It flushes, compacts, collects and syncs, each at its own interval; each task is one
operation of the engine. What follows a compaction, eviction of readers and the snapshot of a
long manifest, changes neither log nor memory nor tables. -/
namespace FlowDb.BackgroundMaintenance
open ByteString OrderedMap Records WalCodec WalLog Sstable ManifestLog ManifestState TableStore MemoryTables
open EngineOps EngineRuns MaintenanceSteps Interleaving CrashedWriters CrashRecovery PollingLoop

/-- The fields of `Config` that only the thread reads. -/
structure Intervals where
  flushIntervalMs : Nat := 1000
  gcIntervalSecs : Nat := 3600
  deriving DecidableEq, Repr

-- Instants and durations count nanoseconds.
def fromMillis (ms : Nat) : Nat := ms * 1000000

def fromSecs (secs : Nat) : Nat := secs * 1000000000

def flushDur (intervals : Intervals) : Nat := fromMillis (max intervals.flushIntervalMs 1)

def gcDur (intervals : Intervals) : Nat := fromSecs (max intervals.gcIntervalSecs 1)

def walSyncDur : SyncMode → Nat
  | .intervalMs ms => fromMillis (max ms 1)
  | _ => fromSecs 3600

def pollDur (config : Config) (intervals : Intervals) : Nat :=
  min (min (flushDur intervals) (walSyncDur config.walSyncMode)) (fromMillis 250)

/-- What a task is told: the system clock, and the order in which the heap of a compaction pops. -/
structure Answer where
  nowUs : Int
  popped : List InternalRecord

section
variable (compressedLen : Bytes → Nat)

def flushTask (intervals : Intervals) : Task Engine Answer :=
  ⟨flushDur intervals, fun answer e => e.doFlush compressedLen answer.nowUs⟩

-- The thread compares the number of tables with the threshold before the runner does so again.
def compactTask (intervals : Intervals) : Task Engine Answer :=
  ⟨gcDur intervals, fun answer e =>
    if e.config.compactionThreshold ≤ e.tables.manifest.state.sstables.entries.length then
      withTables e (CompactionRunner.run e.config compressedLen e.tables answer.popped)
    else e⟩

def gcTask (intervals : Intervals) : Task Engine Answer :=
  ⟨gcDur intervals, fun answer e => withTables e (GcRunner.run e.tables answer.nowUs)⟩

def syncTask (config : Config) : Task Engine Answer :=
  ⟨walSyncDur config.walSyncMode, fun _ e => { e with wal := e.wal.syncAll }⟩

def tasks (config : Config) (intervals : Intervals) : List (Task Engine Answer) :=
  [flushTask compressedLen intervals, compactTask compressedLen intervals, gcTask intervals, syncTask config]

/-- What the other threads do, one operation at a time. -/
inductive Operation where
  | command (c : Command) (nowUs : Int)
  | compact (nowUs : Int) (popped : List InternalRecord)
  | gc (nowUs : Int)

def Operation.exec : Operation → Engine → Engine
  | .command c nowUs, e => c.exec compressedLen e nowUs
  | .compact _ popped, e => withTables e (CompactionRunner.run e.config compressedLen e.tables popped)
  | .gc nowUs, e => withTables e (GcRunner.run e.tables nowUs)

end

/-- Records fit the encodings, and a compaction pops what its iterators return. -/
def Fine (e : Engine) : Operation → Prop
  | .command c _ => ∀ x ∈ assignSeqs e.seqCounter (c.records e.config), x.Fits ∧ TableFits x
  | .compact nowUs popped => HeapOrder e.tables nowUs popped
  | .gc _ => True

def Answers (e : Engine) (answer : Answer) : Prop := HeapOrder e.tables answer.nowUs answer.popped

/-- Runs of an engine and its thread, no reading of the thread more than `lag` behind the one before. -/
abbrev Runs (compressedLen : Bytes → Nat) (config : Config) (intervals : Intervals) (lag : Nat)
    (start : State Engine → Prop) : State Engine → Prop :=
  Reachable (next (tasks compressedLen config intervals) (pollDur config intervals) (Operation.exec compressedLen))
    (Prompt lag Fine Answers) start

/-! ### What every operation keeps -/

section
variable {compressedLen : Bytes → Nat} {config : Config} {intervals : Intervals} {lag : Nat}

/-- A property of the engine that its operations keep. -/
structure Stable (compressedLen : Bytes → Nat) (P : Engine → Prop) : Prop where
  command : ∀ e c nowUs, Fine e (.command c nowUs) → P e → P (c.exec compressedLen e nowUs)
  flush : ∀ e nowUs, P e → P (e.doFlush compressedLen nowUs)
  compact : ∀ e nowUs popped, HeapOrder e.tables nowUs popped → P e →
    P (withTables e (CompactionRunner.run e.config compressedLen e.tables popped))
  gc : ∀ e nowUs, P e → P (withTables e (GcRunner.run e.tables nowUs))
  sync : ∀ e, P e → P { e with wal := e.wal.syncAll }

theorem Stable.kept {P : Engine → Prop} (stable : Stable compressedLen P) :
    Kept (tasks compressedLen config intervals) (Operation.exec compressedLen) Fine Answers P := by
  constructor
  · intro e op fine held
    cases op with
    | command c nowUs => exact stable.command e c nowUs fine held
    | compact nowUs popped => exact stable.compact e nowUs popped fine held
    | gc nowUs => exact stable.gc e nowUs held
  · intro task member e answer answers held
    simp only [tasks, List.mem_cons, List.not_mem_nil, or_false] at member
    rcases member with rfl | rfl | rfl | rfl
    · exact stable.flush e answer.nowUs held
    · simp only [compactTask]
      split_ifs
      · exact stable.compact e answer.nowUs answer.popped answers held
      · exact held
    · exact stable.gc e answer.nowUs held
    · exact stable.sync e held

theorem Stable.and {P P' : Engine → Prop} (stable : Stable compressedLen P) (stable' : Stable compressedLen P') :
    Stable compressedLen fun e => P e ∧ P' e where
  command e c nowUs fine held := ⟨stable.command e c nowUs fine held.1, stable'.command e c nowUs fine held.2⟩
  flush e nowUs held := ⟨stable.flush e nowUs held.1, stable'.flush e nowUs held.2⟩
  compact e nowUs popped order held :=
    ⟨stable.compact e nowUs popped order held.1, stable'.compact e nowUs popped order held.2⟩
  gc e nowUs held := ⟨stable.gc e nowUs held.1, stable'.gc e nowUs held.2⟩
  sync e held := ⟨stable.sync e held.1, stable'.sync e held.2⟩

theorem ok_gc {e : Engine} (ok : EngineOk e) (nowUs : Int) : EngineOk (withTables e (GcRunner.run e.tables nowUs)) :=
  ⟨ok.frozen, ok.roomy, ok.log, ok.tables.deleteSsts _, ok.memory, ok.logged⟩

theorem stable_engineOk : Stable compressedLen EngineOk where
  command e c nowUs fine ok := by
    rcases exec_cases compressedLen c e nowUs with ⟨_, same | flushed⟩ | submitted
    · rwa [same]
    · rw [flushed]
      exact engineOk_doFlush compressedLen ok nowUs
    · rw [submitted]
      exact engineOk_submit compressedLen ok nowUs fine
  flush e nowUs ok := engineOk_doFlush compressedLen ok nowUs
  compact e nowUs popped order ok :=
    ⟨ok.frozen, ok.roomy, ok.log, ok.tables.run e.config compressedLen (tableFits_popped ok.tables order), ok.memory,
      ok.logged⟩
  gc e nowUs ok := ok_gc ok nowUs
  sync e ok := engineOk_syncAll ok

/-! ### The log on disk -/

/-- A replay passes over the record: a flush has published a number at least as large. -/
def Published (r : InternalRecord) (e : Engine) : Prop := r.seq ≤ lastFlushedSeq e

theorem addFlushed_lastFlushedSeq (t : Tables) (records : List InternalRecord) :
    (addFlushed config compressedLen t records).manifest.state.lastFlushedSeq =
      max t.manifest.state.lastFlushedSeq (lastSeq records) :=
  SequenceNumbers.registered_lastFlushedSeq _ _ _ _

theorem gc_lastFlushedSeq (t : Tables) (nowUs : Int) :
    (GcRunner.run t nowUs).manifest.state.lastFlushedSeq = t.manifest.state.lastFlushedSeq := by
  rw [GcRunner.run, deleteSsts, deletes_state, removes_lastFlushedSeq]

/-- A hold on a record in the log that only a truncation past its number ends. -/
structure Holds (r : InternalRecord) (held : Wal → Prop) : Prop where
  writeEncoded : ∀ w buf seq, held w → held (w.writeEncoded buf seq)
  syncAll : ∀ w, held w → held w.syncAll
  truncateBefore : ∀ w seq, WalRuns.Sound w → seq < r.seq → held w → held (w.truncateBefore seq)

variable {r : InternalRecord} {held : Wal → Prop}

theorem holds_logged : Holds r (Logged r) where
  writeEncoded _ buf seq logged := logged.writeEncoded buf seq
  syncAll _ logged := logged.syncAll.logged
  truncateBefore _ _ sound above logged := logged.truncateBefore sound above

theorem holds_durable : Holds r (Durable r) where
  writeEncoded _ buf seq durable := durable.writeEncoded buf seq
  syncAll _ durable := durable.logged.syncAll
  truncateBefore w seq sound above durable := by
    obtain ⟨segment, member, there⟩ := durable
    have whole := replay_prefix (List.take_prefix segment.synced segment.data) there
    exact ⟨segment, mem_truncateBefore sound member whole above, there⟩

/-- Held in the log, or published. -/
def Covered (r : InternalRecord) (held : Wal → Prop) (e : Engine) : Prop := held e.wal ∨ Published r e

theorem covered_doFlush (holds : Holds r held) {e : Engine} (ok : EngineOk e) (nowUs : Int) (covered : Covered r held e) :
    Covered r held (e.doFlush compressedLen nowUs) := by
  rcases doFlush_cases compressedLen e nowUs ok.frozen with ⟨_, same⟩ | ⟨_, dropped⟩ | flushed
  · rwa [same]
  · rwa [dropped]
  · rw [flushed]
    have published := @addFlushed_lastFlushedSeq compressedLen e.config e.tables
      (flushable e.memtables.active.records nowUs)
    by_cases above : lastSeq (flushable e.memtables.active.records nowUs) < r.seq
    · rcases covered with inLog | before
      · exact Or.inl (holds.syncAll _ (holds.truncateBefore _ _ ok.log above inLog))
      · right
        rw [Published, CrashedWriters.lastFlushedSeq, published]
        exact le_max_of_le_left before
    · right
      rw [Published, CrashedWriters.lastFlushedSeq, published]
      exact le_max_of_le_right (not_lt.mp above)

theorem covered_submit (holds : Holds r held) {e : Engine} (ok : EngineOk e) {records : List InternalRecord} (nowUs : Int)
    (fits : ∀ x ∈ assignSeqs e.seqCounter records, x.Fits ∧ TableFits x) (covered : Covered r held e) :
    Covered r held (e.submit compressedLen records nowUs) := by
  have counted : EngineOk { e with seqCounter := e.seqCounter + records.length } :=
    ⟨ok.frozen, ok.roomy, ok.log, ok.tables, ok.memory, ok.logged⟩
  have inserted := engineOk_processBatchInner counted fits
  have appended : Covered r held (({ e with seqCounter := e.seqCounter + records.length } : Engine).processBatchInner
      (assignSeqs e.seqCounter records)) := covered.imp_left (holds.writeEncoded _ _ _)
  rw [submit_eq compressedLen ok, Engine.flushIfFull, Engine.syncGroup]
  split_ifs
  · exact covered_doFlush holds (engineOk_syncAll inserted) nowUs (appended.imp_left (holds.syncAll _))
  · exact appended.imp_left (holds.syncAll _)
  · exact covered_doFlush holds inserted nowUs appended
  · exact appended

theorem stable_covered (holds : Holds r held) : Stable compressedLen fun e => EngineOk e ∧ Covered r held e where
  command e c nowUs fine := by
    rintro ⟨ok, covered⟩
    refine ⟨stable_engineOk.command e c nowUs fine ok, ?_⟩
    rcases exec_cases compressedLen c e nowUs with ⟨_, same | flushed⟩ | submitted
    · rwa [same]
    · rw [flushed]
      exact covered_doFlush holds ok nowUs covered
    · rw [submitted]
      exact covered_submit holds ok nowUs fine covered
  flush e nowUs := by
    rintro ⟨ok, covered⟩
    exact ⟨stable_engineOk.flush e nowUs ok, covered_doFlush holds ok nowUs covered⟩
  compact e nowUs popped order := by
    rintro ⟨ok, covered⟩
    refine ⟨stable_engineOk.compact e nowUs popped order ok, covered.imp_right fun published => ?_⟩
    exact published.trans_eq (run_lastFlushedSeq e.config compressedLen e.tables popped).symm
  gc e nowUs := by
    rintro ⟨ok, covered⟩
    refine ⟨ok_gc ok nowUs, covered.imp_right fun published => ?_⟩
    exact published.trans_eq (gc_lastFlushedSeq e.tables nowUs).symm
  sync e := by
    rintro ⟨ok, covered⟩
    exact ⟨engineOk_syncAll ok, covered.imp_left (holds.syncAll _)⟩

/-! ### An engine opened on a directory that earlier sessions have left -/

/-- What can happen in the earlier sessions; their records fit the encodings. -/
def Fitting (w : World) (choice : Choice) : Prop :=
  Possible w choice ∧ ∀ c nowUs, choice = .command c nowUs → ∀ x ∈ w.numbered c, x.Fits ∧ TableFits x

theorem engineOk_reopened {e : Engine} (ok : EngineOk e) {config : Config} (roomy : 0 < config.maxFrozenMemtables) :
    EngineOk (reopened config e) := by
  have log := WalRuns.sound_openDir ok.log config.walSegmentSizeMb
  have same := logged_reopened ok config
  have memory : (reopened config e).memtables.active.records =
      (reopened config e).wal.replayFrom (CrashedWriters.lastFlushedSeq e) := (foldl_insert _ _).1
  have room : (reopened config e).memtables.maxFrozen = config.maxFrozenMemtables := foldl_insert_maxFrozen _ _
  refine ⟨(foldl_insert _ _).2.1, room.symm ▸ roomy, log.1, ok.tables, fun x member => ?_, fun x member => ?_⟩
  · rw [memory] at member
    obtain ⟨_, logged⟩ := (mem_replayFrom_iff _ _ x).mp member
    exact ok.logged x (same ▸ (logged_iff x _).mp logged)
  · exact ok.logged x (same ▸ member)

theorem engineOk_world {w : World} (reached : Reachable (World.next compressedLen) Fitting Start w) :
    EngineOk w.engine := by
  apply reached.invariant
  · intro w start
    exact (carried_start (r := .delete [] 0 0) start).ok
  · intro w choice w' ok fitting moved
    obtain rfl := Option.some.inj moved
    cases choice with
    | command c nowUs => exact stable_engineOk.command w.engine c nowUs (fitting.2 c nowUs rfl) ok
    | compact nowUs popped => exact stable_engineOk.compact w.engine nowUs popped fitting.1 ok
    | gc nowUs => exact ok_gc ok nowUs
    | crash config => exact engineOk_reopened ok fitting.1

/-- The thread of an engine just opened. -/
def Opened (compressedLen : Bytes → Nat) (config : Config) (s : State Engine) : Prop :=
  0 < config.maxFrozenMemtables ∧ ∃ w clock, Reachable (World.next compressedLen) Fitting Start w ∧
    s = begin (reopened config w.engine) clock

theorem engineOk_runs {s : State Engine}
    (reached : Runs compressedLen config intervals lag (Opened compressedLen config) s) : EngineOk s.store := by
  refine Kept.reachable stable_engineOk.kept ?_ reached
  rintro u ⟨roomy, w, clock, before, rfl⟩
  exact engineOk_reopened (engineOk_world before) roomy

theorem inTime_runs {s : State Engine}
    (reached : Runs compressedLen config intervals lag (Opened compressedLen config) s) : InTime lag s := by
  apply reached.invariant
  · rintro u ⟨_, w, clock, _, rfl⟩
    exact inTime_begin lag _ clock
  · intro u choice u' timely prompt moved
    exact inTime_next _ _ _ timely prompt moved

/-- The active table holds numbers from `n` on only. -/
def Recent (n : Nat) (e : Engine) : Prop := ∀ x ∈ e.memtables.active.records, n ≤ x.seq

theorem recent_doFlush (n : Nat) {e : Engine} (ok : EngineOk e) (nowUs : Int) :
    Recent n (e.doFlush compressedLen nowUs) := by
  rcases doFlush_cases compressedLen e nowUs ok.frozen with ⟨empty, same⟩ | ⟨_, dropped⟩ | flushed
  · intro x member
    rw [same, empty] at member
    cases member
  · intro x member
    rw [dropped] at member
    cases member
  · intro x member
    rw [flushed] at member
    cases member

theorem recent_submit {n : Nat} {e : Engine} (ok : EngineOk e) {records : List InternalRecord} (nowUs : Int)
    (fits : ∀ x ∈ assignSeqs e.seqCounter records, x.Fits ∧ TableFits x) (counted : n ≤ e.seqCounter)
    (recent : Recent n e) : Recent n (e.submit compressedLen records nowUs) := by
  have numbered : EngineOk { e with seqCounter := e.seqCounter + records.length } :=
    ⟨ok.frozen, ok.roomy, ok.log, ok.tables, ok.memory, ok.logged⟩
  have inserted := engineOk_processBatchInner numbered fits
  have appended : Recent n (({ e with seqCounter := e.seqCounter + records.length } : Engine).processBatchInner
      (assignSeqs e.seqCounter records)) := by
    intro x member
    rw [Engine.processBatchInner, (foldl_insert _ _).1] at member
    rcases List.mem_append.mp member with old | new
    · exact recent x old
    · exact counted.trans (mem_assignSeqs _ _ x new).1
  rw [submit_eq compressedLen ok, Engine.flushIfFull, Engine.syncGroup]
  split_ifs
  · exact recent_doFlush n (engineOk_syncAll inserted) nowUs
  · exact appended
  · exact recent_doFlush n inserted nowUs
  · exact appended

/-- Numbers are handed out upwards. -/
theorem seqCounter_command (c : Command) {e : Engine} (ok : EngineOk e) (nowUs : Int) :
    e.seqCounter ≤ (c.exec compressedLen e nowUs).seqCounter := by
  have flushed := fun e : Engine => (doFlush_counters compressedLen e nowUs).2
  rcases exec_cases compressedLen c e nowUs with ⟨_, same | flush⟩ | submitted
  · rw [same]
  · rw [flush, flushed]
  · rw [submitted, submit_eq compressedLen ok, Engine.flushIfFull, Engine.syncGroup]
    split_ifs
    · rw [flushed]
      exact Nat.le_add_right _ _
    · exact Nat.le_add_right _ _
    · rw [flushed]
      exact Nat.le_add_right _ _
    · exact Nat.le_add_right _ _

theorem stable_counted (n : Nat) : Stable compressedLen fun e => EngineOk e ∧ n ≤ e.seqCounter where
  command e c nowUs fine := by
    rintro ⟨ok, counted⟩
    exact ⟨stable_engineOk.command e c nowUs fine ok, counted.trans (seqCounter_command c ok nowUs)⟩
  flush e nowUs := by
    rintro ⟨ok, counted⟩
    exact ⟨engineOk_doFlush compressedLen ok nowUs, counted.trans_eq (doFlush_counters compressedLen e nowUs).2.symm⟩
  compact e nowUs popped order := by
    rintro ⟨ok, counted⟩
    exact ⟨stable_engineOk.compact e nowUs popped order ok, counted⟩
  gc e nowUs := by
    rintro ⟨ok, counted⟩
    exact ⟨ok_gc ok nowUs, counted⟩
  sync e := by
    rintro ⟨ok, counted⟩
    exact ⟨engineOk_syncAll ok, counted⟩

theorem stable_recent (n : Nat) : Stable compressedLen fun e => (EngineOk e ∧ n ≤ e.seqCounter) ∧ Recent n e where
  command e c nowUs fine := by
    rintro ⟨⟨ok, counted⟩, recent⟩
    refine ⟨(stable_counted n).command e c nowUs fine ⟨ok, counted⟩, ?_⟩
    rcases exec_cases compressedLen c e nowUs with ⟨_, same | flushed⟩ | submitted
    · rwa [same]
    · rw [flushed]
      exact recent_doFlush n ok nowUs
    · rw [submitted]
      exact recent_submit ok nowUs fine counted recent
  flush e nowUs := by
    rintro ⟨ready, _⟩
    exact ⟨(stable_counted n).flush e nowUs ready, recent_doFlush n ready.1 nowUs⟩
  compact e nowUs popped order := by
    rintro ⟨ready, recent⟩
    exact ⟨(stable_counted n).compact e nowUs popped order ready, recent⟩
  gc e nowUs := by
    rintro ⟨⟨ok, counted⟩, recent⟩
    exact ⟨⟨ok_gc ok nowUs, counted⟩, recent⟩
  sync e := by
    rintro ⟨⟨ok, counted⟩, recent⟩
    exact ⟨⟨engineOk_syncAll ok, counted⟩, recent⟩

/-- A flush interval and three lags after any moment nothing written until then is in memory. -/
theorem memory_flushed_within (s s' : State Engine)
    (reached : Runs compressedLen config intervals lag (Opened compressedLen config) s)
    (later : Runs compressedLen config intervals lag (· = s) s') (running : s'.place ≠ .stopped)
    (late : s.clock + flushDur intervals + 3 * lag < s'.clock) :
    s'.store.memtables.frozen = [] ∧
      ∀ x ∈ s'.store.memtables.active.records, s.store.seqCounter ≤ x.seq := by
  have ok : EngineOk s'.store := by
    refine Kept.reachable stable_engineOk.kept ?_ later
    rintro u rfl
    exact engineOk_runs reached
  have recent : Recent s.store.seqCounter s'.store := by
    have here : (tasks compressedLen config intervals)[0]? = some (flushTask compressedLen intervals) := rfl
    apply brought_within (P := Recent s.store.seqCounter) here
      (stable_counted _).kept (stable_recent _).kept ?_ (inTime_runs reached) ?_ later running late
    · rintro e answer _ ⟨ok, _⟩
      exact recent_doFlush _ ok answer.nowUs
    · exact ⟨engineOk_runs reached, le_refl _⟩
  exact ⟨ok.frozen, recent⟩

/-- No task of the thread begins again before its interval has gone by since it ended. -/
theorem tasks_paced (i : Nat) (task : Task Engine Answer) (here : (tasks compressedLen config intervals)[i]? = some task)
    (s s' s'' : State Engine) (now now' : Nat) (answer : Answer)
    (reached : Runs compressedLen config intervals lag (Opened compressedLen config) s) (done : s.place = .ran now i)
    (later : Runs compressedLen config intervals lag (· = s) s') (visited : s'.place = .visiting now' i)
    (moved : turn (tasks compressedLen config intervals) (pollDur config intervals) s' answer = some s'')
    (again : s''.place = .ran now' i) : s.clock + task.period ≤ s'.clock :=
  runs_apart here (inTime_runs reached) done later visited moved again

end

/-! ### A session on a directory with one put in its log -/

/-- A step beside which no table is live. -/
def Calm (lag : Nat) (s : State Engine) : PollingLoop.Choice Answer Operation → Prop
  | .outside _ => False
  | .tick d => s.place ≠ .stopped → s.clock + d ≤ s.reading + lag
  | .halt => True
  | .turn answer => answer.popped = [] ∧ s.store.tables.candidates = []

instance decidableCalm (lag : Nat) (s : State Engine) (choice : PollingLoop.Choice Answer Operation) :
    Decidable (Calm lag s choice) := by
  cases choice <;> unfold Calm <;> infer_instance

theorem heapOrder_none {t : Tables} (none : t.candidates = []) (nowUs : Int) : HeapOrder t nowUs [] := by
  have empty : (fun i => iterated nowUs (t.file (t.candidates.get i))) = fun _ => [] := by
    funext i
    have nothing : t.candidates.length = 0 := by rw [none, List.length_nil]
    exact absurd i.isLt (by omega)
  refine ⟨[], ?_, rfl⟩
  rw [empty]
  exact .refl _

theorem prompt_calm {lag : Nat} {s : State Engine} {choice : PollingLoop.Choice Answer Operation}
    (calm : Calm lag s choice) : Prompt lag Fine Answers s choice := by
  cases choice with
  | outside op => exact calm.elim
  | tick d => exact calm
  | halt => trivial
  | turn answer =>
    rw [Prompt, Answers, calm.1]
    exact heapOrder_none calm.2 answer.nowUs

def syncing : Config := { walSyncMode := .intervalMs 1 }

def briefly : Intervals := { flushIntervalMs := 1 }

def world : World := CrashRecovery.opened.exec List.length (put 97)

theorem world_reachable : Reachable (World.next List.length) Fitting Start world :=
  .step _ _ (.start CrashRecovery.opened CrashRecovery.opened_start) ⟨put 97, ⟨trivial, by rintro c nowUs ⟨⟩; decide +kernel⟩, rfl⟩

def session : State Engine := begin (reopened syncing world.engine) 0

theorem session_opened : Opened List.length syncing session :=
  ⟨by decide, world, 0, world_reachable, rfl⟩

/-- One pass two milliseconds after the one before, with `turns` steps. -/
def pass (nowUs : Int) (turns : Nat) : List (PollingLoop.Choice Answer Operation) :=
  [.turn ⟨nowUs, []⟩, .tick 2000000] ++ List.replicate turns (.turn ⟨nowUs, []⟩)

theorem passes (intervals : Intervals) (choices : List (PollingLoop.Choice Answer Operation)) (until' : Nat)
    (ran : (follow (next (tasks List.length syncing intervals) (pollDur syncing intervals) (Operation.exec List.length))
      (Calm 2000000) session choices).any (fun s => s.place != .stopped && decide (until' < s.clock)) = true) :
    ∃ s', Runs List.length syncing intervals 2000000 (· = session) s' ∧ s'.place ≠ .stopped ∧ until' < s'.clock := by
  obtain ⟨s', reached, passed⟩ : ∃ s', Reachable (next (tasks List.length syncing intervals) (pollDur syncing intervals)
      (Operation.exec List.length)) (Calm 2000000) (· = session) s' ∧
        (s'.place != .stopped && decide (until' < s'.clock)) = true :=
    reachable_of_follow session choices _ rfl ran
  rw [Bool.and_eq_true, bne_iff_ne, decide_eq_true_eq] at passed
  exact ⟨s', reached.mono fun s choice calm => prompt_calm calm, passed⟩

/-- The put has left the memory seven milliseconds after the session has begun. -/
theorem memory_flushed_within_session : first ∈ session.store.memtables.active.records ∧ ∃ s' : State Engine,
    s'.store.memtables.frozen = [] ∧ ∀ x ∈ s'.store.memtables.active.records, session.store.seqCounter ≤ x.seq := by
  refine ⟨by decide +kernel, ?_⟩
  obtain ⟨s', reached, running, late⟩ := passes briefly ((List.replicate 4 (pass i64Max 8)).flatten) 7000000
    (by decide +kernel)
  exact ⟨s', memory_flushed_within session s' (.start _ session_opened) reached running late⟩

end FlowDb.BackgroundMaintenance
