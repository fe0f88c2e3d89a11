import FlowDb.CrashedMaintenance
import FlowDb.GcVisibility

/-! What the maintenance of tables comes to. Compactions leave fewer tables each time, until no
more than the threshold allows; the thread collects a table soon after its last record has expired. -/
namespace FlowDb.TableUpkeep
open ByteString OrderedMap Records Sstable ManifestLog ManifestState BlockIndex TableStore MemoryTables EngineOps EngineRuns
open MaintenanceSteps Interleaving CrashRecovery BackgroundMaintenance Restarts DirectoryRuns GcVisibility PollingLoop

/-! ### The records of each table -/

/-- What holds of the records of each table of the manifest. -/
def Each (P : List InternalRecord → Prop) (t : Tables) : Prop := ∀ id ∈ t.activeIds, P (t.file id).records

section
variable {config : Config} {compressedLen : Bytes → Nat} {t : Tables} {P : List InternalRecord → Prop}

theorem Each.deleteSsts (each : Each P t) (ids : List Nat) : Each P (deleteSsts t ids) := by
  intro id active
  rw [activeIds_deleteSsts, List.mem_filter] at active
  rw [file_deleteSsts t ids id (of_decide_eq_true active.2)]
  exact each id active.1

theorem Each.run (each : Each P t) {popped : List InternalRecord} (new : written popped ≠ [] → P (written popped)) :
    Each P (CompactionRunner.run config compressedLen t popped) := by
  simp only [CompactionRunner.run]
  split_ifs with few none empty
  · exact each
  · exact each
  · exact each.deleteSsts _
  · intro id active
    rw [file_publishSst]
    split_ifs with same
    · rw [SstFile.records, SstStreamWriter.write, chunks_flatten]
      exact new empty
    · have entry := fun info blocks => applyEntry_compaction t.manifest.state t.candidates info blocks
      rw [Tables.activeIds, publishSst, state_append, (entry _ _).2.2.1, mem_addActive] at active
      have kept := active.resolve_left same
      apply each.deleteSsts t.candidates
      rwa [Tables.activeIds, TableStore.deleteSsts, deletes_state]

/-- What flushes, merges and deletions keep, and the index has no part in. -/
structure Lasts (compressedLen : Bytes → Nat) (P : Tables → Prop) : Prop where
  new : ∀ timeBucketSecs, P (Tables.new timeBucketSecs)
  flush : ∀ config t records, records ≠ [] → P t → P (addFlushed config compressedLen t records)
  compact : ∀ config t popped, P t → P (CompactionRunner.run config compressedLen t popped)
  deleted : ∀ t ids, P t → P (TableStore.deleteSsts t ids)
  reindexed : ∀ t index, P t → P { t with index }

theorem Lasts.reachable {P : Tables → Prop} (lasts : Lasts compressedLen P) {w : World}
    (reached : Reachable (World.next compressedLen) Fitting Start w) : P w.engine.tables := by
  apply reached.invariant
  · intro w start
    obtain ⟨config, _, opened⟩ := start.engine
    rw [opened]
    exact lasts.new config.timeBucketSecs
  · intro w choice w' held _ moved
    obtain rfl := Option.some.inj moved
    cases choice with
    | command c nowUs => exact kept_command lasts.flush c w.engine nowUs held
    | compact nowUs popped => exact lasts.compact w.engine.config w.engine.tables popped held
    | gc nowUs => exact lasts.deleted w.engine.tables _ held
    | crash config => exact lasts.reindexed w.engine.tables _ held

theorem stable_tables {P : Tables → Prop}
    (flush : ∀ config t records, records ≠ [] → P t → P (addFlushed config compressedLen t records))
    (compact : ∀ config t popped, P t → P (CompactionRunner.run config compressedLen t popped))
    (deleted : ∀ t ids, P t → P (TableStore.deleteSsts t ids)) : Stable compressedLen fun e => P e.tables where
  command e c nowUs _ held := kept_command flush c e nowUs held
  flush e nowUs held := kept_doFlush flush e nowUs held
  compact e _ popped _ held := compact e.config e.tables popped held
  gc e _ held := deleted e.tables _ held
  sync _ held := held

end

/-! ### Compactions -/

section
variable {config : Config} {compressedLen : Bytes → Nat} {t : Tables}

/-- No table is empty. -/
def Filled (t : Tables) : Prop := Each (· ≠ []) t

theorem length_addActive (s : ManifestState) (id : Nat) :
    (s.addActive id).activeSstIds.length ≤ s.activeSstIds.length + 1 := by
  unfold addActive
  split_ifs
  · exact Nat.le_succ _
  · exact (List.length_append).le

/-- The manifest knows a table for each id that is live. -/
theorem length_entries (ok : Ok t) : t.manifest.state.sstables.entries.length = t.activeIds.length := by
  have keys : t.manifest.state.sstables.keys.Perm t.activeIds := by
    apply (List.perm_ext_iff_of_nodup (keys_nodup _) ok.nodup).mpr
    intro id
    rw [mem_keys_iff, ok.listed]
  rw [← keys.length_eq, OMap.keys, List.length_map]

/-- Whatever their sizes, of two tables or more two at least are candidates. -/
theorem length_candidates (ok : Ok t) : min 2 t.activeIds.length ≤ t.candidates.length := by
  have sized : (((t.activeIds.insertionSort (· ≤ ·)).filterMap fun id =>
      (t.manifest.state.sstables.get? id).map fun info => (id, info.bytes)).insertionSort byBytes).length =
        t.activeIds.length := by
    have known := congrArg List.length (sized_ids t.manifest.state (t.activeIds.insertionSort (· ≤ ·)))
    rw [List.length_map, List.filter_eq_self.mpr, List.length_insertionSort] at known
    · rw [List.length_insertionSort, known]
    · intro id member
      exact (ok.listed id).mp ((List.mem_insertionSort _).mp member)
  simp only [Tables.candidates, pickCompactionCandidates]
  split_ifs with single several
  · rw [List.length_map, sized]
    exact min_le_right _ _
  · rw [List.length_map]
    exact (min_le_left _ _).trans several
  · rw [List.length_map, List.length_take, sized]

theorem length_deleteSsts (t : Tables) :
    (deleteSsts t t.candidates).activeIds.length + t.candidates.length ≤ t.activeIds.length := by
  have all : t.candidates.countP (fun id => decide (id ∈ t.candidates)) = t.candidates.length :=
    List.countP_eq_length.mpr fun id member => decide_eq_true member
  have inside := (candidates_subperm t).countP_le fun id => decide (id ∈ t.candidates)
  have parts := t.activeIds.length_eq_countP_add_countP fun id => decide (id ∈ t.candidates)
  simp only [decide_eq_true_eq] at parts
  rw [activeIds_deleteSsts, ← List.countP_eq_length_filter]
  omega

theorem length_run (ok : Ok t) (filled : Filled t) (popped : List InternalRecord) :
    let after := (CompactionRunner.run config compressedLen t popped).activeIds.length
    after ≤ t.activeIds.length ∧ after ≤ max (max 1 (config.compactionThreshold - 1)) (t.activeIds.length - 1) := by
  have entries := length_entries ok
  have candidates := length_candidates ok
  have fewer := length_deleteSsts t
  simp only [CompactionRunner.run]
  split_ifs with few none empty
  · omega
  · have unpicked : t.candidates = [] := by
      apply List.eq_nil_iff_forall_not_mem.mpr
      intro id member
      have empty : (t.file id).blocks = [] := List.isEmpty_iff.mp (List.all_eq_true.mp none id member)
      apply filled id ((candidates_subperm t).subset member)
      rw [SstFile.records, empty, List.flatten_nil]
    rw [unpicked, List.length_nil] at candidates
    omega
  · omega
  · have picked : t.candidates ≠ [] := by
      intro unpicked
      rw [unpicked] at none
      exact none rfl
    have some := List.length_pos_iff.mpr picked
    have entry := fun info blocks => applyEntry_compaction t.manifest.state t.candidates info blocks
    have more := length_addActive (t.candidates.foldl remove t.manifest.state) t.manifest.state.nextSstId
    have left : (deleteSsts t t.candidates).activeIds = (t.candidates.foldl remove t.manifest.state).activeSstIds := by
      rw [Tables.activeIds, TableStore.deleteSsts, deletes_state]
    rw [Tables.activeIds, publishSst, state_append, (entry _ _).2.2.1]
    rw [left] at fewer
    exact ⟨more.trans (by omega), more.trans (by omega)⟩

/-- Compactions one after the other; each merge pops in an order of its own. -/
def compactions (config : Config) (compressedLen : Bytes → Nat) (t : Tables) (pops : List (List InternalRecord)) : Tables :=
  pops.foldl (CompactionRunner.run config compressedLen) t

theorem length_compactions (ok : Ok t) (filled : Filled t) (pops : List (List InternalRecord)) :
    let after := (compactions config compressedLen t pops).activeIds.length
    after ≤ t.activeIds.length ∧
      after ≤ max (max 1 (config.compactionThreshold - 1)) (t.activeIds.length - pops.length) := by
  induction pops generalizing t with
  | nil => exact ⟨le_refl _, le_max_right _ _⟩
  | cons popped rest ih =>
    obtain ⟨fewer, bound⟩ := @length_run config compressedLen t ok filled popped
    obtain ⟨fewer', bound'⟩ := ih (ok_run config compressedLen t ok popped) (filled.run fun some => some)
    rw [compactions, List.foldl_cons, List.length_cons]
    rw [compactions] at fewer' bound'
    omega

theorem filled_addFlushed (config : Config) (t : Tables) (records : List InternalRecord) (some : records ≠ [])
    (filled : Filled t) : Filled (addFlushed config compressedLen t records) :=
  eachFile_addFlushed config compressedLen t (· ≠ []) filled records some

theorem filled_lasts : Lasts compressedLen Filled where
  new _ _ active := by cases active
  flush := filled_addFlushed
  compact _ _ _ filled := filled.run fun some => some
  deleted _ ids filled := filled.deleteSsts ids
  reindexed _ _ filled := filled

/-- However many tables a run has led to, each compaction leaves at least one fewer, down to one below the threshold
(or to one, if the threshold asks for less), and none ever leaves more. -/
theorem compactions_settle (w : World) (reached : Reachable (World.next compressedLen) Fitting Start w)
    (pops : List (List InternalRecord)) :
    let after := (compactions w.engine.config compressedLen w.engine.tables pops).activeIds.length
    after ≤ w.engine.tables.activeIds.length ∧
      after ≤ max (max 1 (w.engine.config.compactionThreshold - 1)) (w.engine.tables.activeIds.length - pops.length) :=
  length_compactions (tables_reachable reached) (filled_lasts.reachable reached) pops

end

/-- Two tables where two are enough for a compaction. -/
def twoTables : World := [put 97, .command .flush 0, put 98, .command .flush 0].foldl (World.exec List.length)
  ⟨fresh { compactionThreshold := 2 }, 0, [], []⟩

theorem twoTables_reachable : Reachable (World.next List.length) Fitting Start twoTables := by
  have start : Start ⟨fresh { compactionThreshold := 2 }, 0, [], []⟩ := ⟨⟨_, by decide, rfl⟩, rfl, rfl⟩
  simp only [twoTables, List.foldl_cons, List.foldl_nil]
  refine reachable_exec (reachable_exec (reachable_exec (reachable_exec (.start _ start) ?_) ?_) ?_) ?_
  all_goals
    refine ⟨trivial, ?_⟩
    rintro c nowUs ⟨⟩
    decide +kernel

/-- One compaction merges the two. -/
theorem compactions_settle_two : twoTables.engine.tables.activeIds.length = 2 ∧
    (compactions twoTables.engine.config List.length twoTables.engine.tables
      [twoTables.engine.tables.records.map stored]).activeIds.length ≤ 1 := by
  have two : twoTables.engine.tables.activeIds.length = 2 := by decide +kernel
  have settled := (compactions_settle twoTables twoTables_reachable [twoTables.engine.tables.records.map stored]).2
  have threshold : twoTables.engine.config.compactionThreshold = 2 := by decide +kernel
  rw [two, threshold] at settled
  exact ⟨two, settled⟩

/-! ### Collection by the thread -/

-- What the clock of the system shows an operation.
def Operation.nowUs : Operation → Int
  | .command _ nowUs => nowUs
  | .compact nowUs _ => nowUs
  | .gc nowUs => nowUs

/-- Each table holds a record that does not expire before `since`. -/
def Alive (since : Int) (t : Tables) : Prop := Each (fun records => ∃ r ∈ records, since ≤ r.expireAt) t

section
variable {compressedLen : Bytes → Nat} {since nowUs : Int}

/-- A flush writes no table but of records that have not expired. -/
theorem doFlush_tables {e : Engine} (frozen : e.memtables.frozen = []) (nowUs : Int) :
    (e.doFlush compressedLen nowUs).tables = e.tables ∨
      flushable e.memtables.active.records nowUs ≠ [] ∧ (e.doFlush compressedLen nowUs).tables =
        addFlushed e.config compressedLen e.tables (flushable e.memtables.active.records nowUs) := by
  by_cases expired : flushable e.memtables.active.records nowUs = []
  · left
    obtain ⟨config, wal, ⟨active, _, maxFrozen, limit⟩, tables, seqCounter⟩ := e
    obtain rfl : _ = [] := frozen
    by_cases empty : active.records = []
    · simp [Engine.doFlush, MemTables.freeze, MemTables.popFrozen, empty]
    · simp_all [Engine.doFlush, MemTables.freeze, MemTables.popFrozen, MemTable.sort, flushable]
  · rcases doFlush_cases compressedLen e nowUs frozen with ⟨_, same⟩ | ⟨none, _⟩ | flushed
    · exact Or.inl (congrArg Engine.tables same)
    · exact absurd none expired
    · exact Or.inr ⟨expired, congrArg Engine.tables flushed⟩

theorem alive_doFlush {e : Engine} (ok : EngineOk e) (late : since ≤ nowUs) (alive : Alive since e.tables) :
    Alive since (e.doFlush compressedLen nowUs).tables := by
  rcases @doFlush_tables compressedLen e ok.frozen nowUs with same | ⟨some, flushed⟩
  · rwa [same]
  · rw [flushed]
    apply eachFile_addFlushed e.config compressedLen e.tables (fun records => ∃ r ∈ records, since ≤ r.expireAt) alive
    obtain ⟨r, member⟩ := List.exists_mem_of_ne_nil _ some
    exact ⟨r, member, late.trans ((mem_flushable _ nowUs r).mp member).2.le⟩

theorem alive_command {e : Engine} (ok : EngineOk e) (c : Command)
    (fits : ∀ x ∈ WalLog.assignSeqs e.seqCounter (c.records e.config), x.Fits ∧ TableFits x) (late : since ≤ nowUs)
    (alive : Alive since e.tables) : Alive since (c.exec compressedLen e nowUs).tables := by
  rcases exec_cases compressedLen c e nowUs with ⟨_, same | flushed⟩ | submitted
  · rwa [same]
  · rw [flushed]
    exact alive_doFlush ok late alive
  · rw [submitted]
    apply submit_keeps (P := fun e => Alive since e.tables) ok fits
    · exact alive
    · exact fun e held => held
    · exact fun e inserted held => alive_doFlush inserted late held

theorem alive_compact {e : Engine} (ok : EngineOk e) {popped : List InternalRecord}
    (order : HeapOrder e.tables nowUs popped) (late : since ≤ nowUs) (alive : Alive since e.tables) :
    Alive since (CompactionRunner.run e.config compressedLen e.tables popped) := by
  apply alive.run
  intro some
  obtain ⟨r, member⟩ := List.exists_mem_of_ne_nil _ some
  obtain ⟨front, back, shape, _⟩ := leads_of_written member
  obtain ⟨_, _, y, _, unexpired, rfl⟩ := (mem_heapOrder ok.tables order r).mp (shape ▸ by simp)
  exact ⟨_, member, late.trans unexpired.le⟩

/-- The expiry that the manifest has of a table is that of one of its records. -/
theorem alive_gc {t : Tables} (ok : Ok t) (recorded : Recorded t) (filled : Filled t) (late : since ≤ nowUs) :
    Alive since (GcRunner.run t nowUs) := by
  intro id active
  rw [GcRunner.run, activeIds_deleteSsts, List.mem_filter] at active
  obtain ⟨there, kept⟩ := active
  have kept : id ∉ expiredSsts t.manifest.state nowUs := of_decide_eq_true kept
  rw [GcRunner.run, file_deleteSsts _ _ id kept]
  obtain ⟨info, known⟩ := Option.isSome_iff_exists.mp ((ok.listed id).mp there)
  have expiry := (recorded id info _ known (ok.infos id there)).maxExpire
  have latest := maximum_mem (mt List.map_eq_nil_iff.mp (filled id there) :
    (t.file id).records.map (·.expireAt) ≠ [])
  obtain ⟨r, member, same⟩ := List.mem_map.mp latest
  refine ⟨r, member, ?_⟩
  by_contra early
  apply kept
  rw [CrashedMaintenance.mem_expiredSsts]
  exact ⟨info, known, by omega⟩

/-! What tables are while the thread runs. -/

structure Upkept (t : Tables) : Prop where
  ok : Ok t
  recorded : Recorded t
  filled : Filled t

theorem recorded_lasts : Lasts compressedLen Recorded where
  new := .new
  flush config _ records _ recorded := recorded.flush config compressedLen records
  compact config _ popped recorded := recorded.compact config compressedLen popped
  deleted _ ids recorded := recorded.deleteSsts ids
  reindexed _ _ recorded := recorded

theorem upkept_reopened {w : World} (reached : Reachable (World.next compressedLen) Fitting Start w) (config : Config) :
    Upkept (reopened config w.engine).tables :=
  ⟨ok_reopened (tables_reachable reached) (ready_reachable reached).synced config, recorded_lasts.reachable reached,
    filled_lasts.reachable reached⟩

theorem stable_upkept : Stable compressedLen fun e => EngineOk e ∧ Upkept e.tables := by
  apply stable_engineOk.and
  apply stable_tables
  · intro config t records some upkept
    exact ⟨ok_addFlushed config compressedLen t upkept.ok records, upkept.recorded.flush config compressedLen records,
      filled_addFlushed config t records some upkept.filled⟩
  · intro config t popped upkept
    exact ⟨ok_run config compressedLen t upkept.ok popped, upkept.recorded.compact config compressedLen popped,
      upkept.filled.run fun some => some⟩
  · intro t ids upkept
    exact ⟨ok_deleteSsts t upkept.ok ids, upkept.recorded.deleteSsts ids, upkept.filled.deleteSsts ids⟩

/-- No clock shows a time before `since`. -/
def FineSince (since : Int) (e : Engine) (op : Operation) : Prop := Fine e op ∧ since ≤ Operation.nowUs op

def AnswersSince (since : Int) (e : Engine) (answer : Answer) : Prop := Answers e answer ∧ since ≤ answer.nowUs

variable {config : Config} {intervals : Intervals} {lag : Nat}

theorem kept_since {P : Engine → Prop}
    (kept : Kept (tasks compressedLen config intervals) (Operation.exec compressedLen) Fine Answers P) :
    Kept (tasks compressedLen config intervals) (Operation.exec compressedLen) (FineSince since) (AnswersSince since) P where
  outside e op fine := kept.outside e op fine.1
  task task member e answer answers := kept.task task member e answer answers.1

theorem kept_alive : Kept (tasks compressedLen config intervals) (Operation.exec compressedLen) (FineSince since)
    (AnswersSince since) fun e => (EngineOk e ∧ Upkept e.tables) ∧ Alive since e.tables := by
  have upkept : Kept (tasks compressedLen config intervals) (Operation.exec compressedLen) (FineSince since)
      (AnswersSince since) fun e => EngineOk e ∧ Upkept e.tables := kept_since stable_upkept.kept
  constructor
  · rintro e op fine ⟨kept, alive⟩
    refine ⟨upkept.outside e op fine kept, ?_⟩
    cases op with
    | command c nowUs => exact alive_command kept.1 c fine.1 fine.2 alive
    | compact nowUs popped => exact alive_compact kept.1 fine.1 fine.2 alive
    | gc nowUs => exact alive.deleteSsts _
  · rintro task member e answer answers ⟨kept, alive⟩
    refine ⟨upkept.task task member e answer answers kept, ?_⟩
    simp only [tasks, List.mem_cons, List.not_mem_nil, or_false] at member
    rcases member with rfl | rfl | rfl | rfl
    · exact alive_doFlush kept.1 answers.2 alive
    · simp only [compactTask]
      split_ifs
      · exact alive_compact kept.1 answers.1 answers.2 alive
      · exact alive
    · exact alive.deleteSsts _
    · exact alive

/-- While the thread runs a table does not outlast its records for long: a collection interval and three lags after the
clock of the system has come to `since` every file of the directory holds a record that expires then or later. -/
theorem expired_collected_within (s s' : State Engine) (since : Int)
    (reached : Runs compressedLen config intervals lag (Opened compressedLen config) s)
    (later : Reachable (next (tasks compressedLen config intervals) (pollDur config intervals) (Operation.exec compressedLen))
      (Prompt lag (FineSince since) (AnswersSince since)) (· = s) s')
    (running : s'.place ≠ .stopped) (late : s.clock + gcDur intervals + 3 * lag < s'.clock) (id : Nat) (file : SstFile)
    (there : s'.store.tables.files.get? id = some file) : ∃ r ∈ file.records, since ≤ r.expireAt := by
  have upkept : EngineOk s.store ∧ Upkept s.store.tables := by
    refine Kept.reachable stable_upkept.kept ?_ reached
    rintro u ⟨roomy, w, clock, before, rfl⟩
    exact ⟨engineOk_reopened (engineOk_world before) roomy, upkept_reopened before _⟩
  have still : EngineOk s'.store ∧ Upkept s'.store.tables := by
    refine Kept.reachable (kept_since stable_upkept.kept) ?_ later
    rintro u rfl
    exact upkept
  have alive : Alive since s'.store.tables := by
    have here : (tasks compressedLen config intervals)[2]? = some (gcTask intervals) := rfl
    apply brought_within (P := fun e => Alive since e.tables) here (kept_since stable_upkept.kept) kept_alive ?_
      (inTime_runs reached) upkept later running late
    rintro e answer answers ⟨_, kept⟩
    exact alive_gc kept.ok kept.recorded kept.filled answers.2
  have active : id ∈ s'.store.tables.activeIds := (still.2.ok.filed id).mpr (Option.isSome_iff_exists.mpr ⟨file, there⟩)
  have found := alive id active
  rwa [Tables.file, there] at found

end

/-! ### A session on a directory with a table that has expired -/

/-- A step beside which nothing is left to merge. -/
def Spent (lag : Nat) (since : Int) (s : State Engine) : PollingLoop.Choice Answer Operation → Prop
  | .outside _ => False
  | .tick d => s.place ≠ .stopped → s.clock + d ≤ s.reading + lag
  | .halt => True
  | .turn answer => answer.popped = [] ∧ since ≤ answer.nowUs ∧
      ∀ id ∈ s.store.tables.candidates, iterated answer.nowUs (s.store.tables.file id) = []

instance decidableSpent (lag : Nat) (since : Int) (s : State Engine) :
    (choice : PollingLoop.Choice Answer Operation) → Decidable (Spent lag since s choice)
  | .outside _ => inferInstanceAs (Decidable False)
  | .tick _ => inferInstanceAs (Decidable (_ → _))
  | .halt => inferInstanceAs (Decidable True)
  | .turn _ => inferInstanceAs (Decidable (_ ∧ _ ∧ _))

theorem prompt_spent {lag : Nat} {since : Int} {s : State Engine} {choice : PollingLoop.Choice Answer Operation}
    (spent : Spent lag since s choice) : Prompt lag (FineSince since) (AnswersSince since) s choice := by
  cases choice with
  | outside op => exact spent.elim
  | tick d => exact spent
  | halt => trivial
  | turn answer =>
    obtain ⟨unpopped, late, nothing⟩ := spent
    refine ⟨?_, late⟩
    rw [Answers, unpopped]
    refine ⟨[], ?_, rfl⟩
    have empty : (fun i => iterated answer.nowUs (s.store.tables.file (s.store.tables.candidates.get i))) = fun _ => [] :=
      funext fun i => nothing _ (List.get_mem _ i)
    rw [empty]
    exact .refl _

def expiredSession : State Engine := begin (reopened syncing CrashedMaintenance.expiring.engine) 0

theorem expiredSession_opened : Opened List.length syncing expiredSession :=
  ⟨by decide, CrashedMaintenance.expiring, 0, CrashedMaintenance.expiring_reachable, rfl⟩

/-- Passes a second apart, with an interval of one second. -/
def secondPasses (count : Nat) : List (PollingLoop.Choice Answer Operation) :=
  (List.replicate count ([.turn ⟨2000000, []⟩, .tick 1000000000] ++ List.replicate 10 (.turn ⟨2000000, []⟩))).flatten

/-- The table that has expired is gone in five seconds. -/
theorem expired_collected_within_session : expiredSession.store.tables.files.keys = [1] ∧ ∃ s' : State Engine,
    4000000000 < s'.clock ∧
      ∀ id file, s'.store.tables.files.get? id = some file → ∃ r ∈ file.records, 2000000 ≤ r.expireAt := by
  obtain ⟨s', reached, passed⟩ : ∃ s', Reachable (next (tasks List.length syncing { gcIntervalSecs := 1 })
      (pollDur syncing { gcIntervalSecs := 1 }) (Operation.exec List.length)) (Spent 1000000000 2000000)
        (· = expiredSession) s' ∧ (s'.place != .stopped && decide (4000000000 < s'.clock)) = true :=
    reachable_of_follow expiredSession (secondPasses 5) _ rfl (by decide +kernel)
  rw [Bool.and_eq_true, bne_iff_ne, decide_eq_true_eq] at passed
  refine ⟨by decide +kernel, s', passed.2, fun id file there => ?_⟩
  exact expired_collected_within expiredSession s' 2000000 (.start _ expiredSession_opened)
    (reached.mono fun s choice spent => prompt_spent spent) passed.1 passed.2 id file there

end FlowDb.TableUpkeep
