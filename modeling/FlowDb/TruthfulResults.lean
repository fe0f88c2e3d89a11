import FlowDb.IoFailures
import FlowDb.EngineRuns

/-! What the results of a group say about its records. The submissions of a group enter
the memtable one after the other; the first error ends the group and is signalled to all
of them. -/
namespace FlowDb.TruthfulResults
open ByteString Records WalLog MemoryTables EngineOps IoFailures

/-- The results that `drain_and_process` signals, one to each submission. -/
def signalled (submissions : List (List InternalRecord)) (run : GroupRun) : List (Option GroupFault) :=
  submissions.map fun _ => run.error

/-- Err says that no record of the submission has entered the memtable, Ok that all have. -/
structure Truthful (submissions : List (List InternalRecord)) (run : GroupRun) : Prop where
  err : ∀ i records fault, submissions[i]? = some records → (signalled submissions run)[i]? = some (some fault) →
    ∀ r ∈ records, (i, r) ∉ run.inserted
  ok : ∀ i records, submissions[i]? = some records → (signalled submissions run)[i]? = some none →
    ∀ r ∈ records, (i, r) ∈ run.inserted

/-- The records of submissions, each with the position of its own. -/
def numbered : Nat → List (List InternalRecord) → List (Nat × InternalRecord)
  | _, [] => []
  | position, records :: rest => records.map (Prod.mk position) ++ numbered (position + 1) rest

theorem mem_numbered (position : Nat) (submissions : List (List InternalRecord)) (i : Nat) (r : InternalRecord) :
    (i, r) ∈ numbered position submissions ↔
      position ≤ i ∧ ∃ records, submissions[i - position]? = some records ∧ r ∈ records := by
  induction submissions generalizing position with
  | nil => simp [numbered]
  | cons first rest ih =>
    rw [numbered, List.mem_append, ih]
    constructor
    · rintro (here | ⟨behind, records, there, member⟩)
      · obtain ⟨x, member, same⟩ := List.mem_map.mp here
        obtain ⟨rfl, rfl⟩ := Prod.mk.inj same
        exact ⟨le_refl _, first, by simp, member⟩
      · obtain ⟨k, rfl⟩ := Nat.exists_eq_add_of_le behind
        refine ⟨by omega, records, ?_, member⟩
        rw [show position + 1 + k - position = k + 1 by omega, List.getElem?_cons_succ]
        rwa [Nat.add_sub_cancel_left] at there
    · rintro ⟨behind, records, there, member⟩
      obtain ⟨k, rfl⟩ := Nat.exists_eq_add_of_le behind
      rw [Nat.add_sub_cancel_left] at there
      cases k with
      | zero =>
        obtain rfl : first = records := by simpa using there
        exact Or.inl (List.mem_map_of_mem member)
      | succ k =>
        refine Or.inr ⟨by omega, records, ?_, member⟩
        rwa [show position + (k + 1) - (position + 1) = k by omega]

theorem mem_numbered_zero {submissions : List (List InternalRecord)} {i : Nat} {r : InternalRecord} :
    (i, r) ∈ numbered 0 submissions ↔ ∃ records, submissions[i]? = some records ∧ r ∈ records := by
  rw [mem_numbered, Nat.sub_zero]
  simp

theorem signalled_eq {submissions : List (List InternalRecord)} {run : GroupRun} {i : Nat} {records : List InternalRecord}
    (there : submissions[i]? = some records) : (signalled submissions run)[i]? = some run.error := by
  rw [signalled, List.getElem?_map, there]
  rfl

/-- A group that returned Ok is truthful if all of its records are in. -/
theorem truthful_ok {submissions : List (List InternalRecord)} {run : GroupRun} (ok : run.error = none)
    (inserted : run.inserted = numbered 0 submissions) : Truthful submissions run := by
  constructor
  · intro i records fault there result
    rw [signalled_eq there, ok] at result
    cases result
  · intro i records there _ r member
    rw [inserted]
    exact mem_numbered_zero.mpr ⟨records, there, member⟩

/-- A group that returned Err is truthful if none of the submissions it got through carries a record. -/
theorem truthful_err {submissions : List (List InternalRecord)} {run : GroupRun} {fault : GroupFault} {n : Nat}
    (failed : run.error = some fault) (inserted : run.inserted = numbered 0 (submissions.take n)) :
    Truthful submissions run ↔ ∀ records ∈ submissions.take n, records = [] := by
  constructor
  · intro truthful records member
    obtain ⟨i, bound, rfl⟩ := List.getElem_of_mem member
    have early := List.getElem?_eq_getElem bound
    have there : submissions[i]? = some (submissions.take n)[i] := by
      rw [List.getElem?_take] at early
      split_ifs at early
      exact early
    refine List.eq_nil_iff_forall_not_mem.mpr fun r inside => ?_
    refine truthful.err i _ fault there (by rw [signalled_eq there, failed]) r inside ?_
    rw [inserted]
    exact mem_numbered_zero.mpr ⟨_, early, inside⟩
  · intro empty
    constructor
    · intro i records _ _ _ r member visible
      rw [inserted] at visible
      obtain ⟨found, early, inside⟩ := mem_numbered_zero.mp visible
      rw [empty found (List.mem_of_getElem? early)] at inside
      cases inside
    · intro i records there result
      rw [signalled_eq there, failed] at result
      cases result

/-! ### The steps of a group -/

section
variable (compressedLen : Bytes → Nat) (fault : Option GroupFault) (nowUs : Int)

theorem tryDrain_inserted (round fuel : Nat) (e : Engine) : (tryDrain compressedLen fault nowUs round fuel e).inserted = [] := by
  induction fuel generalizing round e with
  | zero => rfl
  | succ fuel ih =>
    rw [tryDrain]
    split_ifs
    · split
      · rfl
      · exact ih _ _
    · rfl

/-- Only a flush for backpressure fails in the drain. -/
theorem tryDrain_other (other : ∀ round failed, fault ≠ some (.backpressure round failed)) (round fuel : Nat) (e : Engine) :
    tryDrain compressedLen fault nowUs round fuel e = ⟨none, e.drainBacklog compressedLen nowUs fuel, []⟩ := by
  have quiet : ∀ n, fault.bind (·.atRound n) = none := by
    intro n
    cases fault with
    | none => rfl
    | some failed =>
      cases failed with
      | backpressure round failed => exact absurd rfl (other round failed)
      | append | sync | flush => rfl
  rw [← tryDrain_none compressedLen nowUs round]
  induction fuel generalizing round e with
  | zero => rfl
  | succ fuel ih =>
    rw [tryDrain, tryDrain, quiet, Option.bind_none, tryFlush_none]
    split_ifs
    · exact ih (round + 1) _
    · rfl

variable {fault}

theorem tryAppends_all {position : Nat} {submissions : List (List InternalRecord)} {run : GroupRun} (ok : run.error = none)
    (quiet : ∀ k < submissions.length, fault.bind (·.atAppend (position + k)) = none) :
    (tryAppends fault position submissions run).error = none ∧
      (tryAppends fault position submissions run).inserted = run.inserted ++ numbered position submissions ∧
      (tryAppends fault position submissions run).engine = submissions.foldl Engine.processBatchInner run.engine := by
  induction submissions generalizing position run with
  | nil => exact ⟨ok, (List.append_nil _).symm, rfl⟩
  | cons records rest ih =>
    have first : tryAppend fault position records run =
        { run with
          engine := run.engine.processBatchInner records
          inserted := run.inserted ++ records.map (Prod.mk position) } := by
      have here := quiet 0 (Nat.succ_pos _)
      rw [Nat.add_zero] at here
      rw [tryAppend, here]
    obtain ⟨error, inserted, engine⟩ := @ih (position + 1) (tryAppend fault position records run) (by rw [first]; exact ok)
      fun k bound => by
        rw [Nat.add_right_comm, Nat.add_assoc]
        exact quiet (k + 1) (Nat.succ_lt_succ bound)
    rw [tryAppends, andThen_ok (by rw [first]; exact ok)]
    refine ⟨error, ?_, ?_⟩
    · rw [inserted, first, numbered, List.append_assoc]
    · rw [engine, first]
      rfl

theorem tryAppends_stops {position k : Nat} {left : Wal} {submissions : List (List InternalRecord)} {run : GroupRun}
    (ok : run.error = none) (bound : k < submissions.length) :
    (tryAppends (some (.append (position + k) left)) position submissions run).error = some (.append (position + k) left) ∧
      (tryAppends (some (.append (position + k) left)) position submissions run).inserted =
        run.inserted ++ numbered position (submissions.take k) := by
  induction submissions generalizing position run k with
  | nil => cases bound
  | cons records rest ih =>
    cases k with
    | zero =>
      have first : tryAppend (some (.append position left)) position records run =
          { run with error := some (.append position left), engine := { run.engine with wal := left } } := by
        simp [tryAppend, GroupFault.atAppend]
      rw [Nat.add_zero, tryAppends, andThen_error (by simp [first]), first]
      exact ⟨rfl, (List.append_nil _).symm⟩
    | succ k =>
      have first : tryAppend (some (.append (position + (k + 1)) left)) position records run =
          { run with
            engine := run.engine.processBatchInner records
            inserted := run.inserted ++ records.map (Prod.mk position) } := by
        simp [tryAppend, GroupFault.atAppend]
      obtain ⟨error, inserted⟩ := @ih (position + 1) k
        (tryAppend (some (.append (position + (k + 1)) left)) position records run) (by rw [first]; exact ok)
        (Nat.lt_of_succ_lt_succ bound)
      rw [show position + 1 + k = position + (k + 1) by omega] at error inserted
      rw [tryAppends, andThen_ok (by rw [first]; exact ok), List.take_succ_cons, numbered]
      exact ⟨error, by rw [inserted, first, List.append_assoc]⟩

theorem trySync_inserted (submissions : List (List InternalRecord)) (run : GroupRun) :
    (trySync fault submissions run).inserted = run.inserted := by
  unfold trySync
  split_ifs
  · split <;> rfl
  · rfl

theorem trySync_quiet {submissions : List (List InternalRecord)} {run : GroupRun}
    (quiet : run.engine.config.walSyncMode = .always → submissions ≠ [] → fault.bind (·.atSync) = none) :
    (trySync fault submissions run).error = run.error ∧
      (trySync fault submissions run).engine = run.engine.syncGroup submissions := by
  unfold trySync Engine.syncGroup
  split_ifs with asked
  · rw [quiet asked.1 asked.2]
    exact ⟨rfl, rfl⟩
  · exact ⟨rfl, rfl⟩

theorem trySync_fails {submissions : List (List InternalRecord)} {run : GroupRun}
    (asked : run.engine.config.walSyncMode = .always ∧ submissions ≠ []) (failing : fault.bind (·.atSync) ≠ none) :
    (trySync fault submissions run).error = fault := by
  obtain ⟨left, there⟩ := Option.ne_none_iff_exists'.mp failing
  rw [trySync, if_pos asked, there]

theorem tryFlushIfFull_inserted (run : GroupRun) : (tryFlushIfFull compressedLen fault nowUs run).inserted = run.inserted := by
  unfold tryFlushIfFull
  split_ifs
  · split <;> rfl
  · rfl

theorem tryFlushIfFull_fails {run : GroupRun} (due : run.engine.memtables.shouldFlush = true) (writes : Writes run.engine nowUs)
    (asked : fault.bind (·.atFlush) ≠ none) : (tryFlushIfFull compressedLen fault nowUs run).error = fault := by
  have failed := mt ((tryFlush_ok_iff compressedLen run.engine (fault.bind (·.atFlush)) nowUs).mp ·  writes) asked
  rw [tryFlushIfFull, if_pos due]
  split
  · rfl
  · rename_i left shape
    rw [shape] at failed
    exact absurd rfl failed

theorem tryFlushIfFull_passes {run : GroupRun}
    (quiet : run.engine.memtables.shouldFlush = true → Writes run.engine nowUs → fault.bind (·.atFlush) = none) :
    (tryFlushIfFull compressedLen fault nowUs run).error = run.error := by
  unfold tryFlushIfFull
  split_ifs with due
  · have passed := (tryFlush_ok_iff compressedLen run.engine (fault.bind (·.atFlush)) nowUs).mpr (quiet due)
    split
    · rename_i failed left shape
      rw [shape] at passed
      cases passed
    · rfl
  · rfl

end

/-! The bookkeeping is the memtable's own: until the flush the active table has grown by the records counted as inserted. -/

def Entered (before : List InternalRecord) (run : GroupRun) : Prop :=
  run.engine.memtables.active.records = before ++ run.inserted.map Prod.snd

section
variable {fault : Option GroupFault} {before : List InternalRecord} {run : GroupRun} (entered : Entered before run)
include entered

theorem entered_tryAppend (position : Nat) (records : List InternalRecord) : Entered before (tryAppend fault position records run) := by
  unfold tryAppend
  split
  · exact entered
  · have grown : (records.foldl MemTables.insert run.engine.memtables).active.records = _ := (foldl_insert records _).1
    rw [Entered, Engine.processBatchInner, grown, entered, List.map_append, List.map_map, List.append_assoc]
    simp [Function.comp_def]

omit entered in
theorem entered_andThen (first : Entered before run) {step : GroupRun → GroupRun} (second : Entered before (step run)) :
    Entered before (run.andThen step) := by
  unfold GroupRun.andThen
  split
  · exact first
  · exact second

theorem entered_tryAppends (position : Nat) (submissions : List (List InternalRecord)) :
    Entered before (tryAppends fault position submissions run) := by
  induction submissions generalizing position run with
  | nil => exact entered
  | cons records rest ih =>
    have next := @entered_tryAppend fault before run entered position records
    exact entered_andThen next (ih next (position + 1))

theorem entered_trySync (submissions : List (List InternalRecord)) : Entered before (trySync fault submissions run) := by
  unfold trySync
  split_ifs
  · split <;> exact entered
  · exact entered

end

theorem entered_group (compressedLen : Bytes → Nat) (fault : Option GroupFault) (nowUs : Int)
    (submissions : List (List InternalRecord)) (e : Engine) :
    let drained := tryDrain compressedLen fault nowUs 0 (e.memtables.frozen.length + 2) e
    Entered drained.engine.memtables.active.records
      ((drained.andThen (tryAppends fault 0 submissions)).andThen (trySync fault submissions)) := by
  intro drained
  have start : Entered drained.engine.memtables.active.records drained := by
    rw [Entered, tryDrain_inserted, List.map_nil, List.append_nil]
  have appended := entered_andThen start (@entered_tryAppends fault _ _ start 0 submissions)
  exact entered_andThen appended (@entered_trySync fault _ _ appended submissions)

/-! ### The whole group -/

section
variable (compressedLen : Bytes → Nat) (nowUs : Int) (e : Engine) (submissions : List (List InternalRecord))

/-- The engine when all submissions are in and the flush may follow. -/
def filled : Engine :=
  (submissions.foldl Engine.processBatchInner (e.drainBacklog compressedLen nowUs (e.memtables.frozen.length + 2))).syncGroup
    submissions

def CarriesRecord (submissions : List (List InternalRecord)) : Prop := ∃ records ∈ submissions, records ≠ []

/-- An error that ends the group when one of its records has entered the memtable. -/
def LateError : Option GroupFault → Prop
  | some (.append position _) => position < submissions.length ∧ CarriesRecord (submissions.take position)
  | some (.sync _) => e.config.walSyncMode = .always ∧ CarriesRecord submissions
  | some (.flush _) =>
      (filled compressedLen nowUs e submissions).memtables.shouldFlush = true ∧
        Writes (filled compressedLen nowUs e submissions) nowUs ∧ CarriesRecord submissions
  | _ => False

theorem drained_config (fuel : Nat) : (e.drainBacklog compressedLen nowUs fuel).config = e.config := by
  induction fuel generalizing e with
  | zero => rfl
  | succ fuel ih =>
    rw [Engine.drainBacklog]
    split_ifs
    · exact (ih _).trans (EngineRuns.doFlush_counters compressedLen e nowUs).1
    · rfl

theorem appended_config : (submissions.foldl Engine.processBatchInner e).config = e.config := by
  induction submissions generalizing e with
  | nil => rfl
  | cons records rest ih => exact ih (e.processBatchInner records)

variable {compressedLen nowUs e submissions}

theorem carriesRecord_iff : ¬ CarriesRecord submissions ↔ ∀ records ∈ submissions, records = [] := by
  simp [CarriesRecord]

/-- A group is truthful if its error ends it behind the insertion and none of its submissions carries a record. -/
theorem truthful_late {run : GroupRun} {fault : GroupFault} (failed : run.error = some fault)
    (inserted : run.inserted = numbered 0 submissions) : Truthful submissions run ↔ ¬ CarriesRecord submissions := by
  rw [carriesRecord_iff, truthful_err failed (n := submissions.length) (by rw [List.take_length, inserted]), List.take_length]

variable {fault : Option GroupFault}

/-- Where the drain and the appends meet no error all records are in. -/
theorem appended_all (drained : (tryDrain compressedLen fault nowUs 0 (e.memtables.frozen.length + 2) e).error = none)
    (append : ∀ k < submissions.length, fault.bind (·.atAppend k) = none) :
    ∃ run, run.error = none ∧ run.inserted = numbered 0 submissions ∧
      run.engine = submissions.foldl Engine.processBatchInner
        (tryDrain compressedLen fault nowUs 0 (e.memtables.frozen.length + 2) e).engine ∧
      tryGroup compressedLen fault nowUs submissions e =
        (trySync fault submissions run).andThen (tryFlushIfFull compressedLen fault nowUs) := by
  obtain ⟨error, inserted, engine⟩ := @tryAppends_all fault 0 submissions _ drained fun k bound => by
    rw [Nat.zero_add]
    exact append k bound
  rw [tryDrain_inserted, List.nil_append] at inserted
  exact ⟨_, error, inserted, engine, by rw [tryGroup, andThen_ok drained, andThen_ok error]⟩

/-- A group that meets no error behind the drain is truthful. -/
theorem truthful_quiet (drained : (tryDrain compressedLen fault nowUs 0 (e.memtables.frozen.length + 2) e).error = none)
    (append : ∀ k < submissions.length, fault.bind (·.atAppend k) = none) (sync : fault.bind (·.atSync) = none)
    (flush : fault.bind (·.atFlush) = none) : Truthful submissions (tryGroup compressedLen fault nowUs submissions e) := by
  obtain ⟨run, error, inserted, _, whole⟩ := appended_all drained append
  have synced := (@trySync_quiet fault submissions run fun _ _ => sync).1.trans error
  rw [whole, andThen_ok synced]
  refine truthful_ok ?_ ?_
  · exact (tryFlushIfFull_passes compressedLen nowUs fun _ _ => flush).trans synced
  · rw [tryFlushIfFull_inserted, trySync_inserted, inserted]

/-- A flush for backpressure fails before any record of the group is in. -/
theorem truthful_backpressure (round : Nat) (failed : FlushFault) :
    Truthful submissions (tryGroup compressedLen (some (.backpressure round failed)) nowUs submissions e) := by
  cases result : (tryDrain compressedLen (some (.backpressure round failed)) nowUs 0 (e.memtables.frozen.length + 2) e).error with
  | none => exact truthful_quiet result (fun _ _ => rfl) rfl rfl
  | some error =>
    have ended : (tryDrain compressedLen (some (.backpressure round failed)) nowUs 0
        (e.memtables.frozen.length + 2) e).error ≠ none := result ▸ Option.some_ne_none error
    rw [tryGroup, andThen_error ended, andThen_error ended, andThen_error ended,
      truthful_err (n := 0) result (tryDrain_inserted ..)]
    simp

theorem truthful_append (position : Nat) (left : Wal) :
    Truthful submissions (tryGroup compressedLen (some (.append position left)) nowUs submissions e) ↔
      ¬ LateError compressedLen nowUs e submissions (some (.append position left)) := by
  have drained := tryDrain_other compressedLen (some (.append position left)) nowUs nofun 0 (e.memtables.frozen.length + 2) e
  by_cases bound : position < submissions.length
  · have stops := @tryAppends_stops 0 position left submissions
      ⟨none, e.drainBacklog compressedLen nowUs (e.memtables.frozen.length + 2), []⟩ rfl bound
    rw [Nat.zero_add] at stops
    have ended := stops.1 ▸ Option.some_ne_none (GroupFault.append position left)
    rw [tryGroup, drained, @andThen_ok ⟨none, _, []⟩ rfl, andThen_error ended, andThen_error ended,
      truthful_err stops.1 stops.2, LateError, carriesRecord_iff.symm, not_and, imp_iff_right bound]
  · refine iff_of_true ?_ fun late => bound late.1
    refine truthful_quiet (by rw [drained]) (fun k inside => ?_) rfl rfl
    have other : position ≠ k := fun same => bound (same ▸ inside)
    simp [GroupFault.atAppend, other]

theorem truthful_sync (left : Wal) : Truthful submissions (tryGroup compressedLen (some (.sync left)) nowUs submissions e) ↔
    ¬ LateError compressedLen nowUs e submissions (some (.sync left)) := by
  have drained := tryDrain_other compressedLen (some (.sync left)) nowUs nofun 0 (e.memtables.frozen.length + 2) e
  obtain ⟨run, error, inserted, engine, whole⟩ := @appended_all compressedLen nowUs e submissions (some (.sync left))
    (by rw [drained]) fun _ _ => rfl
  have config : run.engine.config = e.config := by rw [engine, drained, appended_config, drained_config]
  have all : (trySync (some (.sync left)) submissions run).inserted = numbered 0 submissions := by
    rw [trySync_inserted, inserted]
  by_cases asked : run.engine.config.walSyncMode = .always ∧ submissions ≠ []
  · have failed := @trySync_fails (some (.sync left)) submissions run asked (Option.some_ne_none _)
    have ended : (trySync (some (.sync left)) submissions run).error ≠ none := by rw [failed]; exact Option.some_ne_none _
    rw [whole, andThen_error ended, truthful_late failed all, LateError, not_and, imp_iff_right (config ▸ asked.1)]
  · have synced := (@trySync_quiet (some (.sync left)) submissions run fun always filled => absurd ⟨always, filled⟩ asked).1.trans error
    rw [whole, andThen_ok synced]
    refine iff_of_true (truthful_ok ?_ (by rw [tryFlushIfFull_inserted, all])) ?_
    · exact (tryFlushIfFull_passes compressedLen nowUs fun _ _ => rfl).trans synced
    · rintro ⟨always, records, member, _⟩
      exact asked ⟨config ▸ always, List.ne_nil_of_mem member⟩

theorem truthful_flush (failed : FlushFault) :
    Truthful submissions (tryGroup compressedLen (some (.flush failed)) nowUs submissions e) ↔
      ¬ LateError compressedLen nowUs e submissions (some (.flush failed)) := by
  have drained := tryDrain_other compressedLen (some (.flush failed)) nowUs nofun 0 (e.memtables.frozen.length + 2) e
  obtain ⟨run, error, inserted, engine, whole⟩ := @appended_all compressedLen nowUs e submissions (some (.flush failed))
    (by rw [drained]) fun _ _ => rfl
  have synced := @trySync_quiet (some (.flush failed)) submissions run fun _ _ => rfl
  rw [whole, andThen_ok (synced.1.trans error)]
  have full : (trySync (some (.flush failed)) submissions run).engine = filled compressedLen nowUs e submissions := by
    rw [synced.2, engine, drained]
    rfl
  have ok := synced.1.trans error
  have all : (trySync (some (.flush failed)) submissions run).inserted = numbered 0 submissions := by
    rw [trySync_inserted, inserted]
  generalize trySync (some (.flush failed)) submissions run = run at full all ok
  have ended : (tryFlushIfFull compressedLen (some (.flush failed)) nowUs run).inserted = numbered 0 submissions := by
    rw [tryFlushIfFull_inserted, all]
  by_cases due : (filled compressedLen nowUs e submissions).memtables.shouldFlush = true ∧
      Writes (filled compressedLen nowUs e submissions) nowUs
  · have fails := @tryFlushIfFull_fails compressedLen (some (.flush failed)) nowUs run (full ▸ due.1) (full ▸ due.2)
      (Option.some_ne_none _)
    rw [truthful_late fails ended, LateError, ← and_assoc, not_and, imp_iff_right due]
  · refine iff_of_true (truthful_ok ?_ ended) fun late => due ⟨late.1, late.2.1⟩
    rw [tryFlushIfFull_passes compressedLen nowUs fun large writes => absurd ⟨full ▸ large, full ▸ writes⟩ due, ok]

end

/-- Each result says whether its records are in exactly if the error, if there is one,
does not come after a record of the group. -/
theorem result_truthful_iff (compressedLen : Bytes → Nat) (e : Engine) (submissions : List (List InternalRecord))
    (fault : Option GroupFault) (nowUs : Int) :
    Truthful submissions (tryGroup compressedLen fault nowUs submissions e) ↔
      ¬ LateError compressedLen nowUs e submissions fault := by
  cases fault with
  | none =>
    have drained := tryDrain_none compressedLen nowUs 0 (e.memtables.frozen.length + 2) e
    exact iff_of_true (truthful_quiet (by rw [drained]) (fun _ _ => rfl) rfl rfl) not_false
  | some failed =>
    cases failed with
    | backpressure round failed => exact iff_of_true (truthful_backpressure round failed) not_false
    | append position left => exact truthful_append position left
    | sync left => exact truthful_sync left
    | flush failed => exact truthful_flush failed

/-! Two submissions, of which the second cannot be appended. -/

def twoPuts : List (List InternalRecord) :=
  [[.fromRecord (.new [107] 1 [2]) 1000000], [.fromRecord (.new [108] 1 [3]) 1000001]]

theorem err_of_a_visible_record : ¬ Truthful twoPuts
    (tryGroup List.length (some (.append 1 (EngineRuns.fresh {}).wal)) 5 twoPuts (EngineRuns.fresh {})) := by
  intro truthful
  refine truthful.err 0 [.fromRecord (.new [107] 1 [2]) 1000000] (.append 1 (EngineRuns.fresh {}).wal) rfl ?_
    (.fromRecord (.new [107] 1 [2]) 1000000) (List.mem_singleton_self _) ?_
  · decide +kernel
  · decide +kernel

end FlowDb.TruthfulResults
