import FlowDb.EngineOps
import FlowDb.PointReads

/-! Sequential runs of one session, and what every state they reach has in common. -/
namespace FlowDb.EngineRuns
open ByteString OrderedMap Records WalLog Sstable ManifestLog BlockIndex TableStore MemoryTables PointReads EngineOps

inductive Command where
  | writeBatch (batch : List Record) (ttlSecs : Option Nat)
  | deleteBatch (keysTs : List (Bytes × Int))
  | deleteRange (startKey endKey : Bytes)
  | flush
  deriving DecidableEq, Repr

section
variable (compressedLen : Bytes → Nat)

def Command.exec (c : Command) (e : Engine) (nowUs : Int) : Engine :=
  match c with
  | .writeBatch batch ttlSecs => e.writeBatchTtl compressedLen batch ttlSecs nowUs
  | .deleteBatch keysTs => e.deleteBatch compressedLen keysTs nowUs
  | .deleteRange startKey endKey => e.deleteRange compressedLen startKey endKey nowUs
  | .flush => e.doFlush compressedLen nowUs

/-- The records a command writes, before they are numbered. -/
def Command.records (config : Config) : Command → List InternalRecord
  | .writeBatch batch ttlSecs => putRecords config batch ttlSecs
  | .deleteBatch keysTs => keysTs.map fun k => InternalRecord.delete k.1 k.2 0
  | .deleteRange startKey endKey => [InternalRecord.deleteRange startKey endKey 0]
  | .flush => []

/-- Commands, each with the clock reading it takes. -/
def run (e : Engine) (steps : List (Command × Int)) : Engine :=
  steps.foldl (fun e step => step.1.exec compressedLen e step.2) e

end

/-- A session on an empty directory. -/
def fresh (config : Config) : Engine := Engine.open config [] ⟨[]⟩ ∅

/-- Every record the commands write, in order, under the numbers they get. -/
def history (config : Config) (base : Nat) : List (Command × Int) → List InternalRecord
  | [] => []
  | (c, _) :: rest =>
      assignSeqs base (c.records config) ++ history config (base + (c.records config).length) rest

def firstSeq : Nat := 1000000

theorem mem_assignSeqs (base : Nat) (records : List InternalRecord) :
    ∀ r ∈ assignSeqs base records, base ≤ r.seq ∧ r.seq < base + records.length ∧
      ∃ x ∈ records, r = { x with seq := r.seq } := by
  induction records generalizing base with
  | nil => simp [assignSeqs]
  | cons x rest ih =>
    intro r member
    rw [List.length_cons]
    rcases List.mem_cons.mp member with rfl | later
    · exact ⟨le_refl _, by simp, x, List.mem_cons_self, rfl⟩
    · obtain ⟨above, below, y, there, shape⟩ := ih (base + 1) r later
      exact ⟨by omega, by omega, y, List.mem_cons_of_mem _ there, shape⟩

/-- Each record gets a number. -/
theorem assigned (base : Nat) {records : List InternalRecord} {x : InternalRecord} (member : x ∈ records) :
    ∃ n, { x with seq := n } ∈ assignSeqs base records := by
  induction records generalizing base with
  | nil => cases member
  | cons first rest ih =>
    rcases List.mem_cons.mp member with rfl | later
    · exact ⟨base, List.mem_cons_self⟩
    · obtain ⟨n, inside⟩ := ih (base + 1) later
      exact ⟨n, List.mem_cons_of_mem _ inside⟩

theorem assignSeqs_increasing (base : Nat) (records : List InternalRecord) :
    (assignSeqs base records).Pairwise fun a b => a.seq < b.seq := by
  induction records generalizing base with
  | nil => exact .nil
  | cons x rest ih => exact List.pairwise_cons.mpr ⟨fun r member => (mem_assignSeqs _ rest r member).1, ih _⟩

/-- A command writes puts, point deletes, or one range delete. -/
theorem mem_records {c : Command} {config : Config} {x : InternalRecord} (member : x ∈ c.records config) :
    (x.op = .put ∧ x.rangeEnd = none ∧ ∃ batch ttlSecs, c = .writeBatch batch ttlSecs) ∨
      (x.op = .delete ∧ x.rangeEnd = none ∧ ∃ keysTs, c = .deleteBatch keysTs) ∨
      (x.op = .deleteRange ∧ ∃ startKey endKey, c = .deleteRange startKey endKey) := by
  cases c with
  | writeBatch batch ttlSecs =>
    obtain ⟨rec, _, rfl⟩ := List.mem_map.mp member
    exact Or.inl ⟨rfl, rfl, batch, ttlSecs, rfl⟩
  | deleteBatch keysTs =>
    obtain ⟨k, _, rfl⟩ := List.mem_map.mp member
    exact Or.inr (Or.inl ⟨rfl, rfl, keysTs, rfl⟩)
  | deleteRange startKey endKey =>
    obtain rfl := List.mem_singleton.mp member
    exact Or.inr (Or.inr ⟨rfl, startKey, endKey, rfl⟩)
  | flush => cases member

/-- Every record of a run's history comes from one of its commands. -/
theorem mem_history (config : Config) (base : Nat) (steps : List (Command × Int)) (r : InternalRecord)
    (member : r ∈ history config base steps) :
    ∃ step ∈ steps, ∃ x ∈ step.1.records config, r = { x with seq := r.seq } := by
  induction steps generalizing base with
  | nil => cases member
  | cons step rest ih =>
    rcases List.mem_append.mp member with here | later
    · obtain ⟨_, _, x, there, shape⟩ := mem_assignSeqs _ _ r here
      exact ⟨step, List.mem_cons_self, x, there, shape⟩
    · obtain ⟨found, inside, rest⟩ := ih _ later
      exact ⟨found, List.mem_cons_of_mem _ inside, rest⟩

/-- Without range deletes a history has puts and point deletes only. -/
theorem points_history (config : Config) (base : Nat) (steps : List (Command × Int))
    (points : ∀ step ∈ steps, ∀ start stop, step.1 ≠ .deleteRange start stop) :
    ∀ r ∈ history config base steps, r.op = .put ∨ r.op = .delete := by
  intro r member
  obtain ⟨step, inside, x, written, shape⟩ := mem_history config base steps r member
  rw [shape]
  rcases mem_records written with ⟨put, _⟩ | ⟨delete, _⟩ | ⟨_, start, stop, same⟩
  · exact Or.inl put
  · exact Or.inr delete
  · exact absurd same (points step inside start stop)

/-- An engine between two commands of its session, which wrote the records `log` so far. -/
structure Session (log : List InternalRecord) (e : Engine) : Prop where
  frozen : e.memtables.frozen = []
  indexed : Indexed e.memtables.active
  recent : ∃ flushed, log = flushed ++ e.memtables.active.records
  increasing : log.Pairwise fun a b => a.seq < b.seq
  started : 0 < e.seqCounter
  numbered : ∀ r ∈ log, 0 < r.seq ∧ r.seq < e.seqCounter
  fits : ∀ r ∈ log, TableFits r
  tables : Sorted e.tables
  held : ∀ r ∈ e.tables.records, r ∈ log

namespace Session

theorem mem_log {log : List InternalRecord} {e : Engine} (session : Session log e) {r : InternalRecord}
    (member : r ∈ e.memtables.active.records) : r ∈ log := by
  obtain ⟨flushed, shape⟩ := session.recent
  exact shape ▸ List.mem_append_right flushed member

theorem active_increasing {log : List InternalRecord} {e : Engine} (session : Session log e) :
    e.memtables.active.records.Pairwise fun a b => a.seq < b.seq := by
  obtain ⟨flushed, shape⟩ := session.recent
  exact session.increasing.sublist (shape ▸ List.sublist_append_right flushed _)

end Session

theorem session_fresh (config : Config) : Session [] (fresh config) := by
  have tables : (fresh config).tables = Tables.new config.timeBucketSecs := rfl
  refine ⟨rfl, indexed_new, ⟨[], rfl⟩, .nil, Nat.succ_pos _, by simp, by simp, ?_, ?_⟩
  · exact tables ▸ sorted_new _
  · simp [tables, Tables.new, Tables.records, Tables.activeIds, ManifestState.empty]

section
variable (compressedLen : Bytes → Nat) {log : List InternalRecord} {e : Engine}

theorem doFlush_counters (e : Engine) (nowUs : Int) :
    (e.doFlush compressedLen nowUs).config = e.config ∧ (e.doFlush compressedLen nowUs).seqCounter = e.seqCounter := by
  unfold Engine.doFlush
  split
  · exact ⟨rfl, rfl⟩
  · dsimp only
    split_ifs <;> exact ⟨rfl, rfl⟩

theorem mem_flushable (records : List InternalRecord) (nowUs : Int) (r : InternalRecord) :
    r ∈ flushable records nowUs ↔ r ∈ records ∧ nowUs < r.expireAt := by
  simp [flushable]

theorem session_doFlush (session : Session log e) (nowUs : Int) : Session log (e.doFlush compressedLen nowUs) := by
  obtain ⟨flushed, shape⟩ := session.recent
  have emptied : ∃ before, log = before ++ (cleared e.memtables).active.records := ⟨log, by simp [cleared, MemTable.new]⟩
  rcases doFlush_cases compressedLen e nowUs session.frozen with ⟨_, same⟩ | ⟨_, dropped⟩ | written
  · rwa [same]
  · rw [dropped]
    exact ⟨session.frozen, indexed_new, emptied, session.increasing, session.started, session.numbered, session.fits,
      session.tables, session.held⟩
  · rw [written]
    have inLog : ∀ r ∈ flushable e.memtables.active.records nowUs, r ∈ log := fun r member =>
      session.mem_log ((mem_flushable _ nowUs r).mp member).1
    have slots : (flushable e.memtables.active.records nowUs).Pairwise fun a b => a.slot ≤ b.slot :=
      ((List.pairwise_insertionSort byVersion _).imp fun le => Prod.Lex.monotone_fst _ _ le).filter _
    refine ⟨session.frozen, indexed_new, emptied, session.increasing, session.started, session.numbered, session.fits,
      sorted_addFlushed _ _ session.tables _ slots fun r member => session.fits r (inLog r member), fun r member => ?_⟩
    rw [records_addFlushed _ _ _ (nextSstId_absent _ session.tables.ok)] at member
    exact (List.mem_append.mp member).elim (session.held r) (inLog r)

theorem session_drainBacklog (session : Session log e) (nowUs : Int) (fuel : Nat) :
    Session log (e.drainBacklog compressedLen nowUs fuel) ∧
      (e.drainBacklog compressedLen nowUs fuel).config = e.config ∧
      (e.drainBacklog compressedLen nowUs fuel).seqCounter = e.seqCounter := by
  induction fuel generalizing e with
  | zero => exact ⟨session, rfl, rfl⟩
  | succ fuel ih =>
    rw [Engine.drainBacklog]
    split_ifs
    · obtain ⟨still, config, counter⟩ := ih (session_doFlush compressedLen session nowUs)
      have flush := doFlush_counters compressedLen e nowUs
      exact ⟨still, config.trans flush.1, counter.trans flush.2⟩
    · exact ⟨session, rfl, rfl⟩

theorem session_syncGroup (session : Session log e) (submissions : List (List InternalRecord)) :
    Session log (e.syncGroup submissions) ∧ (e.syncGroup submissions).config = e.config ∧
      (e.syncGroup submissions).seqCounter = e.seqCounter := by
  unfold Engine.syncGroup
  split_ifs
  · exact ⟨⟨session.frozen, session.indexed, session.recent, session.increasing, session.started, session.numbered,
      session.fits, session.tables, session.held⟩, rfl, rfl⟩
  · exact ⟨session, rfl, rfl⟩

/-- Numbers taken from the counter leave the session as it is. -/
theorem session_fetchAdd (session : Session log e) (n : Nat) : Session log { e with seqCounter := e.seqCounter + n } :=
  ⟨session.frozen, session.indexed, session.recent, session.increasing, Nat.add_pos_left session.started n,
    fun r member => ⟨(session.numbered r member).1, Nat.lt_add_right n (session.numbered r member).2⟩,
    session.fits, session.tables, session.held⟩

theorem session_flushIfFull (session : Session log e) (nowUs : Int) :
    Session log (e.flushIfFull compressedLen nowUs) ∧ (e.flushIfFull compressedLen nowUs).config = e.config ∧
      (e.flushIfFull compressedLen nowUs).seqCounter = e.seqCounter := by
  unfold Engine.flushIfFull
  split_ifs
  · exact ⟨session_doFlush compressedLen session nowUs, doFlush_counters compressedLen e nowUs⟩
  · exact ⟨session, rfl, rfl⟩

theorem session_processBatchInner (session : Session log e) (base : Nat) (records : List InternalRecord)
    (start : 0 < base) (above : ∀ r ∈ log, r.seq < base) (taken : base + records.length ≤ e.seqCounter)
    (fits : ∀ r ∈ assignSeqs base records, TableFits r) :
    Session (log ++ assignSeqs base records) (e.processBatchInner (assignSeqs base records)) := by
  have range := mem_assignSeqs base records
  obtain ⟨flushed, shape⟩ := session.recent
  obtain ⟨held, frozen, indexed⟩ := foldl_insert (assignSeqs base records) e.memtables
  refine ⟨frozen.trans session.frozen, indexed session.indexed, ⟨flushed, ?_⟩, ?_, session.started, ?_, ?_,
    session.tables, fun r member => List.mem_append_left _ (session.held r member)⟩
  · rw [Engine.processBatchInner, held, ← List.append_assoc, ← shape]
  · refine List.pairwise_append.mpr ⟨session.increasing, assignSeqs_increasing _ _, fun a old b new => ?_⟩
    exact (above a old).trans_le (range b new).1
  · intro r member
    rcases List.mem_append.mp member with old | new
    · exact session.numbered r old
    · exact ⟨start.trans_le (range r new).1, (range r new).2.1.trans_le taken⟩
  · exact fun r member => (List.mem_append.mp member).elim (session.fits r) (fits r)

/-- A batch enters the history under the next numbers. -/
theorem session_submit (session : Session log e) (records : List InternalRecord) (nowUs : Int)
    (fits : ∀ r ∈ assignSeqs e.seqCounter records, TableFits r) :
    Session (log ++ assignSeqs e.seqCounter records) (e.submit compressedLen records nowUs) ∧
      (e.submit compressedLen records nowUs).config = e.config ∧
      (e.submit compressedLen records nowUs).seqCounter = e.seqCounter + records.length := by
  obtain ⟨drained, config, counter⟩ := session_drainBacklog compressedLen
    (session_fetchAdd session records.length) nowUs (e.memtables.frozen.length + 2)
  simp only [Engine.submit, Engine.processBatchGroup, List.foldl_cons, List.foldl_nil]
  generalize Engine.drainBacklog compressedLen nowUs (e.memtables.frozen.length + 2)
    { e with seqCounter := e.seqCounter + records.length } = d at drained config counter ⊢
  have inserted := session_processBatchInner drained e.seqCounter records session.started
    (fun r member => (session.numbered r member).2) counter.ge fits
  obtain ⟨synced, config', counter'⟩ := session_syncGroup inserted [assignSeqs e.seqCounter records]
  obtain ⟨flushed, config'', counter''⟩ := session_flushIfFull compressedLen synced nowUs
  exact ⟨flushed, config''.trans (config'.trans config), counter''.trans (counter'.trans counter)⟩

theorem session_exec (session : Session log e) (c : Command) (nowUs : Int)
    (fits : ∀ r ∈ assignSeqs e.seqCounter (c.records e.config), TableFits r) :
    Session (log ++ assignSeqs e.seqCounter (c.records e.config)) (c.exec compressedLen e nowUs) ∧
      (c.exec compressedLen e nowUs).config = e.config ∧
      (c.exec compressedLen e nowUs).seqCounter = e.seqCounter + (c.records e.config).length := by
  have idle : Session (log ++ []) e := by rwa [List.append_nil]
  cases c with
  | writeBatch batch ttlSecs =>
    have submitted := session_submit compressedLen session _ nowUs fits
    by_cases empty : batch = []
    · subst empty
      exact ⟨idle, rfl, rfl⟩
    · rwa [Command.exec, Engine.writeBatchTtl, if_neg empty]
  | deleteBatch keysTs =>
    have submitted := session_submit compressedLen session _ nowUs fits
    by_cases empty : keysTs = []
    · subst empty
      exact ⟨idle, rfl, rfl⟩
    · rwa [Command.exec, Engine.deleteBatch, if_neg empty]
  | deleteRange startKey endKey => exact session_submit compressedLen session _ nowUs fits
  | flush => exact ⟨session_doFlush compressedLen idle nowUs, doFlush_counters compressedLen e nowUs⟩

theorem session_steps (steps : List (Command × Int)) (session : Session log e)
    (fits : ∀ r ∈ history e.config e.seqCounter steps, TableFits r) :
    Session (log ++ history e.config e.seqCounter steps) (run compressedLen e steps) := by
  induction steps generalizing log e with
  | nil => rwa [history, List.append_nil]
  | cons step rest ih =>
    obtain ⟨next, config, counter⟩ := session_exec compressedLen session step.1 step.2
      fun r member => fits r (List.mem_append_left _ member)
    have later := ih next fun r member => fits r (List.mem_append_right _ (by rwa [config, counter] at member))
    rwa [config, counter, List.append_assoc] at later

/-- Every run of one session on an empty directory whose records fit the encodings. -/
theorem session_run (config : Config) (steps : List (Command × Int))
    (fits : ∀ r ∈ history config firstSeq steps, TableFits r) :
    Session (history config firstSeq steps) (run compressedLen (fresh config) steps) :=
  session_steps compressedLen steps (session_fresh config) fits

end

end FlowDb.EngineRuns
