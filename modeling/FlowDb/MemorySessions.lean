import FlowDb.JsonSessions
import FlowDb.StoreDeletion

/-! JsonDB on an engine that keeps everything in memory. As long as no table has been written and no
range delete, the engine is the atomic ordered map that the JSON layer takes it for: every document
read and every scan of a prefix answers from the last write of each key. -/
namespace FlowDb.MemorySessions
open ByteString OrderedMap Records WalLog Sstable ManifestLog ManifestState TableStore MemoryTables Reads
open JsonValue JsonEncoding JsonDb JsonIndexes JsonStores ConcurrentCommits OptimisticRuns Scans ScanResults EngineOps EngineRuns LastingRecords EngineDatabase
open DirectoryRuns JsonTransaction StoreDeletion

/-! ### The map that a log stands for -/

def mapOf (log : List InternalRecord) : JsonDb.Engine := writeInternal ∅ log

/-- A put or a delete of one key. -/
def Point (r : InternalRecord) : Prop := r.op = .put ∨ r.op = .delete

section
variable {log : List InternalRecord} (points : ∀ r ∈ log, Point r) (timeless : ∀ r ∈ log, Timeless r)
include points timeless

theorem mapOf_get (key : Bytes) : (mapOf log).get? key =
    ((lastVersion log (toLex (key, 0))).filter fun r => decide (r.op = .put)).map (·.value) := by
  induction log using List.reverseRecOn with
  | nil => rfl
  | append_singleton front r ih =>
    have before := ih (fun x member => points x (List.mem_append_left _ member))
      fun x member => timeless x (List.mem_append_left _ member)
    have last := List.mem_append_right front (List.mem_singleton_self r)
    have step : mapOf (front ++ [r]) = applyRecord (mapOf front) r := List.foldl_append ..
    have here : r.slot = toLex (key, 0) ↔ key = r.key := by
      rw [InternalRecord.slot, (timeless r last).1, toLex_inj, Prod.mk.injEq]
      exact ⟨fun same => same.1.symm, fun same => ⟨same.symm, rfl⟩⟩
    rw [step, lastVersion_append]
    rcases points r last with put | delete
    · simp only [applyRecord, put, get?_insert, before, here]
      split_ifs <;> simp [put]
    · simp only [applyRecord, delete, get?_erase, before, here]
      split_ifs <;> simp [delete]

/-- What a scan should have of a slot is what the map has of its key. -/
theorem lastPut_iff (p key value : Bytes) :
    (∃ r, lastPut log p (toLex (key, 0)) = some r ∧ r.value = value) ↔ (mapOf log).get? key = some value ∧ p <+: key := by
  rw [mapOf_get points timeless, lastPut]
  cases last : lastVersion log (toLex (key, 0)) with
  | none => simp
  | some q =>
    have same : q.key = key := (Prod.mk.inj (toLex_inj.mp (mem_of_lastVersion last).2)).1
    by_cases put : q.op = .put
    · by_cases front : p <+: key
      · simp [put, front, same, InternalRecord.toRecord]
      · simp [put, front, same]
    · simp [put]

end

/-! ### An engine without tables -/

/-- An engine that has written points only and no table yet. -/
structure InMemory (log : List InternalRecord) (e : EngineOps.Engine) : Prop where
  retained : Retained log e
  points : ∀ r ∈ log, Point r
  unflushed : e.tables.activeIds = []

section
variable {log : List InternalRecord} {e : EngineOps.Engine} (inMemory : InMemory log e)
include inMemory

namespace InMemory

theorem lastVersion_active (slot : Bytes ×ₗ Int) :
    lastVersion e.memtables.active.records slot = lastVersion log slot := by
  have session := inMemory.retained.toSession
  cases active : lastVersion e.memtables.active.records slot with
  | some r => exact (lastVersion_recent session active).symm
  | none =>
    refine ((lastVersion_eq_none log slot).mpr fun r member => ?_).symm
    rcases inMemory.retained.present r member with here | table
    · exact (lastVersion_eq_none _ slot).mp active r here
    · rw [Tables.records, inMemory.unflushed] at table
      cases table

theorem getBytes (search : SlotSearch) (key : Bytes) {nowUs : Int} (clock : nowUs < i64Max) :
    (getSync search e.memtables e.tables key 0 nowUs).map (·.value) = (mapOf log).get? key := by
  have session := inMemory.retained.toSession
  have got := get_eq e.memtables session.frozen session.indexed key 0 nowUs
  rw [mapOf_get inMemory.points inMemory.retained.timeless]
  rw [inMemory.lastVersion_active] at got
  cases last : lastVersion log (toLex (key, 0)) with
  | none =>
    rw [getSync_unwritten session search ((lastVersion_eq_none _ _).mp last)]
    rfl
  | some r =>
    have member := (mem_of_lastVersion last).1
    have live : nowUs ≤ r.expireAt := (inMemory.retained.timeless r member).2.symm ▸ clock.le
    rw [last, Option.filter_some, if_pos (decide_eq_true live)] at got
    rw [getSync, got]
    rcases inMemory.points r member with put | delete
    · simp [put, InternalRecord.toRecord]
    · simp [delete]

theorem scan (p : Bytes) {nowUs : Int} (clock : nowUs < i64Max) {out : List Record}
    (scan : Scans e.memtables e.tables (prefixQuery p) nowUs out) :
    out.map (fun r => (r.key, r.value)) = JsonDb.scan (mapOf log) (prefixRange p) := by
  have session := inMemory.retained.toSession
  have timeless := inMemory.retained.timeless
  have unexpired : ∀ r ∈ log, nowUs ≤ r.expireAt := fun r member => (timeless r member).2.symm ▸ clock.le
  have strict : out.Pairwise fun a b => slotOf a < slotOf b := scan_strict session.tables rfl scan
  have shown : ∀ slot, atSlot out slot = lastPut log p slot := by
    intro slot
    refine (slot_iff session p inMemory.points unexpired slot).mpr (fun inactive => ?_) out scan
    rw [inMemory.lastVersion_active] at inactive
    refine ⟨fun q last => ?_, fun d last => ?_⟩
    · rw [inactive] at last
      cases last
    · rw [inactive] at last
      cases last
  have exact := ((lastWrites_iff strict).mpr shown).exact
  have untimed : ∀ r ∈ out, r.ts = 0 := by
    intro r member
    obtain ⟨q, last, same⟩ := Option.map_eq_some_iff.mp ((exact r).mp member)
    rw [← same]
    exact (timeless q (mem_of_lastVersion (Option.filter_eq_some_iff.mp last).1).1).1
  have ascending : (out.map fun r => (r.key, r.value)).Pairwise fun a b => a.1 < b.1 := by
    refine List.pairwise_map.mpr (strict.imp_of_mem fun {a b} first second less => ?_)
    rw [slotOf, slotOf, untimed a first, untimed b second, Prod.Lex.toLex_lt_toLex] at less
    exact less.resolve_right fun same => lt_irrefl _ same.2
  have sorted : (JsonDb.scan (mapOf log) (prefixRange p)).Pairwise fun a b => a.1 < b.1 := (mapOf log).sorted.filter _
  have distinct {l : List (Bytes × Bytes)} (ordered : l.Pairwise fun a b => a.1 < b.1) : l.Nodup := by
    refine ordered.imp ?_
    rintro a b less rfl
    exact lt_irrefl _ less
  refine List.Perm.eq_of_pairwise (fun x y _ _ xy yx => absurd (xy.trans yx) (lt_irrefl _)) ascending sorted
    ((List.perm_ext_iff_of_nodup (distinct ascending) (distinct sorted)).mpr fun entry => ?_)
  rw [JsonSessions.mem_prefixScan, ← lastPut_iff inMemory.points timeless, List.mem_map]
  constructor
  · rintro ⟨r, member, rfl⟩
    refine ⟨r, ?_, rfl⟩
    have here := (exact r).mp member
    rwa [slotOf, untimed r member] at here
  · rintro ⟨r, last, value⟩
    have found := (shown (toLex (entry.1, 0))).trans last
    have key : r.key = entry.1 := (Prod.mk.inj (toLex_inj.mp (slotOf_atSlot found))).1
    exact ⟨r, mem_of_atSlot found, Prod.ext key value⟩

end InMemory

end

/-! ### The questions of the calls -/

/-- The schema of a store, a document, or all keys of a prefix. -/
def Prefixed : ConcurrentCommits.Query → Prop
  | .schema _ => True
  | .getBytes _ => True
  | .scan range => ∃ p, range = prefixRange p

section
variable (S : Serde)

theorem asks_getStore (store : String) : (getStoreSteps store).Asks Prefixed := by
  refine (Program.asks_question trivial).bind fun known => ?_
  cases known with
  | some d => exact .done d
  | none => exact .fail _

theorem asks_readOldDoc (store : String) (key : Bytes) : (readOldDocSteps S store key).Asks Prefixed := by
  refine (Program.asks_question trivial).bind fun found => ?_
  cases found with
  | none => exact .done none
  | some bytes =>
    dsimp only
    cases decodeDoc S bytes with
    | ok doc => exact .done _
    | error e => exact .fail _

theorem asks_checkEngine (store : String) (idx : IndexDef) (key : Bytes) (vals : List Value) :
    (checkEngineSteps S store idx key vals).Asks Prefixed := by
  refine (Program.asks_question ⟨_, rfl⟩).bind fun found => ?_
  split_ifs
  · exact .fail _
  · exact .done ()

theorem asks_checkUnique (store : String) (idx : IndexDef) (key : Bytes) (doc : Value) :
    (checkUniqueSteps S store idx key doc).Asks Prefixed := by
  unfold checkUniqueSteps
  split_ifs
  · exact Program.asks_forM _ fun vals => asks_checkEngine S store idx key vals
  · exact .done ()

theorem asks_pushIndexes {check : IndexDef → Steps Unit} (each : ∀ idx, (check idx).Asks Prefixed) (store : String)
    (key : Bytes) (doc : Value) (indexes : List IndexDef) (records : List InternalRecord) :
    (pushIndexesSteps S check store key doc indexes records).Asks Prefixed := by
  induction indexes generalizing records with
  | nil => exact .done records
  | cons idx rest ih => exact (each idx).bind fun _ => ih _

theorem asks_put (store : String) (doc : Value) : (putSteps S store doc).Asks Prefixed := by
  refine (asks_getStore store).bind fun d => (Program.asks_ofExcept _).bind fun keyVal => ?_
  refine (Program.asks_ofExcept _).bind fun key => (Program.asks_ofExcept _).bind fun bytes => ?_
  refine Program.Asks.bind ((asks_readOldDoc S store key).bind fun old => ?_) fun batch => .done _
  exact asks_pushIndexes S (fun idx => asks_checkUnique S store idx key doc) store key doc _ _

theorem asks_delete (store : String) (keyVal : Value) : (deleteSteps S store keyVal).Asks Prefixed := by
  refine (asks_getStore store).bind fun d => (Program.asks_ofExcept _).bind fun key => ?_
  exact Program.Asks.bind ((asks_readOldDoc S store key).bind fun old => .done _) fun batch => .done _

theorem asks_commit (tx : Transaction) (order : List Write) : (commitSteps S tx order).Asks Prefixed := by
  have write (w : Write) (records : List InternalRecord) : (commitWriteSteps S order w records).Asks Prefixed := by
    refine (asks_getStore _).bind fun d => (Program.asks_question trivial).bind fun old => ?_
    cases w.2 with
    | none => exact .done _
    | some bytes =>
      refine (Program.asks_ofExcept _).bind fun doc => asks_pushIndexes S (fun idx => ?_) _ _ _ _ _
      unfold checkUniqueBufferedSteps
      split_ifs
      · refine Program.asks_forM _ fun vals => ?_
        exact (asks_checkEngine S _ _ _ _).bind fun _ => Program.asks_ofExcept _
      · exact .done ()
  have writes (rest : List Write) (records : List InternalRecord) : (commitWritesSteps S order rest records).Asks Prefixed := by
    induction rest generalizing records with
    | nil => exact .done records
    | cons w rest ih => exact (write w records).bind fun _ => ih _
  unfold commitSteps
  split_ifs
  · exact .done _
  · exact (writes _ _).bind fun _ => .done _

theorem asks_request (request : Request) : (request.steps S).Asks Prefixed := by
  cases request with
  | createObjectStore name keyPath =>
    refine Program.Asks.bind ((Program.asks_ofExcept _).bind fun _ => (Program.asks_question trivial).bind fun known => ?_)
      fun effect => .done _
    cases known with
    | some d =>
      dsimp only
      split_ifs
      · exact .fail _
      · exact .done _
    | none => exact (Program.asks_ofExcept _).bind fun record => .done _
  | deleteObjectStore name => exact Program.Asks.bind ((asks_getStore name).bind fun d => .done _) fun effect => .done _
  | createIndex store name keyPaths unique =>
    refine Program.Asks.bind ((asks_getStore store).bind fun d => (Program.asks_ofExcept _).bind fun _ =>
      (Program.asks_ofExcept _).bind fun record => (Program.asks_question ⟨_, rfl⟩).bind fun docs => ?_) fun effect => .done _
    exact (Program.asks_ofExcept _).bind fun records => .done _
  | deleteIndex store name =>
    refine Program.Asks.bind ((asks_getStore store).bind fun d => (Program.asks_ofExcept _).bind fun pos => ?_)
      fun effect => .done _
    exact (Program.asks_ofExcept _).bind fun records => .done _
  | put store doc => exact (asks_put S store doc).bind fun done => .done _
  | delete store key => exact (asks_delete S store key).bind fun done => .done _

theorem asks_read (store : String) (read : Read) : (read.steps S store).Asks Prefixed := by
  have fetch (entries : List (Bytes × Bytes)) : (fetchSteps S store entries).Asks Prefixed := by
    induction entries with
    | nil => exact .done []
    | cons entry rest ih =>
      have later (found : List Value) : (do let docs ← fetchSteps S store rest; pure (found ++ docs)).Asks Prefixed :=
        ih.bind fun docs => .done _
      refine (Program.asks_question trivial).bind fun found => ?_
      cases found with
      | none => exact later []
      | some bytes => exact (Program.asks_ofExcept _).bind fun doc => later [doc]
  cases read with
  | get key =>
    refine (asks_getStore store).bind fun _ => (Program.asks_ofExcept _).bind fun bytes => ?_
    refine (Program.asks_question trivial).bind fun found => ?_
    cases found with
    | none => exact .done _
    | some bytes => exact (Program.asks_ofExcept _).bind fun doc => .done _
  | count => exact (asks_getStore store).bind fun _ => (Program.asks_question ⟨_, rfl⟩).bind fun entries => .done _
  | scan =>
    refine (asks_getStore store).bind fun _ => (Program.asks_question ⟨_, rfl⟩).bind fun entries => ?_
    exact (Program.asks_ofExcept _).bind fun docs => .done _
  | getByIndex index value =>
    refine (asks_getStore store).bind fun d => (Program.asks_ofExcept _).bind fun idx => ?_
    exact (Program.asks_question ⟨_, rfl⟩).bind fun entries => (fetch entries).bind fun docs => .done _

end

/-! ### What the calls write -/

/-- The calls that delete a store or an index delete ranges of keys. -/
def Pointwise : Request → Prop
  | .deleteObjectStore _ => False
  | .deleteIndex _ _ => False
  | _ => True

section
variable (S : Serde)

/-- What is written of a document: its record or an entry of an index. -/
def OfDocument (r : InternalRecord) : Prop := Point r ∧ (r.key.head? = some docTag ∨ r.key.head? = some idxTag)

theorem ofDocument_put {key : Bytes} (value : Bytes) (tagged : key.head? = some docTag ∨ key.head? = some idxTag) :
    OfDocument (putRecord key value) := ⟨Or.inl rfl, tagged⟩

theorem ofDocument_delete {key : Bytes} (tagged : key.head? = some docTag ∨ key.head? = some idxTag) :
    OfDocument (deleteRecord key) := ⟨Or.inr rfl, tagged⟩

theorem ofDocument_entries (d : StoreDef) (store : String) (key : Bytes) (old : Option Value) :
    ∀ r ∈ deleteIndexEntries S d store key old, OfDocument r := by
  rw [deleteIndexEntries_eq]
  intro r member
  obtain ⟨k, inside, rfl⟩ := List.mem_map.mp member
  obtain ⟨_, _, _, _, _, _, rfl⟩ := (mem_entryKeys S d store key old k).mp inside
  exact ofDocument_delete (Or.inr rfl)

theorem pushIndexesSteps_ofDocument (check : IndexDef → Steps Unit) (store : String) (key : Bytes) (doc : Value)
    (indexes : List IndexDef) (records : List InternalRecord) (before : ∀ r ∈ records, OfDocument r) :
    (pushIndexesSteps S check store key doc indexes records).Ensures fun batch => ∀ r ∈ batch, OfDocument r := by
  induction indexes generalizing records with
  | nil => exact Program.ensures_pure before
  | cons idx rest ih =>
    refine Program.ensures_after _ fun _ => ih _ fun r member => ?_
    rcases List.mem_append.mp member with old | new
    · exact before r old
    · obtain ⟨k, inside, rfl⟩ := List.mem_map.mp new
      obtain ⟨vals, _, rfl⟩ := List.mem_map.mp inside
      exact ofDocument_put key (Or.inr rfl)

theorem putSteps_ofDocument (store : String) (doc : Value) :
    (putSteps S store doc).Ensures fun done => ∀ r ∈ done.2, OfDocument r := by
  refine Program.ensures_after _ fun d => Program.ensures_after _ fun keyVal => Program.ensures_after _ fun key => ?_
  refine Program.ensures_after _ fun bytes => Program.Ensures.bind (Q := fun records => ∀ r ∈ records, OfDocument r)
    (Program.ensures_after _ fun old => ?_) fun records written => Program.ensures_pure written
  apply pushIndexesSteps_ofDocument
  intro r member
  rcases List.mem_append.mp member with entry | document
  · exact ofDocument_entries S d store key old r entry
  · rw [List.mem_singleton.mp document]
    exact ofDocument_put bytes (Or.inl rfl)

theorem deleteSteps_ofDocument (store : String) (keyVal : Value) :
    (deleteSteps S store keyVal).Ensures fun done => ∀ r ∈ done.2, OfDocument r := by
  refine Program.ensures_after _ fun d => Program.ensures_after _ fun key => ?_
  refine Program.Ensures.bind (Q := fun records => ∀ r ∈ records, OfDocument r)
    (Program.ensures_after _ fun old => Program.ensures_pure fun r member => ?_) fun records written =>
    Program.ensures_pure written
  rcases List.mem_append.mp member with entry | document
  · exact ofDocument_entries S d store key old r entry
  · rw [List.mem_singleton.mp document]
    exact ofDocument_delete (Or.inl rfl)

theorem request_points (request : Request) (pointwise : Pointwise request) :
    (request.steps S).Ensures fun done => ∀ r ∈ done.2.records, Point r := by
  have schema (d : StoreDef) : (Program.ofExcept (schemaRecord S d) : Steps InternalRecord).Ensures Point := by
    refine Program.ensures_ofExcept fun record written => ?_
    obtain ⟨text, _, rfl⟩ := schemaRecord_printed written
    exact Or.inl rfl
  have effect {steps : Steps Effect} (holds : steps.Ensures fun effect => ∀ r ∈ effect.records, Point r) :
      (do let effect ← steps; pure ((none : Option Value), effect) : Steps _).Ensures fun done =>
        ∀ r ∈ done.2.records, Point r :=
    holds.bind fun effect fine => Program.ensures_pure fine
  cases request with
  | createObjectStore name keyPath =>
    refine effect (Program.ensures_after _ fun _ => Program.ensures_after _ fun known => ?_)
    cases known with
    | some d =>
      dsimp only
      split_ifs
      · exact Program.ensures_fail _
      · exact Program.ensures_pure (List.forall_mem_nil _)
    | none => exact (schema _).bind fun record point => Program.ensures_pure ((List.forall_mem_singleton).mpr point)
  | deleteObjectStore name => exact pointwise.elim
  | createIndex store name keyPaths unique =>
    refine effect (Program.ensures_after _ fun d => Program.ensures_after _ fun _ => (schema _).bind fun record point => ?_)
    refine Program.ensures_after _ fun docs => Program.Ensures.bind (Q := fun records => ∀ r ∈ records, Point r)
      (Program.ensures_ofExcept fun records done => ?_) fun records points => Program.ensures_pure points
    obtain ⟨entries, rfl, each⟩ := backfill_appends done
    intro r member
    rcases List.mem_append.mp member with first | entry
    · rwa [List.mem_singleton.mp first]
    · obtain ⟨_, _, rfl⟩ := each r entry
      exact Or.inl rfl
  | deleteIndex store name => exact pointwise.elim
  | put store doc =>
    exact (putSteps_ofDocument S store doc).bind fun done written => Program.ensures_pure fun r member => (written r member).1
  | delete store keyVal =>
    exact (deleteSteps_ofDocument S store keyVal).bind fun done written =>
      Program.ensures_pure fun r member => (written r member).1

end

/-! ### Runs -/

section
variable (S : Serde)

/-- The steps one after the other on the atomic map: what they return, and what they leave. -/
def atomically (db : JsonDB) : List Step → List (Except FlowError (Option Value)) × JsonDB
  | [] => ([], db)
  | .request r _ :: rest =>
      let (result, after) := r.perform S db
      let (results, last) := atomically after rest
      (result :: results, last)
  | .flush _ :: rest =>
      let (results, last) := atomically db rest
      (.ok none :: results, last)

variable {S} {compressedLen : Bytes → Nat} {search : SlotSearch} {db next : Database} {log : List InternalRecord}

theorem mapOf_assigned (base : Nat) (records : List InternalRecord) :
    mapOf (log ++ assignSeqs base records) = writeInternal (mapOf log) records := by
  have step (engine : JsonDb.Engine) : (assignSeqs base records).foldl applyRecord engine = records.foldl applyRecord engine := by
    induction records generalizing base engine with
    | nil => rfl
    | cons r rest ih => exact ih (base + 1) (applyRecord engine r)
  rw [mapOf, writeInternal, List.foldl_append, step]
  rfl

/-- Whatever a call asks is answered as by the map. -/
theorem InMemory.answered (inMemory : InMemory log db.engine) {nowUs : Int} (clock : nowUs < i64Max)
    {answers : ∀ q, Answer q} (answered : Answered search db nowUs answers) {α : Type} {steps : Steps α}
    (asks : steps.Asks Prefixed) : steps.run answers = steps.run (answer ⟨mapOf log, db.schema⟩) := by
  apply asks.run_congr
  intro q asked
  cases q with
  | schema store => exact answered.schema store
  | getBytes key => exact (answered.getBytes key).trans (inMemory.getBytes search key clock)
  | scan range =>
    obtain ⟨p, rfl⟩ := asked
    obtain ⟨out, scan, shown⟩ := answered.scan (prefixRange p) rfl
    rw [queryOf_prefixRange] at scan
    exact shown.trans (inMemory.scan p clock scan)

/-- Tables that have been written stay. -/
theorem performs_flushed {step : Step} {result : Except FlowError (Option Value)}
    (performed : Performs S compressedLen search db step result next) (flushed : db.engine.tables.activeIds ≠ []) :
    next.engine.tables.activeIds ≠ [] := by
  have flush : ∀ (config : Config) (t : Tables) (records : List InternalRecord), records ≠ [] → t.activeIds ≠ [] →
      (addFlushed config compressedLen t records).activeIds ≠ [] := by
    intro config t records _ _
    have entry := fun info => (applyEntry_flush t.manifest.state (lastSeq records) info
      (SstWriter.write records config.blockSize config.bloomBitsPerKey).1.blockInfos).2.2.1
    have ids : (addFlushed config compressedLen t records).activeIds =
        (t.manifest.state.addActive t.manifest.state.nextSstId).activeSstIds := by
      rw [addFlushed, publishSst, Tables.activeIds, state_append, state_append]
      exact entry _
    rw [ids]
    exact List.ne_nil_of_mem ((mem_addActive t.manifest.state t.manifest.state.nextSstId _).mpr (Or.inl rfl))
  cases performed with
  | done request nowUs clock answers answered result effect ran fits =>
    unfold Database.write
    dsimp only
    split_ifs
    · exact flushed
    · exact kept_submit flush _ _ nowUs flushed
  | failed => exact flushed
  | flush nowUs clock => exact kept_doFlush flush _ nowUs flushed

theorem runs_flushed {steps : List Step} {results : List (Except FlowError (Option Value))}
    (ran : Runs S compressedLen search db steps results next) (flushed : db.engine.tables.activeIds ≠ []) :
    next.engine.tables.activeIds ≠ [] := by
  induction ran with
  | nil db => exact flushed
  | cons first rest ih => exact ih (performs_flushed first flushed)

theorem runs_atomic {steps : List Step} {results : List (Except FlowError (Option Value))}
    (ran : Runs S compressedLen search db steps results next)
    (pointwise : ∀ r nowUs, .request r nowUs ∈ steps → Pointwise r) (unflushed : next.engine.tables.activeIds = [])
    (retained : Retained log db.engine) (points : ∀ r ∈ log, Point r) :
    ∃ log', InMemory log' next.engine ∧
      atomically S ⟨mapOf log, db.schema⟩ steps = (results, ⟨mapOf log', next.schema⟩) := by
  induction ran generalizing log with
  | nil db => exact ⟨log, ⟨retained, points, unflushed⟩, rfl⟩
  | @cons db next last step steps result results first rest ih =>
    have empty : db.engine.tables.activeIds = [] := by
      by_contra flushed
      exact runs_flushed (.cons first rest) flushed unflushed
    have inMemory : InMemory log db.engine := ⟨retained, points, empty⟩
    have later : ∀ r nowUs, .request r nowUs ∈ steps → Pointwise r := fun r nowUs member =>
      pointwise r nowUs (List.mem_cons_of_mem _ member)
    cases first with
    | done request nowUs clock answers answered result effect ran fits =>
      have wrote := request_writes S request answers _ ran
      have ops := request_points S request (pointwise request nowUs List.mem_cons_self) answers _ ran
      have numbered : ∀ r ∈ assignSeqs db.engine.seqCounter effect.records, Point r := by
        intro r member
        obtain ⟨_, _, x, there, shape⟩ := mem_assignSeqs _ _ r member
        rw [shape]
        exact ops x there
      obtain ⟨log', held, same⟩ := ih later unflushed
        (write_retained retained clock fits fun r member => (wrote r member).timeless)
        fun r member => (List.mem_append.mp member).elim (points r) (numbered r)
      refine ⟨log', held, ?_⟩
      have refined := request_refines S ⟨mapOf log, db.schema⟩ request
      rw [onMap, ← inMemory.answered clock answered (asks_request S request), ran] at refined
      rw [atomically, ← refined]
      simp only [Effect.onMap, ← mapOf_assigned db.engine.seqCounter]
      rw [show effect.schema.apply db.schema = (db.write compressedLen effect nowUs).schema from rfl, same]
    | failed request nowUs clock answers answered e ran =>
      obtain ⟨log', held, same⟩ := ih later unflushed retained points
      refine ⟨log', held, ?_⟩
      have refined := request_refines S ⟨mapOf log, db.schema⟩ request
      rw [onMap, ← inMemory.answered clock answered (asks_request S request), ran] at refined
      rw [atomically, ← refined]
      simp only [same]
    | flush nowUs clock =>
      obtain ⟨log', held, same⟩ := ih later unflushed (retained_doFlush compressedLen retained clock) points
      refine ⟨log', held, ?_⟩
      rw [atomically]
      simp only [same]

end

def indexedSteps : List Step :=
  [.request (.createObjectStore "s" "id") 0, .request (.createIndex "s" "i" ["id"] false) 0, .request (.put "s" namedDoc) 0]

def indexedSession : Database := (written [created, indexCreated, namedPut]).1

theorem indexedSession_ran : Runs storeSerde List.length .first (.empty {}) indexedSteps
    [.ok none, .ok none, .ok (some (.string "a"))] indexedSession := by
  have indexed := (createIndex_iff (sample_retained [created] (by simp)) (by decide +kernel) (get?_insert_self _ _ _)).mpr
    ⟨rfl, rfl⟩
  have put := (put_iff (sample_retained [created, indexCreated] (by simp)) (by decide +kernel) (get?_insert_self _ _ _)).mpr
    ⟨rfl, rfl⟩
  exact store_created.append (.cons indexed (.cons put (.nil _)))

end FlowDb.MemorySessions
