import FlowDb.EngineRuns
import FlowDb.Interleaving
import FlowDb.MaintenanceSteps
import FlowDb.ReadViews

/-! Reads beside a flush. A read takes the active table, then the frozen ones, then
the block index, then the files; a flush moves a table from the first to the last
and holds it in neither place in between. -/
namespace FlowDb.OverlappingReads
open ByteString OrderedMap Records Sstable ManifestLog ManifestState BlockIndex TableStore MemoryTables Reads PointReads
open Scans ReadViews EngineOps MaintenanceSteps Interleaving

/-- Where a read stands, with what it has read so far. As bookkeeping, `acked` is
what was acknowledged when it began, and `freezes` and `pops` count the tables that
had been frozen and popped when it took the active and the frozen tables. -/
inductive ReadPc where
  | idle
  | begun (acked : List InternalRecord)
  | active (acked : List InternalRecord) (active : MemTable) (freezes : Nat)
  | frozen (acked : List InternalRecord) (m : MemTables) (freezes pops : Nat)
  | indexed (acked : List InternalRecord) (m : MemTables) (index : BlockMetaIndex)
  | done (acked : List InternalRecord) (m : MemTables) (t : Tables)
  deriving DecidableEq

/-- The shared engine, the flush in progress and the reads; `log` is what has been
acknowledged so far. -/
structure Shared (Reader : Type) where
  engine : Engine
  flush : FlushPc
  reader : Reader → ReadPc
  log : List InternalRecord
  freezes : Nat
  pops : Nat

inductive Choice (Reader : Type) where
  | write (records : List InternalRecord)
  | flush (nowUs : Int)
  | read (k : Reader)

section
variable {Reader : Type}

def readStep (s : Shared Reader) : ReadPc → ReadPc
  | .idle => .begun s.log
  | .begun acked => .active acked s.engine.memtables.active s.freezes
  | .active acked active freezes => .frozen acked { s.engine.memtables with active } freezes s.pops
  | .frozen acked m _ _ => .indexed acked m s.engine.tables.index
  | .indexed acked m index => .done acked m { s.engine.tables with index }
  | .done .. => .idle

def Shared.next [DecidableEq Reader] (compressedLen : Bytes → Nat) (s : Shared Reader) :
    Choice Reader → Option (Shared Reader)
  | .write records =>
      if s.flush = .idle then
        some { s with engine := s.engine.processBatchInner records, log := s.log ++ records }
      else none
  | .flush nowUs =>
      let moved := flushStep compressedLen nowUs s.engine s.flush
      some { s with
        flush := moved.1
        engine := moved.2
        freezes := if s.flush = .idle then s.freezes + 1 else s.freezes
        pops := if s.flush = .frozen then s.pops + 1 else s.pops }
  | .read k => some { s with reader := Function.update s.reader k (readStep s (s.reader k)) }

/-- What a flush has popped and not yet put into the index. -/
def limbo : FlushPc → List InternalRecord
  | .popped allRecords => allRecords
  | .numbered _ allRecords => allRecords
  | .written _ allRecords => allRecords
  | .registered _ allRecords => allRecords
  | _ => []

/-- Nobody is at work; what has been acknowledged is in the active table and the tables. -/
structure Start (s : Shared Reader) : Prop where
  flush : s.flush = .idle
  reader : ∀ k, s.reader k = .idle
  frozen : s.engine.memtables.frozen = []
  indexed : Indexed s.engine.memtables.active
  fits : ∀ x ∈ s.engine.memtables.active.records, TableFits x ∧ 0 < x.seq
  tables : Sorted s.engine.tables
  log : s.log = s.engine.memtables.active.records ++ s.engine.tables.records

variable (r : InternalRecord)

/-- Any steps while `r` is unexpired, of writers that number their records. -/
def Unexpired (_ : Shared Reader) : Choice Reader → Prop
  | .write records => ∀ x ∈ records, TableFits x ∧ 0 < x.seq
  | .flush nowUs => nowUs < r.expireAt
  | .read _ => True

/-- While a flush holds `r` between memtables and index, a read takes the index only
if it took the active table before the flush froze it, or the frozen ones before
the flush popped it. -/
def InTime (s : Shared Reader) : ReadPc → Prop
  | .frozen _ _ freezes pops => r ∈ limbo s.flush → freezes < s.freezes ∨ pops < s.pops
  | _ => True

def Timely (s : Shared Reader) : Choice Reader → Prop
  | .write records => ∀ x ∈ records, TableFits x ∧ 0 < x.seq
  | .flush nowUs => nowUs < r.expireAt
  | .read k => InTime r s (s.reader k)

instance (s : Shared Reader) (choice : Choice Reader) : Decidable (Unexpired r s choice) :=
  match choice with
  | .write records => inferInstanceAs (Decidable (∀ x ∈ records, TableFits x ∧ 0 < x.seq))
  | .flush nowUs => inferInstanceAs (Decidable (nowUs < r.expireAt))
  | .read _ => isTrue trivial

instance (s : Shared Reader) (pc : ReadPc) : Decidable (InTime r s pc) :=
  match pc with
  | .frozen _ _ freezes pops =>
      inferInstanceAs (Decidable (r ∈ limbo s.flush → freezes < s.freezes ∨ pops < s.pops))
  | .idle => isTrue trivial
  | .begun _ => isTrue trivial
  | .active .. => isTrue trivial
  | .indexed .. => isTrue trivial
  | .done .. => isTrue trivial

instance (s : Shared Reader) (choice : Choice Reader) : Decidable (Timely r s choice) :=
  match choice with
  | .write records => inferInstanceAs (Decidable (∀ x ∈ records, TableFits x ∧ 0 < x.seq))
  | .flush nowUs => inferInstanceAs (Decidable (nowUs < r.expireAt))
  | .read k => inferInstanceAs (Decidable (InTime r s (s.reader k)))

end

/-! ### The engine during a flush -/

section
variable (compressedLen : Bytes → Nat)

def flushEntry (config : Config) (t : Tables) (sstId : Nat) (allRecords : List InternalRecord) : Manifest :=
  (t.manifest.append (.flush (lastSeq allRecords) (flushedInfo config compressedLen sstId allRecords)
    (flushedSst config allRecords).1.blockInfos)).append (.checkpoint (lastSeq allRecords))

/-- How far the flush's table has come: `T` are the tables without it, until it is indexed. -/
def TablesAt (config : Config) (T t : Tables) : FlushPc → Prop
  | .numbered sstId _ => t = T ∧ sstId = T.manifest.state.nextSstId
  | .written sstId allRecords =>
      t = withFile T sstId (flushedSst config allRecords).1 ∧ sstId = T.manifest.state.nextSstId
  | .registered sstId allRecords =>
      t = { withFile T sstId (flushedSst config allRecords).1 with
        manifest := flushEntry compressedLen config T sstId allRecords } ∧ sstId = T.manifest.state.nextSstId
  | _ => t = T

theorem file_withFile (T : Tables) (id : Nat) (file : SstFile) {k : Nat} (other : k ≠ id) :
    (withFile T id file).file k = T.file k := by
  rw [Tables.file, withFile, get?_insert, if_neg other]
  rfl

/-- A read of the tables during a flush reads the tables without the flushed one. -/
theorem views_tablesAt {config : Config} {T t : Tables} {pc : FlushPc} (ok : Ok T) (place : TablesAt compressedLen config T t pc) :
    Views T t := by
  have fresh (id : Nat) (active : id ∈ T.activeIds) : id ≠ T.manifest.state.nextSstId := by
    rintro rfl
    exact nextSstId_absent T ok active
  cases pc with
  | numbered sstId allRecords =>
    obtain ⟨rfl, _⟩ := place
    exact .refl _
  | written sstId allRecords =>
    obtain ⟨rfl, rfl⟩ := place
    exact ⟨rfl, fun id active => file_withFile T _ _ (fresh id active)⟩
  | registered sstId allRecords =>
    obtain ⟨rfl, rfl⟩ := place
    exact ⟨rfl, fun id active => file_withFile T _ _ (fresh id active)⟩
  | idle | frozen =>
    obtain rfl := place
    exact .refl _
  | popped allRecords | indexed allRecords =>
    obtain rfl := place
    exact .refl _

/-- The tables only grow: old ones keep their files. -/
def Extends (T T' : Tables) : Prop := ∀ id ∈ T.activeIds, id ∈ T'.activeIds ∧ T'.file id = T.file id

theorem Extends.refl (T : Tables) : Extends T T := fun _ active => ⟨active, rfl⟩

theorem Extends.trans {T T' T'' : Tables} (first : Extends T T') (second : Extends T' T'') : Extends T T'' := by
  intro id active
  obtain ⟨active', same⟩ := first id active
  obtain ⟨active'', same'⟩ := second id active'
  exact ⟨active'', same'.trans same⟩

theorem extends_addFlushed (config : Config) {T : Tables} (ok : Ok T) (allRecords : List InternalRecord) :
    Extends T (addFlushed config compressedLen T allRecords) := by
  intro id active
  have other : id ≠ T.manifest.state.nextSstId := by
    rintro rfl
    exact nextSstId_absent T ok active
  refine ⟨?_, by rw [addFlushed, file_publishSst]; exact if_neg other⟩
  have after := ok_addFlushed config compressedLen T ok allRecords
  rw [after.filed]
  show ((T.files.insert T.manifest.state.nextSstId _).get? id).isSome = true
  rw [get?_insert, if_neg other]
  exact (ok.filed id).mp active

/-- The engine while a flush is under way; `T` are the tables a reader gets to see. -/
structure Contents (log : List InternalRecord) (e : Engine) (pc : FlushPc) (T : Tables) : Prop where
  tables : Sorted T
  place : TablesAt compressedLen e.config T e.tables pc
  indexed : Indexed e.memtables.active
  active : ∀ x ∈ e.memtables.active.records, TableFits x ∧ 0 < x.seq ∧ x ∈ log
  frozen : ∀ t ∈ e.memtables.frozen, t.pointIndex = ∅ ∧ (t.records.Pairwise fun a b => a.slot ≤ b.slot) ∧
    ∀ x ∈ t.records, TableFits x ∧ 0 < x.seq ∧ x ∈ log
  one : e.memtables.frozen.length ≤ 1
  none : pc ≠ .frozen → e.memtables.frozen = []
  sorted : (limbo pc).Pairwise fun a b => a.slot ≤ b.slot
  limbo : ∀ x ∈ limbo pc, TableFits x ∧ x ∈ log
  logged : ∀ x ∈ T.records, x ∈ log

def inFrozen (e : Engine) (r : InternalRecord) : Prop := ∃ t ∈ e.memtables.frozen, r ∈ t.records

/-- Where a record goes in one step of a flush. -/
structure Moves (r : InternalRecord) (e : Engine) (pc : FlushPc) (T : Tables) (e' : Engine) (pc' : FlushPc)
    (T' : Tables) : Prop where
  active : r ∈ e.memtables.active.records → r ∈ e'.memtables.active.records ∨ inFrozen e' r
  frozen : inFrozen e r → inFrozen e' r ∨ r ∈ limbo pc'
  limbo : r ∈ limbo pc → r ∈ limbo pc' ∨ r ∈ T'.records
  tables : r ∈ T.records → r ∈ T'.records

variable {compressedLen} {log : List InternalRecord} {e : Engine} {pc : FlushPc} {T : Tables}

/-- A step that only changes where the flush stands and how far its table has come. -/
theorem contents_place (contents : Contents compressedLen log e pc T) (pc' : FlushPc) (t : Tables)
    (place : TablesAt compressedLen e.config T t pc') (same : OverlappingReads.limbo pc' = OverlappingReads.limbo pc)
    (before : pc ≠ .frozen) : Contents compressedLen log (withTables e t) pc' T :=
  ⟨contents.tables, place, contents.indexed, contents.active, contents.frozen, contents.one,
    fun _ => contents.none before, same ▸ contents.sorted, same ▸ contents.limbo, contents.logged⟩

theorem Moves.same (r : InternalRecord) (t : Tables) {pc' : FlushPc}
    (same : OverlappingReads.limbo pc' = OverlappingReads.limbo pc) : Moves r e pc T (withTables e t) pc' T :=
  ⟨Or.inl, Or.inl, fun held => Or.inl (same ▸ held), id⟩

theorem contents_freeze (contents : Contents compressedLen log e .idle T) (r : InternalRecord) :
    Contents compressedLen log { e with memtables := e.memtables.freeze } .frozen T ∧
      Moves r e .idle T { e with memtables := e.memtables.freeze } .frozen T := by
  have empty : e.memtables.frozen = [] := contents.none nofun
  by_cases nothing : e.memtables.active.records = []
  · have same : e.memtables.freeze = e.memtables := if_pos nothing
    rw [same]
    exact ⟨⟨contents.tables, contents.place, contents.indexed, contents.active, contents.frozen, contents.one,
      fun other => absurd rfl other, contents.sorted, contents.limbo, contents.logged⟩, Or.inl, Or.inl, Or.inl, id⟩
  · have moved : e.memtables.freeze = { e.memtables with active := .new, frozen := [e.memtables.active.sort] } := by
      rw [MemTables.freeze, if_neg nothing, empty]
      rfl
    have kept (x : InternalRecord) : x ∈ e.memtables.active.sort.records ↔ x ∈ e.memtables.active.records :=
      List.mem_insertionSort _
    rw [moved]
    refine ⟨⟨contents.tables, contents.place, indexed_new, by simp [MemTable.new], ?_, le_rfl,
      fun other => absurd rfl other, contents.sorted, contents.limbo, contents.logged⟩, fun member => ?_, fun held => ?_,
      Or.inl, id⟩
    · intro t member
      obtain rfl := List.mem_singleton.mp member
      refine ⟨rfl, ?_, fun x inside => contents.active x ((kept x).mp inside)⟩
      exact (List.pairwise_insertionSort byVersion _).imp versionRank_slot_le
    · exact Or.inr ⟨_, List.mem_singleton_self _, (kept r).mpr member⟩
    · obtain ⟨t, member, _⟩ := held
      rw [empty] at member
      cases member

theorem contents_pop (contents : Contents compressedLen log e .frozen T) (nowUs : Int) (r : InternalRecord)
    (unexpired : nowUs < r.expireAt) :
    let moved := flushStep compressedLen nowUs e .frozen
    Contents compressedLen log moved.2 moved.1 T ∧ Moves r e .frozen T moved.2 moved.1 T := by
  intro moved
  have idle (m : MemTables) (active : m.active = e.memtables.active) (frozen : m.frozen = []) :
      Contents compressedLen log { e with memtables := m } .idle T := by
    refine ⟨contents.tables, contents.place, active ▸ contents.indexed, active ▸ contents.active, ?_, ?_, fun _ => frozen,
      .nil, List.forall_mem_nil _, contents.logged⟩
    · intro t member
      rw [frozen] at member
      cases member
    · rw [frozen]
      exact Nat.zero_le 1
  cases backlog : e.memtables.frozen with
  | nil =>
    have pop : e.memtables.popFrozen = none := by rw [MemTables.popFrozen, backlog]
    have step : moved = (.idle, e) := by simp only [moved, flushStep, pop]
    rw [step]
    exact ⟨idle e.memtables rfl backlog, Or.inl, Or.inl, Or.inl, id⟩
  | cons t rest =>
    have alone : rest = [] := by
      have few := contents.one
      rw [backlog, List.length_cons] at few
      exact List.length_eq_zero_iff.mp (by omega)
    subst alone
    obtain ⟨_, sorted, held⟩ := contents.frozen t (by rw [backlog]; exact List.mem_singleton_self t)
    have pop : e.memtables.popFrozen = some (t, { e.memtables with frozen := [] }) := by rw [MemTables.popFrozen, backlog]
    have kept : inFrozen e r → r ∈ t.records.filter fun x => decide (nowUs < x.expireAt) := by
      rintro ⟨u, member, inside⟩
      rw [backlog] at member
      obtain rfl := List.mem_singleton.mp member
      exact List.mem_filter.mpr ⟨inside, decide_eq_true unexpired⟩
    by_cases expired : (t.records.filter fun x => decide (nowUs < x.expireAt)) = []
    · have step : moved = (.idle, { e with memtables := { e.memtables with frozen := [] } }) := by
        simp only [moved, flushStep, pop, expired, if_true]
      rw [step]
      refine ⟨idle _ rfl rfl, Or.inl, fun there => ?_, Or.inl, id⟩
      have inside := kept there
      rw [expired] at inside
      cases inside
    · have step : moved = (.popped (t.records.filter fun x => decide (nowUs < x.expireAt)),
          { e with memtables := { e.memtables with frozen := [] } }) := by
        simp only [moved, flushStep, pop, expired, if_false]
      rw [step]
      refine ⟨⟨contents.tables, contents.place, contents.indexed, contents.active, by simp, Nat.zero_le 1, fun _ => rfl,
        sorted.filter _, fun x inside => ?_, contents.logged⟩, Or.inl, fun there => Or.inr (kept there), by simp [OverlappingReads.limbo], id⟩
      obtain ⟨fits, _, inLog⟩ := held x (List.mem_of_mem_filter inside)
      exact ⟨fits, inLog⟩

/-- One step of a flush keeps the engine in order, loses no unexpired record and no table. -/
theorem contents_flush (contents : Contents compressedLen log e pc T) (nowUs : Int) (r : InternalRecord)
    (unexpired : nowUs < r.expireAt) :
    let moved := flushStep compressedLen nowUs e pc
    ∃ T', Contents compressedLen log moved.2 moved.1 T' ∧ Extends T T' ∧ Moves r e pc T moved.2 moved.1 T' := by
  intro moved
  have place := contents.place
  cases pc with
  | idle =>
    obtain ⟨after, moves⟩ := contents_freeze contents r
    exact ⟨T, after, .refl T, moves⟩
  | frozen =>
    obtain ⟨after, moves⟩ := contents_pop contents nowUs r unexpired
    exact ⟨T, after, .refl T, moves⟩
  | popped allRecords =>
    refine ⟨T, contents_place contents (.numbered e.tables.manifest.state.nextSstId allRecords) e.tables ?_ rfl (by simp),
      .refl T, .same r e.tables rfl⟩
    exact ⟨place, congrArg (fun t => t.manifest.state.nextSstId) place⟩
  | numbered sstId allRecords =>
    refine ⟨T, contents_place contents (.written sstId allRecords) _ ?_ rfl (by simp), .refl T, .same r _ rfl⟩
    exact ⟨congrArg (fun t => withFile t sstId _) place.1, place.2⟩
  | written sstId allRecords =>
    refine ⟨T, contents_place contents (.registered sstId allRecords) _ ?_ rfl (by simp), .refl T, .same r _ rfl⟩
    obtain ⟨same, id⟩ := place
    refine ⟨?_, id⟩
    rw [same]
    rfl
  | registered sstId allRecords =>
    obtain ⟨same, rfl⟩ := place
    have published : moved.2.tables = addFlushed e.config compressedLen T allRecords := by
      simp only [moved, flushStep, same]
      rfl
    have records := records_addFlushed e.config compressedLen T (nextSstId_absent T contents.tables.ok) allRecords
    refine ⟨addFlushed e.config compressedLen T allRecords, ⟨?_, published, contents.indexed, contents.active,
      contents.frozen, contents.one, fun _ => contents.none (by simp), .nil, List.forall_mem_nil _, fun x inside => ?_⟩,
      extends_addFlushed compressedLen e.config contents.tables.ok allRecords, Or.inl, Or.inl, fun held => Or.inr ?_,
      fun old => ?_⟩
    · exact sorted_addFlushed _ _ contents.tables _ contents.sorted fun x inside => (contents.limbo x inside).1
    · rw [records] at inside
      rcases List.mem_append.mp inside with old | new
      · exact contents.logged x old
      · exact (contents.limbo x new).2
    · rw [records]
      exact List.mem_append_right _ held
    · rw [records]
      exact List.mem_append_left _ old
  | indexed allRecords =>
    refine ⟨T, ⟨contents.tables, place, contents.indexed, contents.active, contents.frozen, contents.one,
      fun _ => contents.none (by simp), .nil, List.forall_mem_nil _, contents.logged⟩, .refl T, Or.inl, Or.inl, Or.inl, id⟩

end

/-! ### The reads -/

section
variable (r : InternalRecord)

/-- Memtables as a read has taken them. -/
structure Taken (log : List InternalRecord) (m : MemTables) : Prop where
  indexed : Indexed m.active
  frozen : ∀ t ∈ m.frozen, t.pointIndex = ∅
  records : ∀ x ∈ m.active.records ++ m.frozen.flatMap MemTable.records, 0 < x.seq ∧ x ∈ log

variable {Reader : Type}

/-- What a read has missed of the record so far, it will find further on. -/
def ReadOk (s : Shared Reader) (T : Tables) : ReadPc → Prop
  | .idle => True
  | .begun acked => acked ⊆ s.log
  | .active acked active freezes =>
      acked ⊆ s.log ∧ Indexed active ∧ (∀ x ∈ active.records, 0 < x.seq ∧ x ∈ s.log) ∧
        (r ∈ acked → r ∈ active.records ∨ r ∈ T.records ∨
          (freezes = s.freezes ∧ (inFrozen s.engine r ∨ r ∈ limbo s.flush)))
  | .frozen acked m freezes pops =>
      Taken s.log m ∧ (r ∈ acked → InMemory m r ∨ r ∈ T.records ∨
        (freezes = s.freezes ∧ pops = s.pops ∧ r ∈ limbo s.flush))
  | .indexed acked m index =>
      Taken s.log m ∧ ∃ V, Sorted V ∧ (∀ x ∈ V.records, x ∈ s.log) ∧ index = V.index ∧ Extends V T ∧
        (r ∈ acked → InMemory m r ∨ r ∈ V.records)
  | .done acked m t =>
      Taken s.log m ∧ ∃ V, Sorted V ∧ (∀ x ∈ V.records, x ∈ s.log) ∧ Views V t ∧
        (r ∈ acked → InMemory m r ∨ r ∈ V.records)

/-- Where an acknowledged record is. -/
def Held (s : Shared Reader) (T : Tables) : Prop :=
  r ∈ s.engine.memtables.active.records ∨ inFrozen s.engine r ∨ r ∈ limbo s.flush ∨ r ∈ T.records

structure InStep (compressedLen : Bytes → Nat) (s : Shared Reader) (T : Tables) : Prop where
  contents : Contents compressedLen s.log s.engine s.flush T
  held : r ∈ s.log → Held r s T
  reads : ∀ k, ReadOk r s T (s.reader k)

variable {r} {compressedLen : Bytes → Nat} {s : Shared Reader} {T : Tables}

theorem Taken.mono {log log' : List InternalRecord} (more : log ⊆ log') {m : MemTables} (taken : Taken log m) :
    Taken log' m :=
  ⟨taken.indexed, taken.frozen, fun x member => (taken.records x member).imp_right fun there => more there⟩

theorem inStep_start (start : Start s) : InStep r compressedLen s s.engine.tables := by
  have idle : limbo s.flush = [] := by rw [start.flush]; rfl
  have inLog (x : InternalRecord) : x ∈ s.log ↔ x ∈ s.engine.memtables.active.records ∨ x ∈ s.engine.tables.records := by
    rw [start.log, List.mem_append]
  refine ⟨⟨start.tables, ?_, start.indexed, fun x member => ?_, fun t member => ?_, ?_, fun _ => start.frozen, ?_,
    fun x member => ?_, fun x member => (inLog x).mpr (Or.inr member)⟩, fun member => ?_, fun k => ?_⟩
  · rw [start.flush]
    rfl
  · obtain ⟨fits, positive⟩ := start.fits x member
    exact ⟨fits, positive, (inLog x).mpr (Or.inl member)⟩
  · rw [start.frozen] at member
    cases member
  · rw [start.frozen]
    exact Nat.zero_le 1
  · rw [idle]
    exact .nil
  · rw [idle] at member
    cases member
  · rcases (inLog r).mp member with active | tables
    · exact Or.inl active
    · exact Or.inr (Or.inr (Or.inr tables))
  · rw [start.reader k]
    trivial

theorem inStep_write (inStep : InStep r compressedLen s T) (records : List InternalRecord)
    (fits : ∀ x ∈ records, TableFits x ∧ 0 < x.seq) :
    InStep r compressedLen { s with engine := s.engine.processBatchInner records, log := s.log ++ records } T := by
  obtain ⟨contents, held, reads⟩ := inStep
  obtain ⟨active, frozen, indexed⟩ := foldl_insert records s.engine.memtables
  have more : s.log ⊆ s.log ++ records := List.subset_append_left _ _
  have sameFrozen : (s.engine.processBatchInner records).memtables.frozen = s.engine.memtables.frozen := frozen
  have sameActive : (s.engine.processBatchInner records).memtables.active.records =
      s.engine.memtables.active.records ++ records := active
  have still : inFrozen (s.engine.processBatchInner records) r ↔ inFrozen s.engine r := by
    rw [inFrozen, sameFrozen]
    rfl
  refine ⟨⟨contents.tables, contents.place, indexed contents.indexed, fun x member => ?_, fun t member => ?_, ?_,
    fun other => ?_, contents.sorted, fun x member => ?_, fun x member => more (contents.logged x member)⟩,
    fun member => ?_, fun k => ?_⟩
  · rw [sameActive] at member
    rcases List.mem_append.mp member with old | new
    · obtain ⟨fit, positive, inLog⟩ := contents.active x old
      exact ⟨fit, positive, more inLog⟩
    · exact ⟨(fits x new).1, (fits x new).2, List.mem_append_right _ new⟩
  · rw [sameFrozen] at member
    obtain ⟨noIndex, sorted, each⟩ := contents.frozen t member
    exact ⟨noIndex, sorted, fun x inside => ⟨(each x inside).1, (each x inside).2.1, more (each x inside).2.2⟩⟩
  · rw [sameFrozen]
    exact contents.one
  · rw [sameFrozen]
    exact contents.none other
  · exact ⟨(contents.limbo x member).1, more (contents.limbo x member).2⟩
  · rw [Held, still, sameActive, List.mem_append]
    rcases List.mem_append.mp member with old | new
    · exact (held old).imp_left Or.inl
    · exact Or.inl (Or.inr new)
  · have before := reads k
    cases place : s.reader k with
    | idle => trivial
    | begun acked =>
      rw [place] at before
      exact fun x member => more (before member)
    | active acked table freezes =>
      rw [place] at before
      obtain ⟨inLog, point, taken, found⟩ := before
      refine ⟨fun x member => more (inLog member), point, fun x member => (taken x member).imp_right fun there => more there,
        fun member => ?_⟩
      rw [still]
      exact found member
    | frozen acked m freezes pops =>
      rw [place] at before
      exact ⟨before.1.mono more, before.2⟩
    | indexed acked m index =>
      rw [place] at before
      obtain ⟨taken, V, sorted, logged, rest⟩ := before
      exact ⟨taken.mono more, V, sorted, fun x member => more (logged x member), rest⟩
    | done acked m t =>
      rw [place] at before
      obtain ⟨taken, V, sorted, logged, rest⟩ := before
      exact ⟨taken.mono more, V, sorted, fun x member => more (logged x member), rest⟩

/-- A flush moves the record on, and nobody who is yet to find it can miss it. -/
theorem inStep_flush (inStep : InStep r compressedLen s T) (nowUs : Int) (unexpired : nowUs < r.expireAt) {s' : Shared Reader}
    [DecidableEq Reader] (moved : s.next compressedLen (.flush nowUs) = some s') : ∃ T', InStep r compressedLen s' T' := by
  obtain rfl := Option.some.inj moved
  obtain ⟨contents, held, reads⟩ := inStep
  obtain ⟨T', after, grown, moves⟩ := contents_flush contents nowUs r unexpired
  refine ⟨T', after, fun member => ?_, fun k => ?_⟩
  · rcases held member with active | frozen | limbo | tables
    · exact (moves.active active).imp_right Or.inl
    · exact Or.inr ((moves.frozen frozen).imp_right Or.inl)
    · exact Or.inr (Or.inr (moves.limbo limbo))
    · exact Or.inr (Or.inr (Or.inr (moves.tables tables)))
  · have before := reads k
    cases place : s.reader k with
    | idle => trivial
    | begun acked =>
      rw [place] at before
      exact before
    | active acked table freezes =>
      rw [place] at before
      obtain ⟨inLog, point, taken, found⟩ := before
      refine ⟨inLog, point, taken, fun member => ?_⟩
      rcases found member with active | tables | ⟨same, there⟩
      · exact Or.inl active
      · exact Or.inr (Or.inl (moves.tables tables))
      · -- A new table is frozen only when nothing is on its way any more.
        have busy : s.flush ≠ .idle := by
          intro idle
          rcases there with ⟨t, member, _⟩ | limbo
          · rw [contents.none (by rw [idle]; nofun)] at member
            cases member
          · rw [idle] at limbo
            cases limbo
        refine Or.inr ?_
        simp only [if_neg busy]
        rcases there with frozen | limbo
        · exact Or.inr ⟨same, moves.frozen frozen⟩
        · rcases moves.limbo limbo with still | done
          · exact Or.inr ⟨same, Or.inr still⟩
          · exact Or.inl done
    | frozen acked m freezes pops =>
      rw [place] at before
      obtain ⟨taken, found⟩ := before
      refine ⟨taken, fun member => ?_⟩
      rcases found member with memory | tables | ⟨same, popped, limbo⟩
      · exact Or.inl memory
      · exact Or.inr (Or.inl (moves.tables tables))
      · have busy : s.flush ≠ .idle ∧ s.flush ≠ .frozen := by
          constructor
          · intro idle
            rw [idle] at limbo
            cases limbo
          · intro frozen
            rw [frozen] at limbo
            cases limbo
        refine Or.inr ?_
        simp only [if_neg busy.1, if_neg busy.2]
        rcases moves.limbo limbo with still | done
        · exact Or.inr ⟨same, popped, still⟩
        · exact Or.inl done
    | indexed acked m index =>
      rw [place] at before
      obtain ⟨taken, V, sorted, logged, same, old, found⟩ := before
      exact ⟨taken, V, sorted, logged, same, old.trans grown, found⟩
    | done acked m t =>
      rw [place] at before
      exact before

theorem readOk_read (inStep : InStep r compressedLen s T) (pc : ReadPc) (before : ReadOk r s T pc) (inTime : InTime r s pc) :
    ReadOk r s T (readStep s pc) := by
  obtain ⟨contents, held, _⟩ := inStep
  cases pc with
  | idle => exact fun x member => member
  | begun acked =>
    refine ⟨before, contents.indexed, fun x member => (contents.active x member).2, fun member => ?_⟩
    rcases held (before member) with active | frozen | limbo | tables
    · exact Or.inl active
    · exact Or.inr (Or.inr ⟨rfl, Or.inl frozen⟩)
    · exact Or.inr (Or.inr ⟨rfl, Or.inr limbo⟩)
    · exact Or.inr (Or.inl tables)
  | active acked table freezes =>
    obtain ⟨_, point, taken, found⟩ := before
    refine ⟨⟨point, fun t member => (contents.frozen t member).1, fun x member => ?_⟩, fun member => ?_⟩
    · rcases List.mem_append.mp member with active | frozen
      · exact taken x active
      · obtain ⟨t, inside, there⟩ := List.mem_flatMap.mp frozen
        exact ((contents.frozen t inside).2.2 x there).2
    · rcases found member with active | tables | ⟨same, frozen | limbo⟩
      · exact Or.inl (Or.inl active)
      · exact Or.inr (Or.inl tables)
      · exact Or.inl (Or.inr frozen)
      · exact Or.inr (Or.inr ⟨same, rfl, limbo⟩)
  | frozen acked m freezes pops =>
    obtain ⟨taken, found⟩ := before
    have views := views_tablesAt compressedLen contents.tables.ok contents.place
    refine ⟨taken, T, contents.tables, contents.logged, views.index, .refl T, fun member => ?_⟩
    rcases found member with memory | tables | ⟨same, popped, limbo⟩
    · exact Or.inl memory
    · exact Or.inr tables
    · rcases inTime limbo with late | late <;> omega
  | indexed acked m index =>
    obtain ⟨taken, V, sorted, logged, same, old, found⟩ := before
    have views := views_tablesAt compressedLen contents.tables.ok contents.place
    refine ⟨taken, V, sorted, logged, ⟨same, fun id active => ?_⟩, found⟩
    obtain ⟨still, file⟩ := old id active
    exact (views.files id still).trans file
  | done acked m t => trivial

theorem inStep_next [DecidableEq Reader] (inStep : InStep r compressedLen s T) (choice : Choice Reader)
    (timely : Timely r s choice) {s' : Shared Reader} (moved : s.next compressedLen choice = some s') :
    ∃ T', InStep r compressedLen s' T' := by
  cases choice with
  | write records =>
    simp only [Shared.next] at moved
    split_ifs at moved
    obtain rfl := Option.some.inj moved
    exact ⟨T, inStep_write inStep records timely⟩
  | flush nowUs => exact inStep_flush inStep nowUs timely moved
  | read k =>
    obtain rfl := Option.some.inj moved
    have step := readOk_read inStep (s.reader k) (inStep.reads k) timely
    refine ⟨T, inStep.contents, inStep.held, fun j => ?_⟩
    by_cases same : j = k
    · subst same
      show ReadOk r s T (Function.update s.reader j (readStep s (s.reader j)) j)
      rw [Function.update_self]
      exact step
    · show ReadOk r s T (Function.update s.reader k (readStep s (s.reader k)) j)
      rw [Function.update_of_ne same]
      exact inStep.reads j

/-- What a read that has come to its end finds of an acknowledged record `r`: it is
in the memtables it took or in a table of its index. If nothing rivals `r`, a get
returns it unless the block its key search picks lacks it, and so does a scan for
it unless the candidate blocks lack it. -/
structure Finds (r : InternalRecord) (log : List InternalRecord) (m : MemTables) (t : Tables) (nowUs : Int) : Prop where
  there : InMemory m r ∨ ∃ id, (t.index.sstBlocks.get? id).isSome ∧ r ∈ (t.file id).records
  get : Unrivalled r log → ∀ search : SlotSearch,
    InMemory m r ∨ (∃ id, (t.index.sstBlocks.get? id).isSome ∧ stored r ∈ searchedRecords t r.key nowUs id) →
    getSync search m t r.key r.ts nowUs = some r.toRecord
  scan : Unrivalled r log → ∀ query candidates,
    t.index.query query.keyFilter query.timeRange nowUs = some candidates →
    (InMemory m r ∧ reaches query r.slot = true) ∨ (∃ block ∈ candidateBlocks t candidates, stored r ∈ block) ∧
      query.keyFilter.matchesKey r.key = true ∧ inTimeRange query.timeRange r.ts = true →
    ∀ out, Scans m t query nowUs out → r.toRecord ∈ out

theorem finds_views {log : List InternalRecord} {m : MemTables} {t V : Tables} (taken : Taken log m) (sorted : Sorted V)
    (logged : ∀ x ∈ V.records, x ∈ log) (views : Views V t) (found : InMemory m r ∨ r ∈ V.records) {nowUs : Int}
    (unexpired : nowUs < r.expireAt) : Finds r log m t nowUs := by
  have inside : consulted m V ⊆ log := by
    intro x member
    rcases List.mem_append.mp member with memory | tables
    · exact (taken.records x memory).2
    · exact logged x tables
  refine ⟨?_, fun alone search looked => ?_, fun alone query candidates answer looked out scan => ?_⟩
  · refine found.imp_right fun there => ?_
    obtain ⟨id, active, held⟩ := List.mem_flatMap.mp there
    exact ⟨id, (active_views sorted.ok views id).mpr active, by rwa [views.files id active]⟩
  · rw [getSync_views sorted.ok views]
    refine getSync_alone search sorted taken.indexed taken.frozen (alone.subset inside) unexpired (looked.imp_right ?_)
    rintro ⟨id, active, held⟩
    rw [active_views sorted.ok views] at active
    exact ⟨id, active, by rwa [searchedRecords_views views active] at held⟩
  · rw [scans_views sorted.ok views] at scan
    rw [views.index] at answer
    rw [candidateBlocks_views sorted.ok views answer] at looked
    exact scan_alone sorted (fun x member => (taken.records x (memResults_consulted member)).1) answer
      (alone.subset inside) unexpired looked out scan

/-- In every run of writes, flushes and reads in which no read takes the index
behind the back of a flush, a read finds every unexpired record that was
acknowledged before it began. -/
theorem flush_never_hides [DecidableEq Reader] (reached : Reachable (Shared.next compressedLen) (Timely r) Start s)
    {k : Reader} {acked : List InternalRecord} {m : MemTables} {t : Tables} (done : s.reader k = .done acked m t)
    (member : r ∈ acked) {nowUs : Int} (unexpired : nowUs < r.expireAt) : Finds r s.log m t nowUs := by
  have inStep : ∃ T, InStep r compressedLen s T := by
    apply Reachable.invariant _ _ reached
    · exact fun s start => ⟨_, inStep_start start⟩
    · rintro s choice s' ⟨T, before⟩ timely moved
      exact inStep_next before choice timely moved
  obtain ⟨T, inStep⟩ := inStep
  have read := inStep.reads k
  rw [done] at read
  obtain ⟨taken, V, sorted, logged, views, found⟩ := read
  exact finds_views taken sorted logged views (found member) unexpired

end

/-- An engine on an empty directory with one reader. -/
def alone (config : Config) : Shared Unit := ⟨EngineRuns.fresh config, .idle, fun _ => .idle, [], 0, 0⟩

theorem start_alone (config : Config) : Start (alone config) := by
  refine ⟨rfl, fun _ => rfl, rfl, indexed_new, nofun, ?_, rfl⟩
  exact sorted_new config.timeBucketSecs

def put : InternalRecord := .fromRecord (.new [97] 1 [1]) 1000000

/-- The put is flushed between the two steps in which a read takes the memtables. -/
theorem flush_never_hides_put :
    ∃ s : Shared Unit, ∃ acked m t, s.reader () = .done acked m t ∧ m.frozen = [] ∧ t.activeIds = [1] ∧
      Finds put s.log m t 0 := by
  obtain ⟨s, reached, passed⟩ := reachable_of_follow (alone {})
    ([.write [put], .read (), .read ()] ++ List.replicate 7 (.flush 0) ++ List.replicate 3 (.read ()))
    (fun s => match s.reader () with
      | .done acked m t => put ∈ acked ∧ m.frozen = [] ∧ t.activeIds = [1]
      | _ => false) (start_alone {})
    (show (follow (Shared.next (fun _ => 0)) (Timely put) _ _).any _ = true by decide +kernel)
  cases place : s.reader () with
  | done acked m t =>
    rw [place] at passed
    obtain ⟨member, frozen, active⟩ := of_decide_eq_true passed
    exact ⟨s, acked, m, t, place, frozen, active, flush_never_hides reached place member (by decide)⟩
  | _ =>
    rw [place] at passed
    cases passed

/-- A read takes the active table after the flush froze it, the frozen tables after
the flush popped it, and the index before the flush adds the new table. -/
theorem flush_hides_put :
    ¬ ∀ s : Shared Unit, Reachable (Shared.next (fun _ => 0)) (Unexpired put) Start s →
      ∀ acked m t, s.reader () = .done acked m t → put ∈ acked → Unrivalled put s.log →
        getSync .first m t put.key put.ts 0 = some put.toRecord ∧
          ∀ out, Scans m t (prefixQuery put.key) 0 out → put.toRecord ∈ out := by
  intro finds
  obtain ⟨s, reached, passed⟩ := reachable_of_follow (alone {})
    ([.write [put]] ++ List.replicate 2 (.flush 0) ++ List.replicate 5 (.read ()))
    (fun s => match s.reader () with
      | .done acked m t => put ∈ acked ∧ s.log = [put] ∧ getSync .first m t put.key put.ts 0 = none
      | _ => false) (start_alone {})
    (show (follow (Shared.next (fun _ => 0)) (Unexpired put) _ _).any _ = true by decide +kernel)
  cases place : s.reader () with
  | done acked m t =>
    rw [place] at passed
    obtain ⟨member, log, missed⟩ := of_decide_eq_true passed
    have alone : Unrivalled put s.log := by
      rw [log]
      exact ⟨rfl, fun x inside _ => List.mem_singleton.mp inside, by decide⟩
    have found := (finds s reached acked m t place member alone).1
    rw [missed] at found
    cases found
  | _ =>
    rw [place] at passed
    cases passed

end FlowDb.OverlappingReads
