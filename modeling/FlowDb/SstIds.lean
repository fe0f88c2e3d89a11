import Mathlib.Data.Fintype.Option
import FlowDb.EngineRuns
import FlowDb.Interleaving
import FlowDb.SstLedger

/-! Flushes, compactions and garbage collections of one engine, interleaved. There
is one flush at a time, under the worker lock, and any number of the others. -/
namespace FlowDb.SstIds
open ByteString OrderedMap Records Sstable ManifestLog ManifestState BlockIndex TableStore MemoryTables EngineOps
open MaintenanceSteps SstLedger Interleaving

def flushClaim (config : Config) : FlushPc → Claim
  | .numbered sstId _ => .taken sstId
  | .written sstId allRecords => .placed sstId (flushedSst config allRecords).1
  | _ => .none

/-- A compaction that kept no record does not write under the id it reads. -/
def compactClaim (config : Config) : CompactPc → Claim
  | .numbered newSstId _ records _ => if records = [] then .none else .taken newSstId
  | .written newSstId _ records estimated => .placed newSstId (compactedSst config records estimated).1
  | .swapped newSstId _ records estimated => .placed newSstId (compactedSst config records estimated).1
  | _ => .none

/-- The next step reads `next_sst_id` to write under it. -/
def flushTakesId : FlushPc → Bool
  | .popped _ => true
  | _ => false

def compactTakesId : CompactPc → Bool
  | .merged _ records => decide (records ≠ [])
  | _ => false

/-- The tables a garbage collection has listed and not yet removed the files of. -/
def remaining : GcPc → List Nat
  | .idle => []
  | .deleting toDelete => toDelete
  | .unindexed sstId toDelete => sstId :: toDelete
  | .unregistered sstId toDelete => sstId :: toDelete

/-- The shared engine and where everybody stands. As bookkeeping, `wrote` is what
the run that registered an id wrote under it, and `overwritten` lists the ids
under which a file was renamed onto another. -/
structure Shared (Run : Type) where
  engine : Engine
  flush : FlushPc
  compact : Run → CompactPc
  gc : Run → GcPc
  wrote : Nat → Option SstFile
  overwritten : List Nat

inductive Choice (Run : Type) where
  | write (records : List InternalRecord)
  | flush (nowUs : Int)
  | compact (r : Run) (popped : List InternalRecord)
  | gc (r : Run) (nowUs : Int)

section
variable {Run : Type} [DecidableEq Run] (compressedLen : Bytes → Nat)

/-- A file is put in place where a claim goes from an id to a file, and registered
where it is given up again. -/
def Shared.observe (s : Shared Run) (before after : Claim) (files : OMap Nat SstFile) : Shared Run :=
  match before, after with
  | .taken id, .placed _ _ => if (files.get? id).isSome then { s with overwritten := id :: s.overwritten } else s
  | .placed id file, .none => { s with wrote := Function.update s.wrote id (some file) }
  | _, _ => s

def Shared.next (s : Shared Run) : Choice Run → Option (Shared Run)
  | .write records => if s.flush = .idle then some { s with engine := s.engine.processBatchInner records } else none
  | .flush nowUs =>
      let moved := flushStep compressedLen nowUs s.engine s.flush
      some ({ s with flush := moved.1, engine := moved.2 }.observe (flushClaim s.engine.config s.flush)
        (flushClaim s.engine.config moved.1) s.engine.tables.files)
  | .compact r popped =>
      let moved := compactStep s.engine.config compressedLen popped s.engine.tables (s.compact r)
      some ({ s with compact := Function.update s.compact r moved.1, engine := withTables s.engine moved.2 }.observe
        (compactClaim s.engine.config (s.compact r)) (compactClaim s.engine.config moved.1) s.engine.tables.files)
  | .gc r nowUs =>
      let moved := gcStep nowUs s.engine.tables (s.gc r)
      some { s with gc := Function.update s.gc r moved.1, engine := withTables s.engine moved.2 }

/-- Nobody is at work, and manifest, index and files agree. -/
structure Start (s : Shared Run) : Prop where
  ok : TableStore.Ok s.engine.tables
  flush : s.flush = .idle
  compact : ∀ r, s.compact r = .idle
  gc : ∀ r, s.gc r = .idle
  wrote : ∀ id, s.wrote id = s.engine.tables.files.get? id
  overwritten : s.overwritten = []

def claims (s : Shared Run) : Option Run → Claim
  | none => flushClaim s.engine.config s.flush
  | some r => compactClaim s.engine.config (s.compact r)

/-- What a compaction goes on to name are old ids, and those it has begun to drop
are not registered. -/
def RunOk (t : Tables) : CompactPc → Prop
  | .opening candidates _ _ => ∀ id ∈ candidates, id < nextId t
  | .merged candidates _ => ∀ id ∈ candidates, id < nextId t
  | .numbered _ candidates _ _ => ∀ id ∈ candidates, id < nextId t
  | .written _ candidates _ _ => ∀ id ∈ candidates, id < nextId t
  | .swapped _ candidates _ _ => ∀ id ∈ candidates, id < nextId t
  | .removing todo => ∀ id ∈ todo, id < nextId t
  | .dropping todo => ∀ id ∈ todo, id < nextId t
  | .unlinked sstId todo => (∀ id ∈ sstId :: todo, id < nextId t) ∧ ¬ Registered t sstId
  | .unindexed sstId todo => (∀ id ∈ sstId :: todo, id < nextId t) ∧ ¬ Registered t sstId
  | _ => True

structure Ordered (s : Shared Run) : Prop where
  books : Books s.engine.tables (claims s) s.wrote s.overwritten
  runs : ∀ r, RunOk s.engine.tables (s.compact r)

end

section
variable {Run : Type} {s : Shared Run}

theorem ordered_write (ordered : Ordered s) (records : List InternalRecord) :
    Ordered { s with engine := s.engine.processBatchInner records } := ⟨ordered.books, ordered.runs⟩

theorem ordered_start (start : Start s) : Ordered s := by
  have free (a : Option Run) : claims s a = .none := by
    cases a with
    | none => simp [claims, start.flush, flushClaim]
    | some r => simp [claims, start.compact, compactClaim]
  have listed (id : Nat) : Registered s.engine.tables id ↔ (s.engine.tables.files.get? id).isSome :=
    (start.ok.listed id).symm.trans (start.ok.filed id)
  refine ⟨⟨fun a b held => absurd (free a) held, fun a n held => ?_, fun id there => ?_, fun a n file placed => ?_,
    fun id registered => ?_, start.overwritten⟩, fun r => ?_⟩
  · rw [free a] at held
    cases held
  · exact Or.inl (lt_nextId ((listed id).mpr there))
  · rw [free a] at placed
    cases placed
  · obtain ⟨file, there⟩ := Option.isSome_iff_exists.mp ((listed id).mp registered)
    exact ⟨file, (start.wrote id).trans there, there⟩
  · rw [start.compact r]
    trivial

/-- Old ids stay old, and those not registered stay so. -/
theorem runOk_mono {t t' : Tables} {pc : CompactPc} (ok : RunOk t pc) (next : nextId t ≤ nextId t')
    (registered : ∀ id, id < nextId t → Registered t' id → Registered t id) : RunOk t' pc := by
  cases pc with
  | unlinked id todo | unindexed id todo =>
    obtain ⟨old, gone⟩ := ok
    exact ⟨fun x member => (old x member).trans_le next,
      fun inside => gone (registered id (old id List.mem_cons_self) inside)⟩
  | opening candidates todo opened => exact fun id member => (ok id member).trans_le next
  | merged candidates records => exact fun id member => (ok id member).trans_le next
  | numbered id candidates records estimated => exact fun id member => (ok id member).trans_le next
  | written id candidates records estimated => exact fun id member => (ok id member).trans_le next
  | swapped id candidates records estimated => exact fun id member => (ok id member).trans_le next
  | removing todo => exact fun id member => (ok id member).trans_le next
  | dropping todo => exact fun id member => (ok id member).trans_le next
  | _ => trivial

end

section
variable {Run : Type} [DecidableEq Run] {compressedLen : Bytes → Nat} {s s' : Shared Run}

/-- One actor moves: the ledger after the step, and that the ids known so far stay old. -/
theorem ordered_of {a : Option Run} {c : Claim} (ordered : Ordered s)
    (claimed : claims s' = Function.update (claims s) a c)
    (books : Books s'.engine.tables (Function.update (claims s) a c) s'.wrote s'.overwritten)
    (next : nextId s.engine.tables ≤ nextId s'.engine.tables)
    (registered : ∀ id, id < nextId s.engine.tables → Registered s'.engine.tables id → Registered s.engine.tables id)
    (others : ∀ r, s'.compact r = s.compact r ∨ RunOk s'.engine.tables (s'.compact r)) : Ordered s' := by
  refine ⟨claimed ▸ books, fun r => ?_⟩
  rcases others r with same | ok
  · rw [same]
    exact runOk_mono (ordered.runs r) next registered
  · exact ok

theorem claims_flush (pc : FlushPc) (flush : s'.flush = pc) (compact : s'.compact = s.compact)
    (config : s'.engine.config = s.engine.config) :
    claims s' = Function.update (claims s) none (flushClaim s.engine.config pc) := by
  funext a
  cases a with
  | none => simp [claims, config, flush]
  | some r => simp [claims, config, compact]

/-- A step of the flush that moves no table file and registers nothing. -/
theorem ordered_flush_idle (ordered : Ordered s) (pc : FlushPc) (e : Engine) (config : e.config = s.engine.config)
    (files : e.tables.files = s.engine.tables.files) (manifest : e.tables.manifest = s.engine.tables.manifest)
    (idle : flushClaim s.engine.config pc = flushClaim s.engine.config s.flush) :
    Ordered { s with flush := pc, engine := e } := by
  have registered (id : Nat) : Registered e.tables id ↔ Registered s.engine.tables id := by
    rw [Registered, manifest]
    rfl
  obtain ⟨next, books⟩ := ordered.books.idle files registered
  have unchanged : Function.update (claims s) none (flushClaim s.engine.config pc) = claims s :=
    Function.update_eq_self_iff.mpr idle
  rw [← unchanged] at books
  exact ordered_of ordered (claims_flush pc rfl rfl config) books next.ge (fun id _ => (registered id).mp) fun r => Or.inl rfl

/-- A step that keeps the manifest keeps what is registered. -/
theorem same_registered {t t' : Tables} (manifest : t'.manifest = t.manifest) (id : Nat) :
    Registered t' id ↔ Registered t id := by rw [Registered, Registered, manifest]

theorem flush_registers (compressedLen : Bytes → Nat) (t : Tables) (config : Config) (id : Nat) (allRecords : List InternalRecord) (k : Nat) :
    let m := (t.manifest.append (.flush (lastSeq allRecords) (flushedInfo config compressedLen id allRecords)
      (flushedSst config allRecords).1.blockInfos)).append (.checkpoint (lastSeq allRecords))
    Registered { t with manifest := m } k ↔ k = id ∨ Registered t k := by
  intro m
  have entry := (applyEntry_flush t.manifest.state (lastSeq allRecords) (flushedInfo config compressedLen id allRecords)
    (flushedSst config allRecords).1.blockInfos).1
  have state : m.state.sstables = t.manifest.state.sstables.insert id (flushedInfo config compressedLen id allRecords) := by
    simp only [m, state_append]
    exact entry
  rw [Registered, show ({ t with manifest := m } : Tables).manifest.state.sstables = m.state.sstables from rfl, state,
    get?_insert]
  split_ifs with same
  · simp [same]
  · simp [same, Registered]

theorem gc_unregisters (t : Tables) (sstId k : Nat) :
    Registered { t with manifest := t.manifest.append (.gcDeleteSst sstId) } k ↔ k ≠ sstId ∧ Registered t k := by
  rw [Registered, state_append]
  show ((t.manifest.state.sstables.erase sstId).get? k).isSome = true ↔ _
  rw [get?_erase]
  split_ifs with same
  · simp [same]
  · simp [same, Registered]

theorem ordered_flush (ordered : Ordered s) (nowUs : Int)
    (careful : flushTakesId s.flush = true → ∀ a, claims s a = .none)
    (moved : s.next compressedLen (.flush nowUs) = some s') : Ordered s' := by
  obtain rfl := Option.some.inj moved
  cases place : s.flush with
  | idle => exact ordered_flush_idle ordered _ _ rfl rfl rfl (by rw [place]; rfl)
  | frozen =>
    simp only [flushStep]
    split
    · exact ordered_flush_idle ordered _ _ rfl rfl rfl (by rw [place]; rfl)
    · split_ifs
      · exact ordered_flush_idle ordered _ _ rfl rfl rfl (by rw [place]; rfl)
      · exact ordered_flush_idle ordered _ _ rfl rfl rfl (by rw [place]; rfl)
  | popped allRecords =>
    have free := careful (by rw [place]; rfl)
    exact ordered_of ordered (claims_flush _ rfl rfl rfl) (ordered.books.take (a := none) free) le_rfl (fun _ _ => id)
      fun r => Or.inl rfl
  | numbered sstId allRecords =>
    have taken : claims s none = .taken sstId := by rw [claims, place]; rfl
    obtain ⟨absent, books⟩ := ordered.books.place taken (flushedSst s.engine.config allRecords).1
    have quiet : ¬ (s.engine.tables.files.get? sstId).isSome = true := by simp [absent]
    simp only [flushStep, flushClaim, Shared.observe, if_neg quiet]
    exact ordered_of ordered (claims_flush _ rfl rfl rfl) books le_rfl (fun _ _ => id) fun r => Or.inl rfl
  | written sstId allRecords =>
    have placed : claims s none = .placed sstId (flushedSst s.engine.config allRecords).1 := by rw [claims, place]; rfl
    have registers := flush_registers compressedLen s.engine.tables s.engine.config sstId allRecords
    have files : (flushStep compressedLen nowUs s.engine (.written sstId allRecords)).2.tables.files =
        s.engine.tables.files := rfl
    obtain ⟨next, books⟩ := ordered.books.register placed files (fun k => (registers k).mp)
      ((registers sstId).mpr (Or.inl rfl))
    have above : nextId s.engine.tables ≤ sstId := ordered.books.above none sstId (by rw [placed]; rfl)
    refine ordered_of ordered (claims_flush (.registered sstId allRecords) rfl rfl rfl) books next (fun k old inside => ?_) fun r => Or.inl rfl
    refine ((registers k).mp inside).resolve_left fun same => ?_
    omega
  | registered id allRecords => exact ordered_flush_idle ordered _ _ rfl rfl rfl (by rw [place]; rfl)
  | indexed allRecords => exact ordered_flush_idle ordered _ _ rfl rfl rfl (by rw [place]; rfl)

theorem claims_compact (r : Run) (pc : CompactPc) (compact : s'.compact = Function.update s.compact r pc)
    (flush : s'.flush = s.flush) (config : s'.engine.config = s.engine.config) :
    claims s' = Function.update (claims s) (some r) (compactClaim s.engine.config pc) := by
  funext a
  cases a with
  | none => simp [claims, config, flush]
  | some k =>
    by_cases same : k = r
    · subst same
      simp [claims, config, compact]
    · simp [claims, config, compact, same]

theorem others_compact (r : Run) (pc : CompactPc) (compact : s'.compact = Function.update s.compact r pc)
    (ok : RunOk s'.engine.tables pc) (k : Run) : s'.compact k = s.compact k ∨ RunOk s'.engine.tables (s'.compact k) := by
  by_cases same : k = r
  · subst same
    rw [compact, Function.update_self]
    exact Or.inr ok
  · rw [compact, Function.update_of_ne same]
    exact Or.inl rfl

/-- A step of a compaction that moves no table file and registers nothing. -/
theorem ordered_compact_idle (ordered : Ordered s) (r : Run) (pc : CompactPc) (t : Tables)
    (files : t.files = s.engine.tables.files) (registered : ∀ id, Registered t id ↔ Registered s.engine.tables id)
    (idle : compactClaim s.engine.config pc = claims s (some r))
    (ok : nextId t = nextId s.engine.tables → RunOk t pc) :
    Ordered { s with compact := Function.update s.compact r pc, engine := withTables s.engine t } := by
  obtain ⟨next, books⟩ := ordered.books.idle files registered
  have unchanged : Function.update (claims s) (some r) (compactClaim s.engine.config pc) = claims s :=
    Function.update_eq_self_iff.mpr idle
  rw [← unchanged] at books
  exact ordered_of ordered (claims_compact r pc rfl rfl rfl) books next.ge (fun id _ => (registered id).mp)
    (others_compact r pc rfl (ok next))

theorem compact_registers (t : Tables) (candidates : List Nat) (info : SstInfo) (blocks : List BlockInfo) (k : Nat) :
    Registered { t with manifest := t.manifest.append (.compaction candidates [info] [(info.id, blocks)]) } k ↔
      k = info.id ∨ (Registered t k ∧ k ∉ candidates) := by
  have entry := (applyEntry_compaction t.manifest.state candidates info blocks).1
  rw [Registered, state_append, entry, get?_insert, (removes_get? candidates _ k).1]
  split_ifs with same gone
  · simp [same]
  · simp [same, gone]
  · simp [same, gone, Registered]

/-- A step between two places without an id. -/
theorem ordered_compact_quiet (ordered : Ordered s) {r : Run} {pc pc' : CompactPc} (place : s.compact r = pc)
    (before : compactClaim s.engine.config pc = .none) (after : compactClaim s.engine.config pc' = .none) (t : Tables)
    (files : t.files = s.engine.tables.files) (registered : ∀ id, Registered t id ↔ Registered s.engine.tables id)
    (ok : nextId t = nextId s.engine.tables → RunOk t pc') :
    Ordered { s with compact := Function.update s.compact r pc', engine := withTables s.engine t } := by
  have claimed : claims s (some r) = .none := by
    rw [claims, place]
    exact before
  exact ordered_compact_idle ordered r pc' t files registered (after.trans claimed.symm) ok

/-- Such a step that leaves the tables alone. -/
theorem ordered_compact_stay (ordered : Ordered s) {r : Run} {pc pc' : CompactPc} (place : s.compact r = pc)
    (before : compactClaim s.engine.config pc = .none) (after : compactClaim s.engine.config pc' = .none)
    (ok : RunOk s.engine.tables pc') :
    Ordered { s with compact := Function.update s.compact r pc', engine := withTables s.engine s.engine.tables } :=
  ordered_compact_quiet ordered place before after s.engine.tables rfl (fun _ => Iff.rfl) fun _ => ok

/-- A compaction removes the file of an old table that is not registered. -/
theorem ordered_unlink (ordered : Ordered s) {r : Run} {pc pc' : CompactPc} {sstId : Nat} (place : s.compact r = pc)
    (before : compactClaim s.engine.config pc = .none) (after : compactClaim s.engine.config pc' = .none)
    (old : sstId < nextId s.engine.tables) (gone : ¬ Registered s.engine.tables sstId)
    (ok : RunOk (withoutFile s.engine.tables sstId) pc') :
    Ordered { s with
      compact := Function.update s.compact r pc'
      engine := withTables s.engine (withoutFile s.engine.tables sstId) } := by
  have unchanged : Function.update (claims s) (some r) Claim.none = claims s := by
    rw [Function.update_eq_self_iff, claims, place]
    exact before.symm
  have books := ordered.books.unlink old gone
  refine ordered_of ordered (claims_compact r pc' rfl rfl rfl) ?_ le_rfl (fun _ _ => id) (others_compact r pc' rfl ok)
  rw [after, unchanged]
  exact books

theorem ordered_compact (ordered : Ordered s) (r : Run) (popped : List InternalRecord)
    (careful : compactTakesId (s.compact r) = true → ∀ a, claims s a = .none)
    (unlinked : ∀ id ∈ unlinks (s.compact r), ¬ Registered s.engine.tables id)
    (moved : s.next compressedLen (.compact r popped) = some s') : Ordered s' := by
  obtain rfl := Option.some.inj moved
  have runOk := ordered.runs r
  have claimed : claims s (some r) = compactClaim s.engine.config (s.compact r) := rfl
  cases place : s.compact r with
  | idle =>
    simp only [compactStep]
    split_ifs
    · exact ordered_compact_stay ordered place rfl rfl trivial
    · exact ordered_compact_stay ordered place rfl rfl trivial
  | checked =>
    simp only [compactStep]
    split_ifs
    · exact ordered_compact_stay ordered place rfl rfl trivial
    · exact ordered_compact_stay ordered place rfl rfl trivial
  | listed ids =>
    simp only [compactStep]
    split_ifs
    · exact ordered_compact_stay ordered place rfl rfl trivial
    · refine ordered_compact_stay ordered place rfl rfl ?_
      exact fun id member => lt_nextId (candidates_registered _ _ id member)
  | opening candidates todo opened =>
    rw [place] at runOk
    cases todo with
    | nil =>
      simp only [compactStep]
      split_ifs
      · exact ordered_compact_stay ordered place rfl rfl trivial
      · exact ordered_compact_stay ordered place rfl rfl runOk
    | cons sstId todo => exact ordered_compact_stay ordered place rfl rfl runOk
  | merged candidates records =>
    rw [place] at runOk
    by_cases empty : records = []
    · subst empty
      exact ordered_compact_stay ordered place rfl rfl runOk
    · have free := careful (by rw [place]; exact decide_eq_true empty)
      have books := ordered.books.take (a := some r) free
      have takes : compactClaim s.engine.config (.numbered (nextId s.engine.tables) candidates records
          (candidates.filterMap fun id => (s.engine.tables.manifest.state.sstables.get? id).map (·.records)).sum) =
          .taken (nextId s.engine.tables) := if_neg empty
      rw [← takes] at books
      exact ordered_of ordered (claims_compact r _ rfl rfl rfl) books le_rfl (fun _ _ => id)
        (others_compact r _ rfl runOk)
  | numbered newSstId candidates records estimated =>
    rw [place] at runOk
    simp only [compactStep]
    split_ifs with empty
    · subst empty
      exact ordered_compact_stay ordered place rfl rfl runOk
    · have taken : claims s (some r) = .taken newSstId := by rw [claimed, place]; exact if_neg empty
      obtain ⟨absent, books⟩ := ordered.books.place taken (compactedSst s.engine.config records estimated).1
      have quiet : ¬ (s.engine.tables.files.get? newSstId).isSome = true := by simp [absent]
      simp only [compactClaim, if_neg empty, Shared.observe, if_neg quiet]
      exact ordered_of ordered (claims_compact r _ rfl rfl rfl) books le_rfl (fun _ _ => id)
        (others_compact r _ rfl runOk)
  | written newSstId candidates records estimated =>
    rw [place] at runOk
    exact ordered_compact_idle ordered r _ _ rfl (same_registered rfl) (by rw [claimed, place]; rfl) fun next id member => next ▸ runOk id member
  | swapped newSstId candidates records estimated =>
    have placed : claims s (some r) = .placed newSstId (compactedSst s.engine.config records estimated).1 := by
      rw [claimed, place]; rfl
    rw [place] at runOk
    have registers := compact_registers s.engine.tables candidates
      (sstInfo newSstId ((compactedSst s.engine.config records estimated).1.totalBytes compressedLen) records
        (compactedSst s.engine.config records estimated).2) (compactedSst s.engine.config records estimated).1.blockInfos
    have files : (compactStep s.engine.config compressedLen popped s.engine.tables
        (.swapped newSstId candidates records estimated)).2.files = s.engine.tables.files := rfl
    obtain ⟨next, books⟩ := ordered.books.register placed files
      (fun k inside => ((registers k).mp inside).imp id And.left) ((registers newSstId).mpr (Or.inl rfl))
    have above : nextId s.engine.tables ≤ newSstId := ordered.books.above (some r) newSstId (by rw [placed]; rfl)
    refine ordered_of ordered (claims_compact r (.removing candidates) rfl rfl rfl) books next (fun k old inside => ?_)
      (others_compact r _ rfl fun id member => (runOk id member).trans_le next)
    refine (((registers k).mp inside).imp id And.left).resolve_left fun same => ?_
    have here : k = newSstId := same
    omega
  | removing todo =>
    rw [place] at runOk
    cases todo with
    | nil => exact ordered_compact_stay ordered place rfl rfl trivial
    | cons sstId todo =>
      exact ordered_unlink ordered place rfl rfl (runOk sstId List.mem_cons_self)
        (unlinked sstId (by rw [place]; rfl)) fun id member => runOk id (List.mem_cons_of_mem sstId member)
  | dropping todo =>
    rw [place] at runOk
    cases todo with
    | nil => exact ordered_compact_stay ordered place rfl rfl trivial
    | cons sstId todo =>
      have gone := unlinked sstId (by rw [place]; rfl)
      exact ordered_unlink ordered place rfl rfl (runOk sstId List.mem_cons_self) gone ⟨runOk, gone⟩
  | unlinked sstId todo =>
    rw [place] at runOk
    exact ordered_compact_quiet ordered place rfl rfl _ rfl (same_registered rfl) fun _ => runOk
  | unindexed sstId todo =>
    rw [place] at runOk
    obtain ⟨old, gone⟩ := runOk
    refine ordered_compact_quiet ordered place rfl rfl _ rfl (fun k => ?_)
      fun next id member => next ▸ old id (List.mem_cons_of_mem sstId member)
    refine (gc_unregisters s.engine.tables sstId k).trans ⟨And.right, fun inside => ⟨?_, inside⟩⟩
    rintro rfl
    exact gone inside

/-- The condition of the first result: ids are read one holder at a time, and files
are removed only once their tables are out of the manifest. -/
def OneAtATime (s : Shared Run) : Choice Run → Prop
  | .write _ => True
  | .flush _ => flushTakesId s.flush = true → ∀ a, claims s a = .none
  | .compact r _ =>
      (compactTakesId (s.compact r) = true → ∀ a, claims s a = .none) ∧
        ∀ id ∈ unlinks (s.compact r), ¬ Registered s.engine.tables id
  | .gc .. => False

instance [Fintype Run] (s : Shared Run) (choice : Choice Run) : Decidable (OneAtATime s choice) :=
  match choice with
  | .write _ => isTrue trivial
  | .flush _ => inferInstanceAs (Decidable (flushTakesId s.flush = true → ∀ a, claims s a = .none))
  | .compact r _ => inferInstanceAs (Decidable ((compactTakesId (s.compact r) = true → ∀ a, claims s a = .none) ∧
      ∀ id ∈ unlinks (s.compact r), ¬ Registered s.engine.tables id))
  | .gc .. => isFalse id

theorem ordered_next (ordered : Ordered s) (choice : Choice Run) (careful : OneAtATime s choice)
    (moved : s.next compressedLen choice = some s') : Ordered s' := by
  cases choice with
  | write records =>
    simp only [Shared.next] at moved
    split_ifs at moved
    obtain rfl := Option.some.inj moved
    exact ordered_write ordered records
  | flush nowUs => exact ordered_flush ordered nowUs careful moved
  | compact r popped => exact ordered_compact ordered r popped careful.1 careful.2 moved
  | gc r nowUs => exact careful.elim

end

/-- An engine on an empty directory with nobody at work. -/
def alone (config : Config) : Shared Unit :=
  ⟨EngineRuns.fresh config, .idle, fun _ => .idle, fun _ => .idle, fun _ => none, []⟩

theorem start_alone (config : Config) : Start (alone config) :=
  ⟨ok_new config.timeBucketSecs, rfl, fun _ => rfl, fun _ => rfl, fun _ => rfl, rfl⟩

/-- Compactions of a single table are allowed. -/
def eager : Config := { compactionThreshold := 1 }

def putAs (seq : Nat) : InternalRecord := .fromRecord (.new [97] seq [1]) seq

/-- Any steps of writers, flushes and compactions. -/
def NoGc (_ : Shared Unit) : Choice Unit → Prop
  | .gc .. => False
  | _ => True

instance (s : Shared Unit) (choice : Choice Unit) : Decidable (NoGc s choice) :=
  match choice with
  | .write _ => isTrue trivial
  | .flush _ => isTrue trivial
  | .compact .. => isTrue trivial
  | .gc .. => isFalse id

end FlowDb.SstIds
