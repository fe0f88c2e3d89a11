import FlowDb.Interleaving
import FlowDb.ReadViews
import FlowDb.SstLedger

/-! Reads beside a compaction. A get that finds a single table, and every scan, lets
go of the index before it opens a table's file; the compaction removes the files it
has replaced, and a reader that finds no file passes over the table. -/
namespace FlowDb.ReadsDuringCompaction
open ByteString OrderedMap Records Sstable ManifestLog ManifestState BlockIndex BlockMetaIndex TableStore MemoryTables
open Reads PointReads ReadViews MaintenanceSteps SstLedger Interleaving

inductive Request where
  | get (key : Bytes) (ts nowUs : Int)
  | scan (query : Query) (nowUs : Int)
  deriving DecidableEq

/-- Where a read stands. A get is `searching` once it has dropped the index, and has
`opened` a file it has still to put into the reader cache; a scan has `listed` its
candidates and then loads them with the reader cache as it was. -/
inductive ReadPc where
  | idle
  | searching (found : BlockMeta)
  | opened (found : BlockMeta) (file : SstFile)
  | listed (candidates : List BlockMeta)
  | loading (snapshot : OMap Nat SstFile) (todo : List BlockMeta) (blocks : List (List InternalRecord))
  | got (result : Option Record)
  | scanned (it : Option ScanIterator)
  deriving DecidableEq

/-- The tables, the cache of open readers, one compaction and the reads. -/
structure Shared (Reader : Type) where
  tables : Tables
  compact : CompactPc
  returned : Bool
  readers : OMap Nat SstFile
  read : Reader → ReadPc

/-- `cache` stands for other point reads, which leave the readers they open behind. -/
inductive Choice (Reader : Type) where
  | compact
  | cache (id : Nat)
  | evict
  | read (k : Reader)

/-- What `ScanIterator::build` makes of the blocks it has loaded. -/
def assemble (query : Query) (m : MemTables) (blocks : List (List InternalRecord)) (nowUs : Int) : ScanIterator :=
  let results := memResults m query nowUs
  let sstSources := (blocks.map fun records => blockSource query records nowUs).filter fun s => !s.isEmpty
  let memSorted := results.insertionSort byVersion
  { sources := if memSorted = [] then sstSources else memSorted :: sstSources
    tombstones := results.filterMap tombstoneOf ++
      blocks.flatMap fun records => (liveRecords nowUs records).filterMap tombstoneOf }

/-- The block of a table that may be missing. -/
def blockOf (file : Option SstFile) (b : BlockMeta) : List InternalRecord := (file.getD ⟨[]⟩).readBlock b.blockIdx

section
variable {Reader : Type} (search : SlotSearch) (m : MemTables)

/-- `get_reader`: a cached reader, or the file. -/
def Shared.reader (s : Shared Reader) (id : Nat) : Option SstFile := (s.readers.get? id).or (s.tables.files.get? id)

/-- The first step of `get_sync`. With several tables it looks into all of them
before it lets go of the index. -/
def startGet (s : Shared Reader) (key : Bytes) (ts nowUs : Int) : ReadPc :=
  match m.get key ts nowUs with
  | some r => .got (if r.op ≠ .delete then some r.toRecord else none)
  | none =>
      match s.tables.index.singleSstPoint key nowUs with
      | some found => .searching found
      | none => .got (s.tables.index.queryPointInline key nowUs fun b =>
          findInRecords search (blockOf (s.reader b.sstId) b) key ts nowUs)

def startScan (s : Shared Reader) (query : Query) (nowUs : Int) : ReadPc :=
  match s.tables.index.query query.keyFilter query.timeRange nowUs with
  | some candidates => .listed candidates
  | none => .scanned none

/-- One step of a read, and the reader cache after it. -/
def readStep (s : Shared Reader) : Request → ReadPc → ReadPc × OMap Nat SstFile
  | .get key ts nowUs, .idle => (startGet search m s key ts nowUs, s.readers)
  | .get key ts nowUs, .searching found =>
      match s.readers.get? found.sstId, s.tables.files.get? found.sstId with
      | some file, _ => (.got (findInRecords search (file.readBlock found.blockIdx) key ts nowUs), s.readers)
      | none, some file => (.opened found file, s.readers)
      | none, none => (.got none, s.readers)
  | .get key ts nowUs, .opened found file =>
      (.got (findInRecords search (file.readBlock found.blockIdx) key ts nowUs), s.readers.insert found.sstId file)
  | .scan query nowUs, .idle => (startScan s query nowUs, s.readers)
  | .scan _ _, .listed candidates => (.loading s.readers candidates [], s.readers)
  | .scan _ _, .loading snapshot (c :: todo) blocks =>
      (.loading snapshot todo (blocks ++ [blockOf ((snapshot.get? c.sstId).or (s.tables.files.get? c.sstId)) c]), s.readers)
  | .scan query nowUs, .loading _ [] blocks => (.scanned (some (assemble query m blocks nowUs)), s.readers)
  | _, pc => (pc, s.readers)

variable [DecidableEq Reader] (request : Reader → Request) (config : Config) (compressedLen : Bytes → Nat)
  (popped : List InternalRecord)

/-- One compaction, whose heap pops the records in the order `popped`. -/
def Shared.next (s : Shared Reader) : Choice Reader → Option (Shared Reader)
  | .compact =>
      if s.returned then none
      else
        let moved := compactStep config compressedLen popped s.tables s.compact
        some { s with compact := moved.1, tables := moved.2, returned := decide (moved.1 = .idle) }
  | .cache id => (s.tables.files.get? id).map fun file => { s with readers := s.readers.insert id file }
  | .evict => some { s with readers := s.readers.filter fun id _ => decide (Registered s.tables id) }
  | .read k =>
      let moved := readStep search m s (request k) (s.read k)
      some { s with read := Function.update s.read k moved.1, readers := moved.2 }

end

section
variable {Reader : Type}

/-- The compaction and the reads have not begun; open readers are those of live tables. -/
structure Start (t₀ : Tables) (s : Shared Reader) : Prop where
  tables : s.tables = t₀
  compact : s.compact = .idle
  returned : s.returned = false
  readers : ∀ id file, s.readers.get? id = some file → t₀.files.get? id = some file
  read : ∀ k, s.read k = .idle

/-- The tables a read will look for in the reader cache and then on disk. -/
def awaits : ReadPc → List Nat
  | .searching found => [found.sstId]
  | .listed candidates => candidates.map (·.sstId)
  | _ => []

/-- The tables a read will look for on disk only. -/
def awaitsFile : ReadPc → List Nat
  | .loading snapshot todo _ => (todo.map (·.sstId)).filter fun id => (snapshot.get? id).isNone
  | _ => []

/-- The next step does not drop the candidates for want of records to write. -/
def keepsRecords : CompactPc → Bool
  | .numbered _ _ records _ => decide (records ≠ [])
  | _ => true

/-- The compaction writes a table. -/
def Rewrites (s : Shared Reader) : Choice Reader → Prop
  | .compact => keepsRecords s.compact = true
  | _ => True

/-- No file and no reader goes while a read has still to open that table. -/
def NotAwaited (s : Shared Reader) : Choice Reader → Prop
  | .compact => ∀ id ∈ unlinks s.compact, ∀ k,
      id ∉ awaitsFile (s.read k) ∧ (id ∈ awaits (s.read k) → (s.readers.get? id).isSome)
  | .evict => ∀ k, ∀ id ∈ awaits (s.read k), Registered s.tables id ∨ (s.tables.files.get? id).isSome
  | _ => True

/-- What a read that has finished should have returned: what it returns on `t`. -/
def Answers (search : SlotSearch) (m : MemTables) (t : Tables) : Request → ReadPc → Prop
  | .get key ts nowUs, .got result => result = getSync search m t key ts nowUs
  | .scan query nowUs, .scanned it => ∀ out, (∃ built, it = some built ∧ built.Yields out) ↔ Scans m t query nowUs out
  | _, _ => True

/-- A read that comes after the change of tables returns what one before it does. -/
def Unchanged (search : SlotSearch) (m : MemTables) (t t' : Tables) : Request → Prop
  | .get key ts nowUs => getSync search m t' key ts nowUs = getSync search m t key ts nowUs
  | .scan query nowUs => ∀ out, Scans m t' query nowUs out ↔ Scans m t query nowUs out

end

/-! ### The compaction -/

section
variable (config : Config) (compressedLen : Bytes → Nat) (popped : List InternalRecord) (t₀ : Tables)

/-- The run writes a table in place of its candidates. -/
structure Replaces : Prop where
  enough : ¬ t₀.manifest.state.sstables.entries.length < config.compactionThreshold
  blocks : ¬ (t₀.candidates.all fun id => (t₀.file id).blocks.isEmpty) = true
  records : written popped ≠ []

def newId : Nat := t₀.manifest.state.nextSstId

def newSst : SstFile × Bloom.BloomFilter :=
  compactedSst config (written popped)
    (t₀.candidates.filterMap fun id => (t₀.manifest.state.sstables.get? id).map (·.records)).sum

/-- The tables after the run. -/
def after : Tables := CompactionRunner.run config compressedLen t₀ popped

/-- The old tables with the new file beside theirs. -/
def beside : Tables := withFile t₀ (newId t₀) (newSst config popped t₀).1

/-- How far the run has come and what it has made of the tables. -/
def StageAt (t : Tables) (returned : Bool) : CompactPc → Prop
  | .idle => t = t₀ ∨ (returned = true ∧ Replaces config popped t₀ ∧
      t = { after config compressedLen popped t₀ with
        files := (t₀.candidates.foldl withoutFile (beside config popped t₀)).files })
  | .checked => t = t₀ ∧ ¬ t₀.manifest.state.sstables.entries.length < config.compactionThreshold
  | .listed ids => t = t₀ ∧ ¬ t₀.manifest.state.sstables.entries.length < config.compactionThreshold ∧
      ids = t₀.activeIds.insertionSort (· ≤ ·)
  | .opening candidates todo opened => t = t₀ ∧
      ¬ t₀.manifest.state.sstables.entries.length < config.compactionThreshold ∧ candidates = t₀.candidates ∧
      opened ++ todo.map t₀.file = candidates.map t₀.file
  | .merged candidates records => t = t₀ ∧ candidates = t₀.candidates ∧ records = written popped ∧
      (records ≠ [] → Replaces config popped t₀)
  | .numbered id candidates records estimated => t = t₀ ∧ candidates = t₀.candidates ∧ id = newId t₀ ∧
      (records ≠ [] → Replaces config popped t₀) ∧ compactedSst config records estimated = newSst config popped t₀ ∧
      records = written popped
  | .written id candidates records estimated => Replaces config popped t₀ ∧ t = beside config popped t₀ ∧
      candidates = t₀.candidates ∧ id = newId t₀ ∧ compactedSst config records estimated = newSst config popped t₀ ∧
      records = written popped
  | .swapped id candidates records estimated => Replaces config popped t₀ ∧
      t = { beside config popped t₀ with index := (after config compressedLen popped t₀).index } ∧
      candidates = t₀.candidates ∧ id = newId t₀ ∧ compactedSst config records estimated = newSst config popped t₀ ∧
      records = written popped
  | .removing todo => Replaces config popped t₀ ∧ ∃ removed, t₀.candidates = removed ++ todo ∧
      t = { after config compressedLen popped t₀ with
        files := (removed.foldl withoutFile (beside config popped t₀)).files }
  | _ => False

variable {config popped t₀}

theorem after_replaces (replaces : Replaces config popped t₀) :
    after config compressedLen popped t₀ = publishSst (deleteSsts t₀ t₀.candidates)
      (t₀.manifest.append (.compaction t₀.candidates [sstInfo (newId t₀)
        ((newSst config popped t₀).1.totalBytes compressedLen) (written popped) (newSst config popped t₀).2]
        [(newId t₀, (newSst config popped t₀).1.blockInfos)]))
      (sstInfo (newId t₀) ((newSst config popped t₀).1.totalBytes compressedLen) (written popped)
        (newSst config popped t₀).2) (newSst config popped t₀).1 (newSst config popped t₀).2 := by
  simp only [after, CompactionRunner.run, if_neg replaces.enough, if_neg replaces.blocks, if_neg replaces.records]
  rfl

variable {compressedLen} {t : Tables} {pc : CompactPc}

theorem stage_compact (stage : StageAt config compressedLen popped t₀ t false pc)
    (rewrites : keepsRecords pc = true) :
    let moved := compactStep config compressedLen popped t pc
    StageAt config compressedLen popped t₀ moved.2 (decide (moved.1 = .idle)) moved.1 := by
  intro moved
  cases pc with
  | idle =>
    obtain rfl : t = t₀ := stage.resolve_right fun other => Bool.noConfusion other.1
    by_cases few : t.manifest.state.sstables.entries.length < config.compactionThreshold
    · have step : moved = (.idle, t) := if_pos few
      rw [step]
      exact Or.inl rfl
    · have step : moved = (.checked, t) := if_neg few
      rw [step]
      exact ⟨rfl, few⟩
  | checked =>
    obtain ⟨rfl, enough⟩ := stage
    by_cases empty : t.activeIds.insertionSort (· ≤ ·) = []
    · have step : moved = (.idle, t) := if_pos empty
      rw [step]
      exact Or.inl rfl
    · have step : moved = (.listed (t.activeIds.insertionSort (· ≤ ·)), t) := if_neg empty
      rw [step]
      exact ⟨rfl, enough, rfl⟩
  | listed ids =>
    obtain ⟨rfl, enough, rfl⟩ := stage
    by_cases empty : t.candidates = []
    · have step : moved = (.idle, t) := if_pos empty
      rw [step]
      exact Or.inl rfl
    · have step : moved = (.opening t.candidates t.candidates [], t) := if_neg empty
      rw [step]
      exact ⟨rfl, enough, rfl, rfl⟩
  | opening candidates todo opened =>
    obtain ⟨rfl, enough, rfl, loaded⟩ := stage
    cases todo with
    | cons id rest =>
      refine ⟨rfl, enough, rfl, ?_⟩
      rw [List.append_assoc]
      exact loaded
    | nil =>
      rw [List.map_nil, List.append_nil] at loaded
      by_cases closed : (opened.all fun file => file.blocks.isEmpty) = true
      · have step : moved = (.idle, t) := if_pos closed
        rw [step]
        exact Or.inl rfl
      · have step : moved = (.merged t.candidates (written popped), t) := if_neg closed
        rw [step]
        refine ⟨rfl, rfl, rfl, fun records => ⟨enough, ?_, records⟩⟩
        rw [loaded, List.all_map] at closed
        exact closed
  | merged candidates records =>
    obtain ⟨rfl, rfl, rfl, replaces⟩ := stage
    exact ⟨rfl, rfl, rfl, replaces, rfl, rfl⟩
  | numbered id candidates records estimated =>
    obtain ⟨rfl, rfl, rfl, replaces, sst, same⟩ := stage
    have some : records ≠ [] := of_decide_eq_true rewrites
    have step : moved = (.written (newId t) t.candidates records estimated,
        withFile t (newId t) (compactedSst config records estimated).1) := if_neg some
    rw [step, sst]
    exact ⟨replaces some, rfl, rfl, rfl, sst, same⟩
  | written id candidates records estimated =>
    obtain ⟨replaces, rfl, rfl, rfl, sst, same⟩ := stage
    refine ⟨replaces, ?_, rfl, rfl, sst, same⟩
    simp only [moved, compactStep, sst, after_replaces compressedLen replaces]
    rfl
  | swapped id candidates records estimated =>
    obtain ⟨replaces, rfl, rfl, rfl, sst, rfl⟩ := stage
    refine ⟨replaces, [], rfl, ?_⟩
    simp only [moved, compactStep, sst, after_replaces compressedLen replaces]
    rfl
  | removing todo =>
    obtain ⟨replaces, removed, shape, rfl⟩ := stage
    cases todo with
    | nil =>
      rw [List.append_nil] at shape
      exact Or.inr ⟨rfl, replaces, by rw [shape]; rfl⟩
    | cons id rest =>
      refine ⟨replaces, removed ++ [id], by rw [List.append_assoc]; exact shape, ?_⟩
      rw [List.foldl_append]
      rfl
  | _ => exact stage.elim

/-- What the tables' files are or were, before and after the run. -/
def whole (config : Config) (compressedLen : Bytes → Nat) (popped : List InternalRecord) (t₀ : Tables) (id : Nat) :
    SstFile :=
  if id ∈ t₀.activeIds then t₀.file id else (after config compressedLen popped t₀).file id

/-- Tables a read can find the index of: those before the run and those after it. -/
structure Index (config : Config) (compressedLen : Bytes → Nat) (popped : List InternalRecord) (t₀ T : Tables) : Prop where
  ok : Ok T
  files : ∀ id ∈ T.activeIds, T.file id = whole config compressedLen popped t₀ id
  one : T = t₀ ∨ T = after config compressedLen popped t₀

theorem newId_absent (ok : Ok t₀) : newId t₀ ∉ t₀.activeIds := nextSstId_absent t₀ ok

theorem index_before (ok : Ok t₀) : Index config compressedLen popped t₀ t₀ :=
  ⟨ok, fun _ active => (if_pos active).symm, Or.inl rfl⟩

theorem mem_after (ok : Ok t₀) (replaces : Replaces config popped t₀) (id : Nat) :
    id ∈ (after config compressedLen popped t₀).activeIds ↔ id = newId t₀ ∨ (id ∈ t₀.activeIds ∧ id ∉ t₀.candidates) := by
  have okAfter : Ok (after config compressedLen popped t₀) := ok_run config compressedLen t₀ ok popped
  have files : (after config compressedLen popped t₀).files =
      (t₀.files.filter fun id _ => decide (id ∉ t₀.candidates)).insert (newId t₀) (newSst config popped t₀).1 := by
    rw [after_replaces compressedLen replaces]
    rfl
  rw [okAfter.filed, files, get?_insert, get?_filter]
  split_ifs with same
  · exact iff_of_true rfl (Or.inl same)
  · rw [ok.filed]
    by_cases candidate : id ∈ t₀.candidates <;> cases t₀.files.get? id <;> simp [Option.filter, candidate, same]

theorem file_after (ok : Ok t₀) (replaces : Replaces config popped t₀) (id : Nat)
    (active : id ∈ (after config compressedLen popped t₀).activeIds) :
    (after config compressedLen popped t₀).file id = (beside config popped t₀).file id := by
  have file : (after config compressedLen popped t₀).file id =
      if id = newId t₀ then (newSst config popped t₀).1 else (deleteSsts t₀ t₀.candidates).file id := by
    rw [after_replaces compressedLen replaces, file_publishSst]
    rfl
  rw [file]
  split_ifs with same
  · rw [same, beside, Tables.file, withFile, get?_insert_self]
    rfl
  · have kept := ((mem_after ok replaces id).mp active).resolve_left same
    rw [file_deleteSsts t₀ _ id kept.2, beside, Tables.file, Tables.file, withFile, get?_insert, if_neg same]

theorem index_after (ok : Ok t₀) (replaces : Replaces config popped t₀) :
    Index config compressedLen popped t₀ (after config compressedLen popped t₀) := by
  refine ⟨ok_run config compressedLen t₀ ok popped, fun id active => ?_, Or.inr rfl⟩
  rw [whole]
  split_ifs with old
  · have other : id ≠ newId t₀ := by
      rintro rfl
      exact newId_absent ok old
    rw [file_after ok replaces id active, beside, Tables.file, withFile, get?_insert, if_neg other]
    rfl
  · rfl

/-- Files in place are whole, and those of the index are in place. -/
structure Filed (config : Config) (compressedLen : Bytes → Nat) (popped : List InternalRecord) (t₀ t : Tables) : Prop where
  whole : ∀ id file, t.files.get? id = some file → file = whole config compressedLen popped t₀ id
  index : ∃ T, Index config compressedLen popped t₀ T ∧ t.index = T.index ∧ ∀ id ∈ T.activeIds, (t.files.get? id).isSome

theorem file_of_get? {t : Tables} {id : Nat} {file : SstFile} (held : t.files.get? id = some file) : t.file id = file := by
  rw [Tables.file, held]
  rfl

theorem get?_withoutFiles (ids : List Nat) (t : Tables) (id : Nat) :
    (ids.foldl withoutFile t).files.get? id = if id ∈ ids then none else t.files.get? id := by
  rw [withoutFiles, get?_filter]
  by_cases gone : id ∈ ids <;> cases t.files.get? id <;> simp [Option.filter, gone]

theorem filed_stage (ok : Ok t₀) {returned : Bool} (stage : StageAt config compressedLen popped t₀ t returned pc) :
    Filed config compressedLen popped t₀ t := by
  have old (id : Nat) (file : SstFile) (held : t₀.files.get? id = some file) :
      file = whole config compressedLen popped t₀ id := by
    have active : id ∈ t₀.activeIds := (ok.filed id).mpr (by rw [held]; rfl)
    rw [whole, if_pos active, file_of_get? held]
  have before : Filed config compressedLen popped t₀ t₀ :=
    ⟨old, t₀, index_before ok, rfl, fun id active => (ok.filed id).mp active⟩
  -- The new file is in place; some of the old ones may be gone.
  have new (replaces : Replaces config popped t₀) (removed : List Nat) (id : Nat) (file : SstFile)
      (held : (removed.foldl withoutFile (beside config popped t₀)).files.get? id = some file) :
      file = whole config compressedLen popped t₀ id := by
    rw [get?_withoutFiles] at held
    split_ifs at held
    rw [beside, withFile, get?_insert] at held
    split_ifs at held with same
    · obtain rfl := Option.some.inj held
      subst same
      rw [whole, if_neg (newId_absent ok), file_after ok replaces _ ((mem_after ok replaces _).mpr (Or.inl rfl)), beside,
        Tables.file, withFile, get?_insert_self]
      rfl
    · exact old id file held
  have later (replaces : Replaces config popped t₀) (removed : List Nat) (few : removed ⊆ t₀.candidates)
      (id : Nat) (active : id ∈ (after config compressedLen popped t₀).activeIds) :
      ((removed.foldl withoutFile (beside config popped t₀)).files.get? id).isSome := by
    have kept : id ∉ removed := by
      intro gone
      rcases (mem_after ok replaces id).mp active with same | ⟨_, stays⟩
      · rw [same] at gone
        exact newId_absent ok ((candidates_subperm t₀).subset (few gone))
      · exact stays (few gone)
    rw [get?_withoutFiles, if_neg kept, beside, withFile, get?_insert]
    split_ifs with same
    · rfl
    · exact (ok.filed id).mp (((mem_after ok replaces id).mp active).resolve_left same).1
  cases pc with
  | idle =>
    rcases stage with rfl | ⟨_, replaces, rfl⟩
    · exact before
    · exact ⟨new replaces _, _, index_after ok replaces, rfl, later replaces _ (List.Subset.refl _)⟩
  | checked =>
    obtain ⟨rfl, _⟩ := stage
    exact before
  | listed ids =>
    obtain ⟨rfl, _⟩ := stage
    exact before
  | opening candidates todo opened =>
    obtain ⟨rfl, _⟩ := stage
    exact before
  | merged candidates records =>
    obtain ⟨rfl, _⟩ := stage
    exact before
  | numbered id candidates records estimated =>
    obtain ⟨rfl, _⟩ := stage
    exact before
  | written id candidates records estimated =>
    obtain ⟨replaces, rfl, _⟩ := stage
    refine ⟨new replaces [], t₀, index_before ok, rfl, fun id active => ?_⟩
    rw [beside, withFile, get?_insert]
    split_ifs
    · rfl
    · exact (ok.filed id).mp active
  | swapped id candidates records estimated =>
    obtain ⟨replaces, rfl, _⟩ := stage
    exact ⟨new replaces [], _, index_after ok replaces, rfl, later replaces [] (List.nil_subset _)⟩
  | removing todo =>
    obtain ⟨replaces, removed, shape, rfl⟩ := stage
    refine ⟨new replaces removed, _, index_after ok replaces, rfl, later replaces removed ?_⟩
    rw [shape]
    exact List.subset_append_left _ _
  | _ => exact stage.elim

end

/-! ### The reads -/

theorem build_assemble {query : Query} {m : MemTables} {t : Tables} {nowUs : Int} {candidates : List BlockMeta}
    (answer : t.index.query query.keyFilter query.timeRange nowUs = some candidates) :
    ScanIterator.build query m t nowUs =
      some (assemble query m (candidates.map fun c => (t.file c.sstId).readBlock c.blockIdx) nowUs) := by
  rw [ScanIterator.build, answer]
  rfl

section
variable {Reader : Type} (search : SlotSearch) (m : MemTables) (config : Config) (compressedLen : Bytes → Nat)
  (popped : List InternalRecord) (t₀ : Tables)

def Openable (s : Shared Reader) (id : Nat) : Prop :=
  (s.readers.get? id).isSome ∨ (s.tables.files.get? id).isSome

/-- A read has its candidates from one index, can open those it has still to open,
and has read the others whole. -/
def ReadOk (s : Shared Reader) : Request → ReadPc → Prop
  | _, .idle => True
  | .get key ts nowUs, .searching found => m.get key ts nowUs = none ∧
      ∃ T, Index config compressedLen popped t₀ T ∧ T.index.singleSstPoint key nowUs = some found ∧ Openable s found.sstId
  | .get key ts nowUs, .opened found file => m.get key ts nowUs = none ∧
      ∃ T, Index config compressedLen popped t₀ T ∧ T.index.singleSstPoint key nowUs = some found ∧
        file = whole config compressedLen popped t₀ found.sstId
  | .get key ts nowUs, .got result =>
      ∃ T, Index config compressedLen popped t₀ T ∧ result = getSync search m T key ts nowUs
  | .scan query nowUs, .listed candidates =>
      ∃ T, Index config compressedLen popped t₀ T ∧
        T.index.query query.keyFilter query.timeRange nowUs = some candidates ∧ ∀ c ∈ candidates, Openable s c.sstId
  | .scan query nowUs, .loading snapshot todo blocks =>
      ∃ T before, Index config compressedLen popped t₀ T ∧
        T.index.query query.keyFilter query.timeRange nowUs = some (before ++ todo) ∧
        blocks = before.map (fun c => (T.file c.sstId).readBlock c.blockIdx) ∧
        (∀ id file, snapshot.get? id = some file → file = whole config compressedLen popped t₀ id) ∧
        ∀ c ∈ todo, (snapshot.get? c.sstId).isSome ∨ (s.tables.files.get? c.sstId).isSome
  | .scan query nowUs, .scanned it =>
      ∃ T, Index config compressedLen popped t₀ T ∧ it = ScanIterator.build query m T nowUs
  | _, _ => False

variable (request : Reader → Request)

structure InStep (s : Shared Reader) : Prop where
  ok : Ok t₀
  stage : StageAt config compressedLen popped t₀ s.tables s.returned s.compact
  readers : ∀ id file, s.readers.get? id = some file → file = whole config compressedLen popped t₀ id
  reads : ∀ k, ReadOk search m config compressedLen popped t₀ s (request k) (s.read k)

variable {search m config compressedLen popped t₀ request} {s : Shared Reader}

theorem inStep_start (ok : Ok t₀) (start : Start t₀ s) : InStep search m config compressedLen popped t₀ request s := by
  refine ⟨ok, ?_, fun id file held => ?_, fun k => ?_⟩
  · rw [start.compact]
    exact Or.inl start.tables
  · have filed := start.readers id file held
    have active : id ∈ t₀.activeIds := (ok.filed id).mpr (by rw [filed]; rfl)
    rw [whole, if_pos active, file_of_get? filed]
  · rw [start.read k]
    cases request k <;> trivial

/-- What a step takes away, no read waits for. -/
theorem readOk_mono {s' : Shared Reader} {req : Request} {pc : ReadPc}
    (before : ReadOk search m config compressedLen popped t₀ s req pc)
    (shared : ∀ id ∈ awaits pc, Openable s id → Openable s' id)
    (files : ∀ id ∈ awaitsFile pc, (s.tables.files.get? id).isSome → (s'.tables.files.get? id).isSome) :
    ReadOk search m config compressedLen popped t₀ s' req pc := by
  cases req with
  | get key ts nowUs =>
    cases pc with
    | searching found =>
      obtain ⟨absent, T, index, single, openable⟩ := before
      exact ⟨absent, T, index, single, shared _ (List.mem_singleton_self _) openable⟩
    | _ => exact before
  | scan query nowUs =>
    cases pc with
    | listed candidates =>
      obtain ⟨T, index, answer, openable⟩ := before
      exact ⟨T, index, answer, fun c member => shared _ (List.mem_map_of_mem member) (openable c member)⟩
    | loading snapshot todo blocks =>
      obtain ⟨T, done, index, answer, loaded, sound, openable⟩ := before
      refine ⟨T, done, index, answer, loaded, sound, fun c member => ?_⟩
      by_cases held : (snapshot.get? c.sstId).isSome
      · exact Or.inl held
      · refine Or.inr (files _ ?_ ((openable c member).resolve_left held))
        exact List.mem_filter.mpr ⟨List.mem_map_of_mem member, by simpa using held⟩
    | _ => exact before

theorem read_whole {T : Tables} (index : Index config compressedLen popped t₀ T) {c : BlockMeta}
    (active : c.sstId ∈ T.activeIds) {file : Option SstFile} (present : file.isSome)
    (sound : ∀ f, file = some f → f = whole config compressedLen popped t₀ c.sstId) :
    blockOf file c = (T.file c.sstId).readBlock c.blockIdx := by
  obtain ⟨f, rfl⟩ := Option.isSome_iff_exists.mp present
  rw [index.files _ active, ← sound f rfl]
  rfl

theorem either_whole {cache files : OMap Nat SstFile} {id : Nat}
    (cached : ∀ f, cache.get? id = some f → f = whole config compressedLen popped t₀ id)
    (filed : ∀ f, files.get? id = some f → f = whole config compressedLen popped t₀ id) :
    ∀ f, (cache.get? id).or (files.get? id) = some f → f = whole config compressedLen popped t₀ id := by
  intro f held
  rcases Option.or_eq_some_iff.mp held with there | ⟨_, there⟩
  · exact cached f there
  · exact filed f there

/-- A read that takes the index finds its tables in place. -/
theorem readOk_startGet (inStep : InStep search m config compressedLen popped t₀ request s) (key : Bytes) (ts nowUs : Int) :
    ReadOk search m config compressedLen popped t₀ s (.get key ts nowUs) (startGet search m s key ts nowUs) := by
  have filed := filed_stage inStep.ok inStep.stage
  obtain ⟨T, index, sameIndex, present⟩ := filed.index
  rw [startGet]
  cases memory : m.get key ts nowUs with
  | some r => exact ⟨T, index, by simp only [getSync, memory]⟩
  | none =>
    rw [sameIndex]
    cases single : T.index.singleSstPoint key nowUs with
    | some found => exact ⟨memory, T, index, single, Or.inr (present _ (single_active index.ok single))⟩
    | none =>
      refine ⟨T, index, ?_⟩
      simp only [getSync, memory, single]
      refine queryPointInline_congr index.ok (fun b active => ?_) key nowUs
      have here : (s.reader b.sstId).isSome := by
        rw [Shared.reader, Option.isSome_or, present _ active, Bool.or_true]
      rw [read_whole index active here (either_whole (inStep.readers b.sstId) (filed.whole b.sstId)), blockSearch]

theorem readOk_startScan (inStep : InStep search m config compressedLen popped t₀ request s) (query : Query) (nowUs : Int) :
    ReadOk search m config compressedLen popped t₀ s (.scan query nowUs) (startScan s query nowUs) := by
  obtain ⟨T, index, sameIndex, present⟩ := (filed_stage inStep.ok inStep.stage).index
  rw [startScan, sameIndex]
  cases answer : T.index.query query.keyFilter query.timeRange nowUs with
  | none => exact ⟨T, index, by rw [ScanIterator.build, answer]; rfl⟩
  | some candidates =>
    exact ⟨T, index, answer, fun c member => Or.inr (present _ (candidate_active index.ok answer c member))⟩

theorem getSync_single (search : SlotSearch) {T : Tables} {key : Bytes} {ts nowUs : Int} {found : BlockMeta}
    (absent : m.get key ts nowUs = none) (single : T.index.singleSstPoint key nowUs = some found) :
    getSync search m T key ts nowUs = blockSearch search T key ts nowUs found := by
  simp only [getSync, absent, single]

/-- One step of a read, on the state before it: the reader cache it leaves is sound. -/
theorem readOk_step (inStep : InStep search m config compressedLen popped t₀ request s) (req : Request) (pc : ReadPc)
    (before : ReadOk search m config compressedLen popped t₀ s req pc) :
    let moved := readStep search m s req pc
    ReadOk search m config compressedLen popped t₀ s req moved.1 ∧
      (∀ id file, moved.2.get? id = some file → file = whole config compressedLen popped t₀ id) ∧
      ∀ id, (s.readers.get? id).isSome → (moved.2.get? id).isSome := by
  intro moved
  have same : ∀ id, (s.readers.get? id).isSome → (s.readers.get? id).isSome := fun _ => id
  have filed := filed_stage inStep.ok inStep.stage
  cases req with
  | get key ts nowUs =>
    cases pc with
    | idle => exact ⟨readOk_startGet inStep key ts nowUs, inStep.readers, same⟩
    | searching found =>
      obtain ⟨absent, T, index, single, openable⟩ := before
      have active := single_active index.ok single
      have answer := getSync_single search absent single
      cases cached : s.readers.get? found.sstId with
      | some file =>
        have step : moved = (.got (findInRecords search (file.readBlock found.blockIdx) key ts nowUs), s.readers) := by
          simp only [moved, readStep, cached]
        rw [step]
        refine ⟨⟨T, index, ?_⟩, inStep.readers, same⟩
        rw [answer, blockSearch, index.files _ active, ← inStep.readers _ _ cached]
      | none =>
        cases there : s.tables.files.get? found.sstId with
        | some file =>
          have step : moved = (.opened found file, s.readers) := by simp only [moved, readStep, cached, there]
          rw [step]
          exact ⟨⟨absent, T, index, single, filed.whole _ _ there⟩, inStep.readers, same⟩
        | none =>
          rcases openable with reader | file
          · rw [cached] at reader
            cases reader
          · rw [there] at file
            cases file
    | opened found file =>
      obtain ⟨absent, T, index, single, rfl⟩ := before
      have active := single_active index.ok single
      refine ⟨⟨T, index, ?_⟩, fun id file held => ?_, fun id held => ?_⟩
      · rw [getSync_single search absent single, blockSearch, index.files _ active]
      · replace held : (s.readers.insert found.sstId _).get? id = some file := held
        rw [get?_insert] at held
        split_ifs at held with here
        · rw [here]
          exact (Option.some.inj held).symm
        · exact inStep.readers id file held
      · show ((s.readers.insert found.sstId _).get? id).isSome = true
        rw [get?_insert]
        split_ifs
        · rfl
        · exact held
    | got result => exact ⟨before, inStep.readers, same⟩
    | _ => exact before.elim
  | scan query nowUs =>
    cases pc with
    | idle => exact ⟨readOk_startScan inStep query nowUs, inStep.readers, same⟩
    | listed candidates =>
      obtain ⟨T, index, answer, openable⟩ := before
      exact ⟨⟨T, [], index, answer, rfl, inStep.readers, openable⟩, inStep.readers, same⟩
    | loading snapshot todo blocks =>
      obtain ⟨T, done, index, answer, rfl, sound, openable⟩ := before
      cases todo with
      | nil =>
        rw [List.append_nil] at answer
        exact ⟨⟨T, index, (build_assemble answer).symm⟩, inStep.readers, same⟩
      | cons c todo =>
        have active := candidate_active index.ok answer c (List.mem_append_right _ List.mem_cons_self)
        have present : ((snapshot.get? c.sstId).or (s.tables.files.get? c.sstId)).isSome := by
          rw [Option.isSome_or, Bool.or_eq_true]
          exact openable c List.mem_cons_self
        have loaded := read_whole index active present (either_whole (sound c.sstId) (filed.whole c.sstId))
        refine ⟨⟨T, done ++ [c], index, ?_, ?_, sound, fun d member => openable d (List.mem_cons_of_mem c member)⟩,
          inStep.readers, same⟩
        · rw [List.append_assoc]
          exact answer
        · rw [List.map_append, loaded]
          rfl
    | scanned it => exact ⟨before, inStep.readers, same⟩
    | _ => exact before.elim

/-- A step of the compaction takes away the one file it removes. -/
theorem compact_keeps (t : Tables) (pc : CompactPc) (id : Nat) (there : (t.files.get? id).isSome)
    (other : unlinks pc ≠ some id) : ((compactStep config compressedLen popped t pc).2.files.get? id).isSome := by
  have added (k : Nat) (file : SstFile) : ((withFile t k file).files.get? id).isSome := by
    rw [withFile, get?_insert]
    split_ifs
    · rfl
    · exact there
  have removed (k : Nat) (gone : unlinks pc = some k) : ((withoutFile t k).files.get? id).isSome := by
    rw [withoutFile, get?_erase, if_neg]
    · exact there
    · rintro rfl
      exact other gone
  cases pc with
  | idle | checked =>
    simp only [compactStep]
    split_ifs <;> exact there
  | listed ids =>
    simp only [compactStep]
    split_ifs <;> exact there
  | opening candidates todo opened =>
    cases todo with
    | nil =>
      simp only [compactStep]
      split_ifs <;> exact there
    | cons k rest => exact there
  | merged candidates records => exact there
  | numbered k candidates records estimated =>
    simp only [compactStep]
    split_ifs
    · exact there
    · exact added k _
  | written k candidates records estimated | swapped k candidates records estimated => exact there
  | removing todo | dropping todo =>
    cases todo with
    | nil => exact there
    | cons k rest => exact removed k rfl
  | unlinked k rest | unindexed k rest => exact there

variable [DecidableEq Reader]

/-- The condition on a step: the compaction rewrites, and nothing goes that a read awaits. -/
def Careful (s : Shared Reader) (choice : Choice Reader) : Prop := Rewrites s choice ∧ NotAwaited s choice

theorem inStep_next {s' : Shared Reader} (inStep : InStep search m config compressedLen popped t₀ request s)
    (choice : Choice Reader) (careful : Careful s choice)
    (moved : s.next search m request config compressedLen popped choice = some s') :
    InStep search m config compressedLen popped t₀ request s' := by
  obtain ⟨rewrites, kept⟩ := careful
  cases choice with
  | compact =>
    simp only [Shared.next] at moved
    split_ifs at moved with returned
    obtain rfl := Option.some.inj moved
    have running : s.returned = false := by simpa using returned
    have stage := inStep.stage
    rw [running] at stage
    refine ⟨inStep.ok, stage_compact stage rewrites, inStep.readers, fun k =>
      readOk_mono (inStep.reads k) (fun id awaited openable => ?_) fun id awaited there => ?_⟩
    · by_cases gone : unlinks s.compact = some id
      · exact Or.inl ((kept id gone k).2 awaited)
      · exact openable.imp_right fun there => compact_keeps s.tables s.compact id there gone
    · refine compact_keeps s.tables s.compact id there fun gone => ?_
      exact (kept id gone k).1 awaited
  | cache sstId =>
    obtain ⟨file, there, rfl⟩ := Option.map_eq_some_iff.mp moved
    refine ⟨inStep.ok, inStep.stage, fun j f held => ?_, fun k =>
      readOk_mono (inStep.reads k) (fun j _ openable => ?_) fun _ _ => id⟩
    · replace held : (s.readers.insert sstId file).get? j = some f := held
      rw [get?_insert] at held
      split_ifs at held with same
      · obtain rfl := Option.some.inj held
        rw [same]
        exact (filed_stage inStep.ok inStep.stage).whole sstId file there
      · exact inStep.readers j f held
    · refine openable.imp_left fun cached => ?_
      show ((s.readers.insert sstId file).get? j).isSome = true
      rw [get?_insert]
      split_ifs
      · rfl
      · exact cached
  | evict =>
    obtain rfl := Option.some.inj moved
    refine ⟨inStep.ok, inStep.stage, fun id file held => ?_, fun k =>
      readOk_mono (inStep.reads k) (fun id awaited openable => ?_) fun _ _ => id⟩
    · replace held : (s.readers.filter fun id _ => decide (Registered s.tables id)).get? id = some file := held
      rw [get?_filter] at held
      exact inStep.readers id file (Option.filter_eq_some_iff.mp held).1
    · rcases openable with cached | there
      · rcases kept k id awaited with registered | there
        · refine Or.inl ?_
          show ((s.readers.filter fun id _ => decide (Registered s.tables id)).get? id).isSome = true
          rw [get?_filter]
          obtain ⟨file, held⟩ := Option.isSome_iff_exists.mp cached
          simp [held, Option.filter, registered]
        · exact Or.inr there
      · exact Or.inr there
  | read k =>
    obtain rfl := Option.some.inj moved
    obtain ⟨step, sound, more⟩ := readOk_step inStep (request k) (s.read k) (inStep.reads k)
    have grown (id : Nat) (openable : Openable s id) : Openable ({ s with
        read := Function.update s.read k (readStep search m s (request k) (s.read k)).1
        readers := (readStep search m s (request k) (s.read k)).2 } : Shared Reader) id := openable.imp_left (more id)
    refine ⟨inStep.ok, inStep.stage, sound, fun j => ?_⟩
    by_cases same : j = k
    · subst same
      show ReadOk search m config compressedLen popped t₀ _ (request j) (Function.update s.read j _ j)
      rw [Function.update_self]
      exact readOk_mono step (fun id _ => grown id) fun _ _ => id
    · show ReadOk search m config compressedLen popped t₀ _ (request j) (Function.update s.read k _ j)
      rw [Function.update_of_ne same]
      exact readOk_mono (inStep.reads j) (fun id _ => grown id) fun _ _ => id

/-- In every run in which no file and no reader goes while a read has still to open
that table, a read beside a compaction returns what it returns before it; one that
takes the index after the swap does so if the compaction by itself changes nothing for it. -/
theorem read_unaffected (ok : Ok t₀)
    (reached : Reachable (Shared.next search m request config compressedLen popped) Careful (Start t₀) s) (k : Reader)
    (unchanged : Unchanged search m t₀ (CompactionRunner.run config compressedLen t₀ popped) (request k)) :
    Answers search m t₀ (request k) (s.read k) := by
  have inStep : InStep search m config compressedLen popped t₀ request s := by
    apply Reachable.invariant _ _ reached
    · exact fun s start => inStep_start ok start
    · exact fun s choice s' before careful moved => inStep_next before choice careful moved
  have read := inStep.reads k
  cases place : s.read k with
  | got result =>
    rw [place] at read
    cases asked : request k with
    | get key ts nowUs =>
      rw [asked] at read unchanged
      obtain ⟨T, index, same⟩ := read
      rw [Answers, same]
      rcases index.one with rfl | rfl
      · rfl
      · exact unchanged
    | scan query nowUs => trivial
  | scanned it =>
    rw [place] at read
    cases asked : request k with
    | get key ts nowUs => trivial
    | scan query nowUs =>
      rw [asked] at read unchanged
      obtain ⟨T, index, same⟩ := read
      rw [Answers, same]
      rcases index.one with rfl | rfl
      · exact fun out => Iff.rfl
      · exact unchanged
  | _ => cases request k <;> trivial

end

/-! One table, compacted to another while a get of its key is under way. -/

instance {Reader : Type} (s : Shared Reader) (choice : Choice Reader) : Decidable (Rewrites s choice) :=
  match choice with
  | .compact => inferInstanceAs (Decidable (keepsRecords s.compact = true))
  | .cache _ => isTrue trivial
  | .evict => isTrue trivial
  | .read _ => isTrue trivial

instance {Reader : Type} [Fintype Reader] (s : Shared Reader) (choice : Choice Reader) : Decidable (NotAwaited s choice) :=
  match choice with
  | .compact => inferInstanceAs (Decidable (∀ id ∈ unlinks s.compact, ∀ k,
      id ∉ awaitsFile (s.read k) ∧ (id ∈ awaits (s.read k) → (s.readers.get? id).isSome)))
  | .cache _ => isTrue trivial
  | .evict => inferInstanceAs (Decidable (∀ k, ∀ id ∈ awaits (s.read k),
      Registered s.tables id ∨ (s.tables.files.get? id).isSome))
  | .read _ => isTrue trivial

instance {Reader : Type} [Fintype Reader] (s : Shared Reader) (choice : Choice Reader) : Decidable (Careful s choice) :=
  inferInstanceAs (Decidable (_ ∧ _))

/-- Compactions of a single table are allowed. -/
def eager : Config := { compactionThreshold := 1 }

def put : InternalRecord := .fromRecord (.new [97] 1 [1]) 1000000

def oneTable : Tables := addFlushed eager (fun _ => 0) (Tables.new 3600) [put]

def atRest : Shared Unit := ⟨oneTable, .idle, false, ∅, fun _ => .idle⟩

def getPut : Request := .get [97] 1 0

abbrev step (s : Shared Unit) (choice : Choice Unit) : Option (Shared Unit) :=
  s.next .first (.new 2 67108864) (fun _ => getPut) eager (fun _ => 0) [stored put] choice

theorem oneTable_ok : Ok oneTable := ok_addFlushed _ _ _ (ok_new 3600) _

theorem start_atRest : Start oneTable atRest := ⟨rfl, rfl, rfl, nofun, fun _ => rfl⟩

theorem getPut_unchanged : Unchanged .first (.new 2 67108864) oneTable
    (CompactionRunner.run eager (fun _ => 0) oneTable [stored put]) getPut := by
  show getSync _ _ _ _ _ _ = getSync _ _ _ _ _ _
  decide +kernel

/-- The get has opened the file when the compaction removes it. -/
theorem read_unaffected_opened :
    ∃ s : Shared Unit, s.returned = true ∧ s.tables.activeIds = [2] ∧ s.read () = .got (some put.toRecord) ∧
      Answers .first (.new 2 67108864) oneTable getPut (s.read ()) := by
  obtain ⟨s, reached, passed⟩ := reachable_of_follow atRest
    ([.read ()] ++ List.replicate 9 .compact ++ [.read ()] ++ List.replicate 2 .compact ++ [.evict, .read ()])
    (fun s => s.returned = true ∧ s.tables.activeIds = [2] ∧ s.read () = .got (some put.toRecord)) start_atRest
    (show (follow step Careful _ _).any _ = true by decide +kernel)
  obtain ⟨returned, active, found⟩ := of_decide_eq_true passed
  exact ⟨s, returned, active, found, read_unaffected oneTable_ok reached () getPut_unchanged⟩

/-- The get has dropped the index; before it opens the file the compaction removes it. -/
theorem read_loses_put :
    ¬ ∀ s : Shared Unit, Reachable step Rewrites (Start oneTable) s →
      Unchanged .first (.new 2 67108864) oneTable (CompactionRunner.run eager (fun _ => 0) oneTable [stored put]) getPut →
      Answers .first (.new 2 67108864) oneTable getPut (s.read ()) := by
  intro unaffected
  obtain ⟨s, reached, passed⟩ := reachable_of_follow atRest
    ([.read ()] ++ List.replicate 10 .compact ++ [.read ()])
    (fun s => s.read () = .got none ∧ getSync .first (.new 2 67108864) oneTable [97] 1 0 = some put.toRecord) start_atRest
    (show (follow step Rewrites _ _).any _ = true by decide +kernel)
  obtain ⟨missed, there⟩ := of_decide_eq_true passed
  have answered := unaffected s reached getPut_unchanged
  rw [missed] at answered
  exact absurd (answered.trans there) nofun

end FlowDb.ReadsDuringCompaction
