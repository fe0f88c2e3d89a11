import FlowDb.IndexAgreement
import FlowDb.PointReads

/-! What readers see of a GC run. Every block of a table it drops is expired for them, so
the candidates of scans and the answers of point reads stay as they were. Only where one
table of several is left do point reads change: they no longer ask its filter. -/
namespace FlowDb.GcVisibility
open ByteString OrderedMap Records WalCodec Bloom BloomFilter Sstable ManifestLog ManifestState BlockIndex BlockMetaIndex TableStore
open MemoryTables Reads PointReads EngineOps ManifestFile Interleaving DirectoryRuns IndexAgreement

/-! ### Expired blocks in the index -/

theorem retained_filter {κ : Type} (id : Nat) (keep : κ → Bool) (shown : BlockMeta → Bool) (l : List (κ × List BlockMeta))
    (hidden : ∀ e ∈ l, ∀ b ∈ e.2, b.sstId = id → shown b = false) :
    ((((l.filterMap fun e => (match e.2.filter fun b : BlockMeta => b.sstId != id with
        | [] => none
        | kept => some kept).map fun v => (e.1, v)).filter fun e => keep e.1).map Prod.snd).flatten).filter shown =
      (((l.filter fun e => keep e.1).map Prod.snd).flatten).filter shown := by
  induction l with
  | nil => rfl
  | cons e rest ih =>
    have tail := ih fun other member => hidden other (List.mem_cons_of_mem e member)
    have same : (e.2.filter fun b => b.sstId != id).filter shown = e.2.filter shown := by
      rw [List.filter_filter]
      refine List.filter_congr fun b member => ?_
      by_cases gone : b.sstId = id
      · simp [hidden e List.mem_cons_self b member gone]
      · simp [gone]
    cases kept : e.2.filter fun b => b.sstId != id with
    | nil =>
      rw [kept, List.filter_nil] at same
      rw [List.filterMap_cons_none (by rw [kept]; rfl)]
      cases wanted : keep e.1 <;> simpa [wanted, ← same] using tail
    | cons b more =>
      rw [kept] at same
      rw [List.filterMap_cons_some (by rw [kept]; rfl)]
      cases wanted : keep e.1
      · simpa [wanted] using tail
      · simp only [List.filter_cons, wanted, if_true, List.map_cons, List.flatten_cons, List.filter_append]
        rw [← List.filter_cons, same, tail]

theorem retainMetas_filter {κ : Type} [LinearOrder κ] (m : OMap κ (List BlockMeta)) (id : Nat) (keep : κ → Bool)
    (shown : BlockMeta → Bool) (hidden : ∀ b ∈ m.values.flatten, b.sstId = id → shown b = false) :
    (((retainMetas m id).filter fun k _ => keep k).values.flatten).filter shown =
      ((m.filter fun k _ => keep k).values.flatten).filter shown :=
  retained_filter id keep shown m.entries fun e member b inside =>
    hidden b (List.mem_flatten.mpr ⟨e.2, List.mem_map_of_mem member, inside⟩)

/-- Every block of table `id` in the index is expired. -/
def Expired (idx : BlockMetaIndex) (nowUs : Int) (id : Nat) : Prop :=
  ∀ b, b ∈ idx.byKey.values.flatten ∨ b ∈ idx.byTime.values.flatten → b.sstId = id → b.isExpired nowUs = true

theorem collectByKey_removeSst (idx : BlockMetaIndex) (nowUs : Int) (id : Nat) (expired : Expired idx nowUs id)
    (keyFilter : KeyFilter) : (idx.removeSst id).collectByKey keyFilter nowUs = idx.collectByKey keyFilter nowUs := by
  have hidden : ∀ rest : BlockMeta → Bool, ∀ b ∈ idx.byKey.values.flatten, b.sstId = id →
      (!b.isExpired nowUs && rest b) = false := fun rest b member gone => by
    rw [expired b (Or.inl member) gone]
    rfl
  cases keyFilter with
  | keyPrefix p => exact retainMetas_filter idx.byKey id _ _ (hidden _)
  | range start stop => exact retainMetas_filter idx.byKey id _ _ (hidden _)
  | all =>
    have every : ∀ m : OMap Bytes (List BlockMeta), m.filter (fun _ _ => true) = m := fun m => ext_get? fun k => by
      rw [get?_filter]
      cases m.get? k <;> rfl
    have kept := retainMetas_filter idx.byKey id (fun _ => true) (fun b => !b.isExpired nowUs) fun b member gone => by
      rw [expired b (Or.inl member) gone]
      rfl
    rwa [every, every] at kept

theorem collectTimeSet_removeSst (idx : BlockMetaIndex) (nowUs : Int) (id : Nat) (expired : Expired idx nowUs id)
    (tsStart tsEnd : Int) : (idx.removeSst id).collectTimeSet tsStart tsEnd nowUs = idx.collectTimeSet tsStart tsEnd nowUs := by
  have kept := retainMetas_filter idx.byTime id
    (fun k => decide (tsStart.tdiv idx.timeBucketUs ≤ k ∧ k ≤ tsEnd.tdiv idx.timeBucketUs))
    (fun b => !b.isExpired nowUs && b.overlapsTime tsStart tsEnd) fun b member gone => by
      rw [expired b (Or.inr member) gone]
      rfl
  exact if_congr Iff.rfl rfl (congrArg (fun l => some (l.map fun m => (m.sstId, m.blockIdx))) kept)

/-- A table of expired blocks is no candidate of any query. -/
theorem query_removeSsts (ids : List Nat) (idx : BlockMetaIndex) (nowUs : Int)
    (expired : ∀ id ∈ ids, Expired idx nowUs id) (keyFilter : KeyFilter) (timeRange : Option (Int × Int)) :
    (ids.foldl removeSst idx).query keyFilter timeRange nowUs = idx.query keyFilter timeRange nowUs := by
  induction ids generalizing idx with
  | nil => rfl
  | cons id rest ih =>
    have first := expired id List.mem_cons_self
    have later : ∀ k ∈ rest, Expired (idx.removeSst id) nowUs k := fun k member b inside =>
      expired k (List.mem_cons_of_mem id member) b (inside.imp (fun there => ((mem_retainMetas _ _ _).mp there).1)
        fun there => ((mem_retainMetas _ _ _).mp there).1)
    rw [List.foldl_cons, ih _ later]
    cases timeRange with
    | none => exact congrArg some (collectByKey_removeSst idx nowUs id first keyFilter)
    | some range =>
      simp only [query, collectByKey_removeSst idx nowUs id first, collectTimeSet_removeSst idx nowUs id first]

theorem removeSsts_keys (ids : List Nat) (idx : BlockMetaIndex) :
    (ids.foldl removeSst idx).sstBlocks.keys = idx.sstBlocks.keys.filter fun id => id ∉ ids := by
  induction ids generalizing idx with
  | nil => simp
  | cons id rest ih =>
    have one : (idx.removeSst id).sstBlocks.keys = idx.sstBlocks.keys.filter fun k => k != id := by
      rw [OMap.keys, OMap.keys, List.filter_map]
      rfl
    rw [List.foldl_cons, ih, one, List.filter_filter]
    refine List.filter_congr fun k _ => ?_
    by_cases here : k = id <;> by_cases later : k ∈ rest <;> simp [here, later]

/-! ### What the metadata say of expiry -/

/-- A table's blocks and the expiry of the whole are what a flush of its records puts into the manifest. -/
structure MetadataOf (file : SstFile) (info : SstInfo) (blocks : List BlockInfo) : Prop where
  filled : ∀ chunk ∈ file.blocks, chunk ≠ []
  blocks : blocks = file.blockInfos
  maxExpire : info.maxExpire = maximum (file.records.map (·.expireAt))

theorem maximum_mem {values : List Int} (some_there : values ≠ []) : maximum values ∈ values := by
  obtain ⟨v, rest, rfl⟩ := List.exists_cons_of_ne_nil some_there
  obtain ⟨top, found⟩ := Option.isSome_iff_exists.mp (List.isSome_max?_of_mem (List.mem_cons_self (a := v) (l := rest)))
  rw [maximum, found]
  exact (List.max?_eq_some_iff.mp found).1

/-- No block outlives its table. -/
theorem MetadataOf.block_le {file : SstFile} {info : SstInfo} {blocks : List BlockInfo} (made : MetadataOf file info blocks)
    {bi : BlockInfo} (member : bi ∈ blocks) : bi.maxExpire ≤ info.maxExpire := by
  rw [made.blocks, SstFile.blockInfos, List.mem_mapIdx] at member
  obtain ⟨i, bound, rfl⟩ := member
  have inside := List.getElem_mem bound
  have latest := maximum_mem (mt List.map_eq_nil_iff.mp (made.filled _ inside) : file.blocks[i].map (·.expireAt) ≠ [])
  obtain ⟨r, held, same⟩ := List.mem_map.mp latest
  rw [made.maxExpire, blockInfo, ← same]
  exact le_maximum (List.mem_map.mpr ⟨r, List.mem_flatten.mpr ⟨_, inside, held⟩, rfl⟩)

theorem chunksFrom_filled (n : Nat) (current records : List InternalRecord) :
    ∀ chunk ∈ chunksFrom n current records, chunk ≠ [] := by
  induction records generalizing current with
  | nil => by_cases empty : current = [] <;> simp [chunksFrom, empty]
  | cons r rest ih =>
    intro chunk member
    simp only [chunksFrom] at member
    split_ifs at member
    · rcases List.mem_cons.mp member with rfl | later
      · simp
      · exact ih [] chunk later
    · exact ih _ chunk member

theorem metadataOf_chunks (blockSize id bytes : Nat) (records : List InternalRecord) (bloom : BloomFilter) :
    MetadataOf ⟨chunks blockSize records⟩ (sstInfo id bytes records bloom) (SstFile.mk (chunks blockSize records)).blockInfos :=
  ⟨chunksFrom_filled _ [] records, rfl, by rw [SstFile.records, chunks_flatten]; rfl⟩

/-- The metadata of every table are those of its records. -/
def Recorded (t : Tables) : Prop := ∀ id info blocks, t.manifest.state.sstables.get? id = some info →
  t.manifest.state.blockInfos.get? id = some blocks → MetadataOf (t.file id) info blocks

namespace Recorded
variable {t : Tables}

theorem new (timeBucketSecs : Nat) : Recorded (Tables.new timeBucketSecs) := nofun

theorem publish (recorded : Recorded t) (m : ManifestLog.Manifest) (info : SstInfo) (file : SstFile) (bloom : BloomFilter)
    (made : MetadataOf file info file.blockInfos)
    (sstables : m.state.sstables = t.manifest.state.sstables.insert info.id info)
    (blockInfos : m.state.blockInfos = t.manifest.state.blockInfos.insert info.id file.blockInfos) :
    Recorded (publishSst t m info file bloom) := by
  intro id held blocks there listed
  rw [publishSst, sstables, get?_insert] at there
  rw [publishSst, blockInfos, get?_insert] at listed
  rw [file_publishSst]
  split_ifs at there listed ⊢
  · obtain rfl := Option.some.inj there
    obtain rfl := Option.some.inj listed
    exact made
  · exact recorded id held blocks there listed

theorem deleteSsts (recorded : Recorded t) (ids : List Nat) : Recorded (deleteSsts t ids) := by
  intro id info blocks there listed
  rw [TableStore.deleteSsts, deletes_state, (removes_get? ids _ id).1] at there
  rw [TableStore.deleteSsts, deletes_state, (removes_get? ids _ id).2] at listed
  split_ifs at there listed with gone
  rw [file_deleteSsts t ids id gone]
  exact recorded id info blocks there listed

theorem flush (recorded : Recorded t) (config : Config) (compressedLen : Bytes → Nat) (records : List InternalRecord) :
    Recorded (addFlushed config compressedLen t records) := by
  have entry := fun info => applyEntry_flush t.manifest.state (lastSeq records) info
    (SstWriter.write records config.blockSize config.bloomBitsPerKey).1.blockInfos
  refine recorded.publish _ _ _ _ (metadataOf_chunks config.blockSize _ _ records _) ?_ ?_
  · simp only [state_append]
    exact (entry _).1
  · simp only [state_append]
    exact (entry _).2.1

theorem compact (recorded : Recorded t) (config : Config) (compressedLen : Bytes → Nat) (popped : List InternalRecord) :
    Recorded (CompactionRunner.run config compressedLen t popped) := by
  simp only [CompactionRunner.run]
  split_ifs
  · exact recorded
  · exact recorded
  · exact recorded.deleteSsts _
  · have state := deletes_state t.candidates t.manifest
    have entry := fun info blocks => applyEntry_compaction t.manifest.state t.candidates info blocks
    refine (recorded.deleteSsts t.candidates).publish _ _ _ _ (metadataOf_chunks config.blockSize _ _ (written popped) _) ?_ ?_
    · rw [state_append, (entry _ _).1, TableStore.deleteSsts, state]
    · rw [state_append, (entry _ _).2.1, TableStore.deleteSsts, state]

theorem migrate (recorded : Recorded t) (unreadable : List Nat) (bits id : Nat) :
    Recorded (migrateBloom unreadable bits t id) := by
  rw [migrateBloom, rebuildBloomForSst]
  cases t.files.get? id with
  | none => exact recorded
  | some file =>
    dsimp only
    split_ifs
    · exact recorded
    · intro k info blocks there listed
      simp only [Option.getD_some, state_append, applyEntry] at there listed
      cases known : t.manifest.state.sstables.get? id with
      | none =>
        rw [known] at there listed
        exact recorded k info blocks there listed
      | some old =>
        simp only [known, get?_insert] at there listed
        split_ifs at there with here
        · obtain rfl := Option.some.inj there
          subst here
          have made := recorded k old blocks known listed
          exact ⟨made.filled, made.blocks, made.maxExpire⟩
        · exact recorded k info blocks there listed

theorem migrates (unreadable : List Nat) (bits : Nat) (ids : List Nat) (recorded : Recorded t) :
    Recorded (ids.foldl (migrateBloom unreadable bits) t) := by
  induction ids generalizing t with
  | nil => exact recorded
  | cons id rest ih => exact ih (recorded.migrate unreadable bits id)

theorem openAgain (recorded : Recorded t) (config : Config) (segments : List (Nat × Bytes))
    (manifest : ManifestLog.Manifest) (unreadable : List Nat) (restated : Restated t.manifest.state manifest.state) :
    Recorded (openMigrating config segments manifest t.files unreadable).tables := by
  refine migrates unreadable config.bloomBitsPerKey _ fun id info blocks there listed => ?_
  have same := restated.infos id
  rw [show manifest.state.sstables.get? id = some info from there, Option.map_some] at same
  obtain ⟨old, known, stripped⟩ := Option.map_eq_some_iff.mp same.symm
  have made := recorded id old blocks known (restated.blockInfos ▸ listed)
  have expiry : old.maxExpire = info.maxExpire := (SstInfo.mk.inj stripped).2.2.2.2.2.2.1
  exact ⟨made.filled, made.blocks, expiry ▸ made.maxExpire⟩

end Recorded

theorem recorded_lasting (compressedLen : Bytes → Nat) : Lasting compressedLen Recorded fun _ => True where
  new := Recorded.new
  flush config _ records _ recorded := recorded.flush config compressedLen records
  compact config _ popped recorded := recorded.compact config compressedLen popped
  gc _ _ recorded := recorded.deleteSsts _
  reopen config segments manifest _ unreadable _ restated recorded :=
    recorded.openAgain config segments manifest unreadable restated

/-! ### What readers see -/

/-- An engine's tables with the metadata that flushes produce, and an index built from them. -/
structure FlushMetadata (t : Tables) : Prop where
  consistent : Consistent t.manifest.state
  built : Built t.index t.manifest.state t.activeIds
  recorded : Recorded t

theorem flushMetadata_reachable (compressedLen : Bytes → Nat) (e : Engine)
    (reached : Reachable (next compressedLen) (Allowed (· = [])) Start e) : FlushMetadata e.tables := by
  have synced := (synced_lasting compressedLen).reachable reached
  have weaker : Reachable (next compressedLen) (Allowed fun _ => True) Start e := by
    refine Reachable.invariant (fun e start => .start e start) (fun e choice e' held allowed moved => ?_) reached
    exact .step e e' held ⟨choice, ⟨allowed.1, fun _ _ _ _ => trivial⟩, moved⟩
  exact ⟨synced.consistent, synced.built, (recorded_lasting compressedLen).reachable weaker⟩

section
variable {t : Tables} (metadata : FlushMetadata t) {nowUs later : Int} (after : nowUs ≤ later)
include metadata after

/-- Every block of a table that GC drops is expired for later readers. -/
theorem dropped_expired {id : Nat} (dropped : id ∈ expiredSsts t.manifest.state nowUs) {m : BlockMeta}
    (member : m ∈ metasOf t.manifest.state id) : m.isExpired later = true := by
  obtain ⟨e, listed, rfl⟩ := List.mem_map.mp dropped
  obtain ⟨there, expired⟩ := List.mem_filter.mp listed
  have known := (get?_eq_some_iff _ _ _).mpr there
  obtain ⟨bi, inside, rfl⟩ := List.mem_map.mp member
  obtain ⟨blocks, held⟩ := Option.isSome_iff_exists.mp ((metadata.consistent.blocks e.1).mpr (by rw [known]; rfl))
  rw [held, Option.getD_some] at inside
  have bound := (metadata.recorded e.1 e.2 blocks known held).block_le inside
  have old : e.2.maxExpire < nowUs := of_decide_eq_true expired
  exact decide_eq_true (show bi.maxExpire < later by omega)

theorem dropped_index {id : Nat} (dropped : id ∈ expiredSsts t.manifest.state nowUs) : Expired t.index later id := by
  intro b inside gone
  have described := metadata.built.described metadata.consistent.nodup
  have listed : b ∈ listed t.manifest.state :=
    inside.elim described.byKey.mem_iff.mp described.byTime.mem_iff.mp
  obtain ⟨k, -, member⟩ := List.mem_flatMap.mp listed
  obtain rfl := (mem_metasOf member).symm.trans gone
  exact dropped_expired metadata after dropped member

/-- GC takes no candidate from a scan. -/
theorem query_gc (query : Query) : (GcRunner.run t nowUs).index.query query.keyFilter query.timeRange later =
    t.index.query query.keyFilter query.timeRange later :=
  query_removeSsts _ t.index later (fun _ dropped => dropped_index metadata after dropped) query.keyFilter query.timeRange

/-- Nor a block it reads: a scan starts as it did before. -/
theorem build_gc (m : MemTables) (query : Query) :
    ScanIterator.build query m (GcRunner.run t nowUs) later = ScanIterator.build query m t later := by
  rw [ScanIterator.build, ScanIterator.build, query_gc metadata after query]
  cases answer : t.index.query query.keyFilter query.timeRange later with
  | none => rfl
  | some candidates =>
    have blocks : candidates.map (fun c => ((GcRunner.run t nowUs).file c.sstId).readBlock c.blockIdx) =
        candidates.map fun c => (t.file c.sstId).readBlock c.blockIdx := by
      refine List.map_congr_left fun c member => ?_
      have kept : c.sstId ∉ expiredSsts t.manifest.state nowUs := fun dropped => by
        have there := (query_gc metadata after query).symm ▸ answer
        have remaining := mem_query _ _ _ _ _ there c member
        exact ((removeSsts_fields _ t.index).2.2 c |>.mp remaining).2 dropped
      rw [GcRunner.run, file_deleteSsts t _ _ kept]
    simp only [Option.bind_eq_bind, Option.bind_some, blocks]

end

/-! ### Point reads -/

section
variable (search : SlotSearch) (t : Tables) (key : Bytes) (ts nowUs : Int)

/-- What a point read finds in one table if it does not ask the filter. -/
def tableRead (id : Nat) : Option Record :=
  (searchedBlock (metasOf t.manifest.state id) key nowUs).bind (blockSearch search t key ts nowUs)

/-- What it finds if it does. -/
def filteredRead (id : Nat) : Option Record :=
  if t.index.bloomMayContain id key then tableRead search t key ts nowUs id else none

/-- Of a single table the filter is not asked. -/
theorem getSync_absent (built : Built t.index t.manifest.state t.activeIds) (m : MemTables)
    (absent : m.get key ts nowUs = none) : getSync search m t key ts nowUs =
      if (tableIds t).length = 1 then (tableIds t).findSome? (tableRead search t key ts nowUs)
      else (tableIds t).findSome? (filteredRead search t key ts nowUs) := by
  have entry : ∀ e ∈ t.index.sstBlocks.entries, e.2 = metasOf t.manifest.state e.1 := fun e member => by
    have held := (get?_eq_some_iff _ _ _).mpr member
    rw [built.bySst] at held
    split_ifs at held
    exact (Option.some.inj held).symm
  have inline : t.index.queryPointInline key nowUs (blockSearch search t key ts nowUs) =
      (tableIds t).findSome? (filteredRead search t key ts nowUs) := by
    rw [queryPointInline, tableIds, OMap.keys, List.findSome?_map]
    refine findSome?_congr fun e member => ?_
    rw [entry e member]
    rfl
  rw [getSync, absent]
  dsimp only
  rw [inline, tableIds, OMap.keys, List.length_map]
  unfold singleSstPoint
  cases shape : t.index.sstBlocks.entries with
  | nil => simp
  | cons e rest =>
    cases rest with
    | cons second more => simp
    | nil =>
      have own := entry e (by simp [shape])
      cases found : searchedBlock e.2 key nowUs with
      | some b => simp [tableRead, ← own, found]
      | none => simp [tableRead, filteredRead, ← own, found]

end

theorem findSome?_filter {α β : Type} (keep : α → Bool) (f : α → Option β) (l : List α)
    (nothing : ∀ a ∈ l, keep a = false → f a = none) : (l.filter keep).findSome? f = l.findSome? f := by
  induction l with
  | nil => rfl
  | cons a rest ih =>
    have tail := ih fun b member => nothing b (List.mem_cons_of_mem a member)
    cases kept : keep a with
    | true => rw [List.filter_cons_of_pos kept, List.findSome?_cons, List.findSome?_cons, tail]
    | false =>
      rw [List.filter_cons_of_neg (by simp [kept]), List.findSome?_cons, nothing a List.mem_cons_self kept, tail]

/-- The run leaves one table of several. -/
structure LeftAlone (t : Tables) (nowUs : Int) (id : Nat) : Prop where
  left : (t.activeIds.filter fun k => k ∉ expiredSsts t.manifest.state nowUs) = [id]
  several : t.activeIds ≠ [id]

theorem tableIds_gc (t : Tables) (nowUs : Int) :
    tableIds (GcRunner.run t nowUs) = (tableIds t).filter fun id => id ∉ expiredSsts t.manifest.state nowUs :=
  removeSsts_keys _ t.index

theorem kept_passes (t : Tables) (nowUs : Int) (key : Bytes) {id : Nat} (kept : id ∉ expiredSsts t.manifest.state nowUs) :
    (GcRunner.run t nowUs).index.bloomMayContain id key = t.index.bloomMayContain id key := by
  rw [bloomMayContain, bloomMayContain, GcRunner.run, deleteSsts, (removeSsts_fields _ t.index).2.1, if_neg kept]

theorem tableRead_kept (search : SlotSearch) {t : Tables} {nowUs later : Int} (key : Bytes) (ts : Int) {id : Nat}
    (kept : id ∉ expiredSsts t.manifest.state nowUs) :
    tableRead search (GcRunner.run t nowUs) key ts later id = tableRead search t key ts later id := by
  have metas : metasOf (GcRunner.run t nowUs).manifest.state id = metasOf t.manifest.state id := by
    rw [GcRunner.run, deleteSsts, deletes_state, metasOf, metasOf, (removes_get? _ _ id).2, if_neg kept]
  rw [tableRead, tableRead, metas]
  cases found : searchedBlock (metasOf t.manifest.state id) key later with
  | none => rfl
  | some m =>
    have own := mem_metasOf (searchedBlock_mem _ _ _ m found)
    rw [Option.bind_some, Option.bind_some, blockSearch, blockSearch, GcRunner.run, file_deleteSsts t _ _ (own ▸ kept)]

section
variable (search : SlotSearch) {t : Tables} (metadata : FlushMetadata t) {nowUs later : Int} (after : nowUs ≤ later)
  (key : Bytes) (ts : Int)
include metadata after

theorem tableRead_dropped {id : Nat} (dropped : id ∈ expiredSsts t.manifest.state nowUs) :
    tableRead search t key ts later id = none := by
  have nothing : searchedBlock (metasOf t.manifest.state id) key later = none := by
    refine Option.filter_eq_none_iff.mpr fun m found shown => ?_
    have expired := dropped_expired metadata after dropped (searchLoop_mem _ key _ _ _ m found)
    simp [expired] at shown
  rw [tableRead, nothing, Option.bind_none]

/-- Asked or not, the filters let GC change no answer of the tables together. -/
theorem reads_gc : (tableIds (GcRunner.run t nowUs)).findSome? (tableRead search (GcRunner.run t nowUs) key ts later) =
      (tableIds t).findSome? (tableRead search t key ts later) ∧
    (tableIds (GcRunner.run t nowUs)).findSome? (filteredRead search (GcRunner.run t nowUs) key ts later) =
      (tableIds t).findSome? (filteredRead search t key ts later) := by
  have kept : ∀ id ∈ (tableIds t).filter (fun id => id ∉ expiredSsts t.manifest.state nowUs),
      id ∉ expiredSsts t.manifest.state nowUs := fun id member => by simpa using (List.mem_filter.mp member).2
  have dropped : ∀ id, decide (id ∉ expiredSsts t.manifest.state nowUs) = false → tableRead search t key ts later id = none :=
    fun id gone => tableRead_dropped search metadata after key ts (by simpa using gone)
  rw [tableIds_gc]
  constructor
  · rw [findSome?_congr fun id member => tableRead_kept search key ts (kept id member)]
    exact findSome?_filter _ _ _ fun id _ => dropped id
  · have same : ∀ id ∈ (tableIds t).filter (fun id => id ∉ expiredSsts t.manifest.state nowUs),
        filteredRead search (GcRunner.run t nowUs) key ts later id = filteredRead search t key ts later id := fun id member => by
      rw [filteredRead, filteredRead, kept_passes t nowUs key (kept id member), tableRead_kept search key ts (kept id member)]
    rw [findSome?_congr same]
    refine findSome?_filter _ _ _ fun id _ gone => ?_
    rw [filteredRead, dropped id gone, ite_self]

end

theorem FlushMetadata.gc {t : Tables} (metadata : FlushMetadata t) (nowUs : Int) : FlushMetadata (GcRunner.run t nowUs) := by
  have state := deletes_state (expiredSsts t.manifest.state nowUs) t.manifest
  refine ⟨?_, ?_, metadata.recorded.deleteSsts _⟩
  · rw [GcRunner.run, deleteSsts, state]
    exact metadata.consistent.removes _
  · rw [GcRunner.run, activeIds_deleteSsts, deleteSsts, state]
    exact metadata.built.removeSsts _

theorem leftAlone_iff {t : Tables} (metadata : FlushMetadata t) (nowUs : Int) (id : Nat) :
    LeftAlone t nowUs id ↔ tableIds (GcRunner.run t nowUs) = [id] ∧ (tableIds t).length ≠ 1 := by
  have live : (tableIds t).Perm t.activeIds := (metadata.built.described metadata.consistent.nodup).ids
  have left : (tableIds (GcRunner.run t nowUs)).Perm (t.activeIds.filter fun k => k ∉ expiredSsts t.manifest.state nowUs) := by
    rw [tableIds_gc]
    exact live.filter _
  have inside : tableIds (GcRunner.run t nowUs) = [id] → id ∈ t.activeIds := fun only => by
    have member : id ∈ t.activeIds.filter fun k => k ∉ expiredSsts t.manifest.state nowUs :=
      left.mem_iff.mp (only ▸ List.mem_singleton_self id)
    exact (List.mem_filter.mp member).1
  constructor
  · intro alone
    have only : tableIds (GcRunner.run t nowUs) = [id] := List.perm_singleton.mp (alone.left ▸ left)
    refine ⟨only, fun single => alone.several ?_⟩
    obtain ⟨x, shape⟩ := List.length_eq_one_iff.mp (live.length_eq ▸ single)
    have member := shape ▸ inside only
    rw [shape, List.mem_singleton.mp member]
  · rintro ⟨only, several⟩
    refine ⟨List.perm_singleton.mp (only ▸ left).symm, fun single => several ?_⟩
    rw [live.length_eq, single, List.length_singleton]

/-- Later point reads and scans return the same on the tables before and behind a GC run. -/
def Invisible (search : SlotSearch) (m : MemTables) (t : Tables) (nowUs : Int) : Prop :=
  ∀ later, nowUs ≤ later →
    (∀ key ts, getSync search m (GcRunner.run t nowUs) key ts later = getSync search m t key ts later) ∧
    ∀ query out, Scans m (GcRunner.run t nowUs) query later out ↔ Scans m t query later out

/-- A point read that the memtables leave to the tables changes only where a table is left alone whose filter
rejects a key that its blocks answer for. -/
theorem getSync_gc_iff (search : SlotSearch) (m : MemTables) {t : Tables} (metadata : FlushMetadata t) {nowUs later : Int}
    (after : nowUs ≤ later) (key : Bytes) (ts : Int) (absent : m.get key ts later = none) :
    getSync search m (GcRunner.run t nowUs) key ts later = getSync search m t key ts later ↔
      ∀ id, LeftAlone t nowUs id → ∀ r, tableRead search t key ts later id = some r →
        t.index.bloomMayContain id key = true := by
  obtain ⟨unasked, asked⟩ := reads_gc search metadata after key ts
  rw [getSync_absent search _ key ts later (metadata.gc nowUs).built m absent,
    getSync_absent search t key ts later metadata.built m absent]
  simp only [leftAlone_iff metadata]
  by_cases single : (tableIds (GcRunner.run t nowUs)).length = 1
  · obtain ⟨id, only⟩ := List.length_eq_one_iff.mp single
    rw [if_pos single]
    by_cases before : (tableIds t).length = 1
    · rw [if_pos before, unasked]
      exact ⟨fun _ id alone => absurd before alone.2, fun _ => rfl⟩
    · have kept : id ∉ expiredSsts t.manifest.state nowUs := by
        have member : id ∈ (tableIds t).filter fun id => id ∉ expiredSsts t.manifest.state nowUs :=
          tableIds_gc t nowUs ▸ only ▸ List.mem_singleton_self id
        simpa using (List.mem_filter.mp member).2
      rw [if_neg before, ← asked, only, List.findSome?_singleton, List.findSome?_singleton, filteredRead,
        kept_passes t nowUs key kept, tableRead_kept search key ts kept]
      have names : ∀ k, [id] = [k] ∧ (tableIds t).length ≠ 1 ↔ k = id := fun k => by simp [before, eq_comm]
      simp only [names, forall_eq]
      cases read : tableRead search t key ts later id with
      | none => simp
      | some r => simp
  · have never : ∀ id, ¬ (tableIds (GcRunner.run t nowUs) = [id] ∧ (tableIds t).length ≠ 1) := fun id alone =>
      single (alone.1 ▸ rfl)
    rw [if_neg single]
    refine iff_of_true ?_ fun id alone => absurd alone (never id)
    by_cases before : (tableIds t).length = 1
    · -- The only table was dropped.
      have empty : tableIds (GcRunner.run t nowUs) = [] := by
        have bound := List.length_filter_le (fun id => decide (id ∉ expiredSsts t.manifest.state nowUs)) (tableIds t)
        rw [← tableIds_gc] at bound
        exact List.length_eq_zero_iff.mp (by omega)
      rw [if_pos before, ← unasked, empty]
      rfl
    · rw [if_neg before, asked]

/-- A GC run is invisible exactly if it does not leave one table of several alone, or if that table's filter passes
every key that a point read finds in the table's blocks. -/
theorem gc_invisible_iff (search : SlotSearch) (m : MemTables) (t : Tables) (metadata : FlushMetadata t) (nowUs : Int) :
    Invisible search m t nowUs ↔ ∀ id, LeftAlone t nowUs id → ∀ later key ts r, nowUs ≤ later →
      m.get key ts later = none → tableRead search t key ts later id = some r → t.index.bloomMayContain id key = true := by
  constructor
  · intro invisible id alone later key ts r after absent read
    have same := (invisible later after).1 key ts
    exact (getSync_gc_iff search m metadata after key ts absent).mp same id alone r read
  · intro passes later after
    refine ⟨fun key ts => ?_, fun query out => ?_⟩
    · cases absent : m.get key ts later with
      | some r => rw [getSync, getSync, absent]
      | none =>
        exact (getSync_gc_iff search m metadata after key ts absent).mpr fun id alone r read =>
          passes id alone later key ts r after absent read
    · rw [Scans, Scans, build_gc metadata after m query]

/-- Of records that fit their encoding every key read back passes. -/
theorem sorted_passes (search : SlotSearch) {t : Tables} (sorted : Sorted t) {id : Nat} (live : id ∈ t.activeIds)
    (key : Bytes) (ts nowUs : Int) {r : Record} (read : tableRead search t key ts nowUs id = some r) :
    t.index.bloomMayContain id key = true := by
  have metas : metasOf t.manifest.state id = t.metas id := by
    rw [metasOf, sorted.ok.infos id live, Option.getD_some, Tables.metas]
  rw [tableRead, metas, blockSearch_eq search sorted live] at read
  obtain ⟨answer, found, -⟩ := Option.map_eq_some_iff.mp read
  exact tableAnswer_passes search sorted live key ts nowUs found

def expiring : InternalRecord := ⟨1000000, .put, [97], 1, 5, [1], none⟩

def flushedBehind (records : List InternalRecord) : Tables :=
  addFlushed {} List.length (addFlushed {} List.length (Tables.new 3600) [expiring]) records

theorem flushedBehind_metadata (records : List InternalRecord) : FlushMetadata (flushedBehind records) := by
  have synced := ((Synced.new 3600).flush {} List.length [expiring]).flush {} List.length records
  exact ⟨synced.consistent, synced.built, ((Recorded.new 3600).flush {} List.length [expiring]).flush {} List.length records⟩

theorem flushedBehind_sorted (records : List InternalRecord) (slots : records.Pairwise fun a b => a.slot ≤ b.slot)
    (fits : ∀ r ∈ records, TableFits r) : Sorted (flushedBehind records) := by
  refine sorted_addFlushed {} List.length (sorted_addFlushed {} List.length (sorted_new 3600) [expiring] (by decide) ?_)
    records slots fits
  intro r member
  obtain rfl := List.mem_singleton.mp member
  exact ⟨by decide, by decide, by decide, nofun, by decide⟩

theorem gc_invisible_iff_flushed :
    LeftAlone (flushedBehind [secondPut]) 10 2 ∧ Invisible .first (.new 2 67108864) (flushedBehind [secondPut]) 10 := by
  refine ⟨⟨by decide +kernel, by decide +kernel⟩, ?_⟩
  refine (gc_invisible_iff .first _ _ (flushedBehind_metadata _) 10).mpr fun id alone later key ts r _ _ read => ?_
  have live : id ∈ (flushedBehind [secondPut]).activeIds := (List.mem_filter.mp (alone.left ▸ List.mem_singleton_self id)).1
  have sorted : Sorted (flushedBehind [secondPut]) := by
    refine flushedBehind_sorted _ (by decide) fun x member => ?_
    obtain rfl := List.mem_singleton.mp member
    exact ⟨by decide, by decide, by decide, nofun, by decide⟩
  exact sorted_passes .first sorted live key ts later read

/-! A range end of 2^16 bytes. Its length is written as 0, and its first bytes are read as the length of the
record's value and as a put of another key. -/

def strayPut : InternalRecord := ⟨0, .put, [98], 0, 2 ^ 56, [], none⟩

def strayRecords (padding : Bytes) : List InternalRecord :=
  [.deleteRange [97] ([0, 0, 0, 0] ++ (encodeEntry strayPut ++ padding)) 1000001, .fromRecord (.new [99] 1 [2]) 1000002]

/-- The encoding of a record with such an end is that of one without, with the rest of the end behind it. -/
theorem long_end_runs_on (inner later : Bytes) (size : inner.length = 65532) :
    encodeEntry (.deleteRange [97] ([0, 0, 0, 0] ++ inner) 1000001) ++ later =
      encodeEntry { InternalRecord.deleteRange [97] [] 0 with rangeEnd := none } ++ (inner ++ ([0, 0, 0, 0] ++ later)) := by
  have wrapped : toBe 2 ([0, 0, 0, 0] ++ inner : Bytes).length = [0, 0] := by
    rw [List.length_append, size]
    decide
  simp only [encodeEntry, InternalRecord.deleteRange, rangeEndBytes, Option.getD_some, wrapped, List.append_assoc]
  rfl

theorem stray_decoded (padding : Bytes) (size : padding.length = 65506) :
    decodeRecords 2 (encodeRecords (strayRecords padding)) =
      [{ InternalRecord.deleteRange [97] [] 0 with rangeEnd := none }, strayPut] := by
  have inner : (encodeEntry strayPut ++ padding).length = 65532 := by
    rw [List.length_append, size]
    rfl
  have fits : TableFits { InternalRecord.deleteRange [97] [] 0 with rangeEnd := none } :=
    ⟨by decide, by decide, by decide, nofun, by decide⟩
  have strayFits : TableFits strayPut := ⟨by decide, by decide, by decide, nofun, by decide⟩
  rw [strayRecords, encodeRecords, List.flatMap_cons, long_end_runs_on _ _ inner, decodeRecords, decodeEntry_encode _ _ fits]
  dsimp only
  rw [List.append_assoc, decodeRecords, decodeEntry_encode _ _ strayFits]
  rfl

def strayTables : Tables := flushedBehind (strayRecords (List.replicate 65506 0))

/-- The run leaves the second table alone, whose filter was never given the key that its block shows. -/
theorem stray_put_shown : FlushMetadata strayTables ∧ ¬ Invisible .first (.new 2 67108864) strayTables 10 := by
  refine ⟨flushedBehind_metadata _, fun invisible => ?_⟩
  have same := (invisible 10 le_rfl).1 [98] 0
  have before : getSync .first (.new 2 67108864) strayTables [98] 0 10 = none := by decide +kernel
  have picked : (GcRunner.run strayTables 10).index.singleSstPoint [98] 10 = some ⟨2, 0, [97], [99], 0, 1, i64Max⟩ := by
    decide +kernel
  have block : ((GcRunner.run strayTables 10).file 2).readBlock 0 =
      decodeRecords 2 (encodeRecords (strayRecords (List.replicate 65506 0))) := by rfl
  have absent : (MemTables.new 2 67108864).get [98] 0 10 = none := by rfl
  rw [before, getSync, absent] at same
  dsimp only at same
  rw [picked] at same
  dsimp only at same
  rw [blockSearch, block, stray_decoded _ List.length_replicate] at same
  exact absurd same (by decide)

end FlowDb.GcVisibility
