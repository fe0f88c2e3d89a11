import FlowDb.Scans

/-! What a read depends on: the memtables it has read, the index it has taken, and
the files of the tables that index lists. The three may come from different moments. -/
namespace FlowDb.ReadViews
open ByteString OrderedMap Records Sstable BlockIndex BlockMetaIndex TableStore MemoryTables Reads PointReads Scans

/-- For the tables of its own index, `t` has the files of `T`. -/
structure Views (T t : Tables) : Prop where
  index : t.index = T.index
  files : ∀ id ∈ T.activeIds, t.file id = T.file id

theorem Views.refl (T : Tables) : Views T T := ⟨rfl, fun _ _ => rfl⟩

/-! Reads look into tables of the index only. -/

section
variable {T : Tables} (ok : Ok T)
include ok

theorem candidate_active {keyFilter : KeyFilter} {timeRange : Option (Int × Int)} {nowUs : Int}
    {candidates : List BlockMeta} (answer : T.index.query keyFilter timeRange nowUs = some candidates) (c : BlockMeta)
    (member : c ∈ candidates) : c.sstId ∈ T.activeIds := by
  obtain ⟨id, active, inTable⟩ := (ok.scanned c).mp (mem_query _ _ _ _ _ answer c member)
  obtain ⟨bi, _, rfl⟩ := List.mem_map.mp inTable
  exact active

theorem searched_active {id : Nat} {blocks : List BlockMeta} (member : (id, blocks) ∈ T.index.sstBlocks.entries)
    {key : Bytes} {nowUs : Int} {found : BlockMeta} (searched : searchedBlock blocks key nowUs = some found) :
    found.sstId ∈ T.activeIds := by
  have held := (get?_eq_some_iff _ _ _).mpr member
  rw [ok.indexed] at held
  split_ifs at held with active
  obtain rfl := Option.some.inj held
  obtain rfl := searchedBlock_sstId T key nowUs id found searched
  exact active

theorem single_active {key : Bytes} {nowUs : Int} {found : BlockMeta}
    (single : T.index.singleSstPoint key nowUs = some found) : found.sstId ∈ T.activeIds := by
  unfold singleSstPoint at single
  split at single
  · rename_i e shape
    have member : (e.1, e.2) ∈ T.index.sstBlocks.entries := by rw [shape]; exact List.mem_singleton_self _
    exact searched_active ok member single
  · cases single

theorem queryPointInline_congr {β : Type} {f g : BlockMeta → Option β} (same : ∀ b, b.sstId ∈ T.activeIds → f b = g b)
    (key : Bytes) (nowUs : Int) : T.index.queryPointInline key nowUs f = T.index.queryPointInline key nowUs g := by
  rw [queryPointInline, queryPointInline]
  refine findSome?_congr fun e member => ?_
  split_ifs
  · cases searched : searchedBlock e.2 key nowUs with
    | none => rfl
    | some found => exact same found (searched_active ok member searched)
  · rfl

end

section
variable {T t : Tables} (ok : Ok T) (views : Views T t)
include ok views

theorem build_views (query : Query) (m : MemTables) (nowUs : Int) :
    ScanIterator.build query m t nowUs = ScanIterator.build query m T nowUs := by
  simp only [ScanIterator.build, views.index]
  cases answer : T.index.query query.keyFilter query.timeRange nowUs with
  | none => rfl
  | some candidates =>
    have blocks : candidates.map (fun c => (t.file c.sstId).readBlock c.blockIdx) =
        candidates.map fun c => (T.file c.sstId).readBlock c.blockIdx :=
      List.map_congr_left fun c member => by rw [views.files _ (candidate_active ok answer c member)]
    simp only [Option.bind_eq_bind, Option.bind_some, blocks]

/-- A scan of the same index and files yields the same. -/
theorem scans_views (query : Query) (m : MemTables) (nowUs : Int) (out : List Record) :
    Scans m t query nowUs out ↔ Scans m T query nowUs out := by
  simp only [Scans, build_views ok views]

/-- A point read of the same index and files returns the same. -/
theorem getSync_views (search : SlotSearch) (m : MemTables) (key : Bytes) (ts nowUs : Int) :
    getSync search m t key ts nowUs = getSync search m T key ts nowUs := by
  have each (b : BlockMeta) (active : b.sstId ∈ T.activeIds) :
      blockSearch search t key ts nowUs b = blockSearch search T key ts nowUs b := by
    rw [blockSearch, blockSearch, views.files _ active]
  rw [getSync, getSync, views.index, queryPointInline_congr ok each]
  cases m.get key ts nowUs with
  | some r => rfl
  | none =>
    cases single : T.index.singleSstPoint key nowUs with
    | none => rfl
    | some found => exact each found (single_active ok single)

theorem active_views (id : Nat) : (t.index.sstBlocks.get? id).isSome ↔ id ∈ T.activeIds := by
  rw [views.index, ok.indexed]
  split_ifs with active
  · exact iff_of_true rfl active
  · exact iff_of_false nofun active

omit ok in
theorem searchedRecords_views {id : Nat} (active : id ∈ T.activeIds) (key : Bytes) (nowUs : Int) :
    searchedRecords t key nowUs id = searchedRecords T key nowUs id := by
  have metas : t.metas id = T.metas id := by rw [Tables.metas, Tables.metas, views.files id active]
  rw [searchedRecords, searchedRecords, metas]
  cases found : searchedBlock (T.metas id) key nowUs with
  | none => rfl
  | some b =>
    obtain rfl := searchedBlock_sstId T key nowUs id b found
    simp only [views.files _ active]

theorem candidateBlocks_views {query : Query} {nowUs : Int} {candidates : List BlockMeta}
    (answer : T.index.query query.keyFilter query.timeRange nowUs = some candidates) :
    candidateBlocks t candidates = candidateBlocks T candidates :=
  List.map_congr_left fun c member => by rw [views.files _ (candidate_active ok answer c member)]

end

/-! ### A record without rival -/

/-- All records a read of these memtables and tables can come across. -/
def consulted (m : MemTables) (t : Tables) : List InternalRecord :=
  m.active.records ++ m.frozen.flatMap MemTable.records ++ t.records

/-- A put that nothing among `records` replaces or deletes. -/
structure Unrivalled (r : InternalRecord) (records : List InternalRecord) : Prop where
  put : r.op = .put
  sole : ∀ x ∈ records, x.slot = r.slot → x = r
  uncovered : ∀ x ∈ records, x.op = .deleteRange → ∀ stop, x.rangeEnd = some stop → ¬ (x.key ≤ r.key ∧ r.key < stop)

def InMemory (m : MemTables) (r : InternalRecord) : Prop :=
  r ∈ m.active.records ∨ ∃ t ∈ m.frozen, r ∈ t.records

theorem Unrivalled.subset {r : InternalRecord} {records fewer : List InternalRecord} (alone : Unrivalled r records)
    (inside : fewer ⊆ records) : Unrivalled r fewer :=
  ⟨alone.put, fun x member => alone.sole x (inside member), fun x member => alone.uncovered x (inside member)⟩

theorem maxBySeq_sole (r : InternalRecord) (records : List InternalRecord) (sole : ∀ x ∈ records, x = r) :
    maxBySeq records = if records = [] then none else some r := by
  induction records using List.reverseRecOn with
  | nil => rfl
  | append_singleton front x ih =>
    obtain rfl := sole x (List.mem_append_right _ List.mem_cons_self)
    have before := ih fun y member => sole y (List.mem_append_left _ member)
    rw [maxBySeq] at before ⊢
    rw [List.foldl_append, before]
    by_cases first : front = [] <;> simp [first]

section
variable {m : MemTables} {T : Tables} {r : InternalRecord} {nowUs : Int}

theorem lastVersion_sole {records : List InternalRecord} (sole : ∀ x ∈ records, x.slot = r.slot → x = r)
    (member : r ∈ records) : lastVersion records r.slot = some r := by
  cases last : lastVersion records r.slot with
  | none => exact absurd rfl ((lastVersion_eq_none records r.slot).mp last r member)
  | some x =>
    obtain ⟨inside, here⟩ := mem_of_lastVersion last
    rw [sole x inside here]

theorem slotFirst_sole {records : List InternalRecord} (sole : ∀ x ∈ records, x.slot = r.slot → x = r)
    (member : r ∈ records) : slotFirst records r.slot = some r := by
  cases first : slotFirst records r.slot with
  | none => exact absurd (decide_eq_true rfl) (List.find?_eq_none.mp first r member)
  | some x => rw [sole x (List.mem_of_find?_eq_some first) (slotFirst_slot first)]

/-- A frozen table has lost its point index; a lookup filters its records. -/
theorem get_frozen (t : MemTable) (frozen : t.pointIndex = ∅) (sole : ∀ x ∈ t.records, x.slot = r.slot → x = r) :
    t.get r.key r.ts = if r ∈ t.records then some r else none := by
  have same : ∀ x ∈ t.records.filter fun x => decide (x.slot = toLex (r.key, r.ts)), x = r := by
    intro x member
    obtain ⟨inside, here⟩ := List.mem_filter.mp member
    exact sole x inside (of_decide_eq_true here)
  rw [MemTable.get, frozen, get?_empty, maxBySeq_sole r _ same]
  by_cases member : r ∈ t.records
  · rw [if_pos member, if_neg]
    exact List.ne_nil_of_mem (List.mem_filter.mpr ⟨member, decide_eq_true rfl⟩)
  · rw [if_neg member, if_pos]
    refine List.filter_eq_nil_iff.mpr fun x inside here => ?_
    obtain rfl := sole x inside (of_decide_eq_true here)
    exact member inside

theorem get_memory (indexed : Indexed m.active) (frozen : ∀ t ∈ m.frozen, t.pointIndex = ∅)
    (alone : Unrivalled r (consulted m T)) (unexpired : nowUs ≤ r.expireAt) :
    (InMemory m r → m.get r.key r.ts nowUs = some r) ∧ (¬ InMemory m r → m.get r.key r.ts nowUs = none) := by
  have inActive : ∀ x ∈ m.active.records, x.slot = r.slot → x = r := fun x member =>
    alone.sole x (List.mem_append_left _ (List.mem_append_left _ member))
  have inFrozen : ∀ t ∈ m.frozen, ∀ x ∈ t.records, x.slot = r.slot → x = r := fun t inside x member =>
    alone.sole x (List.mem_append_left _ (List.mem_append_right _ (List.mem_flatMap.mpr ⟨t, inside, member⟩)))
  have active : m.active.get r.key r.ts = if r ∈ m.active.records then some r else none := by
    rw [indexed.last]
    split_ifs with member
    · exact lastVersion_sole inActive member
    · refine (lastVersion_eq_none _ _).mpr fun x inside here => member ?_
      obtain rfl := inActive x inside here
      exact inside
  have each : ∀ t ∈ m.active :: m.frozen, t.get r.key r.ts = if r ∈ t.records then some r else none := by
    intro t member
    rcases List.mem_cons.mp member with rfl | inside
    · exact active
    · exact get_frozen t (frozen t inside) (inFrozen t inside)
  have holds : InMemory m r ↔ ∃ t ∈ m.active :: m.frozen, r ∈ t.records := by
    simp [InMemory]
  have looked : m.get r.key r.ts nowUs = (m.active :: m.frozen).findSome? fun t => if r ∈ t.records then some r else none := by
    refine findSome?_congr fun t member => ?_
    rw [each t member]
    split_ifs
    · simp [Option.filter, unexpired]
    · rfl
  rw [holds, looked]
  constructor
  · rintro ⟨t, member, there⟩
    obtain ⟨x, found⟩ := Option.isSome_iff_exists.mp (List.findSome?_isSome_iff.mpr
      ⟨t, member, by rw [if_pos there]; rfl⟩ : ((m.active :: m.frozen).findSome? fun t =>
        if r ∈ t.records then some r else none).isSome)
    obtain ⟨u, _, same⟩ := List.exists_of_findSome?_eq_some found
    split_ifs at same
    rw [found, ← same]
  · intro absent
    refine List.findSome?_eq_none_iff.mpr fun t member => ?_
    exact if_neg fun there => absent ⟨t, member, there⟩

theorem picked_alone (search : SlotSearch) (sorted : Sorted T) (alone : Unrivalled r (consulted m T)) {id : Nat}
    (active : id ∈ T.activeIds) {q : InternalRecord}
    (picked : hit search (searchedRecords T r.key nowUs id) (toLex (r.key, r.ts)) = some q) : q = stored r := by
  obtain ⟨written, shape, sublist⟩ := searchedRecords_stored sorted active r.key nowUs
  obtain ⟨inBlock, here⟩ := hit_slot search (searchedRecords_sorted sorted active r.key nowUs) picked
  rw [shape] at inBlock
  obtain ⟨x, inTable, rfl⟩ := List.mem_map.mp inBlock
  have inRecords : x ∈ T.records := List.mem_flatMap.mpr ⟨id, active, sublist.subset inTable⟩
  rw [alone.sole x (List.mem_append_right _ inRecords) here]

/-- A point read returns an unrivalled record it finds in the memtables or in the
block its key search picks in some table. -/
theorem getSync_alone (search : SlotSearch) (sorted : Sorted T) (indexed : Indexed m.active)
    (frozen : ∀ t ∈ m.frozen, t.pointIndex = ∅) (alone : Unrivalled r (consulted m T)) (unexpired : nowUs < r.expireAt)
    (found : InMemory m r ∨ ∃ id ∈ T.activeIds, stored r ∈ searchedRecords T r.key nowUs id) :
    getSync search m T r.key r.ts nowUs = some r.toRecord := by
  obtain ⟨present, absent⟩ := get_memory indexed frozen alone unexpired.le
  have live : r.op ≠ .delete := by simp [alone.put]
  by_cases inMem : InMemory m r
  · rw [getSync, present inMem]
    exact if_pos live
  · obtain ⟨id, active, inside⟩ := found.resolve_left inMem
    have only : ∀ k ∈ tableIds T, ∀ q, tableAnswer search T r.key r.ts nowUs k = some q → q = stored r := by
      intro k member q answer
      exact picked_alone search sorted alone ((mem_tableIds T sorted.ok k).mp member) (Option.filter_eq_some_iff.mp answer).1
    have answered : tableAnswer search T r.key r.ts nowUs id = some (stored r) := by
      cases picked : hit search (searchedRecords T r.key nowUs id) (toLex (r.key, r.ts)) with
      | none =>
        have other := hit_none search (searchedRecords_sorted sorted active r.key nowUs) picked (stored r) inside
        exact absurd rfl other
      | some q =>
        obtain rfl := picked_alone search sorted alone active picked
        rw [tableAnswer, picked]
        simp [Option.filter, unexpired, alone.put]
    rw [getSync_tables search sorted m r.key r.ts nowUs (absent inMem)]
    obtain ⟨q, first⟩ := Option.isSome_iff_exists.mp (List.findSome?_isSome_iff.mpr
      ⟨id, (mem_tableIds T sorted.ok id).mpr active, by rw [answered]; rfl⟩ :
        ((tableIds T).findSome? (tableAnswer search T r.key r.ts nowUs)).isSome)
    obtain ⟨k, member, answer⟩ := List.exists_of_findSome?_eq_some first
    rw [first, only k member q answer]
    rfl

theorem memResults_consulted {query : Query} {x : InternalRecord} (member : x ∈ memResults m query nowUs) :
    x ∈ m.active.records ++ m.frozen.flatMap MemTable.records := by
  rw [memResults_eq, MemTables.gather] at member
  rcases List.mem_append.mp member with active | frozen
  · exact List.mem_append_left _ (List.mem_of_mem_filter active)
  · obtain ⟨t, inside, there⟩ := List.mem_flatMap.mp frozen
    exact List.mem_append_right _ (List.mem_flatMap.mpr ⟨t, inside, List.mem_of_mem_filter there⟩)

theorem mem_memResults_reaches {query : Query} (inMem : InMemory m r) (reached : reaches query r.slot = true)
    (unexpired : nowUs ≤ r.expireAt) : r ∈ memResults m query nowUs := by
  have kept (t : MemTable) (member : r ∈ t.records) : r ∈ t.queryWhere (memFilter query) query.timeRange nowUs := by
    refine List.mem_filter.mpr ⟨member, ?_⟩
    rw [Bool.and_eq_true]
    exact ⟨reached, decide_eq_true unexpired⟩
  rw [memResults_eq, MemTables.gather]
  rcases inMem with active | ⟨t, inside, there⟩
  · exact List.mem_append_left _ (kept _ active)
  · exact List.mem_append_right _ (List.mem_flatMap.mpr ⟨t, inside, kept t there⟩)

theorem blockSource_keeps {query : Query} {block : List InternalRecord} (inside : stored r ∈ block) (put : r.op = .put)
    (unexpired : nowUs < r.expireAt) (key : query.keyFilter.matchesKey r.key = true)
    (time : inTimeRange query.timeRange r.ts = true) : stored r ∈ blockSource query block nowUs := by
  unfold blockSource
  split_ifs
  · simp [fullScanBlock, liveRecords, inside, put, unexpired]
  · refine List.mem_map.mpr ⟨stored r, List.mem_filter.mpr ⟨List.mem_filter.mpr ⟨inside, ?_⟩, ?_⟩, rfl⟩
    · exact decide_eq_true unexpired
    · simp [put, key, time]

variable {query : Query} {candidates : List BlockMeta}

theorem shown_alone (sorted : Sorted T) (answer : T.index.query query.keyFilter query.timeRange nowUs = some candidates)
    (alone : Unrivalled r (consulted m T)) {h : InternalRecord} (op : h.op = r.op) (same : h.toRecord = r.toRecord) :
    shownAs (scanTombstones m T query nowUs candidates) h = some r.toRecord := by
  have key : h.key = r.key := congrArg Record.key same
  have clear : isTombstoned (scanTombstones m T query nowUs candidates) h = false := by
    refine List.any_eq_false.mpr fun range visible covered => ?_
    obtain ⟨x, source, range', start, stop⟩ := mem_scanTombstones sorted answer visible
    have inside : x ∈ consulted m T := by
      rcases source with inMem | inTable
      · exact List.mem_append_left _ (memResults_consulted inMem)
      · exact List.mem_append_right _ inTable
    refine alone.uncovered x inside range' range.2 stop ?_
    rw [start, ← key]
    exact of_decide_eq_true covered
  have shown : isShown (scanTombstones m T query nowUs candidates) h = true := by
    simp [isShown, op, alone.put, clear]
  rw [shownAs, if_pos shown, same]

/-- A scan shows an unrivalled record that it reaches in the memtables or in one of
its candidate blocks. -/
theorem scan_alone (sorted : Sorted T) (numbered : ∀ x ∈ memResults m query nowUs, 0 < x.seq)
    (answer : T.index.query query.keyFilter query.timeRange nowUs = some candidates)
    (alone : Unrivalled r (consulted m T)) (unexpired : nowUs < r.expireAt)
    (found : (InMemory m r ∧ reaches query r.slot = true) ∨ (∃ block ∈ candidateBlocks T candidates, stored r ∈ block) ∧
      query.keyFilter.matchesKey r.key = true ∧ inTimeRange query.timeRange r.ts = true)
    (out : List Record) (scan : Scans m T query nowUs out) : r.toRecord ∈ out := by
  have soleMem : ∀ x ∈ (memResults m query nowUs).insertionSort byVersion, x.slot = r.slot → x = r := fun x member =>
    alone.sole x (List.mem_append_left _ (memResults_consulted ((List.mem_insertionSort _).mp member)))
  have heads : ∀ h, Sees m T query nowUs candidates r.slot h → h.op = r.op ∧ h.toRecord = r.toRecord := by
    intro h sees
    unfold Sees at sees
    split at sees
    · rename_i x top
      obtain rfl := soleMem x (List.mem_of_find?_eq_some top) (slotFirst_slot top)
      rw [sees]
      exact ⟨rfl, rfl⟩
    · obtain ⟨y, inTable, here, op, same, _⟩ := blockHead_record sorted answer sees
      obtain rfl := alone.sole y (List.mem_append_right _ inTable) here
      exact ⟨op, same⟩
  have seen : ∃ h, Sees m T query nowUs candidates r.slot h := by
    cases top : newestMem m query nowUs r.slot with
    | some x => exact ⟨x, by simp [Sees, top]⟩
    | none =>
      rcases found with ⟨inMem, reached⟩ | ⟨⟨block, member, inside⟩, key, time⟩
      · have there := (List.mem_insertionSort byVersion).mpr (mem_memResults_reaches inMem reached unexpired.le)
        rw [newestMem, slotFirst_sole soleMem there] at top
        cases top
      · have kept := blockSource_keeps inside alone.put unexpired key time
        obtain ⟨h, first⟩ := Option.isSome_iff_exists.mp (List.find?_isSome.mpr
          ⟨stored r, kept, decide_eq_true rfl⟩ : (slotFirst (blockSource query block nowUs) r.slot).isSome)
        refine ⟨h, ?_⟩
        simp only [Sees, top]
        exact ⟨block, member, first⟩
  have right : ∀ out, Scans m T query nowUs out → atSlot out r.slot = some r.toRecord := by
    refine (scan_slot_iff sorted answer numbered r.slot (· = some r.toRecord)).mpr ⟨fun h sees => ?_, fun none => ?_⟩
    · obtain ⟨op, same⟩ := heads h sees
      exact shown_alone sorted answer alone op same
    · obtain ⟨h, sees⟩ := seen
      exact absurd sees (none h)
  exact mem_of_atSlot (right out scan)

end

end FlowDb.ReadViews
