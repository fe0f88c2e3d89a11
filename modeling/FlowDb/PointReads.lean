import FlowDb.Reads

/-! Point reads over several tables. `get_sync` asks the tables in ascending order
of id, each for the one block its key search picks, and takes the first record
that is not a delete. -/
namespace FlowDb.PointReads
open ByteString OrderedMap Records Bloom Sstable BlockIndex BlockMetaIndex TableStore MemoryTables Reads

/-- Every live table is sorted by slot, as a flush writes it, and fits the encoding. -/
structure Sorted (t : Tables) : Prop where
  ok : Ok t
  slots : ∀ id ∈ t.activeIds, (t.file id).records.Pairwise fun a b => a.slot ≤ b.slot
  fits : ∀ id ∈ t.activeIds, ∀ r ∈ (t.file id).records, TableFits r

theorem sorted_new (timeBucketSecs : Nat) : Sorted (Tables.new timeBucketSecs) := by
  refine ⟨ok_new timeBucketSecs, ?_, ?_⟩ <;> simp [Tables.new, Tables.activeIds, ManifestLog.ManifestState.empty]

theorem sorted_addFlushed (config : Config) (compressedLen : Bytes → Nat) {t : Tables} (sorted : Sorted t)
    (records : List InternalRecord) (slots : records.Pairwise fun a b => a.slot ≤ b.slot)
    (fits : ∀ r ∈ records, TableFits r) : Sorted (addFlushed config compressedLen t records) where
  ok := ok_addFlushed config compressedLen t sorted.ok records
  slots := eachFile_addFlushed config compressedLen t (fun l => l.Pairwise fun a b => a.slot ≤ b.slot)
    sorted.slots records slots
  fits := eachFile_addFlushed config compressedLen t (fun l => ∀ r ∈ l, TableFits r) sorted.fits records fits

/-- The live tables in the order a point read asks them. -/
def tableIds (t : Tables) : List Nat := t.index.sstBlocks.keys

/-- The records of the block that a point read of `key` looks at in one table. -/
def searchedRecords (t : Tables) (key : Bytes) (nowUs : Int) (id : Nat) : List InternalRecord :=
  match searchedBlock (t.metas id) key nowUs with
  | some m => (t.file m.sstId).readBlock m.blockIdx
  | none => []

/-- The record the binary search of a block picks. -/
def hit (search : SlotSearch) (records : List InternalRecord) (slot : Bytes ×ₗ Int) : Option InternalRecord :=
  (search.find records slot).bind fun idx => records[idx]?

theorem mem_tableIds (t : Tables) (ok : Ok t) (id : Nat) : id ∈ tableIds t ↔ id ∈ t.activeIds := by
  rw [tableIds, mem_keys_iff, ok.indexed]
  split_ifs with active <;> simp [active]

theorem tableIds_sorted (t : Tables) : (tableIds t).Pairwise (· < ·) :=
  List.pairwise_map.mpr t.index.sstBlocks.sorted

-- The key search only ever returns one of the blocks it is given.
theorem searchLoop_mem (blocks : List BlockMeta) (key : Bytes) (fuel lo hi : Nat) (m : BlockMeta)
    (found : searchLoop blocks key fuel lo hi = some m) : m ∈ blocks := by
  induction fuel generalizing lo hi with
  | zero => simp [searchLoop] at found
  | succ fuel ih =>
    simp only [searchLoop] at found
    split_ifs at found with more
    · cases there : blocks[lo + (hi - lo) / 2]? with
      | none => simp [there] at found
      | some b =>
        simp only [there] at found
        split_ifs at found
        · exact ih _ _ found
        · exact ih _ _ found
        · exact Option.some.inj found ▸ List.mem_of_getElem? there
    · exact List.mem_of_getElem? (Option.filter_eq_some_iff.mp found).1

theorem searchedBlock_mem (blocks : List BlockMeta) (key : Bytes) (nowUs : Int) (m : BlockMeta)
    (found : searchedBlock blocks key nowUs = some m) : m ∈ blocks :=
  searchLoop_mem blocks key _ _ _ m (Option.filter_eq_some_iff.mp found).1

theorem searchedBlock_sstId (t : Tables) (key : Bytes) (nowUs : Int) (id : Nat) (m : BlockMeta)
    (found : searchedBlock (t.metas id) key nowUs = some m) : m.sstId = id := by
  obtain ⟨bi, _, rfl⟩ := List.mem_map.mp (searchedBlock_mem _ _ _ m found)
  rfl

section
variable {t : Tables} (sorted : Sorted t)
include sorted

theorem readBlock_stored {id : Nat} (active : id ∈ t.activeIds) (i : Nat) :
    ∃ written : List InternalRecord, (t.file id).readBlock i = written.map stored ∧
      written.Sublist (t.file id).records := by
  refine ⟨_, readBlock_eq _ (sorted.fits id active) i, ?_⟩
  cases shape : (t.file id).blocks[i]? with
  | none => simp
  | some chunk => exact List.sublist_flatten_of_mem (List.mem_of_getElem? shape)

theorem searchedRecords_stored {id : Nat} (active : id ∈ t.activeIds) (key : Bytes) (nowUs : Int) :
    ∃ written : List InternalRecord, searchedRecords t key nowUs id = written.map stored ∧
      written.Sublist (t.file id).records := by
  unfold searchedRecords
  cases found : searchedBlock (t.metas id) key nowUs with
  | none => exact ⟨[], rfl, List.nil_sublist _⟩
  | some m =>
    obtain rfl := searchedBlock_sstId t key nowUs id m found
    exact readBlock_stored sorted active m.blockIdx

theorem searchedRecords_sorted {id : Nat} (active : id ∈ t.activeIds) (key : Bytes) (nowUs : Int) :
    (searchedRecords t key nowUs id).Pairwise fun a b => a.slot ≤ b.slot := by
  obtain ⟨written, shape, sublist⟩ := searchedRecords_stored sorted active key nowUs
  rw [shape, List.pairwise_map]
  exact (sorted.slots id active).sublist sublist

/-- A key that the filter of a table rejects is in no block of it. -/
theorem searchedRecords_passes {id : Nat} (active : id ∈ t.activeIds) (key : Bytes) (nowUs : Int) {r : InternalRecord}
    (inside : r ∈ searchedRecords t key nowUs id) (same : r.key = key) : t.index.bloomMayContain id key = true := by
  obtain ⟨written, shape, sublist⟩ := searchedRecords_stored sorted active key nowUs
  obtain ⟨x, there, rfl⟩ := List.mem_map.mp (shape ▸ inside)
  rw [bloomMayContain]
  cases held : t.index.blooms.get? id with
  | none => rfl
  | some f => exact (show x.key = key from same) ▸ sorted.ok.blooms id f held x (sublist.subset there)

end

section
variable (search : SlotSearch)

theorem hit_slot {records : List InternalRecord} (sorted : records.Pairwise fun a b => a.slot ≤ b.slot)
    {slot : Bytes ×ₗ Int} {r : InternalRecord} (found : hit search records slot = some r) :
    r ∈ records ∧ r.slot = slot := by
  obtain ⟨idx, position, held⟩ := Option.bind_eq_some_iff.mp found
  obtain ⟨x, there, here⟩ := search.found records slot idx sorted position
  obtain rfl := Option.some.inj (held.symm.trans there)
  exact ⟨List.mem_of_getElem? held, here⟩

theorem hit_none {records : List InternalRecord} (sorted : records.Pairwise fun a b => a.slot ≤ b.slot)
    {slot : Bytes ×ₗ Int} (missed : hit search records slot = none) : ∀ r ∈ records, r.slot ≠ slot := by
  cases position : search.find records slot with
  | none => exact search.complete records slot sorted position
  | some idx =>
    obtain ⟨x, there, _⟩ := search.found records slot idx sorted position
    simp [hit, position, there] at missed

theorem findInRecords_eq {records : List InternalRecord} (sorted : records.Pairwise fun a b => a.slot ≤ b.slot)
    (key : Bytes) (ts nowUs : Int) : findInRecords search records key ts nowUs =
      ((hit search records (toLex (key, ts))).filter fun r => decide (nowUs < r.expireAt ∧ r.op ≠ .delete)).map
        InternalRecord.toRecord := by
  cases found : hit search records (toLex (key, ts)) with
  | none =>
    cases position : search.find records (toLex (key, ts)) with
    | none => simp [findInRecords, position]
    | some idx =>
      have missing : records[idx]? = none := by simpa [hit, position] using found
      simp [findInRecords, position, missing]
  | some r =>
    obtain ⟨_, here⟩ := hit_slot search sorted found
    obtain ⟨idx, position, held⟩ := Option.bind_eq_some_iff.mp found
    obtain ⟨rfl, rfl⟩ : r.key = key ∧ r.ts = ts := by
      simpa [InternalRecord.slot, Prod.ext_iff] using here
    simp only [findInRecords, position, Option.bind_eq_bind, Option.bind_some, held, Option.filter_some]
    by_cases shown : nowUs < r.expireAt ∧ r.op ≠ .delete <;> simp [shown, InternalRecord.toRecord]

theorem findSome?_congr {α β : Type} {f g : α → Option β} {l : List α} (same : ∀ a ∈ l, f a = g a) :
    l.findSome? f = l.findSome? g := by
  induction l with
  | nil => rfl
  | cons a rest ih =>
    rw [List.findSome?_cons, List.findSome?_cons, same a List.mem_cons_self,
      ih fun b member => same b (List.mem_cons_of_mem a member)]

theorem eq_of_slot {records : List InternalRecord} (strict : records.Pairwise fun a b => a.slot < b.slot)
    {x y : InternalRecord} (first : x ∈ records) (second : y ∈ records) (same : x.slot = y.slot) : x = y := by
  have found := Merge.find?_strict InternalRecord.slot _ strict x first
  rw [same] at found
  exact Option.some.inj (found.symm.trans (Merge.find?_strict InternalRecord.slot _ strict y second))

/-- What one table answers to a point read. -/
def tableAnswer (t : Tables) (key : Bytes) (ts nowUs : Int) (id : Nat) : Option InternalRecord :=
  (hit search (searchedRecords t key nowUs id) (toLex (key, ts))).filter fun r =>
    decide (nowUs < r.expireAt ∧ r.op ≠ .delete)

theorem blockSearch_eq {t : Tables} (sorted : Sorted t) {id : Nat} (active : id ∈ t.activeIds) (key : Bytes)
    (ts nowUs : Int) : (searchedBlock (t.metas id) key nowUs).bind (blockSearch search t key ts nowUs) =
      (tableAnswer search t key ts nowUs id).map InternalRecord.toRecord := by
  have ordered := searchedRecords_sorted sorted active key nowUs
  rw [tableAnswer, ← findInRecords_eq search ordered]
  cases found : searchedBlock (t.metas id) key nowUs with
  | some m => simp [searchedRecords, found, blockSearch]
  | none =>
    have empty : search.find [] (toLex (key, ts)) = none := by
      by_contra there
      obtain ⟨idx, position⟩ := Option.ne_none_iff_exists'.mp there
      obtain ⟨r, held, _⟩ := search.found [] _ idx .nil position
      simp at held
    simp [searchedRecords, found, findInRecords, empty]

theorem tableAnswer_passes {t : Tables} (sorted : Sorted t) {id : Nat} (active : id ∈ t.activeIds) (key : Bytes)
    (ts nowUs : Int) {r : InternalRecord} (answer : tableAnswer search t key ts nowUs id = some r) :
    t.index.bloomMayContain id key = true := by
  obtain ⟨inside, here⟩ := hit_slot search (searchedRecords_sorted sorted active key nowUs)
    (Option.filter_eq_some_iff.mp answer).1
  have sameKey : r.key = key := by
    have := congrArg (fun s => (ofLex s).1) here
    simpa [InternalRecord.slot] using this
  exact searchedRecords_passes sorted active key nowUs inside sameKey

theorem indexed_entry {t : Tables} (sorted : Sorted t) {e : Nat × List BlockMeta}
    (member : e ∈ t.index.sstBlocks.entries) : e.1 ∈ t.activeIds ∧ e.2 = t.metas e.1 := by
  obtain ⟨id, blocks⟩ := e
  have held := (get?_eq_some_iff _ _ _).mpr member
  rw [sorted.ok.indexed] at held
  split_ifs at held with active
  exact ⟨active, (Option.some.inj held).symm⟩

/-- A lookup that asks one block of each table returns the first answer, tables in ascending
order of id; the filters change nothing if they pass every table that answers. -/
theorem queryPointInline_tables {t : Tables} (sorted : Sorted t) (key : Bytes) (nowUs : Int) {β : Type}
    (f : BlockMeta → Option β) (answer : Nat → Option β)
    (answers : ∀ id ∈ t.activeIds, (searchedBlock (t.metas id) key nowUs).bind f = answer id)
    (passes : ∀ id ∈ t.activeIds, ∀ b, answer id = some b → t.index.bloomMayContain id key = true) :
    t.index.queryPointInline key nowUs f = (tableIds t).findSome? answer := by
  have filtered : ∀ e ∈ t.index.sstBlocks.entries, (if t.index.bloomMayContain e.1 key then
      (searchedBlock e.2 key nowUs).bind f else none) = answer e.1 := by
    intro e member
    obtain ⟨active, blocks⟩ := indexed_entry sorted member
    rw [blocks, answers e.1 active]
    split_ifs with may
    · rfl
    · exact (Option.eq_none_iff_forall_ne_some.mpr fun b found => may (passes e.1 active b found)).symm
  rw [queryPointInline, findSome?_congr filtered, tableIds, OMap.keys, List.findSome?_map]
  rfl

/-- Behind the memtables a point read returns the first answer; neither the filters nor
the single-table path changes that. -/
theorem getSync_tables {t : Tables} (sorted : Sorted t) (m : MemTables) (key : Bytes) (ts nowUs : Int)
    (absent : m.get key ts nowUs = none) : getSync search m t key ts nowUs =
      ((tableIds t).findSome? (tableAnswer search t key ts nowUs)).map InternalRecord.toRecord := by
  have answers := fun id active => @blockSearch_eq search t sorted id active key ts nowUs
  have passes : ∀ id ∈ t.activeIds, ∀ b, (tableAnswer search t key ts nowUs id).map InternalRecord.toRecord = some b →
      t.index.bloomMayContain id key = true := by
    intro id active b found
    obtain ⟨r, answer, _⟩ := Option.map_eq_some_iff.mp found
    exact tableAnswer_passes search sorted active key ts nowUs answer
  have inline : t.index.queryPointInline key nowUs (blockSearch search t key ts nowUs) =
      ((tableIds t).findSome? (tableAnswer search t key ts nowUs)).map InternalRecord.toRecord := by
    rw [queryPointInline_tables sorted key nowUs _ _ answers passes, List.map_findSome?]
    rfl
  rw [getSync, absent]
  cases single : t.index.singleSstPoint key nowUs with
  | none => exact inline
  | some found =>
    rw [← inline]
    unfold singleSstPoint at single
    split at single
    · rename_i e shape
      obtain ⟨active, blocks⟩ := indexed_entry sorted (e := e) (by simp [shape])
      rw [blocks] at single
      rw [queryPointInline_tables sorted key nowUs _ _ answers passes, tableIds, OMap.keys, shape, List.map_singleton,
        List.findSome?_singleton, ← answers e.1 active, single]
      rfl
    · cases single

end

theorem findSome?_first {l : List Nat} (sorted : l.Pairwise (· < ·)) {α : Type} (f : Nat → Option α) (a : α) :
    l.findSome? f = some a ↔ ∃ id ∈ l, f id = some a ∧ ∀ j ∈ l, j < id → f j = none := by
  rw [List.findSome?_eq_some_iff]
  constructor
  · rintro ⟨front, id, back, rfl, answer, none⟩
    refine ⟨id, by simp, answer, fun j member before => none j ?_⟩
    obtain ⟨_, ordered, _⟩ := List.pairwise_append.mp sorted
    rcases List.mem_append.mp member with early | late
    · exact early
    · rcases List.mem_cons.mp late with rfl | later
      · exact absurd before (lt_irrefl _)
      · exact absurd ((List.pairwise_cons.mp ordered).1 j later) (lt_asymm before)
  · rintro ⟨id, member, answer, none⟩
    obtain ⟨front, back, rfl⟩ := List.append_of_mem member
    exact ⟨front, id, back, rfl, answer, fun j early =>
      none j (List.mem_append_left _ early) ((List.pairwise_append.mp sorted).2.2 j early id List.mem_cons_self)⟩

section
variable (search : SlotSearch) (t : Tables) (key : Bytes) (ts nowUs : Int)

/-- A live table answers a point read with the record its search picks, unless that is expired or a delete. -/
structure Answers (id : Nat) (q : InternalRecord) : Prop where
  live : id ∈ tableIds t
  picked : hit search (searchedRecords t key nowUs id) (toLex (key, ts)) = some q
  unexpired : nowUs < q.expireAt
  op : q.op ≠ .delete

theorem answers_iff (id : Nat) (q : InternalRecord) :
    Answers search t key ts nowUs id q ↔ id ∈ tableIds t ∧ tableAnswer search t key ts nowUs id = some q := by
  rw [tableAnswer, Option.filter_eq_some_iff, decide_eq_true_eq]
  exact ⟨fun a => ⟨a.live, a.picked, a.unexpired, a.op⟩, fun ⟨live, picked, unexpired, op⟩ => ⟨live, picked, unexpired, op⟩⟩

theorem firstAnswer_eq_none_iff : (tableIds t).findSome? (tableAnswer search t key ts nowUs) = none ↔
    ∀ id q, ¬ Answers search t key ts nowUs id q := by
  simp only [List.findSome?_eq_none_iff, answers_iff, not_and]
  constructor
  · exact fun none id q live answer => by simp [none id live] at answer
  · exact fun nothing id live => Option.eq_none_iff_forall_ne_some.mpr fun q => nothing id q live

theorem firstAnswer_iff (q : InternalRecord) : (tableIds t).findSome? (tableAnswer search t key ts nowUs) = some q ↔
    ∃ id, Answers search t key ts nowUs id q ∧ ∀ j < id, ∀ x, ¬ Answers search t key ts nowUs j x := by
  simp only [findSome?_first (tableIds_sorted t), answers_iff, not_and]
  constructor
  · rintro ⟨id, live, answer, none⟩
    exact ⟨id, ⟨live, answer⟩, fun j before x there found => by simp [none j there before] at found⟩
  · rintro ⟨id, ⟨live, answer⟩, first⟩
    exact ⟨id, live, answer, fun j there before => Option.eq_none_iff_forall_ne_some.mpr fun x => first j before x there⟩

end

/-! ### Newest wins -/

/-- Tables of unexpired puts and deletes, at most one record of a slot in each. -/
structure PointTables (t : Tables) (nowUs : Int) : Prop where
  ok : Ok t
  slots : ∀ id ∈ t.activeIds, (t.file id).records.Pairwise fun a b => a.slot < b.slot
  ops : ∀ id ∈ t.activeIds, ∀ r ∈ (t.file id).records, r.op = .put ∨ r.op = .delete
  unexpired : ∀ id ∈ t.activeIds, ∀ r ∈ (t.file id).records, nowUs < r.expireAt
  fits : ∀ id ∈ t.activeIds, ∀ r ∈ (t.file id).records, TableFits r

theorem PointTables.sorted {t : Tables} {nowUs : Int} (tables : PointTables t nowUs) : Sorted t :=
  ⟨tables.ok, fun id active => (tables.slots id active).imp le_of_lt, tables.fits⟩

theorem pointTables_new (timeBucketSecs : Nat) (nowUs : Int) : PointTables (Tables.new timeBucketSecs) nowUs := by
  refine ⟨ok_new timeBucketSecs, ?_, ?_, ?_, ?_⟩ <;>
    simp [Tables.new, Tables.activeIds, ManifestLog.ManifestState.empty]

/-- Flushes of puts and deletes that do not expire, one record a slot, make such tables. -/
theorem pointTables_addFlushed (config : Config) (compressedLen : Bytes → Nat) {t : Tables} {nowUs : Int}
    (tables : PointTables t nowUs) (records : List InternalRecord)
    (slots : records.Pairwise fun a b => a.slot < b.slot)
    (each : ∀ r ∈ records, (r.op = .put ∨ r.op = .delete) ∧ nowUs < r.expireAt ∧ TableFits r) :
    PointTables (addFlushed config compressedLen t records) nowUs := by
  have file := eachFile_addFlushed config compressedLen t
  refine ⟨ok_addFlushed config compressedLen t tables.ok records, ?_, ?_, ?_, ?_⟩
  · exact file (fun l => l.Pairwise fun a b => a.slot < b.slot) tables.slots records slots
  · exact file (fun l => ∀ r ∈ l, r.op = .put ∨ r.op = .delete) tables.ops records fun r h => (each r h).1
  · exact file (fun l => ∀ r ∈ l, nowUs < r.expireAt) tables.unexpired records fun r h => (each r h).2.1
  · exact file (fun l => ∀ r ∈ l, TableFits r) tables.fits records fun r h => (each r h).2.2

/-- What the highest table that has the slot holds of it. -/
def newest (t : Tables) (slot : Bytes ×ₗ Int) : Option InternalRecord :=
  (tableIds t).reverse.findSome? fun id => (t.file id).records.find? fun r => decide (r.slot = slot)

/-- A live table whose searched block has the put `q` of the slot. -/
structure Shows (t : Tables) (key : Bytes) (ts nowUs : Int) (id : Nat) (q : InternalRecord) : Prop where
  live : id ∈ tableIds t
  searched : q ∈ searchedRecords t key nowUs id
  slot : q.slot = toLex (key, ts)
  put : q.op = .put

/-- If the newest record of the slot is a put, the lowest table that shows a put
shows that one's contents; otherwise no table shows a put. -/
structure NewestShown (t : Tables) (key : Bytes) (ts nowUs : Int) : Prop where
  put : ∀ p, newest t (toLex (key, ts)) = some p → p.op = .put →
    ∃ id q, Shows t key ts nowUs id q ∧ q.toRecord = p.toRecord ∧ ∀ j < id, ∀ x, ¬ Shows t key ts nowUs j x
  other : (∀ p, newest t (toLex (key, ts)) = some p → p.op ≠ .put) → ∀ id q, ¬ Shows t key ts nowUs id q

section
variable (search : SlotSearch) {t : Tables} {nowUs : Int} (tables : PointTables t nowUs)
include tables

/-- With one record of a slot in each table, the answers are the puts the searched blocks hold. -/
theorem answers_iff_shows (key : Bytes) (ts : Int) (id : Nat) (q : InternalRecord) :
    Answers search t key ts nowUs id q ↔ Shows t key ts nowUs id q := by
  by_cases live : id ∈ tableIds t
  swap
  · exact ⟨fun answers => absurd answers.live live, fun shows => absurd shows.live live⟩
  have active := (mem_tableIds t tables.ok id).mp live
  obtain ⟨written, shape, sublist⟩ := searchedRecords_stored tables.sorted active key nowUs
  have strict : (searchedRecords t key nowUs id).Pairwise fun a b => a.slot < b.slot := by
    rw [shape, List.pairwise_map]
    exact (tables.slots id active).sublist sublist
  have ordered := strict.imp (S := fun a b : InternalRecord => a.slot ≤ b.slot) le_of_lt
  have record : ∀ r ∈ searchedRecords t key nowUs id, nowUs < r.expireAt ∧ (r.op ≠ .delete ↔ r.op = .put) := by
    intro r member
    obtain ⟨x, inside, rfl⟩ := List.mem_map.mp (shape ▸ member)
    have inFile := sublist.subset inside
    refine ⟨tables.unexpired id active x inFile, ?_⟩
    rcases tables.ops id active x inFile with put | delete <;> simp [*]
  constructor
  · rintro ⟨_, found, _, op⟩
    obtain ⟨member, here⟩ := hit_slot search ordered found
    exact ⟨live, member, here, (record q member).2.mp op⟩
  · rintro ⟨_, member, here, put⟩
    refine ⟨live, ?_, (record q member).1, (record q member).2.mpr put⟩
    cases found : hit search (searchedRecords t key nowUs id) (toLex (key, ts)) with
    | none => exact absurd here (hit_none search ordered found q member)
    | some r =>
      obtain ⟨there, same⟩ := hit_slot search ordered found
      exact congrArg some (eq_of_slot strict there member (same.trans here.symm))

/-- A point read behind the memtables returns the newest record of the slot if that
is a put and nothing otherwise, exactly when the tables show it so. -/
theorem get_sync_newest_wins (m : MemTables) (key : Bytes) (ts : Int) (absent : m.get key ts nowUs = none) :
    getSync search m t key ts nowUs =
      ((newest t (toLex (key, ts))).filter fun r => decide (r.op = .put)).map InternalRecord.toRecord ↔
      NewestShown t key ts nowUs := by
  rw [getSync_tables search tables.sorted m key ts nowUs absent]
  by_cases put : ∃ p, newest t (toLex (key, ts)) = some p ∧ p.op = .put
  · obtain ⟨p, top, op⟩ := put
    rw [top, Option.filter_some, if_pos (decide_eq_true op), Option.map_some, Option.map_eq_some_iff]
    simp only [firstAnswer_iff, answers_iff_shows search tables]
    constructor
    · rintro ⟨q, ⟨id, shows, first⟩, same⟩
      refine ⟨fun p' top' _ => ?_, fun other => absurd op (other p top)⟩
      obtain rfl := Option.some.inj (top.symm.trans top')
      exact ⟨id, q, shows, same, first⟩
    · rintro ⟨shown, _⟩
      obtain ⟨id, q, shows, same, first⟩ := shown p top op
      exact ⟨q, ⟨id, shows, first⟩, same⟩
  · have other : ∀ p, newest t (toLex (key, ts)) = some p → p.op ≠ .put := fun p top op => put ⟨p, top, op⟩
    have nothing : (newest t (toLex (key, ts))).filter (fun r => decide (r.op = .put)) = none := by
      cases top : newest t (toLex (key, ts)) with
      | none => rfl
      | some p => simp [other p top]
    rw [nothing, Option.map_none, Option.map_eq_none_iff, firstAnswer_eq_none_iff]
    simp only [answers_iff_shows search tables]
    exact ⟨fun hidden => ⟨fun p top op => absurd op (other p top), fun _ => hidden⟩, fun shown => shown.other other⟩

end

/-! One key put twice, each put flushed: the older one is read. -/

def firstPut : InternalRecord := .fromRecord (.new [107] 1 [1]) 1000000
def secondPut : InternalRecord := .fromRecord (.new [107] 1 [2]) 1000001

def putTwice : Tables :=
  addFlushed {} List.length (addFlushed {} List.length (Tables.new 3600) [firstPut]) [secondPut]

theorem putTwice_tables : PointTables putTwice 0 := by
  have each : ∀ r ∈ [firstPut, secondPut], (r.op = .put ∨ r.op = .delete) ∧ 0 < r.expireAt ∧ TableFits r := by
    intro r member
    rcases List.mem_pair.mp member with rfl | rfl <;>
      exact ⟨by decide, by decide, by decide, by decide, by decide, by decide, by decide⟩
  refine pointTables_addFlushed {} List.length (pointTables_addFlushed {} List.length (pointTables_new 3600 0)
    [firstPut] (by decide) ?_) [secondPut] (by decide) ?_ <;> intro r member
  · exact each r (by simp_all)
  · exact each r (by simp_all)

theorem get_sync_returns_older :
    (newest putTwice (toLex ([107], 1))).map InternalRecord.toRecord = some secondPut.toRecord ∧
      getSync .first (.new 2 67108864) putTwice [107] 1 0 = some firstPut.toRecord ∧
      firstPut.toRecord ≠ secondPut.toRecord := by
  refine ⟨by rfl, by decide +kernel, by decide⟩

theorem get_sync_newest_wins_putTwice :
    getSync .first (.new 2 67108864) putTwice [107] 1 0 =
      ((newest putTwice (toLex ([107], 1))).filter fun r => decide (r.op = .put)).map InternalRecord.toRecord ↔
      NewestShown putTwice [107] 1 0 :=
  get_sync_newest_wins .first putTwice_tables (.new 2 67108864) [107] 1 (by rfl)

end FlowDb.PointReads
