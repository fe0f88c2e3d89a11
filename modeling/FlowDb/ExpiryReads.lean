import FlowDb.ScanBounds

/-! Expiry as the reads apply it, before a flush and behind it. The memtables drop what
expired before now and take the newest of the rest; a flush drops what expires now as
well, and of the rest a read finds what its block has. -/
namespace FlowDb.ExpiryReads
open ByteString OrderedMap Records Sstable BlockIndex BlockMetaIndex TableStore MemoryTables Reads PointReads
open Scans EngineOps EngineRuns ReadsDuringCompaction ScanFilters ScanBounds
open BlockLookup (Newest every_search_iff)

/-- An engine on an empty directory after the insertion of the records. -/
def unflushed (config : Config) (records : List InternalRecord) : Engine :=
  { fresh config with memtables := records.foldl MemTables.insert (fresh config).memtables }

/-- The version that the rule on records makes visible. -/
def VisibleTop (records : List InternalRecord) (slot : Bytes ×ₗ Int) (nowUs : Int) (top : InternalRecord) : Prop :=
  Newest records slot top ∧ top.op = .put ∧ nowUs < top.expireAt

/-- What a read returns for a slot: the visible version, or nothing if there is none. -/
def Right (records : List InternalRecord) (slot : Bytes ×ₗ Int) (nowUs : Int) (result : Option Record) : Prop :=
  (∀ top, VisibleTop records slot nowUs top → result = some top.toRecord) ∧
    ((∀ top, ¬ VisibleTop records slot nowUs top) → result = none)

/-- A get and a prefix scan are right about a slot. -/
structure ReadsRight (records : List InternalRecord) (e : Engine) (p key : Bytes) (ts nowUs : Int) : Prop where
  get : ∀ search, Right records (toLex (key, ts)) nowUs (getSync search e.memtables e.tables key ts nowUs)
  scan : ∀ out, Scans e.memtables e.tables (prefixQuery p) nowUs out →
    Right records (toLex (key, ts)) nowUs (atSlot out (toLex (key, ts)))

section
variable (config : Config) (records : List InternalRecord)

theorem unflushed_active : (unflushed config records).memtables.active.records = records ∧
    (unflushed config records).memtables.frozen = [] ∧ Indexed (unflushed config records).memtables.active := by
  obtain ⟨held, frozen, indexed⟩ := foldl_insert records (fresh config).memtables
  exact ⟨held, frozen, indexed indexed_new⟩

theorem memRecords_unflushed : memRecords (unflushed config records).memtables = records := by
  obtain ⟨held, frozen, _⟩ := unflushed_active config records
  rw [memRecords, MemTables.gather, frozen, held]
  exact List.append_nil records

/-- Before a flush a get sees the version inserted last, if it has not expired before now. -/
theorem get_unflushed (search : SlotSearch) (key : Bytes) (ts nowUs : Int) :
    getSync search (unflushed config records).memtables (unflushed config records).tables key ts nowUs =
      ((lastVersion records (toLex (key, ts))).filter fun l => decide (nowUs ≤ l.expireAt ∧ l.op ≠ .delete)).map
        InternalRecord.toRecord := by
  obtain ⟨held, frozen, indexed⟩ := unflushed_active config records
  have lookup := get_eq _ frozen indexed key ts nowUs
  rw [held] at lookup
  have tables : (unflushed config records).tables = Tables.new config.timeBucketSecs := rfl
  cases found : (lastVersion records (toLex (key, ts))).filter fun l => decide (nowUs ≤ l.expireAt) with
  | some l =>
    obtain ⟨last, unexpired⟩ := Option.filter_eq_some_iff.mp found
    rw [getSync, lookup, found, last]
    by_cases deleted : l.op = .delete <;> simp [deleted, of_decide_eq_true unexpired]
  | none =>
    rw [getSync_tables search (tables ▸ sorted_new _) _ key ts nowUs (lookup.trans found), tables]
    cases last : lastVersion records (toLex (key, ts)) with
    | none => rfl
    | some l =>
      rw [last] at found
      have expired : ¬ nowUs ≤ l.expireAt := by simpa using found
      rw [Option.filter_some, if_neg (by simp [expired])]
      rfl

theorem scans_unflushed (p : Bytes) (nowUs : Int) (out : List Record) :
    Scans (unflushed config records).memtables (unflushed config records).tables (prefixQuery p) nowUs out ↔
      (assemble (prefixQuery p) (unflushed config records).memtables [] nowUs).Yields out := by
  have built := @build_assemble (prefixQuery p) (unflushed config records).memtables (unflushed config records).tables nowUs
    [] rfl
  simp [Scans, built]

end

section
variable (config : Config) (compressedLen : Bytes → Nat) (records : List InternalRecord) (nowUs : Int)

/-- The same engine behind `do_flush`. -/
def flushed : Engine := (unflushed config records).doFlush compressedLen nowUs

/-- The records of the block that a get of the key looks into behind the flush. -/
def searched (key : Bytes) : List InternalRecord := searchedRecords (flushed config compressedLen records nowUs).tables key nowUs 1

/-- The first version of a slot in a block that a prefix scan loads behind the flush. -/
def ListedFirst (p : Bytes) (slot : Bytes ×ₗ Int) (h : InternalRecord) : Prop :=
  BlockHead (flushed config compressedLen records nowUs).tables (prefixQuery p) nowUs
    (prefixBlocks (flushed config compressedLen records nowUs).tables p nowUs) slot h

/-- Behind the flush the memtables are empty and there is at most one table, of what has not expired. -/
theorem flushed_shape : (flushed config compressedLen records nowUs).memtables.active.records = [] ∧
    (flushed config compressedLen records nowUs).memtables.frozen = [] ∧
    Indexed (flushed config compressedLen records nowUs).memtables.active ∧
    ((flushed config compressedLen records nowUs).tables = Tables.new config.timeBucketSecs ∨
      (flushed config compressedLen records nowUs).tables = addFlushed config compressedLen
        (Tables.new config.timeBucketSecs) (flushable records nowUs)) := by
  obtain ⟨held, frozen, indexed⟩ := unflushed_active config records
  rcases doFlush_cases compressedLen (unflushed config records) nowUs frozen with ⟨empty, same⟩ | ⟨_, dropped⟩ | written
  · rw [flushed, same]
    exact ⟨empty, frozen, indexed, Or.inl rfl⟩
  · rw [flushed, dropped]
    exact ⟨rfl, frozen, indexed_new, Or.inl rfl⟩
  · rw [flushed, written, held]
    exact ⟨rfl, frozen, indexed_new, Or.inr rfl⟩

section
variable {records} (fits : ∀ r ∈ records, TableFits r)
include fits

theorem flushed_sorted : Sorted (flushed config compressedLen records nowUs).tables := by
  have new := sorted_new config.timeBucketSecs
  rcases (flushed_shape config compressedLen records nowUs).2.2.2 with same | same <;> rw [same]
  · exact new
  · refine sorted_addFlushed config compressedLen new _ ?_ fun r member => fits r ((mem_flushable records nowUs r).mp member).1
    exact ((List.pairwise_insertionSort byVersion records).imp versionRank_slot_le).filter _

omit fits in
theorem mem_flushed {r : InternalRecord} (member : r ∈ (flushed config compressedLen records nowUs).tables.records) :
    r ∈ records ∧ nowUs < r.expireAt := by
  have new : (Tables.new config.timeBucketSecs).records = [] := rfl
  rcases (flushed_shape config compressedLen records nowUs).2.2.2 with same | same <;> rw [same] at member
  · rw [new] at member
    cases member
  · rw [records_addFlushed _ _ _ (nextSstId_absent _ (sorted_new _).ok), new] at member
    exact (mem_flushable records nowUs r).mp member

omit fits in
variable (records) in
theorem flushed_tables : tableIds (flushed config compressedLen records nowUs).tables = [] ∧
      (∀ key, searched config compressedLen records nowUs key = []) ∨
    tableIds (flushed config compressedLen records nowUs).tables = [1] := by
  rcases (flushed_shape config compressedLen records nowUs).2.2.2 with same | same
  · left
    simp only [searched, same]
    exact ⟨rfl, fun key => rfl⟩
  · right
    simp only [same, tableIds, addFlushed, publishSst, BlockMetaIndex.setBloom, sstBlocks_addSst]
    rfl

/-- What a get searches behind the flush: a sorted part of what had not expired. -/
theorem searched_written (key : Bytes) : ∃ written : List InternalRecord,
    searched config compressedLen records nowUs key = written.map stored ∧
      (written.map stored).Pairwise (fun a b => a.slot ≤ b.slot) ∧ ∀ y ∈ written, nowUs < y.expireAt := by
  rcases flushed_tables config compressedLen records nowUs
    with ⟨_, none⟩ | one
  · exact ⟨[], none key, .nil, by simp⟩
  · have sorted := flushed_sorted config compressedLen nowUs fits
    have active := (mem_tableIds _ sorted.ok 1).mp (by rw [one]; exact List.mem_singleton_self 1)
    obtain ⟨written, shape, sublist⟩ := searchedRecords_stored sorted active key nowUs
    refine ⟨written, shape, shape ▸ searchedRecords_sorted sorted active key nowUs, fun y inside => ?_⟩
    exact (mem_flushed config compressedLen nowUs (List.mem_flatMap.mpr ⟨1, active, sublist.subset inside⟩)).2

/-- Behind the flush a get sees the version at which the search of the block stops. -/
theorem get_flushed (search : SlotSearch) (key : Bytes) (ts : Int) :
    getSync search (flushed config compressedLen records nowUs).memtables (flushed config compressedLen records nowUs).tables
      key ts nowUs =
      ((hit search (searched config compressedLen records nowUs key) (toLex (key, ts))).filter fun q =>
        decide (nowUs < q.expireAt ∧ q.op ≠ .delete)).map InternalRecord.toRecord := by
  obtain ⟨empty, frozen, indexed, _⟩ := flushed_shape config compressedLen records nowUs
  have absent : (flushed config compressedLen records nowUs).memtables.get key ts nowUs = none := by
    rw [get_eq _ frozen indexed, empty]
    rfl
  rw [getSync_tables search (flushed_sorted config compressedLen nowUs fits) _ key ts nowUs absent]
  rcases flushed_tables config compressedLen records nowUs
    with ⟨untabled, none⟩ | one
  · rw [untabled, none]
    cases found : hit search [] (toLex (key, ts)) with
    | none => rfl
    | some q => cases (hit_slot search .nil found).1
  · rw [one, List.findSome?_singleton]
    rfl

end

end

/-! ### What expiry rests on -/

/-- A range delete among some records covers the key. -/
def CoveredBy (deletes : InternalRecord → Prop) (key : Bytes) : Prop :=
  ∃ d, deletes d ∧ d.op = .deleteRange ∧ ∃ stop, d.rangeEnd = some stop ∧ d.key ≤ key ∧ key < stop

theorem tombstoned_iff {tombstones : List (Bytes × Bytes)} {deletes : InternalRecord → Prop}
    (seen : ∀ range, range ∈ tombstones ↔ ∃ d, deletes d ∧ tombstoneOf d = some range) (h : InternalRecord) :
    isTombstoned tombstones h = true ↔ CoveredBy deletes h.key := by
  simp only [isTombstoned, List.any_eq_true, decide_eq_true_eq, seen]
  constructor
  · rintro ⟨range, ⟨d, among, found⟩, above, below⟩
    unfold tombstoneOf at found
    split_ifs at found with op
    obtain ⟨stop, held, rfl⟩ := Option.map_eq_some_iff.mp found
    exact ⟨d, among, op, stop, held, above, below⟩
  · rintro ⟨d, among, op, stop, held, above, below⟩
    exact ⟨(d.key, stop), ⟨d, among, by simp [tombstoneOf, op, held]⟩, above, below⟩

section
variable (config : Config) (compressedLen : Bytes → Nat) (records : List InternalRecord) (nowUs : Int) (p key : Bytes)
  (ts : Int)

/-- The range deletes that a prefix scan of the memtables takes in. -/
def ScannedDelete (d : InternalRecord) : Prop := d ∈ records ∧ p <+: d.key ∧ nowUs ≤ d.expireAt

/-- The range deletes that a prefix scan takes in behind the flush. -/
def ListedDelete (d : InternalRecord) : Prop :=
  ∃ block ∈ candidateBlocks (flushed config compressedLen records nowUs).tables
    (prefixBlocks (flushed config compressedLen records nowUs).tables p nowUs), d ∈ block

/-- What the reads find in the place of a visible version is equal to it. -/
structure Shown (top : InternalRecord) : Prop where
  last : ∀ l, lastVersion records (toLex (key, ts)) = some l → l.op ≠ .delete ∧ l.toRecord = top.toRecord
  uncovered : ¬ CoveredBy (ScannedDelete records nowUs p) key
  found : ∃ x ∈ searched config compressedLen records nowUs key, x.slot = toLex (key, ts)
  searched : ∀ x ∈ searched config compressedLen records nowUs key, x.slot = toLex (key, ts) →
    x.op ≠ .delete ∧ x.toRecord = top.toRecord
  listed : ∃ h, ListedFirst config compressedLen records nowUs p (toLex (key, ts)) h
  firsts : ∀ h, ListedFirst config compressedLen records nowUs p (toLex (key, ts)) h →
    h.op = .put ∧ h.toRecord = top.toRecord
  keeps : ¬ CoveredBy (ListedDelete config compressedLen records nowUs p) key

/-- What the reads find of a slot without a visible version shows nothing. -/
structure Hidden : Prop where
  last : ∀ l, lastVersion records (toLex (key, ts)) = some l → l.expireAt < nowUs ∨ l.op = .delete
  below : ∀ u, Newest (records.filter fun r => decide (nowUs ≤ r.expireAt)) (toLex (key, ts)) u → u.op = .put →
    CoveredBy (ScannedDelete records nowUs p) key
  searched : ∀ x ∈ searched config compressedLen records nowUs key, x.slot = toLex (key, ts) → x.op = .delete
  firsts : ∀ h, ListedFirst config compressedLen records nowUs p (toLex (key, ts)) h → h.op = .put →
    CoveredBy (ListedDelete config compressedLen records nowUs p) key

variable {config compressedLen records nowUs p key ts}

/-- A read that shows any of some versions is right, if each of them shows the visible version, or nothing if there is none. -/
theorem right_each {slot : Bytes ×ₗ Int} {α : Type} {found : α → Prop} {show' : α → Option Record} :
    ((∀ x, found x → Right records slot nowUs (show' x)) ∧ ((∀ x, ¬ found x) → Right records slot nowUs none)) ↔
      (∀ top, VisibleTop records slot nowUs top → (∃ x, found x) ∧ ∀ x, found x → show' x = some top.toRecord) ∧
        ((∀ top, ¬ VisibleTop records slot nowUs top) → ∀ x, found x → show' x = none) := by
  constructor
  · rintro ⟨each, absent⟩
    refine ⟨fun top visible => ⟨?_, fun x there => (each x there).1 top visible⟩, fun none x there => (each x there).2 none⟩
    by_contra missing
    exact nomatch (absent (not_exists.mp missing)).1 top visible
  · rintro ⟨visible, none⟩
    refine ⟨fun x there => ⟨fun top seen => (visible top seen).2 x there, fun unseen => none unseen x there⟩, fun missing => ?_⟩
    exact ⟨fun top seen => absurd (visible top seen).1 (not_exists.mpr missing), fun _ => rfl⟩

theorem right_bind {slot : Bytes ×ₗ Int} {α : Type} (o : Option α) (show' : α → Option Record) :
    Right records slot nowUs (o.bind show') ↔ (∀ x, o = some x → Right records slot nowUs (show' x)) ∧
      ((∀ x, ¬ o = some x) → Right records slot nowUs none) := by
  cases o <;> simp

theorem answer_iff {x top : InternalRecord} {alive : Prop} [Decidable alive]
    (same : x.toRecord = top.toRecord → alive) : (if alive ∧ x.op ≠ .delete then some x.toRecord else none) =
      some top.toRecord ↔ x.op ≠ .delete ∧ x.toRecord = top.toRecord := by
  split_ifs with shown
  · simp [shown.2]
  · simp only [false_iff]
    exact fun answered => shown ⟨same answered.2, answered.1⟩

theorem answer_eq {alive : InternalRecord → Prop} [DecidablePred alive] (o : Option InternalRecord) :
    (o.filter fun q => decide (alive q ∧ q.op ≠ .delete)).map InternalRecord.toRecord =
      o.bind fun q => if alive q ∧ q.op ≠ .delete then some q.toRecord else none := by
  cases o with
  | none => rfl
  | some q =>
    rw [Option.filter_some, Option.bind_some]
    split_ifs <;> simp_all

theorem expireAt_eq {x top : InternalRecord} (same : x.toRecord = top.toRecord) : x.expireAt = top.expireAt :=
  congrArg Record.expireAt same

/-- The get before the flush. -/
theorem get_before_iff : (∀ search, Right records (toLex (key, ts)) nowUs (getSync search
      (unflushed config records).memtables (unflushed config records).tables key ts nowUs)) ↔
    (∀ top, VisibleTop records (toLex (key, ts)) nowUs top → ∀ l, lastVersion records (toLex (key, ts)) = some l →
        l.op ≠ .delete ∧ l.toRecord = top.toRecord) ∧
      ((∀ top, ¬ VisibleTop records (toLex (key, ts)) nowUs top) → ∀ l, lastVersion records (toLex (key, ts)) = some l →
        l.expireAt < nowUs ∨ l.op = .delete) := by
  have any : Nonempty SlotSearch := ⟨.first⟩
  simp only [get_unflushed, forall_const, answer_eq, right_bind, right_each]
  refine and_congr (forall_congr' fun top => imp_congr_right fun visible => ?_) (imp_congr_right fun none => ?_)
  · have written : ∃ l, lastVersion records (toLex (key, ts)) = some l := by
      by_contra missing
      exact (lastVersion_eq_none records _).mp (Option.eq_none_iff_forall_ne_some.mpr (not_exists.mp missing))
        top visible.1.held visible.1.here
    rw [and_iff_right written]
    exact forall_congr' fun l => imp_congr_right fun _ => answer_iff fun same => (expireAt_eq same ▸ visible.2.2).le
  · refine forall_congr' fun l => imp_congr_right fun _ => ?_
    rw [ite_eq_right_iff]
    simp only [reduceCtorEq, imp_false, not_and_or, not_le, not_not]

/-- The get behind the flush. -/
theorem get_after_iff (fits : ∀ r ∈ records, TableFits r) : (∀ search, Right records (toLex (key, ts)) nowUs (getSync search
      (flushed config compressedLen records nowUs).memtables (flushed config compressedLen records nowUs).tables
      key ts nowUs)) ↔
    (∀ top, VisibleTop records (toLex (key, ts)) nowUs top →
        (∃ x ∈ searched config compressedLen records nowUs key, x.slot = toLex (key, ts)) ∧
        ∀ x ∈ searched config compressedLen records nowUs key, x.slot = toLex (key, ts) →
          x.op ≠ .delete ∧ x.toRecord = top.toRecord) ∧
      ((∀ top, ¬ VisibleTop records (toLex (key, ts)) nowUs top) →
        ∀ x ∈ searched config compressedLen records nowUs key, x.slot = toLex (key, ts) → x.op = .delete) := by
  obtain ⟨written, shape, sorted, unexpired⟩ := searched_written config compressedLen nowUs fits key
  have alive : ∀ x ∈ searched config compressedLen records nowUs key, nowUs < x.expireAt := by
    rw [shape]
    intro x inside
    obtain ⟨y, there, rfl⟩ := List.mem_map.mp inside
    exact unexpired y there
  have every := every_search_iff (shape ▸ sorted) (toLex (key, ts)) fun o => Right records (toLex (key, ts)) nowUs
    (o.bind fun q => if nowUs < q.expireAt ∧ q.op ≠ .delete then some q.toRecord else none)
  simp only [get_flushed config compressedLen nowUs fits, answer_eq]
  rw [every]
  have each := @right_each records nowUs (toLex (key, ts)) InternalRecord
    (fun x => x ∈ searched config compressedLen records nowUs key ∧ x.slot = toLex (key, ts))
    fun q => if nowUs < q.expireAt ∧ q.op ≠ .delete then some q.toRecord else none
  simp only [and_imp, not_and] at each
  refine each.trans (and_congr (forall_congr' fun top => imp_congr_right fun visible => and_congr_right fun _ => ?_)
    (imp_congr_right fun none => ?_))
  · refine forall_congr' fun x => imp_congr_right fun inside => imp_congr_right fun _ => ?_
    exact answer_iff fun _ => alive x inside
  · refine forall_congr' fun x => imp_congr_right fun inside => imp_congr_right fun _ => ?_
    simp [alive x inside]

theorem shownAs_iff {tombstones : List (Bytes × Bytes)} {deletes : InternalRecord → Prop}
    (seen : ∀ range, range ∈ tombstones ↔ ∃ d, deletes d ∧ tombstoneOf d = some range) (h : InternalRecord) :
    (∀ rec, shownAs tombstones h = some rec ↔ h.op = .put ∧ h.toRecord = rec ∧ ¬ CoveredBy deletes h.key) ∧
      (shownAs tombstones h = none ↔ (h.op = .put → CoveredBy deletes h.key)) := by
  rw [← tombstoned_iff seen, shownAs]
  constructor
  · intro rec
    by_cases put : h.op = .put <;> by_cases covered : isTombstoned tombstones h = true <;> simp [isShown, put, covered]
  · by_cases put : h.op = .put <;> by_cases covered : isTombstoned tombstones h = true <;> simp [isShown, put, covered]

theorem assemble_tombstones (range : Bytes × Bytes) :
    range ∈ (assemble (prefixQuery p) (unflushed config records).memtables [] nowUs).tombstones ↔
      ∃ d, ScannedDelete records nowUs p d ∧ tombstoneOf d = some range := by
  simp only [assemble, List.flatMap_nil, List.append_nil, List.mem_filterMap, memResults_filter, memRecords_unflushed,
    List.mem_filter, ScannedDelete]
  refine exists_congr fun d => and_congr_left fun _ => and_congr_right fun _ => ?_
  simp [reaches, memFilter, prefixQuery, KeyFilter.matchesKey, inTimeRange, InternalRecord.slot]

theorem newest_unexpired (begins : p <+: key) (u : InternalRecord) :
    Newest (memResults (unflushed config records).memtables (prefixQuery p) nowUs) (toLex (key, ts)) u ↔
      Newest (records.filter fun r => decide (nowUs ≤ r.expireAt)) (toLex (key, ts)) u := by
  have within : ∀ r : InternalRecord, r.slot = toLex (key, ts) →
      (r ∈ memResults (unflushed config records).memtables (prefixQuery p) nowUs ↔
        r ∈ records.filter fun r => decide (nowUs ≤ r.expireAt)) := by
    intro r here
    have reached : reaches (prefixQuery p) r.slot = true := by
      rw [here]
      simpa [reaches, memFilter, prefixQuery, KeyFilter.matchesKey, inTimeRange] using begins
    rw [memResults_filter, memRecords_unflushed, List.mem_filter, List.mem_filter, reached, Bool.true_and]
  constructor
  · rintro ⟨held, here, highest⟩
    exact ⟨(within u here).mp held, here, fun x inside there => highest x ((within x there).mpr inside) there⟩
  · rintro ⟨held, here, highest⟩
    exact ⟨(within u here).mpr held, here, fun x inside there => highest x ((within x there).mp inside) there⟩

theorem key_of_slot {h : InternalRecord} (here : h.slot = toLex (key, ts)) : h.key = key :=
  congrArg (fun slot => (ofLex slot).1) here

theorem newest_unique (distinct : (records.map (·.seq)).Nodup) {slot : Bytes ×ₗ Int} {a b : InternalRecord}
    (first : Newest records slot a) (second : Newest records slot b) : a = b :=
  List.inj_on_of_nodup_map distinct first.held second.held
    (le_antisymm (second.highest a first.held first.here) (first.highest b second.held second.here))

/-- The prefix scan before the flush. -/
theorem scan_before_iff (distinct : (records.map (·.seq)).Nodup) (begins : p <+: key) :
    (∀ out, Scans (unflushed config records).memtables (unflushed config records).tables (prefixQuery p) nowUs out →
      Right records (toLex (key, ts)) nowUs (atSlot out (toLex (key, ts)))) ↔
    (∀ top, VisibleTop records (toLex (key, ts)) nowUs top → ¬ CoveredBy (ScannedDelete records nowUs p) key) ∧
      ((∀ top, ¬ VisibleTop records (toLex (key, ts)) nowUs top) →
        ∀ u, Newest (records.filter fun r => decide (nowUs ≤ r.expireAt)) (toLex (key, ts)) u → u.op = .put →
          CoveredBy (ScannedDelete records nowUs p) key) := by
  let m := (unflushed config records).memtables
  have covers := shownAs_iff (@assemble_tombstones config records nowUs p)
  have always : (∀ out, Scans m (unflushed config records).tables (prefixQuery p) nowUs out →
      Right records (toLex (key, ts)) nowUs (atSlot out (toLex (key, ts)))) ↔
        Right records (toLex (key, ts)) nowUs ((newestMem m (prefixQuery p) nowUs (toLex (key, ts))).bind
          (shownAs (assemble (prefixQuery p) m [] nowUs).tombstones)) := by
    constructor
    · intro every
      obtain ⟨out, yields⟩ := exists_yield (assemble (prefixQuery p) m [] nowUs)
      exact assemble_slot yields (toLex (key, ts)) ▸ every out ((scans_unflushed config records p nowUs out).mpr yields)
    · intro right out scan
      exact (assemble_slot ((scans_unflushed config records p nowUs out).mp scan) (toLex (key, ts))).symm ▸ right
  have filtered : ((records.filter fun r => decide (nowUs ≤ r.expireAt)).map (·.seq)).Nodup :=
    distinct.sublist (List.filter_sublist.map _)
  have newest : ∀ u, newestMem m (prefixQuery p) nowUs (toLex (key, ts)) = some u ↔
      Newest (records.filter fun r => decide (nowUs ≤ r.expireAt)) (toLex (key, ts)) u := by
    intro u
    rw [← @newest_unexpired config _ _ _ _ _ begins]
    refine ⟨newestMem_newest, fun held => ?_⟩
    cases first : newestMem m (prefixQuery p) nowUs (toLex (key, ts)) with
    | none => exact absurd held.here (newestMem_none first u held.held)
    | some v =>
      have same := newestMem_newest first
      rw [newest_unexpired begins] at held same
      rw [newest_unique filtered held same]
  rw [always, right_bind, right_each]
  simp only [newest]
  refine and_congr (forall_congr' fun top => imp_congr_right fun visible => ?_) (imp_congr_right fun none => ?_)
  · have held : Newest (records.filter fun r => decide (nowUs ≤ r.expireAt)) (toLex (key, ts)) top :=
      ⟨List.mem_filter.mpr ⟨visible.1.held, decide_eq_true visible.2.2.le⟩, visible.1.here,
        fun x inside here => visible.1.highest x (List.mem_of_mem_filter inside) here⟩
    have shown := (covers top).1 top.toRecord
    rw [key_of_slot visible.1.here] at shown
    constructor
    · exact fun each => (shown.mp (each.2 top held)).2.2
    · refine fun clear => ⟨⟨top, held⟩, fun u other => ?_⟩
      obtain rfl := newest_unique filtered other held
      exact shown.mpr ⟨visible.2.1, rfl, clear⟩
  · refine forall_congr' fun u => imp_congr_right fun held => ?_
    rw [(covers u).2, key_of_slot held.here]

/-- The prefix scan behind the flush. -/
theorem scan_after_iff (fits : ∀ r ∈ records, TableFits r) :
    (∀ out, Scans (flushed config compressedLen records nowUs).memtables (flushed config compressedLen records nowUs).tables
      (prefixQuery p) nowUs out → Right records (toLex (key, ts)) nowUs (atSlot out (toLex (key, ts)))) ↔
    (∀ top, VisibleTop records (toLex (key, ts)) nowUs top →
        (∃ h, ListedFirst config compressedLen records nowUs p (toLex (key, ts)) h) ∧
        ∀ h, ListedFirst config compressedLen records nowUs p (toLex (key, ts)) h →
          h.op = .put ∧ h.toRecord = top.toRecord ∧ ¬ CoveredBy (ListedDelete config compressedLen records nowUs p) key) ∧
      ((∀ top, ¬ VisibleTop records (toLex (key, ts)) nowUs top) →
        ∀ h, ListedFirst config compressedLen records nowUs p (toLex (key, ts)) h → h.op = .put →
          CoveredBy (ListedDelete config compressedLen records nowUs p) key) := by
  obtain ⟨empty, frozen, _⟩ := flushed_shape config compressedLen records nowUs
  have nothing : memResults (flushed config compressedLen records nowUs).memtables (prefixQuery p) nowUs = [] := by
    rw [memResults_filter, memRecords, MemTables.gather, empty, frozen]
    rfl
  have sorted := flushed_sorted config compressedLen nowUs fits
  have answer : (flushed config compressedLen records nowUs).tables.index.query (prefixQuery p).keyFilter
      (prefixQuery p).timeRange nowUs = some (prefixBlocks (flushed config compressedLen records nowUs).tables p nowUs) := rfl
  have seen : ∀ range, range ∈ scanTombstones (flushed config compressedLen records nowUs).memtables
      (flushed config compressedLen records nowUs).tables (prefixQuery p) nowUs
      (prefixBlocks (flushed config compressedLen records nowUs).tables p nowUs) ↔
        ∃ d, ListedDelete config compressedLen records nowUs p d ∧ tombstoneOf d = some range := by
    intro range
    rw [scanTombstones, nothing, List.filterMap_nil, List.nil_append]
    simp only [List.mem_flatMap, List.mem_filterMap, ListedDelete, liveRecords, List.mem_filter]
    constructor
    · rintro ⟨block, listed, d, ⟨inside, _⟩, found⟩
      exact ⟨d, ⟨block, listed, inside⟩, found⟩
    · rintro ⟨d, ⟨block, listed, inside⟩, found⟩
      refine ⟨block, listed, d, ⟨inside, decide_eq_true ?_⟩, found⟩
      obtain ⟨id, active, written, rfl, sublist⟩ := candidateBlock_stored sorted answer block listed
      obtain ⟨y, there, rfl⟩ := List.mem_map.mp inside
      exact (mem_flushed config compressedLen nowUs (List.mem_flatMap.mpr ⟨id, active, sublist.subset there⟩)).2
  have covers := shownAs_iff seen
  have sees : ∀ h, Sees (flushed config compressedLen records nowUs).memtables (flushed config compressedLen records nowUs).tables
      (prefixQuery p) nowUs (prefixBlocks (flushed config compressedLen records nowUs).tables p nowUs) (toLex (key, ts)) h ↔
        ListedFirst config compressedLen records nowUs p (toLex (key, ts)) h := by
    intro h
    have none : newestMem (flushed config compressedLen records nowUs).memtables (prefixQuery p) nowUs (toLex (key, ts)) = none := by
      rw [newestMem, nothing]
      rfl
    rw [Sees, none]
    rfl
  rw [scan_slot_iff sorted answer (by rw [nothing]; simp) (toLex (key, ts)) (Right records (toLex (key, ts)) nowUs)]
  simp only [sees]
  rw [right_each]
  refine and_congr (forall_congr' fun top => imp_congr_right fun visible => and_congr_right fun _ => ?_)
    (imp_congr_right fun none => ?_)
  · refine forall_congr' fun h => imp_congr_right fun listed => ?_
    obtain ⟨block, _, first⟩ := listed
    rw [(covers h).1, key_of_slot (slotFirst_slot first)]
  · refine forall_congr' fun h => imp_congr_right fun listed => ?_
    obtain ⟨block, _, first⟩ := listed
    rw [(covers h).2, key_of_slot (slotFirst_slot first)]

/-- Before a flush and behind it, both reads are right about every slot under a prefix, exactly if what they find in
the place of a visible version is equal to it, and what they find where none is visible shows nothing. -/
theorem expiry_uniform_iff (distinct : (records.map (·.seq)).Nodup) (fits : ∀ r ∈ records, TableFits r) :
    (∀ key ts, p <+: key → ReadsRight records (unflushed config records) p key ts nowUs ∧
      ReadsRight records (flushed config compressedLen records nowUs) p key ts nowUs) ↔
    ∀ key ts, p <+: key →
      (∀ top, VisibleTop records (toLex (key, ts)) nowUs top → Shown config compressedLen records nowUs p key ts top) ∧
      ((∀ top, ¬ VisibleTop records (toLex (key, ts)) nowUs top) → Hidden config compressedLen records nowUs p key ts) := by
  refine forall_congr' fun key => forall_congr' fun ts => imp_congr_right fun begins => ?_
  constructor
  · rintro ⟨before, after⟩
    obtain ⟨lastShown, lastHidden⟩ := get_before_iff.mp before.get
    obtain ⟨uncovered, below⟩ := (scan_before_iff distinct begins).mp before.scan
    obtain ⟨found, searched⟩ := (get_after_iff fits).mp after.get
    obtain ⟨firsts, hidden⟩ := (scan_after_iff fits).mp after.scan
    refine ⟨fun top visible => ?_, fun none => ⟨lastHidden none, below none, searched none, hidden none⟩⟩
    obtain ⟨⟨h, listed⟩, each⟩ := firsts top visible
    exact ⟨lastShown top visible, uncovered top visible, (found top visible).1, (found top visible).2, ⟨h, listed⟩,
      fun h listed => ⟨(each h listed).1, (each h listed).2.1⟩, (each h listed).2.2⟩
  · rintro ⟨shown, hidden⟩
    refine ⟨⟨get_before_iff.mpr ?_, (scan_before_iff distinct begins).mpr ?_⟩,
      ⟨(get_after_iff fits).mpr ?_, (scan_after_iff fits).mpr ?_⟩⟩
    · exact ⟨fun top visible => (shown top visible).last, fun none => (hidden none).last⟩
    · exact ⟨fun top visible => (shown top visible).uncovered, fun none => (hidden none).below⟩
    · exact ⟨fun top visible => ⟨(shown top visible).found, (shown top visible).searched⟩, fun none => (hidden none).searched⟩
    · refine ⟨fun top visible => ⟨(shown top visible).listed, fun h listed => ?_⟩, fun none => (hidden none).firsts⟩
      obtain ⟨put, same⟩ := (shown top visible).firsts h listed
      exact ⟨put, same, (shown top visible).keeps⟩

end

/-! A record that expires now is shown before the flush. -/

def expiring : InternalRecord := .fromRecord ⟨[107], 1, 5, [1]⟩ 1000000

theorem expiring_invisible (top : InternalRecord) : ¬ VisibleTop [expiring] (toLex ([107], 1)) 5 top := by
  rintro ⟨newest, _, live⟩
  rw [List.mem_singleton.mp newest.held] at live
  exact absurd live (by decide)

theorem expiry_uniform_expiring : ¬ ∀ key ts, [107] <+: key →
    ReadsRight [expiring] (unflushed {} [expiring]) [107] key ts 5 ∧
      ReadsRight [expiring] (flushed {} List.length [expiring] 5) [107] key ts 5 := by
  rw [expiry_uniform_iff (by decide) (by decide)]
  intro right
  rcases ((right [107] 1 List.prefix_rfl).2 expiring_invisible).last expiring rfl with expired | deleted
  · exact absurd expired (by decide)
  · cases deleted

theorem expiring_shown : ¬ ∀ (config : Config) (compressedLen : Bytes → Nat) (records : List InternalRecord) (nowUs : Int),
    (records.map (·.seq)).Nodup → (∀ r ∈ records, TableFits r) → ∀ p key ts, p <+: key →
      ReadsRight records (unflushed config records) p key ts nowUs ∧
        ReadsRight records (flushed config compressedLen records nowUs) p key ts nowUs := by
  intro right
  have before := (right {} List.length [expiring] 5 (by decide) (by decide) [107] [107] 1 List.prefix_rfl).1.get .first
  have shown : getSync .first (unflushed {} [expiring]).memtables (unflushed {} [expiring]).tables [107] 1 5 =
      some expiring.toRecord := by decide +kernel
  exact nomatch shown.symm.trans (before.2 expiring_invisible)

end FlowDb.ExpiryReads
