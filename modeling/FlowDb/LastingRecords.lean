import FlowDb.KeySpace
import FlowDb.PointSearch
import FlowDb.ScanResults

/-! Sessions whose records are all of one time and never expire: each is in the active
memtable or in a table, whatever was flushed. A scan of a prefix then meets every record
under that prefix, a range delete of the whole prefix among them, and shows nothing that
one covers; a point read finds any key that was written and not deleted. -/
namespace FlowDb.LastingRecords
open ByteString OrderedMap Records WalLog Sstable BlockIndex BlockMetaIndex TableStore MemoryTables Reads PointReads
open Scans ScanResults EngineOps EngineRuns IndexAgreement GcVisibility PointSearch KeySpace

def Timeless (r : InternalRecord) : Prop := r.ts = 0 ∧ r.expireAt = i64Max

instance (r : InternalRecord) : Decidable (Timeless r) := inferInstanceAs (Decidable (_ ∧ _))

/-- A session that has lost nothing. -/
structure Retained (log : List InternalRecord) (e : Engine) : Prop extends Session log e where
  synced : Synced e.tables
  recorded : Recorded e.tables
  timeless : ∀ r ∈ log, Timeless r
  present : ∀ r ∈ log, r ∈ e.memtables.active.records ∨ r ∈ e.tables.records

theorem retained_fresh (config : Config) : Retained [] (fresh config) :=
  ⟨session_fresh config, .new config.timeBucketSecs, .new config.timeBucketSecs, by simp, by simp⟩

section
variable (compressedLen : Bytes → Nat) {log : List InternalRecord} {e : Engine}

/-- What neither the memtables nor the tables take part in. -/
theorem Retained.beside {e' : Engine} (retained : Retained log e) (session : Session log e')
    (memtables : e'.memtables = e.memtables) (tables : e'.tables = e.tables) : Retained log e' :=
  ⟨session, tables ▸ retained.synced, tables ▸ retained.recorded, retained.timeless, by rw [memtables, tables]; exact retained.present⟩

theorem retained_doFlush (retained : Retained log e) {nowUs : Int} (clock : nowUs < i64Max) :
    Retained log (e.doFlush compressedLen nowUs) := by
  have session := session_doFlush compressedLen retained.toSession nowUs
  have kept : ∀ r ∈ e.memtables.active.records, r ∈ flushable e.memtables.active.records nowUs := fun r member =>
    (mem_flushable _ nowUs r).mpr ⟨member, (retained.timeless r (retained.mem_log member)).2.symm ▸ clock⟩
  rcases doFlush_cases compressedLen e nowUs retained.frozen with ⟨_, same⟩ | ⟨nothing, dropped⟩ | written
  · rwa [same]
  · rw [dropped] at session ⊢
    refine ⟨session, retained.synced, retained.recorded, retained.timeless, fun r member => Or.inr ?_⟩
    refine (retained.present r member).resolve_left fun active => ?_
    exact absurd (nothing ▸ kept r active) List.not_mem_nil
  · rw [written] at session ⊢
    refine ⟨session, retained.synced.flush _ _ _, retained.recorded.flush _ _ _, retained.timeless, fun r member => Or.inr ?_⟩
    rw [records_addFlushed _ _ _ (nextSstId_absent _ retained.tables.ok), List.mem_append]
    exact (retained.present r member).symm.imp_right (kept r)

theorem retained_drainBacklog (retained : Retained log e) {nowUs : Int} (clock : nowUs < i64Max) (fuel : Nat) :
    Retained log (e.drainBacklog compressedLen nowUs fuel) := by
  induction fuel generalizing e with
  | zero => exact retained
  | succ fuel ih =>
    rw [Engine.drainBacklog]
    split_ifs
    · exact ih (retained_doFlush compressedLen retained clock)
    · exact retained

theorem syncGroup_beside (e : Engine) (submissions : List (List InternalRecord)) :
    (e.syncGroup submissions).memtables = e.memtables ∧ (e.syncGroup submissions).tables = e.tables := by
  unfold Engine.syncGroup
  split_ifs <;> exact ⟨rfl, rfl⟩

theorem retained_submit (retained : Retained log e) {records : List InternalRecord} {nowUs : Int}
    (clock : nowUs < i64Max) (fits : ∀ r ∈ records, TableFits r) (timeless : ∀ r ∈ records, Timeless r) :
    Retained (log ++ assignSeqs e.seqCounter records) (e.submit compressedLen records nowUs) := by
  have numbered := mem_assignSeqs e.seqCounter records
  have fits' : ∀ r ∈ assignSeqs e.seqCounter records, TableFits r := fun r member => by
    obtain ⟨_, _, x, there, shape⟩ := numbered r member
    have whole := fits x there
    rw [shape]
    exact ⟨whole.key, whole.ts, whole.expireAt, whole.rangeEnd, whole.value⟩
  have drained := retained_drainBacklog compressedLen
    (retained.beside (session_fetchAdd retained.toSession records.length) rfl rfl) clock (e.memtables.frozen.length + 2)
  have counter := (session_drainBacklog compressedLen (session_fetchAdd retained.toSession records.length) nowUs
    (e.memtables.frozen.length + 2)).2.2
  simp only [Engine.submit, Engine.processBatchGroup, List.foldl_cons, List.foldl_nil]
  generalize Engine.drainBacklog compressedLen nowUs (e.memtables.frozen.length + 2)
    { e with seqCounter := e.seqCounter + records.length } = d at drained counter ⊢
  have session := session_processBatchInner drained.toSession e.seqCounter records retained.started
    (fun r member => (retained.numbered r member).2) counter.ge fits'
  have held := (foldl_insert (assignSeqs e.seqCounter records) d.memtables).1
  have inserted : Retained (log ++ assignSeqs e.seqCounter records)
      (d.processBatchInner (assignSeqs e.seqCounter records)) := by
    refine ⟨session, drained.synced, drained.recorded, fun r member => ?_, fun r member => ?_⟩
    · rcases List.mem_append.mp member with old | new
      · exact retained.timeless r old
      · obtain ⟨_, _, x, there, shape⟩ := numbered r new
        rw [shape]
        exact timeless x there
    · rw [Engine.processBatchInner, held, List.mem_append]
      rcases List.mem_append.mp member with old | new
      · exact (drained.present r old).imp_left Or.inl
      · exact Or.inl (Or.inr new)
  obtain ⟨memtables, tables⟩ := syncGroup_beside (d.processBatchInner (assignSeqs e.seqCounter records))
    [assignSeqs e.seqCounter records]
  have synced := inserted.beside (session_syncGroup session [assignSeqs e.seqCounter records]).1 memtables tables
  unfold Engine.flushIfFull
  split_ifs
  · exact retained_doFlush compressedLen synced clock
  · exact synced

end

/-! ### What a scan of a prefix meets -/

theorem incrementPrefix_eq {p : Bytes} (tagged : Tagged p) : incrementPrefix p = incrementPrefixBytes p := by
  obtain ⟨b, rest, rfl, small⟩ := tagged
  obtain ⟨bumped, grown⟩ := Option.ne_none_iff_exists'.mp
    (bumpLast_grows (List.mem_reverse.mpr (List.mem_cons_self (a := b) (l := rest))) small)
  rw [incrementPrefix, incrementPrefixBytes, incrementOr, incrementOr, grown]

/-- A live record under the prefix lies in a block that the scan looks at. -/
theorem scanned_block {t : Tables} (sorted : Sorted t) (synced : Synced t) {p : Bytes} (tagged : Tagged p) {nowUs : Int}
    {y : InternalRecord} (member : y ∈ t.records) (live : nowUs ≤ y.expireAt) (front : p <+: y.key) :
    ∃ block ∈ candidateBlocks t (prefixBlocks t p nowUs), stored y ∈ block := by
  obtain ⟨id, active, inFile⟩ := List.mem_flatMap.mp member
  obtain ⟨chunk, inBlocks, inChunk⟩ := List.mem_flatten.mp inFile
  obtain ⟨i, bound, here⟩ := List.getElem_of_mem inBlocks
  have ordered := (sorted.slots id active).sublist (List.sublist_flatten_of_mem inBlocks)
  have bounds := SstFormat.blockInfo_bounds i chunk ordered y inChunk
  have info : blockInfo i chunk ∈ (t.file id).blockInfos := List.mem_mapIdx.mpr ⟨i, bound, by rw [here]⟩
  have known : BlockMeta.fromBlockInfo id (blockInfo i chunk) ∈ t.index.metas :=
    (sorted.ok.scanned _).mpr ⟨id, active, List.mem_map.mpr ⟨_, info, rfl⟩⟩
  obtain ⟨k, bucket, held, inBucket⟩ := (mem_values_flatten _ _).mp known
  have keyed : (blockInfo i chunk).minKey = k := ((synced.built.byKey.mem held).2 _ inBucket).2
  have within := (between_increment tagged).mpr front
  have begins : (blockInfo i chunk).minKey < incrementPrefix p :=
    (incrementPrefix_eq tagged).symm ▸ bounds.minKey.trans_lt within.2
  have reached : p ≤ (blockInfo i chunk).maxKey := within.1.trans bounds.maxKey
  refine ⟨_, List.mem_map.mpr ⟨BlockMeta.fromBlockInfo id (blockInfo i chunk), ?_, rfl⟩, ?_⟩
  · refine List.mem_filter.mpr ⟨(mem_values_flatten _ _).mpr ⟨k, bucket, ?_, inBucket⟩, ?_⟩
    · rw [get?_filter, held, Option.filter_some, if_pos (decide_eq_true (keyed ▸ begins))]
    · have unexpired : ¬ (blockInfo i chunk).maxExpire < nowUs := not_lt.mpr (live.trans bounds.maxExpire)
      simp [BlockMeta.isExpired, BlockMeta.overlapsKeyPrefix, BlockMeta.fromBlockInfo, unexpired, begins, reached]
  · change stored y ∈ (t.file id).readBlock i
    rw [readBlock_eq _ (sorted.fits id active), List.getElem?_eq_getElem bound, here]
    exact List.mem_map_of_mem inChunk

section
variable {log : List InternalRecord} {e : Engine} {p : Bytes} {nowUs : Int}

/-- What a scan may take first of a slot was written, under the prefix. -/
theorem sees_written (session : Session log e) {slot : Bytes ×ₗ Int} {h : InternalRecord}
    (sees : Sees e.memtables e.tables (prefixQuery p) nowUs (prefixBlocks e.tables p nowUs) slot h) :
    ∃ y ∈ log, h.op = y.op ∧ h.toRecord = y.toRecord ∧ p <+: y.key := by
  unfold Sees at sees
  split at sees
  · next r newest =>
    subst sees
    have inMem := (List.mem_insertionSort _).mp (List.mem_of_find?_eq_some newest)
    have written := session.mem_log (mem_memResults session.frozen inMem)
    rw [memResults_eq, MemTables.gather, session.frozen, List.flatMap_nil, List.append_nil] at inMem
    have matched := (List.mem_filter.mp inMem).2
    simp only [memFilter, prefixQuery, reduceCtorEq, false_and, if_false, Bool.and_eq_true] at matched
    exact ⟨h, written, rfl, rfl, List.isPrefixOf_iff_prefix.mp matched.1.1⟩
  · obtain ⟨y, inTable, _, op, same, _, _, key, _⟩ := blockHead_record session.tables rfl sees
    exact ⟨y, session.held y inTable, op, same, List.isPrefixOf_iff_prefix.mp key⟩

/-- What a scan shows was put, and under the prefix. -/
theorem scan_written (session : Session log e) {out : List Record}
    (scan : Scans e.memtables e.tables (prefixQuery p) nowUs out) {r : Record} (member : r ∈ out) :
    ∃ y ∈ log, y.op = .put ∧ y.toRecord = r ∧ p <+: y.key := by
  have answer : e.tables.index.query (prefixQuery p).keyFilter (prefixQuery p).timeRange nowUs =
      some (prefixBlocks e.tables p nowUs) := rfl
  have found := (mem_iff_atSlot (scan_strict session.tables answer scan) r).mp member
  refine (scan_slot_iff session.tables answer (numbered_results session _) (slotOf r)
    (fun result => ∀ r, result = some r → ∃ y ∈ log, y.op = .put ∧ y.toRecord = r ∧ p <+: y.key)).mpr
    ⟨fun h sees r shown => ?_, nofun⟩ out scan r found
  obtain ⟨y, written, op, same, front⟩ := sees_written session sees
  unfold shownAs at shown
  split_ifs at shown with visible
  obtain rfl := Option.some.inj shown
  have put : h.op = .put := by
    simp only [isShown, Bool.and_eq_true, decide_eq_true_eq] at visible
    exact visible.1
  exact ⟨y, written, op.symm.trans put, same.symm, front⟩

/-- A range delete that the scan sees hides every key that it covers. -/
theorem covered_hidden (session : Session log e) {start stop : Bytes}
    (visible : (start, stop) ∈ scanTombstones e.memtables e.tables (prefixQuery p) nowUs (prefixBlocks e.tables p nowUs))
    (covers : ∀ key, p <+: key → start ≤ key ∧ key < stop) {out : List Record}
    (scan : Scans e.memtables e.tables (prefixQuery p) nowUs out) : out = [] := by
  have answer : e.tables.index.query (prefixQuery p).keyFilter (prefixQuery p).timeRange nowUs =
      some (prefixBlocks e.tables p nowUs) := rfl
  have hidden : ∀ slot, atSlot out slot = none := fun slot => by
    refine (scan_slot_iff session.tables answer (numbered_results session _) slot (· = none)).mpr
      ⟨fun h sees => ?_, fun _ => rfl⟩ out scan
    obtain ⟨y, _, _, same, front⟩ := sees_written session sees
    have sameKey : h.key = y.key := congrArg Record.key same
    have covered : isTombstoned (scanTombstones e.memtables e.tables (prefixQuery p) nowUs
        (prefixBlocks e.tables p nowUs)) h = true :=
      List.any_eq_true.mpr ⟨_, visible, decide_eq_true (covers h.key (sameKey.symm ▸ front))⟩
    simp [shownAs, isShown, covered]
  refine List.eq_nil_iff_forall_not_mem.mpr fun r inside => ?_
  have found := (mem_iff_atSlot (scan_strict session.tables answer scan) r).mp inside
  rw [hidden] at found
  cases found

variable (retained : Retained log e) (tagged : Tagged p) (clock : nowUs < i64Max)
include retained tagged clock

theorem tombstone_visible {d : InternalRecord} (member : d ∈ log) (op : d.op = .deleteRange) (front : p <+: d.key)
    {stop : Bytes} (proper : stop ≠ []) (range : d.rangeEnd = some stop) :
    (d.key, stop) ∈ scanTombstones e.memtables e.tables (prefixQuery p) nowUs (prefixBlocks e.tables p nowUs) := by
  have live := (retained.timeless d member).2
  have shape : tombstoneOf d = some (d.key, stop) := by simp [tombstoneOf, op, range]
  rcases retained.present d member with active | table
  · refine List.mem_append_left _ (List.mem_filterMap.mpr ⟨d, ?_, shape⟩)
    rw [memResults_eq, MemTables.gather, retained.frozen, List.flatMap_nil, List.append_nil]
    refine List.mem_filter.mpr ⟨active, ?_⟩
    simp [memFilter, prefixQuery, KeyFilter.matchesKey, inTimeRange, front, live, clock.le]
  · obtain ⟨block, candidate, inside⟩ := scanned_block retained.tables retained.synced tagged table
      (live ▸ clock.le) front
    refine List.mem_append_right _ (List.mem_flatMap.mpr ⟨block, candidate, List.mem_filterMap.mpr
      ⟨stored d, List.mem_filter.mpr ⟨inside, by simp [live, clock]⟩, ?_⟩⟩)
    simp [tombstoneOf, stored, InternalRecord.dropEmptyEnd, op, range, proper]

/-- A range delete of a whole prefix hides what was there and all that comes. -/
theorem prefix_deleted {d : InternalRecord} (member : d ∈ log) (op : d.op = .deleteRange) (key : d.key = p)
    (range : d.rangeEnd = some (incrementPrefixBytes p)) {out : List Record}
    (scan : Scans e.memtables e.tables (prefixQuery p) nowUs out) : out = [] := by
  have proper : incrementPrefixBytes p ≠ [] := fun empty =>
    absurd ((between_increment tagged).mpr (List.prefix_refl p)).2 (by rw [empty]; exact List.not_lt_nil p)
  have visible := tombstone_visible retained tagged clock member op (key ▸ List.prefix_refl _) proper range
  exact covered_hidden retained.toSession visible (fun _ front => key ▸ (between_increment tagged).mpr front) scan

/-- Without range deletes a scan shows a put that is alone on its slot. -/
theorem lone_put_scanned (points : ∀ r ∈ log, r.op = .put ∨ r.op = .delete) {q : InternalRecord} (member : q ∈ log)
    (put : q.op = .put) (front : p <+: q.key) (alone : ∀ r ∈ log, r.slot = q.slot → r = q) {out : List Record}
    (scan : Scans e.memtables e.tables (prefixQuery p) nowUs out) : q.toRecord ∈ out := by
  have last : lastVersion log q.slot = some q := by
    cases found : lastVersion log q.slot with
    | none => exact absurd rfl ((lastVersion_eq_none log q.slot).mp found q member)
    | some r =>
      obtain ⟨inside, here⟩ := mem_of_lastVersion found
      rw [alone r inside here]
  have unexpired : ∀ r ∈ log, nowUs ≤ r.expireAt := fun r inside => (retained.timeless r inside).2.symm ▸ clock.le
  have shows : lastVersion e.memtables.active.records q.slot = none → TablesShow log e.tables p nowUs q.slot := by
    intro inactive
    have same : ∀ h, BlockHead e.tables (prefixQuery p) nowUs (prefixBlocks e.tables p nowUs) q.slot h →
        h.op = q.op ∧ h.toRecord = q.toRecord := fun h head => by
      obtain ⟨y, inTable, here, op, record, _⟩ := blockHead_record retained.tables rfl head
      obtain rfl := alone y (retained.held y inTable) here
      exact ⟨op, record⟩
    refine ⟨fun q' last' _ _ => ?_, fun d last' delete => ?_⟩
    · obtain rfl := Option.some.inj (last.symm.trans last')
      refine ⟨?_, fun h head => ⟨(same h head).1.trans put, (same h head).2⟩⟩
      have table := (retained.present q member).resolve_left fun active =>
        (lastVersion_eq_none _ _).mp inactive q active rfl
      obtain ⟨block, candidate, inside⟩ := scanned_block retained.tables retained.synced tagged table
        (unexpired q member) front
      have shown : ∃ r ∈ blockSource (prefixQuery p) block nowUs, r.slot = q.slot := by
        have live : nowUs < q.expireAt := (retained.timeless q member).2.symm ▸ clock
        unfold blockSource
        split_ifs
        · exact ⟨stored q, by simp [fullScanBlock, liveRecords, inside, live, put], stored_slot q⟩
        · refine ⟨{ stored q with seq := 0 }, List.mem_map.mpr ⟨stored q, ?_, rfl⟩, stored_slot q⟩
          simp [liveRecords, inside, live, put, prefixQuery, KeyFilter.matchesKey, inTimeRange, front]
      obtain ⟨r, inSource, here⟩ := shown
      obtain ⟨h, first⟩ := Option.isSome_iff_exists.mp
        (List.find?_isSome.mpr ⟨r, inSource, decide_eq_true here⟩ : (slotFirst _ q.slot).isSome)
      exact ⟨h, block, candidate, first⟩
    · obtain rfl := Option.some.inj (last.symm.trans last')
      simp [put] at delete
  have found := (slot_iff retained.toSession p points unexpired q.slot).mpr shows out scan
  have due : lastPut log p q.slot = some q.toRecord := by simp [lastPut, last, put, front]
  exact mem_of_atSlot (found.trans due)

end

/-- A slot that was never written is not read. -/
theorem getSync_unwritten {log : List InternalRecord} {e : Engine} (session : Session log e) (search : SlotSearch)
    {key : Bytes} {ts nowUs : Int} (unwritten : ∀ r ∈ log, r.slot ≠ toLex (key, ts)) :
    getSync search e.memtables e.tables key ts nowUs = none := by
  have inactive : lastVersion e.memtables.active.records (toLex (key, ts)) = none :=
    (lastVersion_eq_none _ _).mpr fun r member => unwritten r (session.mem_log member)
  have absent : e.memtables.get key ts nowUs = none := by
    rw [get_eq e.memtables session.frozen session.indexed, inactive]
    rfl
  rw [getSync_tables search session.tables e.memtables key ts nowUs absent, Option.map_eq_none_iff,
    firstAnswer_eq_none_iff]
  intro id q answers
  have active := (mem_tableIds _ session.tables.ok id).mp answers.live
  obtain ⟨inside, here⟩ := hit_slot search (searchedRecords_sorted session.tables active key nowUs) answers.picked
  obtain ⟨written, shape, sublist⟩ := searchedRecords_stored session.tables active key nowUs
  obtain ⟨x, there, rfl⟩ := List.mem_map.mp (shape ▸ inside)
  exact unwritten x (session.held x (List.mem_flatMap.mpr ⟨id, active, sublist.subset there⟩)) here

/-- A key that was written and never deleted is read, as one of the records it was written with. -/
theorem getSync_written {log : List InternalRecord} {e : Engine} (retained : Retained log e) (search : SlotSearch)
    {nowUs : Int} (clock : nowUs < i64Max) {y : InternalRecord} (member : y ∈ log)
    (kept : ∀ r ∈ log, r.key = y.key → r.op ≠ .delete) :
    ∃ r ∈ log, r.key = y.key ∧ getSync search e.memtables e.tables y.key 0 nowUs = some r.toRecord := by
  have slotKey : ∀ r ∈ log, r.key = y.key → r.slot = toLex (y.key, 0) := fun r inside same => by
    rw [InternalRecord.slot, same, (retained.timeless r inside).1]
  have got := get_eq e.memtables retained.frozen retained.indexed y.key 0 nowUs
  cases last : lastVersion e.memtables.active.records (toLex (y.key, 0)) with
  | some r =>
    obtain ⟨active, here⟩ := mem_of_lastVersion last
    have written := retained.mem_log active
    have same : r.key = y.key := (Prod.mk.inj (toLex_inj.mp here)).1
    have live : nowUs ≤ r.expireAt := (retained.timeless r written).2.symm ▸ clock.le
    rw [last, Option.filter_some, if_pos (decide_eq_true live)] at got
    refine ⟨r, written, same, ?_⟩
    rw [getSync, got]
    exact if_pos (kept r written same)
  | none =>
    rw [last] at got
    rw [getSync_tables search retained.tables e.memtables y.key 0 nowUs got]
    have table := (retained.present y member).resolve_left fun active =>
      (lastVersion_eq_none _ _).mp last y active (slotKey y member rfl)
    obtain ⟨id, active, inFile⟩ := List.mem_flatMap.mp table
    have stored_in : ∀ j ∈ e.tables.activeIds, ∀ x ∈ searchedRecords e.tables y.key nowUs j,
        ∃ r ∈ log, x = stored r := fun j there x found => by
      obtain ⟨written, shape, sublist⟩ := searchedRecords_stored retained.tables there y.key nowUs
      obtain ⟨r, inside, rfl⟩ := List.mem_map.mp (shape ▸ found)
      exact ⟨r, retained.held r (List.mem_flatMap.mpr ⟨j, there, sublist.subset inside⟩), rfl⟩
    have live : ∀ r ∈ (e.tables.file id).records, nowUs ≤ r.expireAt := fun r inside =>
      (retained.timeless r (retained.held r (List.mem_flatMap.mpr ⟨id, active, inside⟩))).2.symm ▸ clock.le
    obtain ⟨x, found, same⟩ := searched_key retained.tables retained.recorded active live inFile
    have ordered := searchedRecords_sorted retained.tables active y.key nowUs
    -- The search of that block does not miss, and what it picks is neither expired nor a delete.
    have answered : ∃ q, Answers search e.tables y.key 0 nowUs id q := by
      cases picked : hit search (searchedRecords e.tables y.key nowUs id) (toLex (y.key, 0)) with
      | none =>
        obtain ⟨r, inside, rfl⟩ := stored_in id active x found
        exact absurd (slotKey r inside same) (hit_none search ordered picked (stored r) found)
      | some q =>
        obtain ⟨inside, here⟩ := hit_slot search ordered picked
        obtain ⟨r, written, rfl⟩ := stored_in id active q inside
        have sameKey : r.key = y.key := (Prod.mk.inj (toLex_inj.mp here)).1
        exact ⟨_, (mem_tableIds _ retained.tables.ok id).mpr active, picked,
          (retained.timeless r written).2.symm ▸ clock, kept r written sameKey⟩
    cases first : (tableIds e.tables).findSome? (tableAnswer search e.tables y.key 0 nowUs) with
    | none =>
      obtain ⟨q, answers⟩ := answered
      exact absurd answers ((firstAnswer_eq_none_iff search e.tables y.key 0 nowUs).mp first id q)
    | some q =>
      obtain ⟨j, answers, _⟩ := (firstAnswer_iff search e.tables y.key 0 nowUs q).mp first
      have there := (mem_tableIds _ retained.tables.ok j).mp answers.live
      obtain ⟨inside, here⟩ := hit_slot search (searchedRecords_sorted retained.tables there y.key nowUs) answers.picked
      obtain ⟨r, written, rfl⟩ := stored_in j there q inside
      exact ⟨r, written, (Prod.mk.inj (toLex_inj.mp here)).1, rfl⟩

end FlowDb.LastingRecords
