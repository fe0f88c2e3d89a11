import FlowDb.ScanResults
import Mathlib.Data.List.Find
import Mathlib.Data.List.MinMax

/-! `get_latest`: the newest put of a key over the memtables and the tables. Deletes are
dropped before the maximum is taken, and the tables are asked in ascending order of id
until one answers. -/
namespace FlowDb.LatestReads
open ByteString OrderedMap Records Sstable BlockIndex BlockMetaIndex TableStore MemoryTables EngineOps Reads PointReads
open EngineRuns ScanResults

-- Records are compared by the order the integers compute with.
local instance intPreorder : Preorder Int := Int.instLinearOrder.toPreorder

/-- The later of two records of a key: the greater time, then the greater number. -/
def version (r : InternalRecord) : Int ×ₗ Nat := toLex (r.ts, r.seq)

-- `max_by_key` returns the last of several greatest elements.
def memTableLatest (t : MemTable) (key : Bytes) (nowUs : Int) : Option InternalRecord :=
  (t.records.filter fun r =>
    decide (r.key = key ∧ nowUs ≤ r.expireAt ∧ r.op ≠ .delete ∧ r.op ≠ .deleteRange)).reverse.argmax version

/-- `MemTables::get_latest`: a frozen table only counts where it is strictly later. -/
def memTablesLatest (m : MemTables) (key : Bytes) (nowUs : Int) : Option InternalRecord :=
  ((m.active :: m.frozen).filterMap fun t => memTableLatest t key nowUs).argmax version

/-- The loop of `block_search_latest`, which keeps the first of several greatest records. -/
def latestOfBlock (records : List InternalRecord) (key : Bytes) (nowUs : Int) : Option InternalRecord :=
  (records.filter fun r => decide (r.key = key ∧ nowUs < r.expireAt ∧ r.op ≠ .delete)).argmax version

def blockSearchLatest (t : Tables) (key : Bytes) (nowUs : Int) (m : BlockMeta) : Option Record :=
  (latestOfBlock ((t.file m.sstId).readBlock m.blockIdx) key nowUs).map fun r => ⟨key, r.ts, r.expireAt, r.value⟩

/-- `Engine::get_latest`. -/
def getLatest (m : MemTables) (t : Tables) (key : Bytes) (nowUs : Int) : Option Record :=
  let memLatest := memTablesLatest m key nowUs
  let sstLatest := t.index.queryPointInline key nowUs (blockSearchLatest t key nowUs)
  match memLatest, sstLatest with
  | some m, some s => if s.ts ≤ m.ts then some m.toRecord else some s
  | some m, none => some m.toRecord
  | none, some s => some s
  | none, none => none

/-! ### What it should return -/

/-- Of the slots of a key whose last write is a put, the one with the greatest time. -/
structure Latest (log : List InternalRecord) (key : Bytes) (w : InternalRecord) : Prop where
  last : lastVersion log w.slot = some w
  ofKey : w.key = key
  op : w.op = .put
  newest : ∀ q, lastVersion log q.slot = some q → q.key = key → q.op = .put → q.ts ≤ w.ts

theorem slot_eq {a b : InternalRecord} (key : a.key = b.key) (ts : a.ts = b.ts) : a.slot = b.slot := by
  simp [InternalRecord.slot, key, ts]

theorem Latest.unique {log : List InternalRecord} {key : Bytes} {v w : InternalRecord} (first : Latest log key v)
    (second : Latest log key w) : v = w := by
  have ts : v.ts = w.ts :=
    le_antisymm (second.newest v first.last first.ofKey first.op) (first.newest w second.last second.ofKey second.op)
  have same := slot_eq (first.ofKey.trans second.ofKey.symm) ts
  exact Option.some.inj (first.last.symm.trans (same ▸ second.last))

/-- The first table, in the order a read asks them, whose searched block has a put of the key. -/
structure FirstHolding (t : Tables) (key : Bytes) (nowUs : Int) (id : Nat) : Prop where
  live : id ∈ tableIds t
  holds : ∃ q ∈ searchedRecords t key nowUs id, q.key = key ∧ q.op = .put
  first : ∀ j ∈ tableIds t, j < id → ∀ q ∈ searchedRecords t key nowUs j, q.key = key → q.op ≠ .put

/-- The puts of a key in the active memtable and in the searched block of the first table that has one there. -/
structure Visible (e : Engine) (key : Bytes) (nowUs : Int) (q : InternalRecord) : Prop where
  ofKey : q.key = key
  op : q.op = .put
  held : q ∈ e.memtables.active.records ∨
    ∃ id, FirstHolding e.tables key nowUs id ∧ q ∈ searchedRecords e.tables key nowUs id

def firstPutAt (records : List InternalRecord) (slot : Bytes ×ₗ Int) : Option InternalRecord :=
  records.find? fun q => decide (q.op = .put ∧ q.slot = slot)

/-- Where the newest put that counts is in sight, and no put that does not count hides it. -/
structure LatestShown (log : List InternalRecord) (e : Engine) (key : Bytes) (nowUs : Int) : Prop where
  newest : ∀ w, Latest log key w → ∀ q, Visible e key nowUs q → q.ts ≤ w.ts
  found : ∀ w, Latest log key w → w ∈ e.memtables.active.records ∨ ∃ id, FirstHolding e.tables key nowUs id ∧
    (firstPutAt (searchedRecords e.tables key nowUs id) w.slot).map InternalRecord.toRecord = some w.toRecord
  nothing : (∀ w, ¬ Latest log key w) → ∀ q, ¬ Visible e key nowUs q

/-! ### What it returns -/

/-- `argmax` is the first of the greatest elements. -/
theorem find?_argmax {α β : Type} [LinearOrder β] (f : α → β) (l : List α) {m : α} (top : l.argmax f = some m) :
    l.find? (fun a => decide (f a = f m)) = some m := by
  induction l generalizing m with
  | nil => simp at top
  | cons a rest ih =>
    rw [List.argmax_cons] at top
    cases best : rest.argmax f with
    | none =>
      obtain rfl : a = m := by simpa [best] using top
      simp
    | some c =>
      simp only [best] at top
      split_ifs at top with later
      · obtain rfl := Option.some.inj top
        rw [List.find?_cons_of_neg (by simpa using later.ne), ih best]
      · obtain rfl := Option.some.inj top
        simp

def puts (key : Bytes) (records : List InternalRecord) : List InternalRecord :=
  records.filter fun r => decide (r.key = key ∧ r.op = .put)

theorem mem_puts {key : Bytes} {records : List InternalRecord} {r : InternalRecord} :
    r ∈ puts key records ↔ r ∈ records ∧ r.key = key ∧ r.op = .put := by
  simp [puts]

section
variable {log : List InternalRecord} {e : Engine} (session : Session log e) {nowUs : Int}
variable (points : ∀ r ∈ log, r.op = .put ∨ r.op = .delete) (unexpired : ∀ r ∈ log, nowUs < r.expireAt) (key : Bytes)
include session points unexpired

theorem memTablesLatest_eq : memTablesLatest e.memtables key nowUs =
    (puts key e.memtables.active.records).reverse.argmax version := by
  have same : memTableLatest e.memtables.active key nowUs = (puts key e.memtables.active.records).reverse.argmax version := by
    rw [memTableLatest, puts]
    congr 2
    refine List.filter_congr fun r member => ?_
    have live := unexpired r (session.mem_log member)
    rcases points r (session.mem_log member) with op | op <;> simp [op, live.le]
  rw [memTablesLatest, session.frozen, ← same]
  cases latest : memTableLatest e.memtables.active key nowUs <;> simp [latest]

theorem latestOfBlock_eq {id : Nat} (active : id ∈ e.tables.activeIds) :
    latestOfBlock (searchedRecords e.tables key nowUs id) key nowUs =
      (puts key (searchedRecords e.tables key nowUs id)).argmax version := by
  obtain ⟨written, shape, sublist⟩ := searchedRecords_stored session.tables active key nowUs
  rw [latestOfBlock, puts, shape]
  congr 1
  refine List.filter_congr fun r member => ?_
  obtain ⟨x, there, rfl⟩ := List.mem_map.mp member
  have inLog := session.held x (List.mem_flatMap.mpr ⟨id, active, sublist.subset there⟩)
  have live := unexpired x inLog
  rcases points x inLog with op | op <;> simp [op, live]

/-- What the tables answer: the newest put of the key in the first searched block that has one. -/
theorem sstLatest_eq : e.tables.index.queryPointInline key nowUs (blockSearchLatest e.tables key nowUs) =
    ((tableIds e.tables).findSome? fun id => (puts key (searchedRecords e.tables key nowUs id)).argmax version).map
      InternalRecord.toRecord := by
  have named : ∀ id r, (puts key (searchedRecords e.tables key nowUs id)).argmax version = some r →
      r ∈ searchedRecords e.tables key nowUs id ∧ r.key = key := by
    intro id r top
    obtain ⟨inside, ofKey, _⟩ := mem_puts.mp (List.argmax_mem (Option.mem_def.mpr top))
    exact ⟨inside, ofKey⟩
  have answers : ∀ id ∈ e.tables.activeIds,
      (searchedBlock (e.tables.metas id) key nowUs).bind (blockSearchLatest e.tables key nowUs) =
        ((puts key (searchedRecords e.tables key nowUs id)).argmax version).map InternalRecord.toRecord := by
    intro id active
    rw [← latestOfBlock_eq session points unexpired key active]
    cases found : searchedBlock (e.tables.metas id) key nowUs with
    | none => simp [searchedRecords, found, latestOfBlock]
    | some m =>
      have shape : searchedRecords e.tables key nowUs id = (e.tables.file m.sstId).readBlock m.blockIdx := by
        simp [searchedRecords, found]
      rw [Option.bind_some, blockSearchLatest, ← shape, latestOfBlock_eq session points unexpired key active]
      refine Option.map_congr fun r top => ?_
      obtain ⟨_, rfl⟩ := named id r top
      rfl
  rw [queryPointInline_tables session.tables key nowUs _ _ answers, List.map_findSome?]
  · rfl
  · intro id active b found
    obtain ⟨r, top, _⟩ := Option.map_eq_some_iff.mp found
    obtain ⟨inside, ofKey⟩ := named id r top
    exact searchedRecords_passes session.tables active key nowUs inside ofKey

omit session points unexpired in
theorem top_iff (id : Nat) (q : InternalRecord) : FirstHolding e.tables key nowUs id ∧
      (puts key (searchedRecords e.tables key nowUs id)).argmax version = some q ↔
    id ∈ tableIds e.tables ∧ (puts key (searchedRecords e.tables key nowUs id)).argmax version = some q ∧
      ∀ j ∈ tableIds e.tables, j < id → (puts key (searchedRecords e.tables key nowUs j)).argmax version = none := by
  have empty : ∀ j, (puts key (searchedRecords e.tables key nowUs j)).argmax version = none ↔
      ∀ q ∈ searchedRecords e.tables key nowUs j, q.key = key → q.op ≠ .put := by
    intro j
    rw [List.argmax_eq_none, List.eq_nil_iff_forall_not_mem]
    simp only [mem_puts, not_and]
  simp only [empty]
  constructor
  · exact fun ⟨holding, top⟩ => ⟨holding.live, top, holding.first⟩
  · rintro ⟨live, top, first⟩
    obtain ⟨inside, ofKey, op⟩ := mem_puts.mp (List.argmax_mem (Option.mem_def.mpr top))
    exact ⟨⟨live, ⟨q, inside, ofKey, op⟩, first⟩, top⟩

end

/-- The merge of the two answers: the memtable wins ties. -/
def laterOf : Option InternalRecord → Option InternalRecord → Option InternalRecord
  | some m, some s => if s.ts ≤ m.ts then some m else some s
  | m, s => m.or s

theorem laterOf_eq_some {m s : Option InternalRecord} {r : InternalRecord} : laterOf m s = some r ↔
    (m = some r ∧ ∀ x, s = some x → x.ts ≤ r.ts) ∨ (s = some r ∧ ∀ x, m = some x → x.ts < r.ts) := by
  rcases m with _ | m <;> rcases s with _ | s
  · simp [laterOf]
  · simp [laterOf]
  · simp [laterOf]
  · simp only [laterOf, Option.some.injEq, forall_eq']
    split_ifs with order
    · constructor
      · rintro ⟨⟩
        exact Or.inl ⟨rfl, order⟩
      · rintro (⟨rfl, _⟩ | ⟨rfl, less⟩)
        · rfl
        · exact absurd order less.not_ge
    · constructor
      · rintro ⟨⟩
        exact Or.inr ⟨rfl, not_le.mp order⟩
      · rintro (⟨rfl, le⟩ | ⟨rfl, _⟩)
        · exact absurd le order
        · rfl

/-- A read shows `r` from the memtable or from the first table that holds the key. -/
inductive Shows (e : Engine) (key : Bytes) (nowUs : Int) (r : InternalRecord) : Prop
  | memory (top : (puts key e.memtables.active.records).reverse.argmax version = some r)
      (tables : ∀ id x, FirstHolding e.tables key nowUs id →
        (puts key (searchedRecords e.tables key nowUs id)).argmax version = some x → x.ts ≤ r.ts)
  | table (id : Nat) (holding : FirstHolding e.tables key nowUs id)
      (top : (puts key (searchedRecords e.tables key nowUs id)).argmax version = some r)
      (memory : ∀ x, (puts key e.memtables.active.records).reverse.argmax version = some x → x.ts < r.ts)

theorem ts_le_of_version {a b : InternalRecord} (le : version a ≤ version b) : a.ts ≤ b.ts :=
  Prod.Lex.monotone_fst _ _ le

theorem exists_top {l : List InternalRecord} {q : InternalRecord} (member : q ∈ l) :
    ∃ x, l.argmax version = some x ∧ q.ts ≤ x.ts := by
  cases best : l.argmax version with
  | none =>
    rw [List.argmax_eq_none.mp best] at member
    cases member
  | some x => exact ⟨x, rfl, ts_le_of_version (List.le_of_mem_argmax member best)⟩

theorem FirstHolding.unique {t : Tables} {key : Bytes} {nowUs : Int} {i j : Nat} (first : FirstHolding t key nowUs i)
    (second : FirstHolding t key nowUs j) : i = j := by
  have notBefore : ∀ {i j : Nat}, FirstHolding t key nowUs i → FirstHolding t key nowUs j → ¬ i < j := by
    intro i j early late less
    obtain ⟨q, inside, ofKey, op⟩ := early.holds
    exact late.first i early.live less q inside ofKey op
  exact le_antisymm (not_lt.mp (notBefore second first)) (not_lt.mp (notBefore first second))

namespace Shows
variable {e : Engine} {key : Bytes} {nowUs : Int} {r : InternalRecord}

theorem visible (shows' : Shows e key nowUs r) : Visible e key nowUs r := by
  cases shows' with
  | memory top _ =>
    have member := List.mem_reverse.mp (List.argmax_mem (Option.mem_def.mpr top))
    obtain ⟨inside, ofKey, op⟩ := mem_puts.mp member
    exact ⟨ofKey, op, Or.inl inside⟩
  | table id holding top _ =>
    obtain ⟨inside, ofKey, op⟩ := mem_puts.mp (List.argmax_mem (Option.mem_def.mpr top))
    exact ⟨ofKey, op, Or.inr ⟨id, holding, inside⟩⟩

/-- Nothing in sight is later than what is shown. -/
theorem ts_le (shows' : Shows e key nowUs r) {q : InternalRecord} (seen : Visible e key nowUs q) : q.ts ≤ r.ts := by
  obtain ⟨ofKey, op, inMem | ⟨id, holding, inTable⟩⟩ := seen
  · have member : q ∈ (puts key e.memtables.active.records).reverse := List.mem_reverse.mpr (mem_puts.mpr ⟨inMem, ofKey, op⟩)
    cases shows' with
    | memory top _ => exact ts_le_of_version (List.le_of_mem_argmax member top)
    | table _ _ _ memory =>
      obtain ⟨x, best, le⟩ := exists_top member
      exact le.trans (memory x best).le
  · have member := mem_puts.mpr ⟨inTable, ofKey, op⟩
    cases shows' with
    | memory _ tables =>
      obtain ⟨x, best, le⟩ := exists_top member
      exact le.trans (tables id x holding best)
    | table _ other top _ =>
      obtain rfl := other.unique holding
      exact ts_le_of_version (List.le_of_mem_argmax member top)

/-- A read shows something as soon as a put of the key is in sight. -/
theorem exists_of_visible {q : InternalRecord} (seen : Visible e key nowUs q) : ∃ r, Shows e key nowUs r := by
  cases memory : (puts key e.memtables.active.records).reverse.argmax version with
  | none =>
    obtain ⟨ofKey, op, inMem | ⟨id, holding, inTable⟩⟩ := seen
    · have member := List.mem_reverse.mpr (mem_puts.mpr ⟨inMem, ofKey, op⟩)
      rw [List.argmax_eq_none.mp memory] at member
      cases member
    · obtain ⟨x, best, _⟩ := exists_top (mem_puts.mpr ⟨inTable, ofKey, op⟩)
      exact ⟨x, .table id holding best fun y top => by simp [memory] at top⟩
  | some m =>
    by_cases later : ∃ id x, FirstHolding e.tables key nowUs id ∧
        (puts key (searchedRecords e.tables key nowUs id)).argmax version = some x ∧ m.ts < x.ts
    · obtain ⟨id, x, holding, best, less⟩ := later
      exact ⟨x, .table id holding best fun y top => Option.some.inj (memory.symm.trans top) ▸ less⟩
    · exact ⟨m, .memory memory fun id x holding best => not_lt.mp fun less => later ⟨id, x, holding, best, less⟩⟩

end Shows

section
variable {log : List InternalRecord} {e : Engine} (session : Session log e) {nowUs : Int}
variable (points : ∀ r ∈ log, r.op = .put ∨ r.op = .delete) (unexpired : ∀ r ∈ log, nowUs < r.expireAt) (key : Bytes)
include session points unexpired

theorem getLatest_iff (rec : Record) :
    getLatest e.memtables e.tables key nowUs = some rec ↔ ∃ r, Shows e key nowUs r ∧ rec = r.toRecord := by
  have shape : getLatest e.memtables e.tables key nowUs = (laterOf ((puts key e.memtables.active.records).reverse.argmax version)
      ((tableIds e.tables).findSome? fun id =>
        (puts key (searchedRecords e.tables key nowUs id)).argmax version)).map InternalRecord.toRecord := by
    rw [getLatest, memTablesLatest_eq session points unexpired, sstLatest_eq session points unexpired]
    cases (puts key e.memtables.active.records).reverse.argmax version <;>
      cases (tableIds e.tables).findSome? fun id => (puts key (searchedRecords e.tables key nowUs id)).argmax version
    · rfl
    · rfl
    · rfl
    · simp only [laterOf, Option.map_some, InternalRecord.toRecord]
      split_ifs <;> rfl
  have first := fun q => findSome?_first (tableIds_sorted e.tables)
    (fun id => (puts key (searchedRecords e.tables key nowUs id)).argmax version) q
  simp only [← top_iff] at first
  rw [shape, Option.map_eq_some_iff]
  simp only [laterOf_eq_some, first]
  constructor
  · rintro ⟨r, ⟨top, tables⟩ | ⟨⟨id, holding, top⟩, memory⟩, rfl⟩
    · exact ⟨r, .memory top fun id x holding best => tables x ⟨id, holding, best⟩, rfl⟩
    · exact ⟨r, .table id holding top memory, rfl⟩
  · rintro ⟨r, ⟨top, tables⟩ | ⟨id, holding, top, memory⟩, rfl⟩
    · refine ⟨r, Or.inl ⟨top, ?_⟩, rfl⟩
      rintro x ⟨id, holding, best⟩
      exact tables id x holding best
    · exact ⟨r, Or.inr ⟨⟨id, holding, top⟩, memory⟩, rfl⟩

omit points unexpired in
theorem firstPutAt_top {id : Nat} (holding : FirstHolding e.tables key nowUs id) {r : InternalRecord}
    (top : (puts key (searchedRecords e.tables key nowUs id)).argmax version = some r) :
    firstPutAt (searchedRecords e.tables key nowUs id) r.slot = some r := by
  obtain ⟨written, shape, _⟩ :=
    searchedRecords_stored session.tables ((mem_tableIds _ session.tables.ok id).mp holding.live) key nowUs
  have unnumbered : ∀ q ∈ searchedRecords e.tables key nowUs id, q.seq = 0 := by
    intro q member
    obtain ⟨x, _, rfl⟩ := List.mem_map.mp (shape ▸ member)
    rfl
  obtain ⟨inside, rfl, _⟩ := mem_puts.mp (List.argmax_mem (Option.mem_def.mpr top))
  have first := find?_argmax version _ top
  rw [puts, List.find?_filter] at first
  rw [firstPutAt, ← first]
  refine List.find?_congr fun q member => ?_
  have sameVersion : version q = version r ↔ q.ts = r.ts := by
    simp [version, unnumbered q member, unnumbered r inside]
  have sameSlot : q.slot = r.slot ↔ q.key = r.key ∧ q.ts = r.ts := by simp [InternalRecord.slot]
  by_cases ofKey : q.key = r.key <;> by_cases op : q.op = .put <;> simp [sameVersion, sameSlot, ofKey, op]

omit points unexpired in
theorem mem_active_of_slot {w q : InternalRecord} (last : lastVersion log w.slot = some w)
    (inMem : q ∈ e.memtables.active.records) (same : q.slot = w.slot) : w ∈ e.memtables.active.records := by
  cases here : lastVersion e.memtables.active.records w.slot with
  | none => exact absurd same ((lastVersion_eq_none _ _).mp here q inMem)
  | some r =>
    obtain rfl := Option.some.inj ((lastVersion_recent session here).symm.trans last)
    exact (mem_of_lastVersion here).1

omit points unexpired in
/-- The last write in the memtable wins over everything that is not later. -/
theorem shows_of_memory {w r : InternalRecord} (latest : Latest log key w) (inMem : w ∈ e.memtables.active.records)
    (newest : ∀ q, Visible e key nowUs q → q.ts ≤ w.ts) (shows' : Shows e key nowUs r) : r = w := by
  have member := List.mem_reverse.mpr (mem_puts.mpr ⟨inMem, latest.ofKey, latest.op⟩)
  have upper := newest r shows'.visible
  cases shows' with
  | memory top _ =>
    obtain ⟨inside, ofKey, _⟩ := mem_puts.mp (List.mem_reverse.mp (List.argmax_mem (Option.mem_def.mpr top)))
    have order : version w ≤ version r := List.le_of_mem_argmax member top
    have ts : r.ts = w.ts := le_antisymm upper (ts_le_of_version order)
    have seqs : w.seq ≤ r.seq := by
      rcases Prod.Lex.le_iff.mp order with less | ⟨_, le⟩
      · exact absurd ts less.ne'
      · exact le
    have inLog := session.mem_log inside
    have below := lastVersion_seq session.increasing latest.last r inLog (slot_eq (ofKey.trans latest.ofKey.symm) ts)
    exact eq_of_seq_eq session.increasing inLog (session.mem_log inMem) (le_antisymm below seqs)
  | table _ _ _ memory =>
    obtain ⟨x, best, le⟩ := exists_top member
    exact absurd upper (not_le.mpr (le.trans_lt (memory x best)))

omit points unexpired in
theorem shows_latest {w r : InternalRecord} (latest : Latest log key w) (shown : LatestShown log e key nowUs)
    (shows' : Shows e key nowUs r) : r.toRecord = w.toRecord := by
  have newest := shown.newest w latest
  by_cases inMem : w ∈ e.memtables.active.records
  · rw [shows_of_memory session key latest inMem newest shows']
  · rcases shown.found w latest with there | ⟨id, holding, found⟩
    · exact absurd there inMem
    · obtain ⟨q, first, same⟩ := Option.map_eq_some_iff.mp found
      obtain ⟨op, slot⟩ : q.op = .put ∧ q.slot = w.slot := by simpa using List.find?_some first
      have ofSlot : ∀ x : InternalRecord, x.slot = w.slot ↔ x.key = key ∧ x.ts = w.ts := by
        simp [InternalRecord.slot, latest.ofKey]
      have seen : Visible e key nowUs q :=
        ⟨((ofSlot q).mp slot).1, op, Or.inr ⟨id, holding, List.mem_of_find?_eq_some first⟩⟩
      have ts : r.ts = w.ts :=
        le_antisymm (newest r shows'.visible) (((ofSlot q).mp slot).2 ▸ shows'.ts_le seen)
      have here : r.slot = w.slot := (ofSlot r).mpr ⟨shows'.visible.ofKey, ts⟩
      cases shows' with
      | memory top _ =>
        obtain ⟨inside, _⟩ := mem_puts.mp (List.mem_reverse.mp (List.argmax_mem (Option.mem_def.mpr top)))
        exact absurd (mem_active_of_slot session latest.last inside here) inMem
      | table _ other top _ =>
        obtain rfl := other.unique holding
        have picked := firstPutAt_top session key holding top
        rw [here] at picked
        obtain rfl := Option.some.inj (picked.symm.trans first)
        exact same

theorem latestShown_iff : (∀ rec, getLatest e.memtables e.tables key nowUs = some rec ↔
    ∃ w, Latest log key w ∧ rec = w.toRecord) ↔ LatestShown log e key nowUs := by
  simp only [getLatest_iff session points unexpired key]
  constructor
  · intro right
    have shown : ∀ w, Latest log key w → ∃ r, Shows e key nowUs r ∧ w.toRecord = r.toRecord :=
      fun w latest => (right w.toRecord).mpr ⟨w, latest, rfl⟩
    refine ⟨fun w latest q seen => ?_, fun w latest => ?_, fun nothing q seen => ?_⟩
    · obtain ⟨r, shows', same⟩ := shown w latest
      have ts : w.ts = r.ts := congrArg Record.ts same
      exact ts ▸ shows'.ts_le seen
    · obtain ⟨r, shows', same⟩ := shown w latest
      have here : r.slot = w.slot := slot_eq (congrArg Record.key same).symm (congrArg Record.ts same).symm
      cases shows' with
      | memory top _ =>
        obtain ⟨inside, _⟩ := mem_puts.mp (List.mem_reverse.mp (List.argmax_mem (Option.mem_def.mpr top)))
        exact Or.inl (mem_active_of_slot session latest.last inside here)
      | table id holding top _ =>
        refine Or.inr ⟨id, holding, ?_⟩
        rw [← here, firstPutAt_top session key holding top, same]
        rfl
    · obtain ⟨r, shows'⟩ := Shows.exists_of_visible seen
      obtain ⟨w, latest, _⟩ := (right r.toRecord).mp ⟨r, shows', rfl⟩
      exact nothing w latest
  · intro shown rec
    constructor
    · rintro ⟨r, shows', rfl⟩
      by_cases latest : ∃ w, Latest log key w
      · obtain ⟨w, latest⟩ := latest
        exact ⟨w, latest, shows_latest session key latest shown shows'⟩
      · exact absurd shows'.visible (shown.nothing (not_exists.mp latest) r)
    · rintro ⟨w, latest, rfl⟩
      have seen : ∃ q, Visible e key nowUs q := by
        rcases shown.found w latest with inMem | ⟨id, holding, found⟩
        · exact ⟨w, latest.ofKey, latest.op, Or.inl inMem⟩
        · obtain ⟨q, inside, ofKey, op⟩ := holding.holds
          exact ⟨q, ofKey, op, Or.inr ⟨id, holding, inside⟩⟩
      obtain ⟨q, seen⟩ := seen
      obtain ⟨r, shows'⟩ := Shows.exists_of_visible seen
      exact ⟨r, shows', (shows_latest session key latest shown shows').symm⟩

end

section
variable (compressedLen : Bytes → Nat) (config : Config) (steps : List (Command × Int))

/-- After any run of writes, point deletes and flushes `get_latest` returns the newest
slot of the key exactly if the puts in sight of the read show it. -/
theorem get_latest_newest_iff (fits : ∀ r ∈ history config firstSeq steps, TableFits r)
    (points : ∀ step ∈ steps, ∀ start stop, step.1 ≠ .deleteRange start stop) (key : Bytes) (nowUs : Int)
    (unexpired : ∀ r ∈ history config firstSeq steps, nowUs < r.expireAt) :
    let e := run compressedLen (fresh config) steps
    let log := history config firstSeq steps
    (∀ rec, getLatest e.memtables e.tables key nowUs = some rec ↔ ∃ w, Latest log key w ∧ rec = w.toRecord) ↔
      LatestShown log e key nowUs :=
  latestShown_iff (session_run compressedLen config steps fits) (points_history config firstSeq steps points) unexpired key

end

/-! Two flushes: the table with the lower id answers, although the other has a later time. -/

def flushedTwice : List (Command × Int) :=
  [(.writeBatch [.new keyK 10 [1]] none, 0), (.flush, 0), (.writeBatch [.new keyK 20 [2]] none, 0), (.flush, 0)]

theorem flushedTwice_fits : ∀ r ∈ history {} firstSeq flushedTwice, TableFits r := by
  intro r member
  have written : r ∈ [InternalRecord.fromRecord (.new keyK 10 [1]) 1000000, .fromRecord (.new keyK 20 [2]) 1000001] := member
  rcases List.mem_pair.mp written with rfl | rfl <;> constructor <;> decide

theorem get_latest_newest_iff_flushed :
    ¬ LatestShown (history {} firstSeq flushedTwice) (run List.length (fresh {}) flushedTwice) keyK 0 := by
  intro shown
  have right := (get_latest_newest_iff List.length {} flushedTwice flushedTwice_fits (by simp [flushedTwice]) keyK 0
    (by decide)).mpr shown
  obtain ⟨w, latest, same⟩ := (right (.new keyK 10 [1])).mp (by decide +kernel)
  have late := latest.newest (.fromRecord (.new keyK 20 [2]) 1000001) (by decide +kernel) rfl rfl
  have ts : (10 : Int) = w.ts := congrArg Record.ts same
  exact absurd (ts ▸ late) (by decide)

theorem older_time_returned :
    ∃ w, Latest (history {} firstSeq flushedTwice) keyK w ∧ w.ts = 20 ∧
      getLatest (run List.length (fresh {}) flushedTwice).memtables (run List.length (fresh {}) flushedTwice).tables keyK 0 =
        some (.new keyK 10 [1]) := by
  refine ⟨.fromRecord (.new keyK 20 [2]) 1000001, ⟨by decide +kernel, rfl, rfl, ?_⟩, rfl, by decide +kernel⟩
  intro q last _ _
  have written : q ∈ [InternalRecord.fromRecord (.new keyK 10 [1]) 1000000, .fromRecord (.new keyK 20 [2]) 1000001] :=
    (mem_of_lastVersion last).1
  rcases List.mem_pair.mp written with rfl | rfl <;> decide

end FlowDb.LatestReads
