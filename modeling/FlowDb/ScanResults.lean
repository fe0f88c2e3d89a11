import FlowDb.EngineRuns
import FlowDb.Scans

/-! Prefix scans of puts and point deletes: are they last-write-wins? What the active
memtable holds is shown right; a slot that is only in tables is shown by the first
record of any candidate block, whichever flush wrote that block. -/
namespace FlowDb.ScanResults
open ByteString OrderedMap Records Sstable BlockIndex BlockMetaIndex TableStore MemoryTables Reads PointReads
open Scans EngineOps EngineRuns

/-- What a scan of `p` should have of a slot: the last write, if that is a put. -/
def lastPut (log : List InternalRecord) (p : Bytes) (slot : Bytes ×ₗ Int) : Option Record :=
  ((lastVersion log slot).filter fun q => decide (q.op = .put ∧ p <+: q.key)).map InternalRecord.toRecord

structure LastWrites (log : List InternalRecord) (p : Bytes) (out : List Record) : Prop where
  ascending : out.Pairwise fun a b => slotOf a < slotOf b
  exact : ∀ r, r ∈ out ↔ lastPut log p (slotOf r) = some r

/-- The candidate blocks of a scan put nothing but the slot's last write first. -/
structure TablesShow (log : List InternalRecord) (t : Tables) (p : Bytes) (nowUs : Int) (slot : Bytes ×ₗ Int) :
    Prop where
  put : ∀ q, lastVersion log slot = some q → q.op = .put → p <+: q.key →
    (∃ h, BlockHead t (prefixQuery p) nowUs (prefixBlocks t p nowUs) slot h) ∧
      ∀ h, BlockHead t (prefixQuery p) nowUs (prefixBlocks t p nowUs) slot h → h.op = .put ∧ h.toRecord = q.toRecord
  delete : ∀ d, lastVersion log slot = some d → d.op = .delete →
    ∀ h, BlockHead t (prefixQuery p) nowUs (prefixBlocks t p nowUs) slot h → h.op ≠ .put

theorem numbered_results {log : List InternalRecord} {e : Engine} {nowUs : Int} (session : Session log e) (query : Query) :
    ∀ r ∈ memResults e.memtables query nowUs, 0 < r.seq := fun r member =>
  (session.numbered r (session.mem_log (mem_memResults session.frozen member))).1

theorem lastWrites_iff {log : List InternalRecord} {p : Bytes} {out : List Record}
    (strict : out.Pairwise fun a b => slotOf a < slotOf b) :
    LastWrites log p out ↔ ∀ slot, atSlot out slot = lastPut log p slot := by
  have slot_lastPut : ∀ slot r, lastPut log p slot = some r → slotOf r = slot := by
    intro slot r found
    obtain ⟨q, kept, rfl⟩ := Option.map_eq_some_iff.mp found
    exact (mem_of_lastVersion (Option.filter_eq_some_iff.mp kept).1).2
  constructor
  · rintro ⟨_, exact⟩ slot
    refine Option.ext fun r => ⟨fun found => ?_, fun expected => ?_⟩
    · have here := slotOf_atSlot found
      exact here ▸ (exact r).mp (List.mem_of_find?_eq_some found)
    · have here := slot_lastPut slot r expected
      exact here ▸ (mem_iff_atSlot strict r).mp ((exact r).mpr (here ▸ expected))
  · exact fun same => ⟨strict, fun r => by rw [mem_iff_atSlot strict, same]⟩

theorem shownAs_nil (h : InternalRecord) : shownAs [] h = if h.op = .put then some h.toRecord else none := by
  simp [shownAs, isShown, isTombstoned]

section
variable {log : List InternalRecord} {e : Engine} (session : Session log e) {nowUs : Int} (p : Bytes)
include session

theorem no_tombstones (points : ∀ r ∈ log, r.op = .put ∨ r.op = .delete) :
    scanTombstones e.memtables e.tables (prefixQuery p) nowUs (prefixBlocks e.tables p nowUs) = [] := by
  refine List.eq_nil_iff_forall_not_mem.mpr fun range visible => ?_
  obtain ⟨r, source, op, _⟩ := mem_scanTombstones session.tables rfl visible
  have member : r ∈ log := source.elim (fun inMem => session.mem_log (mem_memResults session.frozen inMem)) (session.held r)
  rcases points r member with put | delete <;> simp_all

theorem newestMem_prefix (unexpired : ∀ r ∈ log, nowUs ≤ r.expireAt) (slot : Bytes ×ₗ Int) :
    newestMem e.memtables (prefixQuery p) nowUs slot =
      if p <+: (ofLex slot).1 then lastVersion e.memtables.active.records slot else none := by
  have live : e.memtables.active.records.filter (fun r => decide (nowUs ≤ r.expireAt)) = e.memtables.active.records :=
    List.filter_eq_self.mpr fun r member => decide_eq_true (unexpired r (session.mem_log member))
  rw [newestMem_eq _ session.frozen session.active_increasing, live]
  simp [reaches, memFilter, prefixQuery, KeyFilter.matchesKey, inTimeRange]

theorem lastVersion_recent {slot : Bytes ×ₗ Int} {r : InternalRecord}
    (last : lastVersion e.memtables.active.records slot = some r) : lastVersion log slot = some r := by
  obtain ⟨flushed, shape⟩ := session.recent
  rw [shape, lastVersion_append_list, last, Option.some_or]

/-- The candidate blocks only have slots of the prefix that were written. -/
theorem blockHead_written {slot : Bytes ×ₗ Int} {h : InternalRecord}
    (head : BlockHead e.tables (prefixQuery p) nowUs (prefixBlocks e.tables p nowUs) slot h) :
    p <+: (ofLex slot).1 ∧ lastVersion log slot ≠ none := by
  obtain ⟨y, inTable, rfl, _, _, _, _, key, _⟩ := blockHead_record session.tables rfl head
  exact ⟨List.isPrefixOf_iff_prefix.mp key, fun none => (lastVersion_eq_none log _).mp none y (session.held y inTable) rfl⟩

theorem tablesShow_iff (points : ∀ r ∈ log, r.op = .put ∨ r.op = .delete) (slot : Bytes ×ₗ Int) :
    ((∀ h, BlockHead e.tables (prefixQuery p) nowUs (prefixBlocks e.tables p nowUs) slot h →
        shownAs [] h = lastPut log p slot) ∧
      ((∀ h, ¬ BlockHead e.tables (prefixQuery p) nowUs (prefixBlocks e.tables p nowUs) slot h) →
        none = lastPut log p slot)) ↔ TablesShow log e.tables p nowUs slot := by
  by_cases due : ∃ q, lastVersion log slot = some q ∧ q.op = .put ∧ p <+: q.key
  · obtain ⟨q, last, put, key⟩ := due
    have expected : lastPut log p slot = some q.toRecord := by simp [lastPut, last, put, key]
    have shown : ∀ h, shownAs [] h = some q.toRecord ↔ h.op = .put ∧ h.toRecord = q.toRecord := by
      intro h
      rw [shownAs_nil]
      split_ifs with op <;> simp [op]
    simp only [expected, shown, reduceCtorEq, imp_false, not_forall, not_not]
    constructor
    · rintro ⟨heads, some⟩
      refine ⟨fun q' last' _ _ => ?_, fun d last' delete => ?_⟩
      · obtain rfl := Option.some.inj (last.symm.trans last')
        exact ⟨some, heads⟩
      · obtain rfl := Option.some.inj (last.symm.trans last')
        simp [put] at delete
    · exact fun show' => ⟨(show'.put q last put key).2, (show'.put q last put key).1⟩
  · have expected : lastPut log p slot = none := by
      refine Option.map_eq_none_iff.mpr (Option.filter_eq_none_iff.mpr fun q last kept => due ⟨q, last, ?_⟩)
      simpa using kept
    have hidden : ∀ h, shownAs [] h = none ↔ h.op ≠ .put := by
      intro h
      rw [shownAs_nil]
      split_ifs with op <;> simp [op]
    simp only [expected, hidden, implies_true, and_true]
    constructor
    · exact fun heads => ⟨fun q last put key => absurd ⟨q, last, put, key⟩ due, fun d _ _ => heads⟩
    · intro show' h head
      obtain ⟨key, written⟩ := blockHead_written session p head
      obtain ⟨d, last⟩ := Option.ne_none_iff_exists'.mp written
      obtain ⟨member, rfl⟩ := mem_of_lastVersion last
      rcases points d member with put | delete
      · exact absurd ⟨d, last, put, key⟩ due
      · exact show'.delete d last delete h head

/-- At one slot all results of a scan are right exactly if the memtable or the tables show it. -/
theorem slot_iff (points : ∀ r ∈ log, r.op = .put ∨ r.op = .delete) (unexpired : ∀ r ∈ log, nowUs ≤ r.expireAt)
    (slot : Bytes ×ₗ Int) :
    (∀ out, Scans e.memtables e.tables (prefixQuery p) nowUs out → atSlot out slot = lastPut log p slot) ↔
      (lastVersion e.memtables.active.records slot = none → TablesShow log e.tables p nowUs slot) := by
  have answer : e.tables.index.query (prefixQuery p).keyFilter (prefixQuery p).timeRange nowUs =
      some (prefixBlocks e.tables p nowUs) := rfl
  rw [scan_slot_iff session.tables answer (numbered_results session _) slot
    (· = lastPut log p slot), no_tombstones session p points, ← tablesShow_iff session p points]
  simp only [Sees, newestMem_prefix session p unexpired slot]
  cases active : lastVersion e.memtables.active.records slot with
  | none => simp
  | some r =>
    have last := lastVersion_recent session active
    obtain ⟨_, rfl⟩ := mem_of_lastVersion last
    have here : p <+: (ofLex r.slot).1 ↔ p <+: r.key := Iff.rfl
    simp only [reduceCtorEq, false_imp_iff, iff_true]
    by_cases key : p <+: (ofLex r.slot).1
    · -- The memtable has the slot's last write, and the scan sees that first.
      simp only [if_pos key, forall_eq]
      refine ⟨?_, fun none => by simp at none⟩
      rw [shownAs_nil]
      by_cases put : r.op = .put <;> simp [lastPut, last, put, here.mp key]
    · have noHead : ∀ h, ¬ BlockHead e.tables (prefixQuery p) nowUs (prefixBlocks e.tables p nowUs) r.slot h :=
        fun h head => key (blockHead_written session p head).1
      simp only [if_neg key]
      exact ⟨fun h head => (noHead h head).elim, fun _ => by simp [lastPut, last, here.not.mp key]⟩

end

section
variable (compressedLen : Bytes → Nat) (config : Config) (steps : List (Command × Int))

/-- After any run of writes, point deletes and flushes a prefix scan yields the last
writes in order exactly if, of each slot the active memtable has no record of, the
candidate blocks show the last write. -/
theorem scan_last_write_wins (fits : ∀ r ∈ history config firstSeq steps, TableFits r)
    (points : ∀ step ∈ steps, ∀ start stop, step.1 ≠ .deleteRange start stop) (p : Bytes) (nowUs : Int)
    (unexpired : ∀ r ∈ history config firstSeq steps, nowUs ≤ r.expireAt) :
    let e := run compressedLen (fresh config) steps
    let log := history config firstSeq steps
    ((∃ out, Scans e.memtables e.tables (prefixQuery p) nowUs out) ∧
        ∀ out, Scans e.memtables e.tables (prefixQuery p) nowUs out → LastWrites log p out) ↔
      ∀ slot, lastVersion e.memtables.active.records slot = none → TablesShow log e.tables p nowUs slot := by
  intro e log
  have session : Session log e := session_run compressedLen config steps fits
  have ops : ∀ r ∈ log, r.op = .put ∨ r.op = .delete := points_history config firstSeq steps points
  have answer : e.tables.index.query (prefixQuery p).keyFilter (prefixQuery p).timeRange nowUs =
      some (prefixBlocks e.tables p nowUs) := rfl
  have strict := fun out (scan : Scans e.memtables e.tables (prefixQuery p) nowUs out) =>
    scan_strict session.tables answer scan
  simp only [exists_scan (m := e.memtables) answer, true_and, ← slot_iff session p ops unexpired]
  constructor
  · exact fun right slot out scan => (lastWrites_iff (strict out scan)).mp (right out scan) slot
  · exact fun right out scan => (lastWrites_iff (strict out scan)).mpr fun slot => right slot out scan

end

/-! A put, its delete and a flush: the full scan filters the delete out before it merges. -/

def keyK : Bytes := [107]

def deletedThenFlushed : List (Command × Int) :=
  [(.writeBatch [.new keyK 1 [1]] none, 0), (.deleteBatch [(keyK, 1)], 0), (.flush, 0)]

theorem deleted_put_scanned : ∃ out, Scans (run List.length (fresh {}) deletedThenFlushed).memtables
    (run List.length (fresh {}) deletedThenFlushed).tables (prefixQuery []) 0 out ∧
      ¬ LastWrites (history {} firstSeq deletedThenFlushed) [] out := by
  refine ⟨[.new keyK 1 [1]], ⟨⟨[[.fromRecord (.new keyK 1 [1]) 0]], []⟩, by decide +kernel, by rfl⟩, fun right => ?_⟩
  have shown := (right.exact (.new keyK 1 [1])).mp (by simp)
  exact absurd shown (by decide +kernel)

theorem scan_last_write_wins_deleted :
    let e := run List.length (fresh {}) deletedThenFlushed
    let log := history {} firstSeq deletedThenFlushed
    ((∃ out, Scans e.memtables e.tables (prefixQuery []) 0 out) ∧
        ∀ out, Scans e.memtables e.tables (prefixQuery []) 0 out → LastWrites log [] out) ↔
      ∀ slot, lastVersion e.memtables.active.records slot = none → TablesShow log e.tables [] 0 slot :=
  scan_last_write_wins List.length {} deletedThenFlushed (by
    intro r member
    have written : r ∈ [InternalRecord.fromRecord (.new keyK 1 [1]) 1000000, .delete keyK 1 1000001] := member
    rcases List.mem_pair.mp written with rfl | rfl <;> constructor <;> decide)
    (by simp [deletedThenFlushed]) [] 0 (by decide)

end FlowDb.ScanResults
