import FlowDb.PointReads

/-! What a scan yields for one slot. The memtable's newest record of the slot wins
over every table; between tables any block's first record of the slot can come out
first, whichever is newer. -/
namespace FlowDb.Scans
open ByteString OrderedMap Records Sstable BlockIndex BlockMetaIndex TableStore MemoryTables Reads PointReads

def slotOf (r : Record) : Bytes ×ₗ Int := toLex (r.key, r.ts)

@[simp] theorem slotOf_toRecord (r : InternalRecord) : slotOf r.toRecord = r.slot := rfl

/-- The record a scan result has of a slot. -/
def atSlot (out : List Record) (slot : Bytes ×ₗ Int) : Option Record := out.find? fun r => decide (slotOf r = slot)

def slotFirst (source : List InternalRecord) (slot : Bytes ×ₗ Int) : Option InternalRecord :=
  source.find? fun r => decide (r.slot = slot)

theorem versionRank_slot_le {a b : InternalRecord} (le : versionRank a ≤ versionRank b) : a.slot ≤ b.slot :=
  Prod.Lex.monotone_fst _ _ le

theorem versionRank_slot_eq {a b : InternalRecord} (same : versionRank a = versionRank b) : a.slot = b.slot :=
  congrArg (fun rank => (ofLex rank).1) same

theorem versionRank_le_iff {a b : InternalRecord} (same : a.slot = b.slot) :
    versionRank a ≤ versionRank b ↔ b.seq ≤ a.seq := by
  simp [versionRank, Prod.Lex.toLex_le_toLex, same]

theorem slotFirst_slot {source : List InternalRecord} {slot : Bytes ×ₗ Int} {h : InternalRecord}
    (first : slotFirst source slot = some h) : h.slot = slot := by simpa using List.find?_some first

theorem slotFirst_least {source : List InternalRecord}
    (sorted : source.Pairwise fun a b => versionRank a ≤ versionRank b) {slot : Bytes ×ₗ Int} {h : InternalRecord}
    (first : slotFirst source slot = some h) (x : InternalRecord) (member : x ∈ source) (here : x.slot = slot) :
    versionRank h ≤ versionRank x := by
  obtain ⟨_, front, back, rfl, none⟩ := List.find?_eq_some_iff_append.mp first
  rcases List.mem_append.mp member with early | late
  · exact absurd here (by simpa using none x early)
  · rcases List.mem_cons.mp late with rfl | later
    · exact le_refl _
    · exact (List.pairwise_cons.mp (List.pairwise_append.mp sorted).2.1).1 x later

section
variable {it : ScanIterator}

/-- A record that can be the first of its slot to leave the heap. -/
def Head (it : ScanIterator) (slot : Bytes ×ₗ Int) (h : InternalRecord) : Prop :=
  (∃ source ∈ it.sources, slotFirst source slot = some h) ∧
    ∀ source ∈ it.sources, ∀ x ∈ source, x.slot = slot → versionRank h ≤ versionRank x

def shownAs (tombstones : List (Bytes × Bytes)) (h : InternalRecord) : Option Record :=
  if isShown tombstones h then some h.toRecord else none

theorem find?_filter_strict (l : List InternalRecord) (sorted : l.Pairwise fun a b => a.slot < b.slot)
    (keep : InternalRecord → Bool) (slot : Bytes ×ₗ Int) :
    slotFirst (l.filter keep) slot = (slotFirst l slot).filter keep := by
  induction l with
  | nil => rfl
  | cons a rest ih =>
    obtain ⟨below, restSorted⟩ := List.pairwise_cons.mp sorted
    by_cases here : a.slot = slot
    · have later : slotFirst (rest.filter keep) slot = none := by
        refine List.find?_eq_none.mpr fun x member => ?_
        simpa [here] using (below x (List.mem_of_mem_filter member)).ne'
      cases kept : keep a with
      | true => simp [slotFirst, kept, here, Option.filter]
      | false => simpa [slotFirst, kept, here, Option.filter] using later
    · cases kept : keep a <;> simpa [slotFirst, kept, here] using ih restSorted

theorem atSlot_map (l : List InternalRecord) (slot : Bytes ×ₗ Int) :
    atSlot (l.map InternalRecord.toRecord) slot = (slotFirst l slot).map InternalRecord.toRecord := by
  rw [atSlot, List.find?_map]
  rfl

variable (sorted : ∀ source ∈ it.sources, source.Pairwise fun a b => versionRank a ≤ versionRank b)
include sorted

theorem popped_sorted {popped : List (Fin it.sources.length × InternalRecord)}
    (run : Merge.Run versionRank (fun i : Fin it.sources.length => it.sources.get i) popped) :
    (popped.map Prod.snd).Pairwise fun a b => a.slot ≤ b.slot :=
  (Merge.run_sorted (fun _ => sorted _ (List.get_mem _ _)) run).imp versionRank_slot_le

theorem heapLoop_slot {popped : List (Fin it.sources.length × InternalRecord)}
    (run : Merge.Run versionRank (fun i : Fin it.sources.length => it.sources.get i) popped)
    (slot : Bytes ×ₗ Int) : atSlot (heapLoop it.tombstones none (popped.map Prod.snd)) slot =
      (slotFirst (popped.map Prod.snd) slot).bind (shownAs it.tombstones) := by
  have ordered := popped_sorted sorted run
  have strict := (Merge.firsts_sorted InternalRecord.slot none _ ordered (by simp)).1
  have first : slotFirst (Merge.firsts InternalRecord.slot none (popped.map Prod.snd)) slot =
      slotFirst (popped.map Prod.snd) slot := Merge.find?_firsts _ none _ ordered slot (by simp)
  rw [heapLoop_eq, atSlot_map, find?_filter_strict _ strict, first]
  cases slotFirst (popped.map Prod.snd) slot with
  | none => rfl
  | some h => cases shown : isShown it.tombstones h <;> simp [shownAs, shown]

/-- A scan yields ascending slots, each at most once. -/
theorem yields_strict {out : List Record} (yields : it.Yields out) :
    out.Pairwise fun a b => slotOf a < slotOf b := by
  obtain ⟨popped, run, rfl⟩ := (yields_iff it out).mp yields
  rw [heapLoop_eq, List.pairwise_map]
  exact (Merge.firsts_sorted InternalRecord.slot none _ (popped_sorted sorted run) (by simp)).1.filter _

theorem yields_slot {out : List Record} (yields : it.Yields out) (slot : Bytes ×ₗ Int) :
    (∃ h, Head it slot h ∧ atSlot out slot = shownAs it.tombstones h) ∨
      (∀ h, ¬ Head it slot h) ∧ atSlot out slot = none := by
  obtain ⟨popped, run, rfl⟩ := (yields_iff it out).mp yields
  rw [heapLoop_slot sorted run]
  cases first : slotFirst (popped.map Prod.snd) slot with
  | some h =>
    obtain ⟨⟨i, source⟩, least⟩ := Merge.run_first (fun _ => sorted _ (List.get_mem _ _)) run first
    refine Or.inl ⟨h, ⟨⟨_, List.get_mem _ i, source⟩, fun s member x inside here => ?_⟩, rfl⟩
    obtain ⟨j, rfl⟩ := List.get_of_mem member
    exact least j x inside here
  | none =>
    refine Or.inr ⟨fun h head => ?_, rfl⟩
    obtain ⟨⟨source, member, there⟩, _⟩ := head
    obtain ⟨j, rfl⟩ := List.get_of_mem member
    have popped := Merge.popped_of_mem run (List.mem_of_find?_eq_some there)
    have here : h.slot = slot := by simpa using List.find?_some there
    exact absurd here (by simpa using List.find?_eq_none.mp first h (List.mem_map.mpr ⟨(j, h), popped, rfl⟩))

theorem yields_of_head {slot : Bytes ×ₗ Int} {h : InternalRecord} (head : Head it slot h) :
    ∃ out, it.Yields out ∧ atSlot out slot = shownAs it.tombstones h := by
  obtain ⟨⟨source, member, there⟩, least⟩ := head
  obtain ⟨i, rfl⟩ := List.get_of_mem member
  obtain ⟨popped, run, first⟩ := Merge.exists_run_first
    (fun j : Fin it.sources.length => sorted (it.sources.get j) (List.get_mem _ _)) (fun _ _ => versionRank_slot_eq) there
    fun j x inside here => least _ (List.get_mem _ j) x inside here
  refine ⟨_, (yields_iff it _).mpr ⟨popped, run, rfl⟩, ?_⟩
  rw [heapLoop_slot sorted run]
  exact congrArg (fun first => Option.bind first (shownAs it.tombstones)) first

/-- What holds of a slot in every result is what holds of each possible head. -/
theorem yields_slot_iff (slot : Bytes ×ₗ Int) (Q : Option Record → Prop) :
    (∀ out, it.Yields out → Q (atSlot out slot)) ↔
      (∀ h, Head it slot h → Q (shownAs it.tombstones h)) ∧ ((∀ h, ¬ Head it slot h) → Q none) := by
  constructor
  · refine fun holds => ⟨fun h head => ?_, fun none => ?_⟩
    · obtain ⟨out, yields, same⟩ := yields_of_head sorted head
      exact same ▸ holds out yields
    · obtain ⟨out, yields⟩ := exists_yield it
      rcases yields_slot sorted yields slot with ⟨h, head, _⟩ | ⟨_, empty⟩
      · exact absurd head (none h)
      · exact empty ▸ holds out yields
  · rintro ⟨heads, empty⟩ out yields
    rcases yields_slot sorted yields slot with ⟨h, head, same⟩ | ⟨none, same⟩
    · exact same ▸ heads h head
    · exact same ▸ empty none

end

/-! ### Scans of an engine state -/

def memFilter (query : Query) : KeyFilter :=
  if query.keyFilter = .all ∧ query.timeRange = none then .range [] [126] else query.keyFilter

theorem memResults_eq (m : MemTables) (query : Query) (nowUs : Int) :
    memResults m query nowUs = m.gather fun t => t.queryWhere (memFilter query) query.timeRange nowUs := by
  obtain ⟨keyFilter, timeRange⟩ := query
  cases keyFilter <;> cases timeRange <;> rfl

def candidateBlocks (t : Tables) (candidates : List BlockMeta) : List (List InternalRecord) :=
  candidates.map fun c => (t.file c.sstId).readBlock c.blockIdx

/-- The memtable's newest record of a slot that the query reaches. -/
def newestMem (m : MemTables) (query : Query) (nowUs : Int) (slot : Bytes ×ₗ Int) : Option InternalRecord :=
  slotFirst ((memResults m query nowUs).insertionSort byVersion) slot

/-- A candidate block's first record of a slot. -/
def BlockHead (t : Tables) (query : Query) (nowUs : Int) (candidates : List BlockMeta) (slot : Bytes ×ₗ Int)
    (h : InternalRecord) : Prop :=
  ∃ block ∈ candidateBlocks t candidates, slotFirst (blockSource query block nowUs) slot = some h

/-- A record a scan may take as its first of the slot. -/
def Sees (m : MemTables) (t : Tables) (query : Query) (nowUs : Int) (candidates : List BlockMeta)
    (slot : Bytes ×ₗ Int) (h : InternalRecord) : Prop :=
  match newestMem m query nowUs slot with
  | some r => h = r
  | none => BlockHead t query nowUs candidates slot h

def scanTombstones (m : MemTables) (t : Tables) (query : Query) (nowUs : Int) (candidates : List BlockMeta) :
    List (Bytes × Bytes) :=
  (memResults m query nowUs).filterMap tombstoneOf ++
    (candidateBlocks t candidates).flatMap fun block => (liveRecords nowUs block).filterMap tombstoneOf

theorem insertionSort_sorted (records : List InternalRecord) :
    (records.insertionSort byVersion).Pairwise fun a b => versionRank a ≤ versionRank b :=
  List.pairwise_insertionSort byVersion records

/-- What a query asks of a slot in the memtables. -/
def reaches (query : Query) (slot : Bytes ×ₗ Int) : Bool :=
  (memFilter query).matchesKey (ofLex slot).1 && inTimeRange query.timeRange (ofLex slot).2

/-- Sorting a table by version puts the last version of a slot in front of the others. -/
theorem slotFirst_insertionSort {records : List InternalRecord}
    (increasing : records.Pairwise fun a b => a.seq < b.seq) (slot : Bytes ×ₗ Int) :
    slotFirst (records.insertionSort byVersion) slot = lastVersion records slot := by
  cases first : slotFirst (records.insertionSort byVersion) slot with
  | none =>
    refine ((lastVersion_eq_none records slot).mpr fun r member => ?_).symm
    simpa using List.find?_eq_none.mp first r ((List.mem_insertionSort _).mpr member)
  | some h =>
    have here := slotFirst_slot first
    have inside := (List.mem_insertionSort _).mp (List.mem_of_find?_eq_some first)
    cases last : lastVersion records slot with
    | none => exact absurd here ((lastVersion_eq_none records slot).mp last h inside)
    | some r =>
      obtain ⟨member, same⟩ := mem_of_lastVersion last
      have least := slotFirst_least (insertionSort_sorted records) first r ((List.mem_insertionSort _).mpr member) same
      have newest := lastVersion_seq increasing last h inside here
      exact congrArg some (eq_of_seq_eq increasing inside member
        (le_antisymm newest ((versionRank_le_iff (here.trans same.symm)).mp least)))

theorem mem_memResults {m : MemTables} (frozen : m.frozen = []) {query : Query} {nowUs : Int} {r : InternalRecord}
    (member : r ∈ memResults m query nowUs) : r ∈ m.active.records := by
  rw [memResults_eq, MemTables.gather, frozen, List.flatMap_nil, List.append_nil] at member
  exact List.mem_of_mem_filter member

theorem newestMem_eq (m : MemTables) (frozen : m.frozen = [])
    (increasing : m.active.records.Pairwise fun a b => a.seq < b.seq) (query : Query) (nowUs : Int)
    (slot : Bytes ×ₗ Int) : newestMem m query nowUs slot =
      if reaches query slot then lastVersion (m.active.records.filter fun r => decide (nowUs ≤ r.expireAt)) slot
      else none := by
  have results : memResults m query nowUs = (m.active.records.filter fun r => decide (nowUs ≤ r.expireAt)).filter
      fun r => reaches query r.slot := by
    simp only [memResults_eq, MemTables.gather, frozen, List.flatMap_nil, List.append_nil, MemTable.queryWhere,
      List.filter_filter]
    rfl
  rw [newestMem, results, slotFirst_insertionSort ((increasing.filter _).filter _)]
  simp only [lastVersion, List.filter_filter]
  cases reached : reaches query slot with
  | true =>
    rw [if_pos rfl]
    refine congrArg List.getLast? (List.filter_congr fun r _ => ?_)
    by_cases here : r.slot = slot <;> simp [here, reached]
  | false =>
    rw [if_neg (by simp)]
    refine List.getLast?_eq_none_iff.mpr (List.filter_eq_nil_iff.mpr fun r _ => ?_)
    by_cases here : r.slot = slot <;> simp [here, reached]

section
variable {m : MemTables} {t : Tables} {query : Query} {nowUs : Int} {candidates : List BlockMeta}

theorem build_eq (answer : t.index.query query.keyFilter query.timeRange nowUs = some candidates) :
    ∃ it, ScanIterator.build query m t nowUs = some it ∧
      it.tombstones = scanTombstones m t query nowUs candidates ∧
      ∀ source, source ∈ it.sources ↔ source ≠ [] ∧
        (source = (memResults m query nowUs).insertionSort byVersion ∨
          ∃ block ∈ candidateBlocks t candidates, source = blockSource query block nowUs) := by
  refine ⟨_, by rw [ScanIterator.build, answer]; rfl, rfl, fun source => ?_⟩
  have tables : ∀ s, s ∈ ((candidateBlocks t candidates).map fun records => blockSource query records nowUs).filter
      (fun s => !s.isEmpty) ↔ s ≠ [] ∧ ∃ block ∈ candidateBlocks t candidates, s = blockSource query block nowUs := by
    intro s
    simp only [List.mem_filter, List.mem_map, Bool.not_eq_true', List.isEmpty_eq_false_iff]
    constructor
    · rintro ⟨⟨block, member, rfl⟩, nonempty⟩
      exact ⟨nonempty, block, member, rfl⟩
    · rintro ⟨nonempty, block, member, rfl⟩
      exact ⟨⟨block, member, rfl⟩, nonempty⟩
  simp only [candidateBlocks] at tables
  dsimp only
  split_ifs with empty
  · rw [tables, empty]
    simp only [candidateBlocks]
    exact ⟨fun h => ⟨h.1, Or.inr h.2⟩, fun h => ⟨h.1, h.2.resolve_left h.1⟩⟩
  · rw [List.mem_cons, tables]
    constructor
    · rintro (rfl | ⟨nonempty, block⟩)
      · exact ⟨empty, Or.inl rfl⟩
      · exact ⟨nonempty, Or.inr block⟩
    · rintro ⟨nonempty, same | block⟩
      · exact Or.inl same
      · exact Or.inr ⟨nonempty, block⟩

variable (sorted : Sorted t) (answer : t.index.query query.keyFilter query.timeRange nowUs = some candidates)
include sorted answer

/-- A block read back is sorted by slot and carries no sequence numbers. -/
theorem candidateBlock_stored (block : List InternalRecord) (member : block ∈ candidateBlocks t candidates) :
    ∃ id ∈ t.activeIds, ∃ written : List InternalRecord, block = written.map stored ∧
      written.Sublist (t.file id).records := by
  obtain ⟨c, found, rfl⟩ := List.mem_map.mp member
  obtain ⟨id, active, inTable⟩ := (sorted.ok.scanned c).mp (mem_query _ _ _ _ _ answer c found)
  obtain rfl : c.sstId = id := by
    obtain ⟨bi, _, rfl⟩ := List.mem_map.mp inTable
    rfl
  obtain ⟨written, shape, sublist⟩ := readBlock_stored sorted active c.blockIdx
  exact ⟨c.sstId, active, written, shape, sublist⟩

theorem blockSource_seq (block : List InternalRecord) (member : block ∈ candidateBlocks t candidates)
    (r : InternalRecord) (inside : r ∈ blockSource query block nowUs) : r.seq = 0 := by
  obtain ⟨_, _, written, rfl, _⟩ := candidateBlock_stored sorted answer block member
  unfold blockSource at inside
  split_ifs at inside
  · obtain ⟨x, _, rfl⟩ := List.mem_map.mp (List.mem_of_mem_filter (List.mem_of_mem_filter inside))
    rfl
  · obtain ⟨x, _, rfl⟩ := List.mem_map.mp inside
    rfl

theorem blockSource_sorted (block : List InternalRecord) (member : block ∈ candidateBlocks t candidates) :
    (blockSource query block nowUs).Pairwise fun a b => versionRank a ≤ versionRank b := by
  have unnumbered := blockSource_seq sorted answer block member
  have slots : (blockSource query block nowUs).Pairwise fun a b => a.slot ≤ b.slot := by
    obtain ⟨id, active, written, rfl, sublist⟩ := candidateBlock_stored sorted answer block member
    have ordered : (written.map stored).Pairwise fun a b => a.slot ≤ b.slot :=
      List.pairwise_map.mpr ((sorted.slots id active).sublist sublist)
    unfold blockSource
    split_ifs
    · exact (ordered.filter _).filter _
    · exact List.pairwise_map.mpr ((ordered.filter _).filter _)
  refine slots.imp_of_mem fun {a b} inA inB le => ?_
  rcases le.lt_or_eq with below | same
  · exact (Prod.Lex.toLex_le_toLex.mpr (Or.inl below))
  · rw [versionRank_le_iff same, unnumbered a inA, unnumbered b inB]

/-- A block's first record of a slot is a table's record that the query reaches, less its number. -/
theorem blockHead_record {slot : Bytes ×ₗ Int} {h : InternalRecord}
    (head : BlockHead t query nowUs candidates slot h) : ∃ y ∈ t.records, y.slot = slot ∧ h.op = y.op ∧
      h.toRecord = y.toRecord ∧ nowUs < y.expireAt ∧ y.op ≠ .deleteRange ∧
      query.keyFilter.matchesKey y.key = true ∧ inTimeRange query.timeRange y.ts = true := by
  obtain ⟨block, member, first⟩ := head
  obtain ⟨id, active, written, rfl, sublist⟩ := candidateBlock_stored sorted answer block member
  have inside := List.mem_of_find?_eq_some first
  have here := slotFirst_slot first
  have table : ∀ x ∈ written, x ∈ t.records := fun x there =>
    List.mem_flatMap.mpr ⟨id, active, sublist.subset there⟩
  simp only [blockSource, fullScanBlock, filterSstBlock, liveRecords] at inside
  split_ifs at inside with full
  · simp only [List.mem_filter, List.mem_map, Bool.and_eq_true, bne_iff_ne, decide_eq_true_eq] at inside
    obtain ⟨⟨⟨y, there, rfl⟩, live⟩, kept, _⟩ := inside
    simp only [isFullScan, Bool.and_eq_true, Bool.or_eq_true, beq_iff_eq, Option.isNone_iff_eq_none] at full
    refine ⟨y, table y there, here, rfl, rfl, live, kept, ?_, by rw [full.2]; rfl⟩
    rcases full.1 with all | empty
    · rw [all]
      rfl
    · rw [empty]
      rfl
  · simp only [List.mem_filter, List.mem_map, Bool.and_eq_true, bne_iff_ne, decide_eq_true_eq] at inside
    obtain ⟨_, ⟨⟨⟨y, there, rfl⟩, live⟩, ⟨kept, key⟩, time⟩, rfl⟩ := inside
    exact ⟨y, table y there, here, rfl, rfl, live, kept, key, time⟩

/-- Every visible tombstone is that of a range delete in the memtables or in a table. -/
theorem mem_scanTombstones {range : Bytes × Bytes} (visible : range ∈ scanTombstones m t query nowUs candidates) :
    ∃ r, (r ∈ memResults m query nowUs ∨ r ∈ t.records) ∧ r.op = .deleteRange ∧ r.key = range.1 ∧
      r.rangeEnd = some range.2 := by
  have shape : ∀ r : InternalRecord, tombstoneOf r = some range → r.op = .deleteRange ∧ r.key = range.1 ∧
      r.rangeEnd = some range.2 := by
    intro r found
    simp only [tombstoneOf] at found
    split_ifs at found with op
    obtain ⟨stop, held, rfl⟩ := Option.map_eq_some_iff.mp found
    exact ⟨op, rfl, held⟩
  rcases List.mem_append.mp visible with inMem | inTables
  · obtain ⟨r, member, found⟩ := List.mem_filterMap.mp inMem
    exact ⟨r, Or.inl member, shape r found⟩
  · obtain ⟨block, candidate, inside⟩ := List.mem_flatMap.mp inTables
    obtain ⟨r, member, found⟩ := List.mem_filterMap.mp inside
    obtain ⟨id, active, written, rfl, sublist⟩ := candidateBlock_stored sorted answer block candidate
    obtain ⟨y, there, rfl⟩ := List.mem_map.mp (List.mem_of_mem_filter member)
    obtain ⟨op, key, stop⟩ := shape _ found
    refine ⟨y, Or.inr (List.mem_flatMap.mpr ⟨id, active, sublist.subset there⟩), op, key, ?_⟩
    simp only [stored, InternalRecord.dropEmptyEnd] at stop
    split_ifs at stop
    exact stop

/-- What every scan result has at one slot, read off the memtable and the candidate blocks. -/
theorem scan_slot_iff (numbered : ∀ r ∈ memResults m query nowUs, 0 < r.seq) (slot : Bytes ×ₗ Int)
    (Q : Option Record → Prop) : (∀ out, Scans m t query nowUs out → Q (atSlot out slot)) ↔
      (∀ h, Sees m t query nowUs candidates slot h →
        Q (shownAs (scanTombstones m t query nowUs candidates) h)) ∧
      ((∀ h, ¬ Sees m t query nowUs candidates slot h) → Q none) := by
  obtain ⟨it, build, tombstones, sources⟩ := build_eq (m := m) answer
  have ordered : ∀ source ∈ it.sources, source.Pairwise fun a b => versionRank a ≤ versionRank b := by
    intro source member
    rcases ((sources source).mp member).2 with rfl | ⟨block, inside, rfl⟩
    · exact insertionSort_sorted _
    · exact blockSource_sorted sorted answer block inside
  have heads : ∀ h, Head it slot h ↔ Sees m t query nowUs candidates slot h := by
    intro h
    cases top : newestMem m query nowUs slot with
    | some r =>
      have inMem := List.mem_of_find?_eq_some top
      have here : r.slot = slot := slotFirst_slot top
      have positive : 0 < r.seq := numbered r ((List.mem_insertionSort _).mp inMem)
      have mem := (sources _).mpr ⟨List.ne_nil_of_mem inMem, Or.inl rfl⟩
      simp only [Sees, top]
      constructor
      · rintro ⟨⟨source, member, first⟩, least⟩
        rcases ((sources source).mp member).2 with rfl | ⟨block, inside, rfl⟩
        · exact Option.some.inj (first.symm.trans top)
        · -- A table's record has number 0 and cannot come before the memtable's.
          have unnumbered := blockSource_seq sorted answer block inside h (List.mem_of_find?_eq_some first)
          have le := (versionRank_le_iff ((slotFirst_slot first).trans here.symm)).mp (least _ mem r inMem here)
          omega
      · rintro rfl
        refine ⟨⟨_, mem, top⟩, fun source member x inside same => ?_⟩
        rcases ((sources source).mp member).2 with rfl | ⟨block, inBlock, rfl⟩
        · exact slotFirst_least (ordered _ mem) top x inside same
        · rw [versionRank_le_iff (here.trans same.symm), blockSource_seq sorted answer block inBlock x inside]
          exact Nat.zero_le _
    | none =>
      simp only [Sees, top]
      constructor
      · rintro ⟨⟨source, member, first⟩, _⟩
        rcases ((sources source).mp member).2 with rfl | ⟨block, inside, rfl⟩
        · exact absurd first (by rw [show slotFirst _ slot = none from top]; simp)
        · exact ⟨block, inside, first⟩
      · rintro ⟨block, inside, first⟩
        have inFirst := List.mem_of_find?_eq_some first
        refine ⟨⟨_, (sources _).mpr ⟨List.ne_nil_of_mem inFirst, Or.inr ⟨block, inside, rfl⟩⟩, first⟩, ?_⟩
        intro source member x inSource same
        rcases ((sources source).mp member).2 with rfl | ⟨other, inOther, rfl⟩
        · exact absurd same (by simpa using List.find?_eq_none.mp top x inSource)
        · rw [versionRank_le_iff ((slotFirst_slot first).trans same.symm),
            blockSource_seq sorted answer other inOther x inSource]
          exact Nat.zero_le _
  have scans : ∀ out, Scans m t query nowUs out ↔ it.Yields out := by
    intro out
    simp [Scans, build]
  simp only [scans, yields_slot_iff ordered, heads, tombstones]

/-- A scan's result has ascending slots, each once. -/
theorem scan_strict {out : List Record} (scan : Scans m t query nowUs out) :
    out.Pairwise fun a b => slotOf a < slotOf b := by
  obtain ⟨it, build, _, sources⟩ := build_eq (m := m) answer
  obtain ⟨it', build', yields⟩ := scan
  obtain rfl := Option.some.inj (build.symm.trans build')
  refine yields_strict (fun source member => ?_) yields
  rcases ((sources source).mp member).2 with rfl | ⟨block, inside, rfl⟩
  · exact insertionSort_sorted _
  · exact blockSource_sorted sorted answer block inside

end

/-- A query that looks its candidates up without a panic has a result. -/
theorem exists_scan {m : MemTables} {t : Tables} {query : Query} {nowUs : Int} {candidates : List BlockMeta}
    (answer : t.index.query query.keyFilter query.timeRange nowUs = some candidates) :
    ∃ out, Scans m t query nowUs out := by
  obtain ⟨it, build, _⟩ := build_eq (m := m) answer
  obtain ⟨out, yields⟩ := exists_yield it
  exact ⟨out, it, build, yields⟩

def prefixQuery (p : Bytes) : Query := ⟨.keyPrefix p, none⟩

/-- The blocks a scan of `p` looks at. -/
def prefixBlocks (t : Tables) (p : Bytes) (nowUs : Int) : List BlockMeta := t.index.collectByKey (.keyPrefix p) nowUs

theorem mem_iff_atSlot {out : List Record} (strict : out.Pairwise fun a b => slotOf a < slotOf b) (r : Record) :
    r ∈ out ↔ atSlot out (slotOf r) = some r :=
  ⟨Merge.find?_strict slotOf out strict r, List.mem_of_find?_eq_some⟩

theorem mem_of_atSlot {out : List Record} {slot : Bytes ×ₗ Int} {r : Record} (found : atSlot out slot = some r) :
    r ∈ out := List.mem_of_find?_eq_some found

theorem slotOf_atSlot {out : List Record} {slot : Bytes ×ₗ Int} {r : Record} (found : atSlot out slot = some r) :
    slotOf r = slot := by simpa using List.find?_some found

end FlowDb.Scans
