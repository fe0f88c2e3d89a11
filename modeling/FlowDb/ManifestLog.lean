import FlowDb.OrderedMap
import FlowDb.Sstable

/-! The manifest of manifest.rs: a log of entries and the state they fold to. The
log is what a reopened manifest reads back. -/
namespace FlowDb.ManifestLog
open OrderedMap Bloom Sstable

structure SstInfo where
  id : Nat
  records : Nat
  bytes : Nat
  minTs : Int
  maxTs : Int
  minExpire : Int
  maxExpire : Int
  bloom : Option BloomFilter
  deriving DecidableEq, Repr

inductive ManifestEntry where
  | flush (seq : Nat) (sst : SstInfo) (blocks : List BlockInfo)
  | deleteSst (sstId : Nat)
  | compaction (removed : List Nat) (added : List SstInfo) (blocks : List (Nat × List BlockInfo))
  | checkpoint (lastFlushedSeq : Nat)
  | gcDeleteSst (sstId : Nat)
  | updateBloom (sstId : Nat) (bloom : BloomFilter)
  deriving DecidableEq, Repr

structure ManifestState where
  lastFlushedSeq : Nat
  sstables : OMap Nat SstInfo
  blockInfos : OMap Nat (List BlockInfo)
  activeSstIds : List Nat
  deriving DecidableEq

namespace ManifestState

def empty : ManifestState := ⟨0, ∅, ∅, []⟩

def addActive (s : ManifestState) (id : Nat) : ManifestState :=
  if id ∈ s.activeSstIds then s else { s with activeSstIds := s.activeSstIds ++ [id] }

def insertSst (s : ManifestState) (info : SstInfo) : ManifestState :=
  ({ s with sstables := s.sstables.insert info.id info } : ManifestState).addActive info.id

def insertBlocks (s : ManifestState) (id : Nat) (blocks : List BlockInfo) : ManifestState :=
  { s with blockInfos := s.blockInfos.insert id blocks }

def remove (s : ManifestState) (id : Nat) : ManifestState :=
  { s with
    sstables := s.sstables.erase id
    blockInfos := s.blockInfos.erase id
    activeSstIds := s.activeSstIds.filter fun sid => sid != id }

theorem le_foldl_max (l : List Nat) (start x : Nat) (h : x ∈ l ∨ x ≤ start) : x ≤ l.foldl max start := by
  induction l generalizing start with
  | nil => exact h.resolve_left List.not_mem_nil
  | cons a rest ih =>
    refine ih (max start a) ?_
    rcases h with member | small
    · rcases List.mem_cons.mp member with rfl | later
      · exact Or.inr (le_max_right _ _)
      · exact Or.inl later
    · exact Or.inr (small.trans (le_max_left _ _))

theorem foldl_max_lt {bound start : Nat} {l : List Nat} (first : start < bound) (each : ∀ n ∈ l, n < bound) :
    l.foldl max start < bound := by
  induction l generalizing start with
  | nil => exact first
  | cons n rest ih => exact ih (max_lt first (each n List.mem_cons_self)) fun m member => each m (List.mem_cons_of_mem n member)

def applyEntry (s : ManifestState) : ManifestEntry → ManifestState
  | .flush seq sst blocks =>
      (({ s with lastFlushedSeq := max s.lastFlushedSeq seq } : ManifestState).insertSst sst).insertBlocks sst.id blocks
  | .deleteSst sstId => s.remove sstId
  | .gcDeleteSst sstId => s.remove sstId
  | .compaction removed added blocks =>
      blocks.foldl (fun s b => s.insertBlocks b.1 b.2) (added.foldl insertSst (removed.foldl remove s))
  | .checkpoint lastFlushedSeq => { s with lastFlushedSeq := max s.lastFlushedSeq lastFlushedSeq }
  | .updateBloom sstId bloom =>
      match s.sstables.get? sstId with
      | some info => { s with sstables := s.sstables.insert sstId { info with bloom := some bloom } }
      | none => s

def nextSstId (s : ManifestState) : Nat := s.sstables.keys.foldl max 0 + 1

@[simp] theorem addActive_lastFlushedSeq (s : ManifestState) (id : Nat) :
    (s.addActive id).lastFlushedSeq = s.lastFlushedSeq := by unfold addActive; split_ifs <;> rfl

@[simp] theorem addActive_sstables (s : ManifestState) (id : Nat) :
    (s.addActive id).sstables = s.sstables := by unfold addActive; split_ifs <;> rfl

@[simp] theorem addActive_blockInfos (s : ManifestState) (id : Nat) :
    (s.addActive id).blockInfos = s.blockInfos := by unfold addActive; split_ifs <;> rfl

theorem mem_addActive (s : ManifestState) (id sid : Nat) :
    sid ∈ (s.addActive id).activeSstIds ↔ sid = id ∨ sid ∈ s.activeSstIds := by
  unfold addActive
  split_ifs with there
  · refine ⟨Or.inr, ?_⟩
    rintro (rfl | member)
    · exact there
    · exact member
  · simp [or_comm]

theorem addActive_nodup (s : ManifestState) (id : Nat) (nodup : s.activeSstIds.Nodup) :
    (s.addActive id).activeSstIds.Nodup := by
  unfold addActive
  split_ifs with there
  · exact nodup
  · rw [List.nodup_append]
    refine ⟨nodup, by simp, fun a member b single same => there ?_⟩
    rwa [← List.mem_singleton.mp single, ← same]

@[simp] theorem remove_lastFlushedSeq (s : ManifestState) (id : Nat) :
    (s.remove id).lastFlushedSeq = s.lastFlushedSeq := rfl

theorem removes_lastFlushedSeq (ids : List Nat) (s : ManifestState) :
    (ids.foldl remove s).lastFlushedSeq = s.lastFlushedSeq := by
  induction ids generalizing s with
  | nil => rfl
  | cons id rest ih => rw [List.foldl_cons, ih, remove_lastFlushedSeq]

theorem removes_get? (ids : List Nat) (s : ManifestState) (k : Nat) :
    (ids.foldl remove s).sstables.get? k = (if k ∈ ids then none else s.sstables.get? k) ∧
      (ids.foldl remove s).blockInfos.get? k = (if k ∈ ids then none else s.blockInfos.get? k) := by
  induction ids generalizing s with
  | nil => simp
  | cons id rest ih =>
    rw [List.foldl_cons, (ih _).1, (ih _).2]
    by_cases later : k ∈ rest <;> by_cases here : k = id <;> simp [remove, get?_erase, later, here]

theorem removes_active (ids : List Nat) (s : ManifestState) :
    (ids.foldl remove s).activeSstIds = s.activeSstIds.filter fun sid => sid ∉ ids := by
  induction ids generalizing s with
  | nil => simp
  | cons id rest ih =>
    rw [List.foldl_cons, ih]
    simp only [remove, List.filter_filter]
    refine List.filter_congr fun sid _ => ?_
    by_cases here : sid = id <;> simp [here]

theorem nextSstId_fresh (s : ManifestState) (id : Nat) (there : (s.sstables.get? id).isSome) :
    id < s.nextSstId :=
  Nat.lt_succ_of_le (le_foldl_max _ 0 id (Or.inl ((mem_keys_iff _ _).mpr there)))

theorem applyEntry_flush (s : ManifestState) (seq : Nat) (sst : SstInfo) (blocks : List BlockInfo) :
    (s.applyEntry (.flush seq sst blocks)).sstables = s.sstables.insert sst.id sst ∧
      (s.applyEntry (.flush seq sst blocks)).blockInfos = s.blockInfos.insert sst.id blocks ∧
      (s.applyEntry (.flush seq sst blocks)).activeSstIds = (s.addActive sst.id).activeSstIds ∧
      (s.applyEntry (.flush seq sst blocks)).lastFlushedSeq = max s.lastFlushedSeq seq := by
  refine ⟨?_, ?_, ?_, ?_⟩ <;> simp [applyEntry, insertBlocks, insertSst]
  unfold addActive
  split_ifs <;> rfl

theorem applyEntry_compaction (s : ManifestState) (removed : List Nat) (sst : SstInfo) (blocks : List BlockInfo) :
    let kept := removed.foldl remove s
    (s.applyEntry (.compaction removed [sst] [(sst.id, blocks)])).sstables = kept.sstables.insert sst.id sst ∧
      (s.applyEntry (.compaction removed [sst] [(sst.id, blocks)])).blockInfos =
        kept.blockInfos.insert sst.id blocks ∧
      (s.applyEntry (.compaction removed [sst] [(sst.id, blocks)])).activeSstIds =
        (kept.addActive sst.id).activeSstIds ∧
      (s.applyEntry (.compaction removed [sst] [(sst.id, blocks)])).lastFlushedSeq = s.lastFlushedSeq := by
  refine ⟨?_, ?_, ?_, ?_⟩ <;> simp [applyEntry, insertBlocks, insertSst, removes_lastFlushedSeq]
  unfold addActive
  split_ifs <;> rfl

theorem get?_nextSstId (s : ManifestState) : s.sstables.get? s.nextSstId = none := by
  by_contra there
  exact lt_irrefl _ (nextSstId_fresh s _ (Option.isSome_iff_ne_none.mpr there))

end ManifestState

structure Manifest where
  log : List ManifestEntry
  deriving DecidableEq, Repr

/-- The state in memory, and the state a reopened manifest starts with. -/
def Manifest.state (m : Manifest) : ManifestState := m.log.foldl ManifestState.applyEntry .empty

def Manifest.append (m : Manifest) (entry : ManifestEntry) : Manifest := ⟨m.log ++ [entry]⟩

@[simp] theorem state_append (m : Manifest) (entry : ManifestEntry) :
    (m.append entry).state = m.state.applyEntry entry := by
  simp [Manifest.state, Manifest.append]

@[simp] theorem state_empty : (Manifest.mk []).state = .empty := rfl

end FlowDb.ManifestLog
