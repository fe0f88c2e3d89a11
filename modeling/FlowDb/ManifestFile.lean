import Mathlib.Logic.Equiv.List
import Mathlib.Tactic.DeriveEncodable
import FlowDb.LineLog
import FlowDb.ManifestLog

/-! The MANIFEST file of manifest.rs: one JSON entry a line, read again by open, extended
by append and replaced by snapshot. serde_json is a parameter; it prints an entry as
compact ASCII, so a byte of the file is a character of its text. -/
namespace FlowDb.ManifestFile
open LineLog OrderedMap Bloom Sstable ManifestLog ManifestState

structure Manifest where
  file : Text
  state : ManifestState
  entryCount : Nat
  deriving DecidableEq

def snapshotThreshold : Nat := 500

def replay (entries : List ManifestEntry) : ManifestState := entries.foldl applyEntry .empty

section
variable (json : Codec ManifestEntry)

-- A missing file reads as an empty one.
def Manifest.open (file : Text) : Manifest := ⟨file, replay (readLog json.fromText file), 0⟩

def Manifest.append (m : Manifest) (entry : ManifestEntry) : Manifest :=
  ⟨m.file ++ json.line entry, m.state.applyEntry entry, m.entryCount + 1⟩

/-- The entries of a snapshot, for the order in which the map gives its tables. -/
def snapshotEntries (s : ManifestState) (order : List (Nat × SstInfo)) : List ManifestEntry :=
  (order.map fun entry => .flush s.lastFlushedSeq entry.2 ((s.blockInfos.get? entry.1).getD [])) ++
    [.checkpoint s.lastFlushedSeq]

def Manifest.snapshot (m : Manifest) (order : List (Nat × SstInfo)) : Manifest :=
  ⟨json.written (snapshotEntries m.state order), m.state, m.state.sstables.keys.length + 1⟩

def Manifest.maybeSnapshot (m : Manifest) (order : List (Nat × SstInfo)) : Manifest :=
  if m.entryCount ≤ snapshotThreshold then m else m.snapshot json order

def Manifest.appends (m : Manifest) (entries : List ManifestEntry) : Manifest := entries.foldl (append json) m

@[simp] theorem appends_state (m : Manifest) (entries : List ManifestEntry) :
    (m.appends json entries).state = entries.foldl applyEntry m.state := by
  induction entries generalizing m with
  | nil => rfl
  | cons entry rest ih => exact ih (m.append json entry)

@[simp] theorem appends_file (m : Manifest) (entries : List ManifestEntry) :
    (m.appends json entries).file = m.file ++ json.written entries := by
  induction entries generalizing m with
  | nil => simp [Manifest.appends, Codec.written]
  | cons entry rest ih =>
    have later := ih (m.append json entry)
    simpa [Manifest.appends, Codec.written, Manifest.append] using later

/-- Opening a file of whole lines replays them. -/
theorem open_written (entries : List ManifestEntry) : (Manifest.open json (json.written entries)).state = replay entries := by
  rw [Manifest.open, json.readLog_whole]

/-- The file of a log opens to the state the log folds to. -/
theorem open_refines (m : ManifestLog.Manifest) : (Manifest.open json (json.written m.log)).state = m.state :=
  open_written json m.log

end

/-! ### The three collections of a manifest's state -/

/-- Lists blocks for exactly the tables that it adds. -/
def ListsAdded : ManifestEntry → Prop
  | .compaction _ added blocks => ∀ id, id ∈ blocks.map Prod.fst ↔ id ∈ added.map (·.id)
  | _ => True

structure Consistent (s : ManifestState) : Prop where
  nodup : s.activeSstIds.Nodup
  listed : ∀ id, id ∈ s.activeSstIds ↔ (s.sstables.get? id).isSome
  blocks : ∀ id, (s.blockInfos.get? id).isSome ↔ (s.sstables.get? id).isSome
  named : ∀ id info, s.sstables.get? id = some info → info.id = id

theorem insertSst_get? (s : ManifestState) (info : SstInfo) (k : Nat) :
    (s.insertSst info).sstables.get? k = if k = info.id then some info else s.sstables.get? k := by
  simp [insertSst, get?_insert]

theorem insertSst_active (s : ManifestState) (info : SstInfo) (k : Nat) :
    k ∈ (s.insertSst info).activeSstIds ↔ k = info.id ∨ k ∈ s.activeSstIds :=
  mem_addActive _ info.id k

theorem insertSsts (added : List SstInfo) (s : ManifestState) :
    (added.foldl insertSst s).blockInfos = s.blockInfos ∧
      (s.activeSstIds.Nodup → (added.foldl insertSst s).activeSstIds.Nodup) ∧
      (∀ k, k ∈ (added.foldl insertSst s).activeSstIds ↔ k ∈ added.map (·.id) ∨ k ∈ s.activeSstIds) ∧
      (∀ k, ((added.foldl insertSst s).sstables.get? k).isSome ↔ k ∈ added.map (·.id) ∨ (s.sstables.get? k).isSome) ∧
      ((∀ id info, s.sstables.get? id = some info → info.id = id) →
        ∀ id info, (added.foldl insertSst s).sstables.get? id = some info → info.id = id) := by
  induction added generalizing s with
  | nil => simp
  | cons info rest ih =>
    obtain ⟨blocks, nodup, active, present, named⟩ := ih (s.insertSst info)
    rw [List.foldl_cons]
    refine ⟨?_, ?_, fun k => ?_, fun k => ?_, ?_⟩
    · rw [blocks]
      exact addActive_blockInfos _ _
    · exact fun distinct => nodup (addActive_nodup _ info.id distinct)
    · rw [active, insertSst_active, List.map_cons, List.mem_cons]
      tauto
    · rw [present, insertSst_get?, List.map_cons, List.mem_cons]
      split_ifs with same <;> simp [same]
    · intro before
      refine named fun id held there => ?_
      rw [insertSst_get?] at there
      split_ifs at there with same
      · rw [← Option.some.inj there, same]
      · exact before id held there

theorem insertBlocks_fold (blocks : List (Nat × List BlockInfo)) (s : ManifestState) :
    let after := blocks.foldl (fun s b => s.insertBlocks b.1 b.2) s
    after.sstables = s.sstables ∧ after.activeSstIds = s.activeSstIds ∧ after.lastFlushedSeq = s.lastFlushedSeq ∧
      ∀ k, (after.blockInfos.get? k).isSome ↔ k ∈ blocks.map Prod.fst ∨ (s.blockInfos.get? k).isSome := by
  induction blocks generalizing s with
  | nil => simp
  | cons b rest ih =>
    obtain ⟨sstables, active, seq, present⟩ := ih (s.insertBlocks b.1 b.2)
    refine ⟨sstables, active, seq, fun k => ?_⟩
    rw [List.foldl_cons, present, insertBlocks, get?_insert, List.map_cons, List.mem_cons]
    split_ifs with same <;> simp [same]

namespace Consistent

theorem start : Consistent .empty := ⟨List.nodup_nil, by simp [empty], by simp [empty], by simp [empty]⟩

theorem removes {s : ManifestState} (consistent : Consistent s) (ids : List Nat) : Consistent (ids.foldl remove s) := by
  refine ⟨?_, fun k => ?_, fun k => ?_, fun k info there => ?_⟩
  · rw [removes_active]
    exact consistent.nodup.filter _
  · rw [removes_active, (removes_get? ids s k).1, List.mem_filter, consistent.listed]
    by_cases gone : k ∈ ids <;> simp [gone]
  · rw [(removes_get? ids s k).1, (removes_get? ids s k).2]
    split_ifs
    · simp
    · exact consistent.blocks k
  · rw [(removes_get? ids s k).1] at there
    split_ifs at there
    exact consistent.named k info there

theorem flush {s : ManifestState} (consistent : Consistent s) (seq : Nat) (sst : SstInfo) (blocks : List BlockInfo) :
    Consistent (s.applyEntry (.flush seq sst blocks)) := by
  obtain ⟨sstables, blockInfos, active, -⟩ := applyEntry_flush s seq sst blocks
  refine ⟨?_, fun k => ?_, fun k => ?_, fun k info there => ?_⟩
  · rw [active]
    exact addActive_nodup s sst.id consistent.nodup
  · rw [active, mem_addActive, sstables, get?_insert, consistent.listed]
    split_ifs with same <;> simp [same]
  · rw [sstables, blockInfos, get?_insert, get?_insert]
    split_ifs
    · simp
    · exact consistent.blocks k
  · rw [sstables, get?_insert] at there
    split_ifs at there with same
    · rw [← Option.some.inj there, same]
    · exact consistent.named k info there

theorem compaction {s : ManifestState} (consistent : Consistent s) (removed : List Nat) (added : List SstInfo)
    (blocks : List (Nat × List BlockInfo)) (listed : ListsAdded (.compaction removed added blocks)) :
    Consistent (s.applyEntry (.compaction removed added blocks)) := by
  have kept := consistent.removes removed
  obtain ⟨oldBlocks, nodup, active, present, named⟩ := insertSsts added (removed.foldl remove s)
  obtain ⟨sstables, activeSame, -, blocksPresent⟩ := insertBlocks_fold blocks (added.foldl insertSst (removed.foldl remove s))
  refine ⟨?_, fun k => ?_, fun k => ?_, fun k info there => ?_⟩
  · rw [applyEntry, activeSame]
    exact nodup kept.nodup
  · rw [applyEntry, activeSame, sstables, active, present, kept.listed]
  · rw [applyEntry, sstables, blocksPresent, present, oldBlocks, kept.blocks, listed k]
  · rw [applyEntry, sstables] at there
    exact named kept.named k info there

theorem updateBloom {s : ManifestState} (consistent : Consistent s) (id : Nat) (bloom : BloomFilter) :
    Consistent (s.applyEntry (.updateBloom id bloom)) := by
  rw [applyEntry]
  cases there : s.sstables.get? id with
  | none => exact consistent
  | some info =>
    have present : ∀ k, ((s.sstables.insert id { info with bloom := some bloom }).get? k).isSome ↔
        (s.sstables.get? k).isSome := fun k => by
      rw [get?_insert]
      split_ifs with same <;> simp [same, there]
    refine ⟨consistent.nodup, fun k => ?_, fun k => ?_, fun k held found => ?_⟩
    · rw [consistent.listed, present]
    · rw [consistent.blocks, present]
    · rw [get?_insert] at found
      split_ifs at found with same
      · rw [← Option.some.inj found, same]
        exact consistent.named id info there
      · exact consistent.named k held found

theorem apply {s : ManifestState} (consistent : Consistent s) (entry : ManifestEntry) (listed : ListsAdded entry) :
    Consistent (s.applyEntry entry) := by
  cases entry with
  | flush seq sst blocks => exact consistent.flush seq sst blocks
  | deleteSst id => exact consistent.removes [id]
  | gcDeleteSst id => exact consistent.removes [id]
  | compaction removed added blocks => exact consistent.compaction removed added blocks listed
  | checkpoint seq => exact ⟨consistent.nodup, consistent.listed, consistent.blocks, consistent.named⟩
  | updateBloom id bloom => exact consistent.updateBloom id bloom

theorem foldl {s : ManifestState} (consistent : Consistent s) (entries : List ManifestEntry)
    (listed : ∀ e ∈ entries, ListsAdded e) : Consistent (entries.foldl applyEntry s) := by
  induction entries generalizing s with
  | nil => exact consistent
  | cons entry rest ih =>
    exact ih (consistent.apply entry (listed entry List.mem_cons_self)) fun e member =>
      listed e (List.mem_cons_of_mem entry member)

end Consistent

/-! ### States that differ in the order of the active ids only -/

structure SameState (s t : ManifestState) : Prop where
  lastFlushedSeq : s.lastFlushedSeq = t.lastFlushedSeq
  sstables : s.sstables = t.sstables
  blockInfos : s.blockInfos = t.blockInfos
  active : ∀ id, id ∈ s.activeSstIds ↔ id ∈ t.activeSstIds

namespace SameState
variable {s t : ManifestState}

theorem remove (same : SameState s t) (id : Nat) : SameState (s.remove id) (t.remove id) := by
  refine ⟨same.lastFlushedSeq, ?_, ?_, fun k => ?_⟩
  · rw [ManifestState.remove, ManifestState.remove, same.sstables]
  · rw [ManifestState.remove, ManifestState.remove, same.blockInfos]
  · simp [ManifestState.remove, same.active]

theorem insertSst (same : SameState s t) (info : SstInfo) : SameState (s.insertSst info) (t.insertSst info) := by
  refine ⟨?_, ?_, ?_, fun k => ?_⟩
  · simp [ManifestState.insertSst, same.lastFlushedSeq]
  · simp [ManifestState.insertSst, same.sstables]
  · simp [ManifestState.insertSst, same.blockInfos]
  · rw [insertSst_active, insertSst_active, same.active]

theorem insertBlocks (same : SameState s t) (id : Nat) (blocks : List BlockInfo) :
    SameState (s.insertBlocks id blocks) (t.insertBlocks id blocks) := by
  refine ⟨same.lastFlushedSeq, same.sstables, ?_, same.active⟩
  rw [ManifestState.insertBlocks, ManifestState.insertBlocks, same.blockInfos]

theorem fold {β : Type} {f : ManifestState → β → ManifestState}
    (each : ∀ {s t : ManifestState}, SameState s t → ∀ b, SameState (f s b) (f t b)) (same : SameState s t)
    (list : List β) : SameState (list.foldl f s) (list.foldl f t) := by
  induction list generalizing s t with
  | nil => exact same
  | cons b rest ih => exact ih (each same b)

/-- No entry looks at the order of the active ids. -/
theorem apply (same : SameState s t) (entry : ManifestEntry) : SameState (s.applyEntry entry) (t.applyEntry entry) := by
  have raised : ∀ seq, SameState { s with lastFlushedSeq := max s.lastFlushedSeq seq }
      { t with lastFlushedSeq := max t.lastFlushedSeq seq } := fun seq =>
    ⟨by rw [same.lastFlushedSeq], same.sstables, same.blockInfos, same.active⟩
  cases entry with
  | flush seq sst blocks => exact ((raised seq).insertSst sst).insertBlocks sst.id blocks
  | deleteSst id => exact same.remove id
  | gcDeleteSst id => exact same.remove id
  | compaction removed added blocks =>
    exact fold (fun same b => same.insertBlocks b.1 b.2) (fold insertSst (fold remove same removed) added) blocks
  | checkpoint seq => exact raised seq
  | updateBloom id bloom =>
    rw [applyEntry, applyEntry, same.sstables]
    cases t.sstables.get? id with
    | none => exact same
    | some info => exact ⟨same.lastFlushedSeq, rfl, same.blockInfos, same.active⟩

end SameState

/-! ### Snapshots -/

theorem replay_flushes (seq : Nat) (blocksOf : Nat → List BlockInfo) (order : List (Nat × SstInfo)) (s : ManifestState)
    (distinct : (order.map Prod.fst).Nodup) (named : ∀ e ∈ order, e.2.id = e.1) :
    let after := (order.map fun e => ManifestEntry.flush seq e.2 (blocksOf e.1)).foldl applyEntry s
    (∀ k info, after.sstables.get? k = some info ↔
        (k, info) ∈ order ∨ k ∉ order.map Prod.fst ∧ s.sstables.get? k = some info) ∧
      (∀ k, after.blockInfos.get? k = if k ∈ order.map Prod.fst then some (blocksOf k) else s.blockInfos.get? k) ∧
      (∀ k, k ∈ after.activeSstIds ↔ k ∈ order.map Prod.fst ∨ k ∈ s.activeSstIds) ∧
      max after.lastFlushedSeq seq = max s.lastFlushedSeq seq := by
  induction order generalizing s with
  | nil => simp
  | cons e rest ih =>
    obtain ⟨fresh, distinct⟩ := List.nodup_cons.mp distinct
    obtain ⟨sstables, blockInfos, active, lastFlushedSeq⟩ := applyEntry_flush s seq e.2 (blocksOf e.1)
    obtain ⟨tables, infos, ids, last⟩ :=
      ih (s.applyEntry (.flush seq e.2 (blocksOf e.1))) distinct fun x member => named x (List.mem_cons_of_mem e member)
    have own : e.2.id = e.1 := named e List.mem_cons_self
    rw [own] at sstables blockInfos active
    rw [List.map_cons, List.foldl_cons, List.map_cons]
    refine ⟨fun k info => ?_, fun k => ?_, fun k => ?_, ?_⟩
    · rw [tables, sstables, get?_insert, List.mem_cons, List.mem_cons]
      by_cases here : k = e.1
      · subst here
        rw [if_pos rfl]
        have elsewhere : (e.1, info) ∉ rest := fun member => fresh (List.mem_map.mpr ⟨_, member, rfl⟩)
        simp only [elsewhere, fresh, false_or, not_false_eq_true, true_and, not_true_eq_false, false_and, or_false,
          Option.some.injEq, Prod.ext_iff]
        exact eq_comm
      · have other : (k, info) ≠ e := fun same => here (congrArg Prod.fst same)
        rw [if_neg here]
        simp only [here, other, false_or]
    · rw [infos, blockInfos, get?_insert]
      by_cases here : k = e.1
      · subst here
        simp [fresh]
      · simp only [List.mem_cons, here, false_or, if_false]
    · rw [ids, active, mem_addActive, List.mem_cons]
      tauto
    · rw [last, lastFlushedSeq, max_assoc, max_self]

/-- Replaying a snapshot gives the state it was taken of, whatever the order of its entries. -/
theorem replay_snapshot (s : ManifestState) (consistent : Consistent s) (order : List (Nat × SstInfo))
    (perm : order.Perm s.sstables.entries) : SameState (replay (snapshotEntries s order)) s := by
  have members : ∀ k info, (k, info) ∈ order ↔ s.sstables.get? k = some info := fun k info => by
    rw [perm.mem_iff, get?_eq_some_iff]
  have keys : ∀ k, k ∈ order.map Prod.fst ↔ (s.sstables.get? k).isSome := fun k => by
    rw [← mem_keys_iff, OMap.keys]
    exact (perm.map Prod.fst).mem_iff
  have distinct : (order.map Prod.fst).Nodup := (perm.map Prod.fst).nodup_iff.mpr (keys_nodup s.sstables)
  have named : ∀ e ∈ order, e.2.id = e.1 := fun e member => consistent.named e.1 e.2 ((members e.1 e.2).mp member)
  obtain ⟨tables, infos, ids, last⟩ := replay_flushes s.lastFlushedSeq
    (fun id => (s.blockInfos.get? id).getD []) order .empty distinct named
  rw [replay, snapshotEntries, List.foldl_append, List.foldl_cons, List.foldl_nil, applyEntry]
  refine ⟨?_, ext_get? fun k => Option.ext fun info => ?_, ext_get? fun k => ?_, fun k => ?_⟩
  · show max _ s.lastFlushedSeq = s.lastFlushedSeq
    rw [last]
    exact max_eq_right (Nat.zero_le _)
  · show _ = some info ↔ _
    rw [tables, members]
    simp [ManifestState.empty]
  · show OMap.get? _ k = _
    rw [infos]
    split_ifs with there
    · obtain ⟨blocks, found⟩ := Option.isSome_iff_exists.mp ((consistent.blocks k).mpr ((keys k).mp there))
      rw [found, Option.getD_some]
    · have missing : (s.blockInfos.get? k).isSome = false := by
        rw [Bool.eq_false_iff, ne_eq, consistent.blocks, ← keys]
        exact there
      rw [Option.not_isSome_iff_eq_none.mp (Bool.eq_false_iff.mp missing)]
      rfl
  · show k ∈ _ ↔ _
    rw [ids, keys, consistent.listed]
    simp [ManifestState.empty]

section
variable (json : Codec ManifestEntry)

/-- A snapshot stands for the log it replaces: it opens to the same tables, blocks, sequence number and set of active
ids, and so it stays whatever is appended to both, in memory and when they are opened again. -/
theorem snapshot_stands_for_log (log more : List ManifestEntry) (listed : ∀ e ∈ log, ListsAdded e)
    (order : List (Nat × SstInfo)) (perm : order.Perm (replay log).sstables.entries) :
    let m := (Manifest.open json []).appends json log
    let replayed := (Manifest.open json m.file).appends json more
    let reopened := (Manifest.open json (m.snapshot json order).file).appends json more
    Consistent m.state ∧ SameState reopened.state replayed.state ∧
      SameState (Manifest.open json reopened.file).state (Manifest.open json replayed.file).state := by
  intro m replayed reopened
  have file : m.file = json.written log := by simp [m, Manifest.open]
  have state : m.state = replay log := by
    rw [appends_state, replay]
    rfl
  have consistent : Consistent m.state := state ▸ Consistent.start.foldl log listed
  have snapshot : SameState (replay (snapshotEntries m.state order)) (replay log) :=
    state ▸ replay_snapshot m.state consistent order (state ▸ perm)
  have later : SameState (replay (snapshotEntries m.state order ++ more)) (replay (log ++ more)) := by
    rw [replay, replay, List.foldl_append, List.foldl_append]
    exact SameState.fold SameState.apply snapshot more
  have logState : replayed.state = replay (log ++ more) := by
    rw [appends_state, file, open_written, replay, replay, List.foldl_append]
  have snapState : reopened.state = replay (snapshotEntries m.state order ++ more) := by
    rw [appends_state, Manifest.snapshot, open_written, replay, replay, List.foldl_append]
  have logFile : replayed.file = json.written (log ++ more) := by
    rw [appends_file, Codec.written, Codec.written, List.flatMap_append, Manifest.open, file, Codec.written]
  have snapFile : reopened.file = json.written (snapshotEntries m.state order ++ more) := by
    rw [appends_file, Codec.written, Codec.written, List.flatMap_append, Manifest.open, Manifest.snapshot, Codec.written]
  refine ⟨consistent, ?_, ?_⟩
  · rw [logState, snapState]
    exact later
  · rw [logFile, snapFile, open_written, open_written]
    exact later

/-- What a crash during the append of `last` leaves of the file, `cut` bytes of its line having been written. -/
def tornFile (log : List ManifestEntry) (last : ManifestEntry) (cut : Nat) : Text :=
  json.written log ++ (json.line last).take cut

/-- An entry appended behind a torn line is read by the next open exactly if nothing was written of the torn line:
otherwise the two share a line that open skips. -/
theorem appended_behind_torn_iff (log : List ManifestEntry) (last entry : ManifestEntry) (cut : Nat)
    (torn : cut < (json.line last).length) :
    let m := (Manifest.open json (tornFile json log last cut)).append json entry
    (readLog json.fromText m.file = log ++ [entry] ↔ cut = 0) ∧
      (Manifest.open json m.file).state = replay (log ++ if cut = 0 then [entry] else []) := by
  intro m
  have inside : cut ≤ (json.toText last).length := by
    rw [Codec.line, appended, List.length_append, List.length_singleton] at torn
    exact Nat.le_of_lt_succ torn
  have read : readLog json.fromText m.file = log ++ if cut = 0 then [entry] else [] := by
    rw [← json.readLog_torn log last entry cut inside]
    simp only [m, Manifest.append, Manifest.open, tornFile, List.append_assoc]
  refine ⟨?_, by rw [Manifest.open, read]⟩
  rw [read, List.append_cancel_left_eq]
  split_ifs with whole <;> simp [whole]

end

/-! ### A printer for a few entries -/

instance encodableUInt8 : Encodable UInt8 := Encodable.ofLeftInverse UInt8.toNat UInt8.ofNat (by intro x; simp)

instance encodableBitVec (w : Nat) : Encodable (BitVec w) := Encodable.ofLeftInverse BitVec.toNat (BitVec.ofNat w) (by intro x; simp)

instance : Encodable ByteString.Bytes := inferInstanceAs (Encodable (List UInt8))

deriving instance Encodable for BloomFilter
deriving instance Encodable for BlockInfo
deriving instance Encodable for SstInfo
deriving instance Encodable for ManifestEntry

def sampleInfo (id : Nat) : SstInfo := ⟨id, 1, 90, 5, 5, 9, 9, none⟩

def quoted (name : String) : Text := '"' :: name.toList ++ ['"']

def object (members : List (String × Text)) : Text :=
  let texts := members.map fun m => quoted m.1 ++ ':' :: m.2
  '{' :: (texts.intersperse [',']).flatten ++ ['}']

def number (n : Nat) : Text := Nat.toDigits 10 n

def infoText (info : SstInfo) : Text :=
  object [("id", number info.id), ("records", number info.records), ("bytes", number info.bytes),
    ("min_ts", number info.minTs.toNat), ("max_ts", number info.maxTs.toNat), ("min_expire", number info.minExpire.toNat),
    ("max_expire", number info.maxExpire.toNat), ("bloom", ['n', 'u', 'l', 'l'])]

def flushText (seq : Nat) (info : SstInfo) : Text :=
  object [("type", quoted "flush"), ("seq", number seq), ("sst", infoText info), ("blocks", ['[', ']'])]

def sampleTexts : List (ManifestEntry × Text) :=
  [(.checkpoint 7, object [("type", quoted "checkpoint"), ("last_flushed_seq", number 7)]),
    (.flush 7 (sampleInfo 1) [], flushText 7 (sampleInfo 1)), (.flush 8 (sampleInfo 2) [], flushText 8 (sampleInfo 2))]

-- Entries other than the samples are numbered.
def sampleText (entry : ManifestEntry) : Text :=
  match sampleTexts.find? fun s => s.1 = entry with
  | some s => s.2
  | none => '[' :: (List.replicate (Encodable.encode entry) '1' ++ [']'])

theorem sampleText_cases (entry : ManifestEntry) :
    (∃ s ∈ sampleTexts, s.1 = entry ∧ sampleText entry = s.2) ∨
      sampleText entry = '[' :: (List.replicate (Encodable.encode entry) '1' ++ [']']) := by
  cases found : sampleTexts.find? fun s => s.1 = entry with
  | none => exact Or.inr (by rw [sampleText, found])
  | some s =>
    have same : s.1 = entry := by simpa using List.find?_some found
    exact Or.inl ⟨s, List.mem_of_find?_eq_some found, same, by rw [sampleText, found]⟩

theorem sampleTexts_apart : (∀ s ∈ sampleTexts, s.2.head? ≠ some '[') ∧
    ∀ s ∈ sampleTexts, ∀ u ∈ sampleTexts, s.2 = u.2 → s.1 = u.1 := by decide +kernel

theorem sampleTexts_plain : ∀ s ∈ sampleTexts, Plain s.2 := by
  have checked : (sampleTexts.all fun s => s.2.all fun c => 33 ≤ c.toNat && c.toNat ≤ 126 && c != '\\') = true := by
    decide +kernel
  intro s inside c member
  have fine := List.all_eq_true.mp (List.all_eq_true.mp checked s inside) c member
  simpa only [Bool.and_eq_true, decide_eq_true_eq, bne_iff_ne, ne_eq, and_assoc] using fine

theorem sampleTexts_bracketed : ∀ s ∈ sampleTexts, Bracketed s.2 := by decide +kernel

theorem sampleText_injective {a b : ManifestEntry} (same : sampleText a = sampleText b) : a = b := by
  rcases sampleText_cases a with ⟨s, inside, rfl, text⟩ | text <;>
    rcases sampleText_cases b with ⟨u, within, rfl, other⟩ | other
  · exact sampleTexts_apart.2 s inside u within (text.symm.trans (same.trans other))
  · exact absurd (by rw [← text, same, other]; rfl) (sampleTexts_apart.1 s inside)
  · exact absurd (by rw [← other, ← same, text]; rfl) (sampleTexts_apart.1 u within)
  · have lengths := congrArg List.length (text.symm.trans (same.trans other))
    simp only [List.length_cons, List.length_append, List.length_replicate, List.length_nil] at lengths
    exact Encodable.encode_injective (by omega)

theorem numbered_bracketed (count : Nat) : Bracketed ('[' :: (List.replicate count '1' ++ [']'])) := by
  have digits : scan (.inside 0 false false) (List.replicate count '1' ++ [']']) = some .after := by
    induction count with
    | zero => rfl
    | succ count ih => exact ih
  exact digits

def sampleRead (t : Text) : Option ManifestEntry :=
  (sampleTexts.map Prod.fst ++ (Encodable.decode (t.length - 2) : Option ManifestEntry).toList).find? fun entry =>
    sampleText entry = t

def sampleCodec : Codec ManifestEntry where
  toText := sampleText
  fromText := sampleRead
  round_trip entry := by
    have candidate : entry ∈ sampleTexts.map Prod.fst ++
        (Encodable.decode ((sampleText entry).length - 2) : Option ManifestEntry).toList := by
      rcases sampleText_cases entry with ⟨s, inside, rfl, -⟩ | text
      · exact List.mem_append_left _ (List.mem_map.mpr ⟨s, inside, rfl⟩)
      · have number : (sampleText entry).length - 2 = Encodable.encode entry := by simp [text]
        rw [number, Encodable.encodek]
        exact List.mem_append_right _ List.mem_cons_self
    cases found : sampleRead (sampleText entry) with
    | none => simpa using List.find?_eq_none.mp found entry candidate
    | some other => exact congrArg some (sampleText_injective (by simpa using List.find?_some found))
  plain entry := by
    rcases sampleText_cases entry with ⟨s, inside, rfl, text⟩ | text
    · rw [text]
      exact sampleTexts_plain s inside
    · intro c member
      rw [text] at member
      obtain rfl | rfl | rfl : c = '[' ∨ c = '1' ∨ c = ']' := by
        simp only [List.mem_cons, List.mem_append, List.mem_replicate, List.not_mem_nil, or_false] at member
        tauto
      all_goals decide
  bracketed t entry read := by
    have same : sampleText entry = t := by simpa using List.find?_some read
    rw [← same]
    rcases sampleText_cases entry with ⟨s, inside, rfl, text⟩ | text
    · rw [text]
      exact sampleTexts_bracketed s inside
    · rw [text]
      exact numbered_bracketed _

theorem snapshot_stands_for_log_sample :
    let log : List ManifestEntry := [.flush 7 (sampleInfo 1) [], .checkpoint 7]
    let m := (Manifest.open sampleCodec []).appends sampleCodec log
    let replayed := (Manifest.open sampleCodec m.file).appends sampleCodec [.flush 8 (sampleInfo 2) []]
    let reopened := (Manifest.open sampleCodec (m.snapshot sampleCodec [(1, sampleInfo 1)]).file).appends sampleCodec
      [.flush 8 (sampleInfo 2) []]
    SameState reopened.state replayed.state :=
  (snapshot_stands_for_log sampleCodec [.flush 7 (sampleInfo 1) [], .checkpoint 7] [.flush 8 (sampleInfo 2) []]
    (fun e member => by
      simp only [List.mem_cons, List.not_mem_nil, or_false] at member
      rcases member with rfl | rfl <;> trivial)
    [(1, sampleInfo 1)] (List.Perm.refl _)).2.1

theorem appended_behind_torn_iff_sample :
    let m := (Manifest.open sampleCodec (tornFile sampleCodec [.flush 7 (sampleInfo 1) []] (.checkpoint 7) 0)).append
      sampleCodec (.flush 8 (sampleInfo 2) [])
    readLog sampleCodec.fromText m.file = [.flush 7 (sampleInfo 1) [], .flush 8 (sampleInfo 2) []] :=
  (appended_behind_torn_iff sampleCodec [.flush 7 (sampleInfo 1) []] (.checkpoint 7) (.flush 8 (sampleInfo 2) []) 0
    (by decide +kernel)).1.mpr rfl

/-- The checkpoint line of one flush torn after ten bytes, the append of the next flush returns and is forgotten. -/
theorem flush_behind_torn_lost :
    let log : List ManifestEntry := [.flush 7 (sampleInfo 1) []]
    let m := (Manifest.open sampleCodec (tornFile sampleCodec log (.checkpoint 7) 10)).append sampleCodec
      (.flush 8 (sampleInfo 2) [])
    m.state.sstables.get? 2 = some (sampleInfo 2) ∧
      (Manifest.open sampleCodec m.file).state.sstables.get? 2 = none ∧
      readLog sampleCodec.fromText m.file ≠ log ++ [.flush 8 (sampleInfo 2) []] := by
  intro log m
  have read : readLog sampleCodec.fromText m.file = log := by
    have torn := sampleCodec.readLog_torn log (.checkpoint 7) (.flush 8 (sampleInfo 2) []) 10 (by decide +kernel)
    rw [if_neg (by decide), List.append_nil] at torn
    rw [← torn]
    simp only [m, Manifest.append, Manifest.open, tornFile, List.append_assoc]
  refine ⟨?_, ?_, ?_⟩
  · rw [show m.state = applyEntry _ (.flush 8 (sampleInfo 2) []) from rfl, (applyEntry_flush _ 8 (sampleInfo 2) []).1]
    exact get?_insert_self _ 2 _
  · rw [Manifest.open, read]
    decide
  · rw [read]
    decide

end FlowDb.ManifestFile
