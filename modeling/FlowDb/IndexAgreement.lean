import FlowDb.DirectoryRuns

/-! The block index and the manifest describe the same tables. The index is what one
pass over the manifest's live tables builds, bucket by bucket, through every life of a
directory; the three views of its blocks and the manifest's lists then hold the same. -/
namespace FlowDb.IndexAgreement
open ByteString OrderedMap Records Bloom BloomFilter Sstable ManifestLog ManifestState BlockIndex BlockMetaIndex TableStore
open EngineOps ManifestFile Interleaving DirectoryRuns

/-! ### Buckets -/

section
variable {κ β : Type} [LinearOrder κ]

def nonempty (l : List β) : Option (List β) := if l = [] then none else some l

/-- A map of lists that holds the elements of `all` under their keys, in the order of `all`, and no empty list. -/
def Buckets (m : OMap κ (List β)) (key : β → κ) (all : List β) : Prop :=
  ∀ k, m.get? k = nonempty (all.filter fun x => key x = k)

theorem nonempty_getD (l : List β) : (nonempty l).getD [] = l := by
  unfold nonempty
  split_ifs with empty <;> simp [empty]

theorem nonempty_eq_some {l found : List β} (held : nonempty l = some found) : found = l ∧ l ≠ [] := by
  unfold nonempty at held
  split_ifs at held with empty
  exact ⟨(Option.some.inj held).symm, empty⟩

namespace Buckets
variable {m : OMap κ (List β)} {key : β → κ} {all : List β}

theorem empty : Buckets (∅ : OMap κ (List β)) key [] := fun _ => rfl

theorem push (buckets : Buckets m key all) (x : β) : Buckets (pushEntry m (key x) x) key (all ++ [x]) := by
  intro k
  rw [pushEntry, get?_insert, buckets (key x), nonempty_getD, List.filter_append]
  split_ifs with here
  · subst here
    simp [nonempty]
  · have elsewhere : [x].filter (fun y => key y = k) = [] := by simp [Ne.symm here]
    rw [elsewhere, List.append_nil, buckets k]

theorem congr {other : β → κ} (buckets : Buckets m key all) (same : ∀ x ∈ all, key x = other x) :
    Buckets m other all := fun k => by
  rw [buckets k]
  exact congrArg nonempty (List.filter_congr fun x member => by rw [same x member])

theorem mem {k : κ} {l : List β} (buckets : Buckets m key all) (held : m.get? k = some l) :
    l ≠ [] ∧ ∀ x ∈ l, x ∈ all ∧ key x = k := by
  rw [buckets k] at held
  obtain ⟨rfl, some_there⟩ := nonempty_eq_some held
  refine ⟨some_there, fun x member => ?_⟩
  obtain ⟨inside, here⟩ := List.mem_filter.mp member
  exact ⟨inside, of_decide_eq_true here⟩

theorem unique {m' : OMap κ (List β)} (buckets : Buckets m key all) (others : Buckets m' key all) : m = m' :=
  ext_get? fun k => (buckets k).trans (others k).symm

end Buckets

theorem sum_single (keys : List κ) (nodup : keys.Nodup) (k : κ) (n : Nat) :
    (keys.map fun j => if j = k then n else 0).sum = if k ∈ keys then n else 0 := by
  induction keys with
  | nil => rfl
  | cons j rest ih =>
    obtain ⟨fresh, distinct⟩ := List.nodup_cons.mp nodup
    rw [List.map_cons, List.sum_cons, ih distinct]
    by_cases here : j = k
    · subst here
      simp [fresh]
    · simp [here, Ne.symm here]

/-- A map of buckets holds each element as often as the list it is made of. -/
theorem Buckets.perm [DecidableEq β] {m : OMap κ (List β)} {key : β → κ} {all : List β} (buckets : Buckets m key all) :
    m.values.flatten.Perm all := by
  refine List.perm_iff_count.mpr fun x => ?_
  have each : m.entries.map (fun e => e.2.count x) = m.keys.map fun k => if k = key x then all.count x else 0 := by
    rw [OMap.keys, List.map_map]
    refine List.map_congr_left fun e member => ?_
    have held := (get?_eq_some_iff m e.1 e.2).mpr member
    rw [buckets e.1] at held
    rw [(nonempty_eq_some held).1, Function.comp_apply]
    split_ifs with here
    · rw [List.count_filter (by simp [here])]
    · refine List.count_eq_zero.mpr fun inside => here ?_
      exact (of_decide_eq_true (List.mem_filter.mp inside).2).symm
  rw [List.count_flatten, OMap.values, List.map_map]
  refine (congrArg List.sum each).trans ((sum_single m.keys (keys_nodup m) (key x) (all.count x)).trans ?_)
  split_ifs with there
  · rfl
  · have missing : x ∉ all := fun inside => there ((mem_keys_iff m _).mpr (by
      rw [buckets (key x), nonempty, if_neg]
      · rfl
      · exact List.ne_nil_of_mem (List.mem_filter.mpr ⟨inside, by simp⟩)))
    exact (List.count_eq_zero.mpr missing).symm

end

theorem retainMetas_eq {κ : Type} [LinearOrder κ] (m : OMap κ (List BlockMeta)) (sstId : Nat) :
    retainMetas m sstId = m.filterMap fun metas => nonempty (metas.filter fun b => b.sstId != sstId) := by
  refine congrArg m.filterMap (funext fun metas => ?_)
  cases metas.filter fun b => b.sstId != sstId <;> rfl

theorem get?_retainMetas {κ : Type} [LinearOrder κ] (m : OMap κ (List BlockMeta)) (sstId : Nat) (k : κ) :
    (retainMetas m sstId).get? k = nonempty (((m.get? k).getD []).filter fun b => b.sstId != sstId) := by
  refine Option.ext fun l => ?_
  simp only [get?_eq_some_iff, retainMetas_eq, mem_filterMap_iff]
  cases held : m.get? k with
  | none =>
    have absent : ∀ w, (k, w) ∉ m.entries := fun w member => by
      rw [← get?_eq_some_iff, held] at member
      cases member
    simp [absent, nonempty]
  | some w =>
    constructor
    · rintro ⟨w', member, made⟩
      rw [← get?_eq_some_iff, held] at member
      obtain rfl := Option.some.inj member
      exact made
    · exact fun made => ⟨w, (get?_eq_some_iff m k w).mp held, made⟩

theorem Buckets.retain {κ : Type} [LinearOrder κ] {m : OMap κ (List BlockMeta)} {key : BlockMeta → κ}
    {all : List BlockMeta} (buckets : Buckets m key all) (sstId : Nat) :
    Buckets (retainMetas m sstId) key (all.filter fun b => b.sstId != sstId) := by
  intro k
  rw [get?_retainMetas, buckets k, nonempty_getD, List.filter_filter, List.filter_filter]
  exact congrArg nonempty (List.filter_congr fun b _ => Bool.and_comm _ _)

/-! ### The index of a manifest -/

/-- The blocks that the manifest lists of a table, and of all live tables. -/
def metasOf (s : ManifestState) (id : Nat) : List BlockMeta :=
  ((s.blockInfos.get? id).getD []).map (BlockMeta.fromBlockInfo id)

def listed (s : ManifestState) : List BlockMeta := s.activeSstIds.flatMap (metasOf s)

def bucketOf (idx : BlockMetaIndex) (m : BlockMeta) : Int := m.minTs.tdiv idx.timeBucketUs

/-- The index that adding the tables `ids` of a manifest to an empty one gives. -/
structure Built (idx : BlockMetaIndex) (s : ManifestState) (ids : List Nat) : Prop where
  byKey : Buckets idx.byKey (·.minKey) (ids.flatMap (metasOf s))
  byTime : Buckets idx.byTime (bucketOf idx) (ids.flatMap (metasOf s))
  bySst : ∀ id, idx.sstBlocks.get? id = if id ∈ ids then some (metasOf s id) else none
  blooms : ∀ id, idx.blooms.get? id = if id ∈ ids then (s.sstables.get? id).bind (·.bloom) else none

theorem mem_metasOf {s : ManifestState} {id : Nat} {m : BlockMeta} (member : m ∈ metasOf s id) : m.sstId = id := by
  obtain ⟨bi, -, rfl⟩ := List.mem_map.mp member
  rfl

theorem metasOf_remove (s : ManifestState) (id : Nat) (ids : List Nat) :
    (ids.filter fun k => k != id).flatMap (metasOf (s.remove id)) =
      (ids.flatMap (metasOf s)).filter fun b => b.sstId != id := by
  induction ids with
  | nil => rfl
  | cons k rest ih =>
    rw [List.flatMap_cons, List.filter_append, ← ih]
    by_cases here : k = id
    · subst here
      have none_left : (metasOf s k).filter (fun b => b.sstId != k) = [] :=
        List.filter_eq_nil_iff.mpr fun b member => by simp [mem_metasOf member]
      simp [none_left]
    · have all_left : (metasOf s k).filter (fun b => b.sstId != id) = metasOf s k :=
        List.filter_eq_self.mpr fun b member => by simp [mem_metasOf member, here]
      have kept : metasOf (s.remove id) k = metasOf s k := by rw [metasOf, metasOf, remove, get?_erase, if_neg here]
      simp [here, all_left, kept]

theorem addBlocks_buckets (new : List BlockMeta) (idx : BlockMetaIndex) (all : List BlockMeta)
    (byKey : Buckets idx.byKey (·.minKey) all) (byTime : Buckets idx.byTime (bucketOf idx) all) :
    let after := new.foldl addBlock idx
    after.timeBucketUs = idx.timeBucketUs ∧ Buckets after.byKey (·.minKey) (all ++ new) ∧
      Buckets after.byTime (bucketOf idx) (all ++ new) := by
  induction new generalizing idx all with
  | nil => exact ⟨rfl, by simpa using byKey, by simpa using byTime⟩
  | cons m rest ih =>
    have next := ih (idx.addBlock m) (all ++ [m]) (byKey.push m) (byTime.push m)
    rw [List.append_assoc, List.singleton_append] at next
    exact next

namespace Built
variable {idx : BlockMetaIndex} {s : ManifestState} {ids : List Nat}

theorem start (timeBucketSecs : Nat) (s : ManifestState) : Built (.new timeBucketSecs) s [] :=
  ⟨.empty, .empty, fun _ => rfl, fun _ => rfl⟩

/-- A further table, with the filter that `s` has for it, if any. -/
theorem add (built : Built idx s ids) (id : Nat) (blocks : List BlockInfo) (there : s.blockInfos.get? id = some blocks)
    (idx' : BlockMetaIndex) (byKey : idx'.byKey = (idx.addSst id blocks).byKey)
    (byTime : idx'.byTime = (idx.addSst id blocks).byTime) (bySst : idx'.sstBlocks = (idx.addSst id blocks).sstBlocks)
    (bucket : idx'.timeBucketUs = idx.timeBucketUs)
    (blooms : ∀ k, idx'.blooms.get? k = if k = id then (s.sstables.get? id).bind (·.bloom) else idx.blooms.get? k) :
    Built idx' s (ids ++ [id]) := by
  have own : metasOf s id = blocks.map (BlockMeta.fromBlockInfo id) := by rw [metasOf, there, Option.getD_some]
  obtain ⟨-, keys, times⟩ := addBlocks_buckets (metasOf s id) idx _ built.byKey built.byTime
  have all : (ids ++ [id]).flatMap (metasOf s) = ids.flatMap (metasOf s) ++ metasOf s id := by simp
  refine ⟨?_, ?_, fun k => ?_, fun k => ?_⟩
  · rw [all, byKey, addSst, ← own]
    exact keys
  · have width : bucketOf idx' = bucketOf idx := by
      funext m
      rw [bucketOf, bucketOf, bucket]
    rw [all, byTime, addSst, ← own, width]
    exact times
  · rw [bySst, sstBlocks_addSst, get?_insert, built.bySst]
    by_cases here : k = id <;> simp [here, own]
  · rw [blooms, built.blooms]
    by_cases here : k = id <;> simp [here]

theorem removeSst (built : Built idx s ids) (id : Nat) :
    Built (idx.removeSst id) (s.remove id) (ids.filter fun k => k != id) := by
  have all := metasOf_remove s id ids
  refine ⟨?_, ?_, fun k => ?_, fun k => ?_⟩
  · rw [all]
    exact built.byKey.retain id
  · rw [all]
    exact built.byTime.retain id
  · rw [BlockMetaIndex.removeSst, get?_erase, built.bySst]
    by_cases here : k = id
    · simp [here]
    · simp [here, metasOf, remove, get?_erase]
  · rw [BlockMetaIndex.removeSst, get?_erase, built.blooms, remove, get?_erase]
    by_cases here : k = id <;> simp [here]

theorem removeSsts (built : Built idx s ids) (gone : List Nat) :
    Built (gone.foldl BlockMetaIndex.removeSst idx) (gone.foldl remove s) (ids.filter fun k => k ∉ gone) := by
  induction gone generalizing idx s ids with
  | nil => simpa using built
  | cons id rest ih =>
    have next := ih (built.removeSst id)
    rw [List.filter_filter] at next
    have same : (fun k => decide (k ∉ id :: rest)) = fun k => decide (k ∉ rest) && k != id := by
      funext k
      by_cases here : k = id <;> by_cases later : k ∈ rest <;> simp [here, later]
    rw [same]
    exact next

/-- Only what the manifest says of the tables that are in matters. -/
theorem congr {s' : ManifestState} (built : Built idx s ids) (blocks : ∀ id ∈ ids, s'.blockInfos.get? id = s.blockInfos.get? id)
    (infos : ∀ id ∈ ids, s'.sstables.get? id = s.sstables.get? id) : Built idx s' ids := by
  have each : ∀ id ∈ ids, metasOf s' id = metasOf s id := fun id member => by rw [metasOf, metasOf, blocks id member]
  have all : ids.flatMap (metasOf s') = ids.flatMap (metasOf s) := List.flatMap_congr each
  refine ⟨all ▸ built.byKey, all ▸ built.byTime, fun id => ?_, fun id => ?_⟩
  · rw [built.bySst]
    split_ifs with inside
    · rw [each id inside]
    · rfl
  · rw [built.blooms]
    split_ifs with inside
    · rw [infos id inside]
    · rfl

/-- The index is determined by what it was built from. -/
theorem unique {idx' : BlockMetaIndex} (built : Built idx s ids) (other : Built idx' s ids)
    (bucket : idx'.timeBucketUs = idx.timeBucketUs) : idx' = idx := by
  have width : bucketOf idx' = bucketOf idx := by
    funext m
    rw [bucketOf, bucketOf, bucket]
  have keys := other.byKey.unique built.byKey
  have times := (width ▸ other.byTime).unique built.byTime
  have blooms : idx'.blooms = idx.blooms := ext_get? fun id => (other.blooms id).trans (built.blooms id).symm
  have ssts : idx'.sstBlocks = idx.sstBlocks := ext_get? fun id => (other.bySst id).trans (built.bySst id).symm
  cases idx
  cases idx'
  simp_all

end Built

/-! ### Agreement through a life -/

/-- The index is built from the live tables, whose files are there and whose filters are of the current version. -/
structure Synced (t : Tables) : Prop where
  consistent : Consistent t.manifest.state
  filed : ∀ id ∈ t.activeIds, (t.files.get? id).isSome
  current : ∀ id info f, t.manifest.state.sstables.get? id = some info → info.bloom = some f →
    f.hashVersion = currentHashVersion
  built : Built t.index t.manifest.state t.activeIds

namespace Synced
variable {t : Tables}

theorem new (timeBucketSecs : Nat) : Synced (Tables.new timeBucketSecs) :=
  ⟨Consistent.start, nofun, nofun, .start timeBucketSecs _⟩

theorem publish (synced : Synced t) (m : ManifestLog.Manifest) (info : SstInfo) (f : SstFile) (bloom : BloomFilter)
    (fresh : t.manifest.state.sstables.get? info.id = none) (own : info.bloom = some bloom)
    (version : bloom.hashVersion = currentHashVersion) (consistent : Consistent m.state)
    (sstables : m.state.sstables = t.manifest.state.sstables.insert info.id info)
    (blockInfos : m.state.blockInfos = t.manifest.state.blockInfos.insert info.id f.blockInfos)
    (active : m.state.activeSstIds = (t.manifest.state.addActive info.id).activeSstIds) :
    Synced (publishSst t m info f bloom) := by
  have absent : info.id ∉ t.manifest.state.activeSstIds := by
    rw [synced.consistent.listed, fresh]
    exact Bool.false_ne_true
  have ids : m.state.activeSstIds = t.activeIds ++ [info.id] := by
    rw [active, addActive, if_neg absent]
    rfl
  have other : ∀ id ∈ t.activeIds, id ≠ info.id := fun id member same => absent (same ▸ member)
  refine ⟨consistent, fun id member => ?_, fun id held g there has => ?_, ?_⟩
  · simp only [publishSst, get?_insert]
    split_ifs with here
    · rfl
    · have inside : id ∈ t.activeIds ++ [info.id] := ids ▸ member
      exact synced.filed id ((List.mem_append.mp inside).resolve_right (by simpa using here))
  · simp only [publishSst, sstables, get?_insert] at there
    split_ifs at there
    · obtain rfl := Option.some.inj there
      exact Option.some.inj (own.symm.trans has) ▸ version
    · exact synced.current id held g there has
  · show Built _ m.state m.state.activeSstIds
    rw [ids]
    have before : Built t.index m.state t.activeIds := synced.built.congr
      (fun id member => by rw [blockInfos, get?_insert, if_neg (other id member)])
      (fun id member => by rw [sstables, get?_insert, if_neg (other id member)])
    refine before.add info.id f.blockInfos (by rw [blockInfos, get?_insert_self]) _ rfl rfl rfl ?_ fun k => ?_
    · exact (addBlocks_buckets _ t.index _ before.byKey before.byTime).1
    · simp only [publishSst, setBloom, blooms_addSst, get?_insert, sstables, if_true, Option.bind_some, own]

theorem deleteSsts (synced : Synced t) (ids : List Nat) : Synced (deleteSsts t ids) := by
  have state := deletes_state ids t.manifest
  refine ⟨?_, fun id member => ?_, fun id info f there has => ?_, ?_⟩
  · rw [TableStore.deleteSsts, state]
    exact synced.consistent.removes ids
  · rw [activeIds_deleteSsts, List.mem_filter] at member
    have kept : id ∉ ids := by simpa using member.2
    have file := synced.filed id member.1
    simp only [TableStore.deleteSsts, get?_filter]
    cases held : t.files.get? id with
    | none => rw [held] at file; cases file
    | some f => simp [Option.filter, kept]
  · rw [TableStore.deleteSsts, state, (removes_get? ids _ id).1] at there
    split_ifs at there
    exact synced.current id info f there has
  · rw [activeIds_deleteSsts, TableStore.deleteSsts, state]
    exact synced.built.removeSsts ids

end Synced

theorem insert_version (keys : List Bytes) (f : BloomFilter) : (keys.foldl BloomFilter.insert f).hashVersion = f.hashVersion := by
  induction keys generalizing f with
  | nil => rfl
  | cons key rest ih => exact ih (f.insert key)

namespace Synced
variable {t : Tables}

theorem flush (synced : Synced t) (config : Config) (compressedLen : Bytes → Nat) (records : List InternalRecord) :
    Synced (addFlushed config compressedLen t records) := by
  have entry := fun info => applyEntry_flush t.manifest.state (lastSeq records) info
    (SstWriter.write records config.blockSize config.bloomBitsPerKey).1.blockInfos
  refine synced.publish _ _ _ _ (get?_nextSstId _) rfl (insert_version _ _) ?_ ?_ ?_ ?_
  · simp only [state_append]
    exact (synced.consistent.flush _ _ _).apply (.checkpoint _) trivial
  · simp only [state_append]
    exact (entry _).1
  · simp only [state_append]
    exact (entry _).2.1
  · simp only [state_append]
    exact (entry _).2.2.1

theorem compact (synced : Synced t) (config : Config) (compressedLen : Bytes → Nat) (popped : List InternalRecord) :
    Synced (CompactionRunner.run config compressedLen t popped) := by
  simp only [CompactionRunner.run]
  split_ifs
  · exact synced
  · exact synced
  · exact synced.deleteSsts _
  · have state := deletes_state t.candidates t.manifest
    have entry := fun info blocks => applyEntry_compaction t.manifest.state t.candidates info blocks
    refine (synced.deleteSsts t.candidates).publish _ _ _ _ ?_ rfl (insert_version _ _) ?_ ?_ ?_ ?_
    · rw [TableStore.deleteSsts, state, (removes_get? _ _ _).1, sstInfo, get?_nextSstId, ite_self]
    · rw [state_append]
      exact synced.consistent.compaction _ _ _ fun id => by simp
    · rw [state_append, (entry _ _).1, TableStore.deleteSsts, state]
    · rw [state_append, (entry _ _).2.1, TableStore.deleteSsts, state]
    · rw [state_append, (entry _ _).2.2.1, TableStore.deleteSsts, state]

end Synced

/-! ### Agreement through an open -/

/-- One table of the loop of `Engine::open`. -/
def indexSst (s : ManifestState) (idx : BlockMetaIndex) (id : Nat) : BlockMetaIndex :=
  match s.sstables.get? id, s.blockInfos.get? id with
  | some info, some blocks =>
      match info.bloom with
      | some bloom => (idx.addSst id blocks).setBloom id bloom
      | none => idx.addSst id blocks
  | _, _ => idx

theorem open_index (config : Config) (segments : List (Nat × Bytes)) (manifest : ManifestLog.Manifest)
    (files : OMap Nat SstFile) : (Engine.open config segments manifest files).tables.index =
      manifest.state.activeSstIds.foldl (indexSst manifest.state) (.new config.timeBucketSecs) := rfl

namespace Built
variable {idx : BlockMetaIndex} {s : ManifestState} {ids : List Nat}

theorem indexSst (built : Built idx s ids) (id : Nat) (fresh : id ∉ ids) (info : SstInfo) (blocks : List BlockInfo)
    (known : s.sstables.get? id = some info) (blocksKnown : s.blockInfos.get? id = some blocks) :
    Built (indexSst s idx id) s (ids ++ [id]) ∧ (IndexAgreement.indexSst s idx id).timeBucketUs = idx.timeBucketUs := by
  have width : (idx.addSst id blocks).timeBucketUs = idx.timeBucketUs :=
    (addBlocks_buckets _ idx _ built.byKey built.byTime).1
  have before : idx.blooms.get? id = none := by rw [built.blooms, if_neg fresh]
  simp only [IndexAgreement.indexSst, known, blocksKnown]
  cases has : info.bloom with
  | none =>
    refine ⟨built.add id blocks blocksKnown _ rfl rfl rfl width fun k => ?_, width⟩
    rw [blooms_addSst, known, Option.bind_some, has]
    split_ifs with here
    · rw [here, before]
    · rfl
  | some bloom =>
    refine ⟨built.add id blocks blocksKnown _ rfl rfl rfl width fun k => ?_, width⟩
    simp only [known, Option.bind_some, has, setBloom, blooms_addSst, get?_insert]

theorem indexSsts (later : List Nat) (built : Built idx s ids) (nodup : (ids ++ later).Nodup)
    (known : ∀ id ∈ later, ∃ info blocks, s.sstables.get? id = some info ∧ s.blockInfos.get? id = some blocks) :
    Built (later.foldl (IndexAgreement.indexSst s) idx) s (ids ++ later) ∧
      (later.foldl (IndexAgreement.indexSst s) idx).timeBucketUs = idx.timeBucketUs := by
  induction later generalizing idx ids with
  | nil => simpa using built
  | cons id rest ih =>
    obtain ⟨info, blocks, there, blocksThere⟩ := known id List.mem_cons_self
    have fresh : id ∉ ids := fun before => (List.nodup_append.mp nodup).2.2 id before id List.mem_cons_self rfl
    obtain ⟨next, width⟩ := built.indexSst id fresh info blocks there blocksThere
    rw [List.append_cons] at nodup ⊢
    rw [List.foldl_cons, ← width]
    exact ih next nodup fun k member => known k (List.mem_cons_of_mem id member)

end Built

theorem built_open (config : Config) (segments : List (Nat × Bytes)) (manifest : ManifestLog.Manifest)
    (files : OMap Nat SstFile) (consistent : Consistent manifest.state) :
    Built (Engine.open config segments manifest files).tables.index manifest.state manifest.state.activeSstIds ∧
      (Engine.open config segments manifest files).tables.index.timeBucketUs = config.timeBucketSecs * 1000000 := by
  rw [open_index]
  refine (Built.start config.timeBucketSecs manifest.state).indexSsts _ consistent.nodup fun id member => ?_
  have there := (consistent.listed id).mp member
  obtain ⟨info, known⟩ := Option.isSome_iff_exists.mp there
  obtain ⟨blocks, blocksKnown⟩ := Option.isSome_iff_exists.mp ((consistent.blocks id).mpr there)
  exact ⟨info, blocks, known, blocksKnown⟩

/-- A rebuilt filter replaces the old one in index and manifest alike. -/
theorem migrateBloom_rebuilt (bits : Nat) (t : Tables) (consistent : Consistent t.manifest.state)
    (built : Built t.index t.manifest.state t.activeIds) (id : Nat) (live : id ∈ t.activeIds)
    (filed : (t.files.get? id).isSome) :
    let t' := migrateBloom [] bits t id
    Consistent t'.manifest.state ∧ t'.activeIds = t.activeIds ∧ t'.files = t.files ∧
      Built t'.index t'.manifest.state t'.activeIds ∧
      ∀ k info f, t'.manifest.state.sstables.get? k = some info → info.bloom = some f →
        f.hashVersion = currentHashVersion ∨ k ≠ id ∧ t.manifest.state.sstables.get? k = some info := by
  obtain ⟨file, there⟩ := Option.isSome_iff_exists.mp filed
  obtain ⟨info, known⟩ := Option.isSome_iff_exists.mp ((consistent.listed id).mp live)
  simp only [migrateBloom, rebuildBloomForSst, there, List.not_mem_nil, if_false, Option.getD_some, Tables.activeIds, state_append]
  have entry : ∀ f, t.manifest.state.applyEntry (.updateBloom id f) =
      { t.manifest.state with sstables := t.manifest.state.sstables.insert id { info with bloom := some f } } := fun f => by
    rw [applyEntry, known]
  generalize made : fromKeysWithBits (uniqueKeys none (readRecords file)) bits = bloom
  have version : bloom.hashVersion = currentHashVersion := made ▸ insert_version _ _
  rw [entry]
  refine ⟨entry bloom ▸ consistent.updateBloom id bloom, rfl, trivial, ⟨built.byKey, built.byTime, built.bySst, fun k => ?_⟩,
    fun k held f found has => ?_⟩
  · simp only [setBloom, get?_insert]
    by_cases here : k = id
    · subst here
      have held : k ∈ t.manifest.state.activeSstIds := live
      simp [held]
    · rw [if_neg here, if_neg here, built.blooms]
      rfl
  · simp only [get?_insert] at found
    split_ifs at found with here
    · obtain rfl := Option.some.inj found
      exact Or.inl (Option.some.inj has ▸ version)
    · exact Or.inr ⟨here, found⟩

namespace Synced
variable {t : Tables}

/-- Rebuilding all filters that are not of the current version leaves none. -/
theorem migrates (bits : Nat) (ids : List Nat) (consistent : Consistent t.manifest.state)
    (filed : ∀ id ∈ t.activeIds, (t.files.get? id).isSome) (built : Built t.index t.manifest.state t.activeIds)
    (live : ∀ id ∈ ids, id ∈ t.activeIds)
    (stale : ∀ id info f, t.manifest.state.sstables.get? id = some info → info.bloom = some f →
      f.hashVersion = currentHashVersion ∨ id ∈ ids) : Synced (ids.foldl (migrateBloom [] bits) t) := by
  induction ids generalizing t with
  | nil => exact ⟨consistent, filed, fun id info f there has => (stale id info f there has).resolve_right List.not_mem_nil, built⟩
  | cons id rest ih =>
    have first := live id List.mem_cons_self
    obtain ⟨consistent', active, files, built', rebuilt⟩ := migrateBloom_rebuilt bits t consistent built id first (filed id first)
    refine ih consistent' (by rw [active, files]; exact filed) built' (fun k member => ?_) fun k info f there has => ?_
    · rw [active]
      exact live k (List.mem_cons_of_mem id member)
    · rcases rebuilt k info f there has with current | ⟨other, before⟩
      · exact Or.inl current
      · exact (stale k info f before has).imp_right fun member => (List.mem_cons.mp member).resolve_left other

theorem stale_all (s : ManifestState) (consistent : Consistent s) (id : Nat) (info : SstInfo) (f : BloomFilter)
    (there : s.sstables.get? id = some info) (has : info.bloom = some f) :
    f.hashVersion = currentHashVersion ∨ id ∈ staleSsts s := by
  by_cases current : f.hashVersion = currentHashVersion
  · exact Or.inl current
  · refine Or.inr (List.mem_filter.mpr ⟨(consistent.listed id).mpr (by rw [there]; rfl), ?_⟩)
    simp [there, has, current]

theorem openAgain (synced : Synced t) (config : Config) (segments : List (Nat × Bytes)) (manifest : ManifestLog.Manifest)
    (restated : Restated t.manifest.state manifest.state) :
    Synced (openMigrating config segments manifest t.files []).tables := by
  have consistent := restated.consistent synced.consistent
  refine migrates config.bloomBitsPerKey _ consistent (fun id member => ?_)
    (built_open config segments manifest t.files consistent).1 (fun id member => (List.mem_filter.mp member).1)
    (stale_all manifest.state consistent)
  exact synced.filed id ((restated.active id).mp member)

end Synced

theorem synced_lasting (compressedLen : Bytes → Nat) : Lasting compressedLen Synced (· = []) where
  new := Synced.new
  flush config _ records _ synced := synced.flush config compressedLen records
  compact config _ popped synced := synced.compact config compressedLen popped
  gc _ _ synced := synced.deleteSsts _
  reopen config segments manifest _ unreadable fine restated synced := by
    obtain rfl := fine
    exact synced.openAgain config segments manifest restated

/-! ### What index and manifest agree on -/

/-- The index lists the live tables of the manifest, and of each its blocks, once in each of its three views. -/
structure Described (idx : BlockMetaIndex) (s : ManifestState) : Prop where
  ids : idx.sstBlocks.keys.Perm s.activeSstIds
  own : ∀ id blocks, idx.sstBlocks.get? id = some blocks → blocks = metasOf s id
  bySst : idx.sstBlocks.values.flatten.Perm (listed s)
  byKey : idx.byKey.values.flatten.Perm (listed s)
  byTime : idx.byTime.values.flatten.Perm (listed s)
  keyBuckets : ∀ k metas, idx.byKey.get? k = some metas → metas ≠ [] ∧ ∀ m ∈ metas, m.minKey = k
  timeBuckets : ∀ k metas, idx.byTime.get? k = some metas → metas ≠ [] ∧ ∀ m ∈ metas, bucketOf idx m = k
  live : ∀ m ∈ listed s, m.sstId ∈ s.activeSstIds
  blooms : ∀ id f, idx.blooms.get? id = some f ↔
    id ∈ s.activeSstIds ∧ ∃ info, s.sstables.get? id = some info ∧ info.bloom = some f

theorem Built.described {idx : BlockMetaIndex} {s : ManifestState} (built : Built idx s s.activeSstIds)
    (nodup : s.activeSstIds.Nodup) : Described idx s := by
  have ids : idx.sstBlocks.keys.Perm s.activeSstIds := by
    refine (List.perm_ext_iff_of_nodup (keys_nodup _) nodup).mpr fun id => ?_
    rw [mem_keys_iff, built.bySst]
    split_ifs with live <;> simp [live]
  have own : ∀ id blocks, idx.sstBlocks.get? id = some blocks → blocks = metasOf s id := fun id blocks held => by
    rw [built.bySst] at held
    split_ifs at held
    exact (Option.some.inj held).symm
  refine ⟨ids, own, ?_, built.byKey.perm, built.byTime.perm, fun k metas held => ?_, fun k metas held => ?_, ?_, fun id f => ?_⟩
  · have values : idx.sstBlocks.values = idx.sstBlocks.keys.map (metasOf s) := by
      rw [OMap.values, OMap.keys, List.map_map]
      exact List.map_congr_left fun e member => own e.1 e.2 ((get?_eq_some_iff _ _ _).mpr member)
    rw [values, ← List.flatMap_def]
    exact ids.flatMap_right _
  · exact (built.byKey.mem held).imp_right fun inside m member => (inside m member).2
  · exact (built.byTime.mem held).imp_right fun inside m member => (inside m member).2
  · intro m member
    obtain ⟨id, live, inside⟩ := List.mem_flatMap.mp member
    rwa [mem_metasOf inside]
  · rw [built.blooms]
    split_ifs with live <;> simp [live, Option.bind_eq_some_iff]

/-- The order of the live ids does not matter. -/
theorem Described.same {idx : BlockMetaIndex} {s s' : ManifestState} (described : Described idx s) (same : SameState s s')
    (nodup : s.activeSstIds.Nodup) (nodup' : s'.activeSstIds.Nodup) : Described idx s' := by
  have active : s.activeSstIds.Perm s'.activeSstIds := (List.perm_ext_iff_of_nodup nodup nodup').mpr same.active
  have metas : metasOf s' = metasOf s := by
    funext id
    rw [metasOf, metasOf, same.blockInfos]
  have all : (listed s).Perm (listed s') := by
    rw [listed, listed, metas]
    exact active.flatMap_right _
  refine ⟨described.ids.trans active, ?_, described.bySst.trans all, described.byKey.trans all, described.byTime.trans all,
    described.keyBuckets, described.timeBuckets, fun m member => ?_, fun id f => ?_⟩
  · rw [metas]
    exact described.own
  · exact (same.active m.sstId).mp (described.live m (all.mem_iff.mpr member))
  · rw [described.blooms, same.active, same.sstables]

/-- After every history of commands, flushes, compactions, GC runs and opens the index describes what the manifest
lists, and so does the index that an open rebuilds from the manifest or from a snapshot of it: the very same index,
where the log is the same and the buckets are as wide. -/
theorem index_describes_manifest (compressedLen : Bytes → Nat) (e : Engine)
    (reached : Reachable (next compressedLen) (Allowed (· = [])) Start e) :
    let s := e.tables.manifest.state
    Consistent s ∧ Described e.tables.index s ∧ ∀ config manifest, SameState manifest.state s →
      manifest.state.activeSstIds.Nodup →
        let reopened := (openMigrating config e.wal.files manifest e.tables.files []).tables
        reopened.manifest = manifest ∧ Described reopened.index s ∧
          (manifest = e.tables.manifest → config.timeBucketSecs * 1000000 = e.tables.index.timeBucketUs →
            reopened.index = e.tables.index) := by
  intro s
  have synced := (synced_lasting compressedLen).reachable reached
  have described : Described e.tables.index s := synced.built.described synced.consistent.nodup
  refine ⟨synced.consistent, described, fun config manifest same nodup => ?_⟩
  have consistent : Consistent manifest.state := by
    refine ⟨nodup, fun id => ?_, fun id => ?_, fun id info there => ?_⟩
    · rw [same.active, same.sstables, synced.consistent.listed]
    · rw [same.blockInfos, same.sstables, synced.consistent.blocks]
    · exact synced.consistent.named id info (same.sstables ▸ there)
  have current : staleSsts manifest.state = [] := List.filter_eq_nil_iff.mpr fun id _ => by
    cases known : manifest.state.sstables.get? id with
    | none => simp
    | some info =>
      cases has : info.bloom with
      | none => simp [has]
      | some f => simp [has, synced.current id info f (same.sstables ▸ known) has]
  rw [openMigrating_current config e.wal.files manifest e.tables.files [] current]
  obtain ⟨built, width⟩ := built_open config e.wal.files manifest e.tables.files consistent
  refine ⟨rfl, (built.described nodup).same same nodup synced.consistent.nodup, fun log bucket => ?_⟩
  subst log
  exact synced.built.unique built (width.trans bucket)

theorem index_describes_manifest_upgraded :
    upgraded.tables.index.sstBlocks.keys = [1] ∧ Described upgraded.tables.index upgraded.tables.manifest.state ∧
      (openMigrating {} upgraded.wal.files upgraded.tables.manifest upgraded.tables.files []).tables.index =
        upgraded.tables.index := by
  obtain ⟨consistent, described, again⟩ := index_describes_manifest List.length upgraded (upgraded_reachable (· = []) rfl)
  refine ⟨by decide +kernel, described, ?_⟩
  exact (again {} _ ⟨rfl, rfl, rfl, fun _ => Iff.rfl⟩ consistent.nodup).2.2 rfl (by decide +kernel)

end FlowDb.IndexAgreement
