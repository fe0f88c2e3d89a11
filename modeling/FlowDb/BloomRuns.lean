import FlowDb.DirectoryRuns

/-! No filter hides a stored key, whichever of the four ways it was built and whatever
hash version it carries: the filters of the index and those persisted in the manifest
answer for the keys of their tables through every life of a directory. -/
namespace FlowDb.BloomRuns
open ByteString OrderedMap Records Bloom BloomFilter Sstable ManifestLog ManifestState BlockIndex BlockMetaIndex TableStore
open EngineOps Interleaving DirectoryRuns

/-- A key that a table was written with and gives back. -/
def StoredKey (file : SstFile) (key : Bytes) : Prop :=
  (∃ r ∈ file.records, r.key = key) ∧ ∃ r ∈ readRecords file, r.key = key

/-- Of records that fit their encoding every key is stored. -/
theorem storedKey_of_fits (file : SstFile) (fits : ∀ r ∈ file.records, TableFits r) (r : InternalRecord)
    (member : r ∈ file.records) : StoredKey file r.key := by
  refine ⟨⟨r, member, rfl⟩, stored r, ?_, rfl⟩
  obtain ⟨chunk, inside, held⟩ := List.mem_flatten.mp member
  obtain ⟨i, here⟩ := List.getElem?_of_mem inside
  refine List.mem_flatMap.mpr ⟨i, List.mem_range.mpr (List.getElem?_eq_some_iff.mp here).1, ?_⟩
  rw [readBlock_eq file fits, here, Option.getD_some]
  exact List.mem_map.mpr ⟨r, held, rfl⟩

def Answers (f : BloomFilter) (file : SstFile) : Prop := ∀ key, StoredKey file key → f.mayContain key = true

theorem answers_stale {f : BloomFilter} (stale : f.hashVersion ≠ currentHashVersion) (file : SstFile) : Answers f file :=
  fun _ _ => by rw [mayContain, if_pos stale]

theorem answers_written (records : List InternalRecord) (blockSize bits : Nat) :
    Answers (SstWriter.write records blockSize bits).2 (SstWriter.write records blockSize bits).1 := by
  rintro key ⟨⟨r, member, rfl⟩, -⟩
  rw [SstFile.records, SstWriter.write, chunks_flatten] at member
  exact write_mayContain records blockSize bits r member

theorem answers_streamed (records : List InternalRecord) (blockSize estimated bits : Nat) :
    Answers (SstStreamWriter.write records blockSize estimated bits).2
      (SstStreamWriter.write records blockSize estimated bits).1 := by
  rintro key ⟨⟨r, member, rfl⟩, -⟩
  rw [SstFile.records, SstStreamWriter.write, chunks_flatten] at member
  exact streamWrite_mayContain records blockSize estimated bits r member

theorem answers_rebuilt (file : SstFile) (bits : Nat) :
    Answers (fromKeysWithBits (uniqueKeys none (readRecords file)) bits) file := by
  rintro key ⟨-, r, member, rfl⟩
  exact mayContain_fromKeys _ bits r.key ((mem_uniqueKeys none _ r member).resolve_left (by simp))

/-- The filters in use and those persisted answer for their tables. -/
structure Filters (t : Tables) : Prop where
  index : ∀ id f, t.index.blooms.get? id = some f → Answers f (t.file id)
  manifest : ∀ id info f, t.manifest.state.sstables.get? id = some info → info.bloom = some f → Answers f (t.file id)

namespace Filters
variable {t : Tables}

theorem publish (filters : Filters t) (m : Manifest) (info : SstInfo) (file : SstFile) (bloom : BloomFilter)
    (answers : Answers bloom file) (own : info.bloom = some bloom)
    (sstables : ∀ id held, m.state.sstables.get? id = some held → id = info.id ∧ held = info ∨
      id ≠ info.id ∧ t.manifest.state.sstables.get? id = some held) :
    Filters (publishSst t m info file bloom) := by
  refine ⟨fun id f held => ?_, fun id held f there has => ?_⟩
  · rw [file_publishSst]
    simp only [publishSst, setBloom, blooms_addSst, get?_insert] at held
    split_ifs at held ⊢ with here
    · exact Option.some.inj held ▸ answers
    · exact filters.index id f held
  · rw [file_publishSst]
    rcases sstables id held there with ⟨here, rfl⟩ | ⟨other, before⟩
    · rw [if_pos here]
      exact Option.some.inj (own.symm.trans has) ▸ answers
    · rw [if_neg other]
      exact filters.manifest id held f before has

theorem flush (filters : Filters t) (config : Config) (compressedLen : Bytes → Nat) (records : List InternalRecord) :
    Filters (addFlushed config compressedLen t records) := by
  refine filters.publish _ _ _ _ (answers_written _ _ _) rfl fun id held there => ?_
  have entry := fun info => (applyEntry_flush t.manifest.state (lastSeq records) info
    (SstWriter.write records config.blockSize config.bloomBitsPerKey).1.blockInfos).1
  simp only [state_append] at there
  rw [show ∀ s : ManifestState, (s.applyEntry (.checkpoint (lastSeq records))).sstables = s.sstables from fun _ => rfl,
    entry, get?_insert] at there
  split_ifs at there with here
  · exact Or.inl ⟨here, (Option.some.inj there).symm⟩
  · exact Or.inr ⟨here, there⟩

theorem deleteSsts (filters : Filters t) (ids : List Nat) : Filters (deleteSsts t ids) := by
  refine ⟨fun id f held => ?_, fun id info f there has => ?_⟩
  · have index : (TableStore.deleteSsts t ids).index.blooms.get? id = _ := (removeSsts_fields ids t.index).2.1 id
    rw [index] at held
    split_ifs at held with gone
    rw [file_deleteSsts t ids id gone]
    exact filters.index id f held
  · rw [TableStore.deleteSsts, deletes_state, (removes_get? ids _ id).1] at there
    split_ifs at there with gone
    rw [file_deleteSsts t ids id gone]
    exact filters.manifest id info f there has

theorem compact (filters : Filters t) (config : Config) (compressedLen : Bytes → Nat) (popped : List InternalRecord) :
    Filters (CompactionRunner.run config compressedLen t popped) := by
  simp only [CompactionRunner.run]
  split_ifs
  · exact filters
  · exact filters
  · exact filters.deleteSsts _
  · refine (filters.deleteSsts t.candidates).publish _ _ _ _ (answers_streamed _ _ _ _) rfl fun id held there => ?_
    have entry := fun info blocks => (applyEntry_compaction t.manifest.state t.candidates info blocks).1
    rw [state_append, entry, get?_insert] at there
    rw [TableStore.deleteSsts, deletes_state]
    split_ifs at there with here
    · exact Or.inl ⟨here, (Option.some.inj there).symm⟩
    · exact Or.inr ⟨here, there⟩

theorem migrate (filters : Filters t) (unreadable : List Nat) (bits id : Nat) :
    Filters (migrateBloom unreadable bits t id) := by
  have removed : Filters { t with index := t.index.removeBloom id } := by
    refine ⟨fun k f held => ?_, filters.manifest⟩
    simp only [removeBloom, get?_erase] at held
    split_ifs at held
    exact filters.index k f held
  rw [migrateBloom, rebuildBloomForSst]
  cases there : t.files.get? id with
  | none => exact removed
  | some file =>
    dsimp only
    split_ifs with failed
    · exact removed
    · have own : t.file id = file := by rw [Tables.file, there, Option.getD_some]
      have rebuilt : Answers (fromKeysWithBits (uniqueKeys none (readRecords file)) bits) (t.file id) :=
        own ▸ answers_rebuilt file bits
      refine ⟨fun k f held => ?_, fun k info f held has => ?_⟩
      · simp only [Option.getD_some, setBloom, get?_insert] at held
        split_ifs at held with here
        · obtain rfl := Option.some.inj held
          subst here
          exact rebuilt
        · exact filters.index k f held
      · simp only [Option.getD_some, state_append, applyEntry] at held
        cases known : t.manifest.state.sstables.get? id with
        | none =>
          rw [known] at held
          exact filters.manifest k info f held has
        | some old =>
          simp only [known, get?_insert] at held
          split_ifs at held with here
          · obtain rfl := Option.some.inj held
            obtain rfl := Option.some.inj has
            subst here
            exact rebuilt
          · exact filters.manifest k info f held has

theorem migrates (unreadable : List Nat) (bits : Nat) (ids : List Nat) (filters : Filters t) :
    Filters (ids.foldl (migrateBloom unreadable bits) t) := by
  induction ids generalizing t with
  | nil => exact filters
  | cons id rest ih => exact ih (filters.migrate unreadable bits id)

end Filters

/-- An open takes its filters from the manifest. -/
theorem open_blooms (config : Config) (segments : List (Nat × Bytes)) (manifest : Manifest) (files : OMap Nat SstFile)
    (id : Nat) (f : BloomFilter) (held : (Engine.open config segments manifest files).tables.index.blooms.get? id = some f) :
    ∃ info, manifest.state.sstables.get? id = some info ∧ info.bloom = some f := by
  revert held
  simp only [Engine.open]
  have start : (BlockMetaIndex.new config.timeBucketSecs).blooms.get? id = some f →
      ∃ info, manifest.state.sstables.get? id = some info ∧ info.bloom = some f := by simp [BlockMetaIndex.new]
  generalize BlockMetaIndex.new config.timeBucketSecs = idx at start
  induction manifest.state.activeSstIds generalizing idx with
  | nil => exact start
  | cons first rest ih =>
    refine ih _ fun held => ?_
    cases known : manifest.state.sstables.get? first with
    | none => simp only [known] at held; exact start held
    | some info =>
      cases blocks : manifest.state.blockInfos.get? first with
      | none => simp only [known, blocks] at held; exact start held
      | some blocks' =>
        cases bloom : info.bloom with
        | none =>
          simp only [known, blocks, bloom, blooms_addSst] at held
          exact start held
        | some filter =>
          simp only [known, blocks, bloom, setBloom, blooms_addSst, get?_insert] at held
          split_ifs at held with here
          · obtain rfl := Option.some.inj held
            exact ⟨info, here ▸ known, bloom⟩
          · exact start held

theorem filters_new (timeBucketSecs : Nat) : Filters (Tables.new timeBucketSecs) := by
  constructor <;> simp [Tables.new, BlockMetaIndex.new, ManifestState.empty]

theorem filters_reopen {t : Tables} (filters : Filters t) (config : Config) (segments : List (Nat × Bytes))
    (manifest : Manifest) (unreadable : List Nat) (restated : Restated t.manifest.state manifest.state) :
    Filters (openMigrating config segments manifest t.files unreadable).tables := by
  have persisted : ∀ id info f, manifest.state.sstables.get? id = some info → info.bloom = some f → Answers f (t.file id) := by
    intro id info f there has
    by_cases current : f.hashVersion = currentHashVersion
    · obtain ⟨old, before, kept⟩ := restated.blooms id info f there has current
      exact filters.manifest id old f before kept
    · exact answers_stale current _
  refine Filters.migrates unreadable config.bloomBitsPerKey _ ⟨fun id f held => ?_, persisted⟩
  obtain ⟨info, there, has⟩ := open_blooms config segments manifest t.files id f held
  exact persisted id info f there has

theorem filters_lasting (compressedLen : Bytes → Nat) : Lasting compressedLen Filters fun _ => True where
  new := filters_new
  flush config _ records _ filters := filters.flush config compressedLen records
  compact config _ popped filters := filters.compact config compressedLen popped
  gc _ _ filters := filters.deleteSsts _
  reopen config segments manifest _ unreadable _ restated filters :=
    filters_reopen filters config segments manifest unreadable restated

/-- Through every life of a directory, whatever filters other binaries left and whichever rebuilds failed, no filter
hides a key that its table stores. -/
theorem stored_keys_not_hidden (compressedLen : Bytes → Nat) (e : Engine)
    (reached : Reachable (next compressedLen) (Allowed fun _ => True) Start e) (id : Nat) (key : Bytes)
    (stored : StoredKey (e.tables.file id) key) : e.tables.index.bloomMayContain id key = true := by
  have filters := (filters_lasting compressedLen).reachable reached
  rw [bloomMayContain]
  cases held : e.tables.index.blooms.get? id with
  | none => rfl
  | some f => exact filters.index id f held key stored

theorem stored_keys_not_hidden_upgraded :
    upgraded.tables.index.blooms.get? 1 ≠ some legacyFilter ∧ upgraded.tables.index.bloomMayContain 1 [97] = true := by
  refine ⟨by decide +kernel, ?_⟩
  refine stored_keys_not_hidden List.length upgraded (upgraded_reachable _ trivial) 1 [97] ?_
  exact ⟨by decide +kernel, by decide +kernel⟩

end FlowDb.BloomRuns
