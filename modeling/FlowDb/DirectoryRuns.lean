import FlowDb.EngineRuns
import FlowDb.Interleaving
import FlowDb.ManifestFile

/-! The whole life of a directory: sessions of commands, compactions and GC runs, and
opens that find filters written by a binary with another hash and rebuild them. -/
namespace FlowDb.DirectoryRuns
open ByteString OrderedMap Records Bloom Sstable WalLog ManifestLog ManifestState BlockIndex BlockMetaIndex TableStore
open MemoryTables EngineOps EngineRuns ManifestFile Interleaving

/-! ### Engine::open with its migration of filters -/

/-- The tables whose persisted filter another hash built. -/
def staleSsts (state : ManifestState) : List Nat :=
  state.activeSstIds.filter fun id =>
    match state.sstables.get? id with
    | some info =>
        match info.bloom with
        | some b => b.hashVersion != currentHashVersion
        | none => false
    | none => false

/-- The records of a file as its blocks are read back. -/
def readRecords (file : SstFile) : List InternalRecord := (List.range file.blocks.length).flatMap file.readBlock

-- Fails on a missing file, and on a table of `unreadable`: an I/O error of the reader or of the append.
def rebuildBloomForSst (unreadable : List Nat) (bitsPerKey : Nat) (t : Tables) (sstId : Nat) : Option Tables :=
  match t.files.get? sstId with
  | none => none
  | some file =>
      if sstId ∈ unreadable then none
      else
        let newBloom := BloomFilter.fromKeysWithBits (uniqueKeys none (readRecords file)) bitsPerKey
        some { t with
          manifest := t.manifest.append (.updateBloom sstId newBloom)
          index := t.index.setBloom sstId newBloom }

/-- One table of the loop over the stale ones: without a rebuilt filter it has none. -/
def migrateBloom (unreadable : List Nat) (bitsPerKey : Nat) (t : Tables) (sstId : Nat) : Tables :=
  (rebuildBloomForSst unreadable bitsPerKey t sstId).getD { t with index := t.index.removeBloom sstId }

def migrateBlooms (unreadable : List Nat) (bitsPerKey : Nat) (t : Tables) : Tables :=
  (staleSsts t.manifest.state).foldl (migrateBloom unreadable bitsPerKey) t

/-- `Engine::open`, whatever hash version the persisted filters carry. -/
def openMigrating (config : Config) (segments : List (Nat × Bytes)) (manifest : ManifestLog.Manifest)
    (files : OMap Nat SstFile) (unreadable : List Nat) : Engine :=
  let e := Engine.open config segments manifest files
  { e with tables := migrateBlooms unreadable config.bloomBitsPerKey e.tables }

/-- Where every persisted filter is of the current version there is nothing to migrate. -/
theorem openMigrating_current (config : Config) (segments : List (Nat × Bytes)) (manifest : ManifestLog.Manifest)
    (files : OMap Nat SstFile) (unreadable : List Nat) (current : staleSsts manifest.state = []) :
    openMigrating config segments manifest files unreadable = Engine.open config segments manifest files := by
  have same : (Engine.open config segments manifest files).tables.manifest = manifest := rfl
  simp [openMigrating, migrateBlooms, same, current]

/-! ### Runs -/

/-- What a binary with another hash, or a snapshot, makes of a manifest: the same tables, but for filters, and of the
current version no filter that was not there. -/
structure Restated (s s' : ManifestState) : Prop where
  lastFlushedSeq : s'.lastFlushedSeq = s.lastFlushedSeq
  blockInfos : s'.blockInfos = s.blockInfos
  nodup : s'.activeSstIds.Nodup
  active : ∀ id, id ∈ s'.activeSstIds ↔ id ∈ s.activeSstIds
  infos : ∀ id, (s'.sstables.get? id).map (fun i => { i with bloom := none }) =
    (s.sstables.get? id).map fun i => { i with bloom := none }
  blooms : ∀ id info f, s'.sstables.get? id = some info → info.bloom = some f → f.hashVersion = currentHashVersion →
    ∃ old, s.sstables.get? id = some old ∧ old.bloom = some f

/-- What a restated manifest lists is what the manifest before it listed. -/
theorem Restated.consistent {s s' : ManifestState} (restated : Restated s s') (consistent : Consistent s) :
    Consistent s' := by
  have present : ∀ id, (s'.sstables.get? id).isSome = (s.sstables.get? id).isSome := fun id => by
    have same := congrArg Option.isSome (restated.infos id)
    rwa [Option.isSome_map, Option.isSome_map] at same
  refine ⟨restated.nodup, fun id => ?_, fun id => ?_, fun id info there => ?_⟩
  · rw [restated.active, consistent.listed, present]
  · rw [restated.blockInfos, consistent.blocks, present]
  · have same := restated.infos id
    rw [there, Option.map_some] at same
    obtain ⟨old, known, stripped⟩ := Option.map_eq_some_iff.mp same.symm
    have ids : old.id = info.id := (SstInfo.mk.inj stripped).1
    rw [← ids]
    exact consistent.named id old known

/-- Another binary's filter for a table. -/
theorem restated_updateBloom (s : ManifestState) (nodup : s.activeSstIds.Nodup) (id : Nat) (f : BloomFilter)
    (stale : f.hashVersion ≠ currentHashVersion) : Restated s (s.applyEntry (.updateBloom id f)) := by
  rw [applyEntry]
  cases known : s.sstables.get? id with
  | none => exact ⟨rfl, rfl, nodup, fun _ => Iff.rfl, fun _ => rfl, fun _ info _ there has _ => ⟨info, there, has⟩⟩
  | some info =>
    refine ⟨rfl, rfl, nodup, fun _ => Iff.rfl, fun k => ?_, fun k held g there has current => ?_⟩
    · simp only [get?_insert]
      split_ifs with here
      · rw [here, known, Option.map_some, Option.map_some]
      · rfl
    · simp only [get?_insert] at there
      split_ifs at there
      · obtain rfl := Option.some.inj there
        obtain rfl := Option.some.inj has
        exact absurd current stale
      · exact ⟨held, there, has⟩

/-- `popped` is the order in which the heap of a compaction pops; `manifest` is what the open finds. -/
inductive Choice where
  | command (c : Command) (nowUs : Int)
  | compact (popped : List InternalRecord)
  | gc (nowUs : Int)
  | reopen (config : Config) (manifest : ManifestLog.Manifest) (unreadable : List Nat)

section
variable (compressedLen : Bytes → Nat)

def exec (e : Engine) : Choice → Engine
  | .command c nowUs => c.exec compressedLen e nowUs
  | .compact popped => { e with tables := CompactionRunner.run e.config compressedLen e.tables popped }
  | .gc nowUs => { e with tables := GcRunner.run e.tables nowUs }
  | .reopen config manifest unreadable => openMigrating config e.wal.files manifest e.tables.files unreadable

def next (e : Engine) (choice : Choice) : Option Engine := some (exec compressedLen e choice)

/-- An open finds the manifest that the engine left, or one restated. -/
def Faithful (e : Engine) : Choice → Prop
  | .reopen _ manifest _ => Restated e.tables.manifest.state manifest.state
  | _ => True

/-- An empty directory, opened. -/
def Start (e : Engine) : Prop := ∃ config, e = fresh config

/-- Kept by everything that changes tables, with the opens for which `Opens` holds of the tables they cannot read. -/
structure Lasting (P : Tables → Prop) (Opens : List Nat → Prop) : Prop where
  new : ∀ timeBucketSecs, P (Tables.new timeBucketSecs)
  flush : ∀ config t records, records ≠ [] → P t → P (addFlushed config compressedLen t records)
  compact : ∀ config t popped, P t → P (CompactionRunner.run config compressedLen t popped)
  gc : ∀ t nowUs, P t → P (GcRunner.run t nowUs)
  reopen : ∀ config segments manifest t unreadable, Opens unreadable → Restated t.manifest.state manifest.state → P t →
    P (openMigrating config segments manifest t.files unreadable).tables

/-- The steps of a directory's life. -/
def Allowed (Opens : List Nat → Prop) (e : Engine) (choice : Choice) : Prop :=
  Faithful e choice ∧ ∀ config manifest unreadable, choice = .reopen config manifest unreadable → Opens unreadable

/-! What every flush keeps, every command keeps. -/

section
variable {compressedLen} {P : Tables → Prop}
  (flush : ∀ config t records, records ≠ [] → P t → P (addFlushed config compressedLen t records))
include flush

theorem kept_doFlush (e : Engine) (nowUs : Int) (held : P e.tables) : P (e.doFlush compressedLen nowUs).tables := by
  unfold Engine.doFlush
  split
  · exact held
  · dsimp only
    split_ifs with expired
    · exact held
    · exact flush _ _ _ expired held

theorem kept_drainBacklog (nowUs : Int) (fuel : Nat) (e : Engine) (held : P e.tables) :
    P (Engine.drainBacklog compressedLen nowUs fuel e).tables := by
  induction fuel generalizing e with
  | zero => exact held
  | succ fuel ih =>
    rw [Engine.drainBacklog]
    split_ifs
    · exact ih _ (kept_doFlush flush e nowUs held)
    · exact held

theorem kept_submit (e : Engine) (records : List InternalRecord) (nowUs : Int) (held : P e.tables) :
    P (e.submit compressedLen records nowUs).tables := by
  have drained := kept_drainBacklog flush nowUs (e.memtables.frozen.length + 2)
    { e with seqCounter := e.seqCounter + records.length } held
  simp only [Engine.submit, Engine.processBatchGroup, Engine.flushIfFull, Engine.syncGroup]
  split_ifs
  · exact kept_doFlush flush _ nowUs drained
  · exact drained
  · exact kept_doFlush flush _ nowUs drained
  · exact drained

theorem kept_command (c : Command) (e : Engine) (nowUs : Int) (held : P e.tables) :
    P (c.exec compressedLen e nowUs).tables := by
  cases c with
  | writeBatch batch ttlSecs =>
    simp only [Command.exec, Engine.writeBatchTtl]
    split_ifs
    · exact held
    · exact kept_submit flush e _ nowUs held
  | deleteBatch keysTs =>
    simp only [Command.exec, Engine.deleteBatch]
    split_ifs
    · exact held
    · exact kept_submit flush e _ nowUs held
  | deleteRange startKey endKey => exact kept_submit flush e _ nowUs held
  | flush => exact kept_doFlush flush e nowUs held

end

namespace Lasting
variable {compressedLen} {P : Tables → Prop} {Opens : List Nat → Prop} (lasting : Lasting compressedLen P Opens)
include lasting

/-- What lasts holds in every state of every life. -/
theorem reachable {e : Engine} (reached : Reachable (next compressedLen) (Allowed Opens) Start e) : P e.tables := by
  have initial : ∀ e, Start e → P e.tables := fun e start => by
    obtain ⟨config, rfl⟩ := start
    exact lasting.new config.timeBucketSecs
  have kept : ∀ e choice e', P e.tables → Allowed Opens e choice → next compressedLen e choice = some e' →
      P e'.tables := fun e choice e' held allowed moved => by
    obtain rfl := Option.some.inj moved
    cases choice with
    | command c nowUs => exact kept_command lasting.flush c e nowUs held
    | compact popped => exact lasting.compact _ _ popped held
    | gc nowUs => exact lasting.gc _ nowUs held
    | reopen config manifest unreadable =>
      exact lasting.reopen config _ manifest _ unreadable (allowed.2 config manifest unreadable rfl) allowed.1 held
  exact reached.invariant initial kept

end Lasting

theorem reachable_exec {Opens : List Nat → Prop} {e : Engine}
    (reached : Reachable (next compressedLen) (Allowed Opens) Start e) {choice : Choice} (fine : Allowed Opens e choice) :
    Reachable (next compressedLen) (Allowed Opens) Start (exec compressedLen e choice) :=
  .step _ _ reached ⟨choice, fine, rfl⟩

end

/-! A directory with one table, and the same behind an open that finds a filter of the first hash for it. -/

def flushedPut : Engine :=
  [Choice.command (.writeBatch [.new [97] 1 [1]] none) 0, .command .flush 0].foldl (exec List.length) (fresh {})

def legacyFilter : BloomFilter := ⟨[0], 2, 0⟩

def legacyManifest : ManifestLog.Manifest := flushedPut.tables.manifest.append (.updateBloom 1 legacyFilter)

def upgraded : Engine := exec List.length flushedPut (.reopen {} legacyManifest [])

theorem upgraded_reachable (Opens : List Nat → Prop) (fine : Opens []) :
    Reachable (next List.length) (Allowed Opens) Start upgraded := by
  have commands : ∀ e c nowUs, Allowed Opens e (.command c nowUs) := fun e c nowUs => ⟨trivial, nofun⟩
  have flushed : Reachable (next List.length) (Allowed Opens) Start flushedPut := by
    simp only [flushedPut, List.foldl_cons, List.foldl_nil]
    exact reachable_exec _ (reachable_exec _ (.start _ ⟨{}, rfl⟩) (commands _ _ _)) (commands _ _ _)
  refine reachable_exec _ flushed ⟨?_, ?_⟩
  · show Restated _ _
    rw [legacyManifest, state_append]
    exact restated_updateBloom _ (by decide +kernel) 1 legacyFilter (by decide)
  · rintro config manifest unreadable ⟨⟩
    exact fine

end FlowDb.DirectoryRuns
