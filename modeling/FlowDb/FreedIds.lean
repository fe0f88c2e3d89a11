import FlowDb.SstIds

/-! Garbage collections beside flushes: an id is free as soon as its table is
unregistered, while the file is still to be removed. -/
namespace FlowDb.FreedIds
open ByteString OrderedMap Records Sstable ManifestLog ManifestState TableStore EngineOps
open MaintenanceSteps SstLedger SstIds Interleaving

section
variable {Run : Type}

/-- Nobody is at work and every registered table has its file. -/
structure AtRest (s : Shared Run) : Prop where
  flush : s.flush = .idle
  gc : ∀ r, s.gc r = .idle
  filed : ∀ id, Registered s.engine.tables id → (s.engine.tables.files.get? id).isSome
  wrote : ∀ id, s.wrote id = s.engine.tables.files.get? id

/-- Any steps of writers, flushes and garbage collections. -/
def NoCompaction (_ : Shared Run) : Choice Run → Prop
  | .compact .. => False
  | _ => True

instance (s : Shared Run) (choice : Choice Run) : Decidable (NoCompaction s choice) :=
  match choice with
  | .write _ => isTrue trivial
  | .flush _ => isTrue trivial
  | .compact .. => isFalse id
  | .gc .. => isTrue trivial

/-- No flush reads as its id one whose file a garbage collection has still to remove. -/
def NotPending (s : Shared Run) : Choice Run → Prop
  | .write _ => True
  | .flush _ => flushTakesId s.flush = true → ∀ r, nextId s.engine.tables ∉ remaining (s.gc r)
  | .compact .. => False
  | .gc .. => True

instance [Fintype Run] (s : Shared Run) (choice : Choice Run) : Decidable (NotPending s choice) :=
  match choice with
  | .write _ => isTrue trivial
  | .flush _ => inferInstanceAs (Decidable (flushTakesId s.flush = true → ∀ r, nextId s.engine.tables ∉ remaining (s.gc r)))
  | .compact .. => isFalse id
  | .gc .. => isTrue trivial

/-- The id a flush holds, from reading it to registering it. -/
def held (s : Shared Run) : Option Nat := (flushClaim s.engine.config s.flush).id

/-- Registered tables have their files; the id a flush holds is neither registered
nor about to be deleted; what is about to lose its file is not registered. -/
structure Filed (s : Shared Run) : Prop where
  kept : ∀ id, Registered s.engine.tables id → ∃ file, s.wrote id = some file ∧ s.engine.tables.files.get? id = some file
  fresh : ∀ n, held s = some n → ¬ Registered s.engine.tables n
  apart : ∀ n, held s = some n → ∀ r, n ∉ remaining (s.gc r)
  placed : ∀ n file, flushClaim s.engine.config s.flush = .placed n file → s.engine.tables.files.get? n = some file
  dropped : ∀ r id toDelete, s.gc r = .unregistered id toDelete → ¬ Registered s.engine.tables id

variable {s s' : Shared Run}

theorem held_none (idle : flushClaim s.engine.config s.flush = .none) : held s = none := by
  rw [held, idle]
  rfl

/-- Without an id in the hands of the flush, only registered tables matter. -/
theorem filed_idle (idle : flushClaim s.engine.config s.flush = .none)
    (kept : ∀ id, Registered s.engine.tables id → ∃ file, s.wrote id = some file ∧ s.engine.tables.files.get? id = some file)
    (dropped : ∀ r id toDelete, s.gc r = .unregistered id toDelete → ¬ Registered s.engine.tables id) : Filed s := by
  have nothing := held_none idle
  refine ⟨kept, fun n holds => ?_, fun n holds => ?_, fun n file placed => ?_, dropped⟩
  · rw [nothing] at holds
    cases holds
  · rw [nothing] at holds
    cases holds
  · rw [idle] at placed
    cases placed

theorem filed_atRest (rest : AtRest s) : Filed s := by
  refine filed_idle (by rw [rest.flush]; rfl) (fun id there => ?_) fun r id toDelete there => ?_
  · obtain ⟨file, found⟩ := Option.isSome_iff_exists.mp (rest.filed id there)
    exact ⟨file, (rest.wrote id).trans found, found⟩
  · rw [rest.gc r] at there
    cases there

/-- A step of the flush that touches neither manifest nor files, and no id. -/
theorem filed_flush_idle (filed : Filed s) (pc : FlushPc) (e : Engine)
    (files : e.tables.files = s.engine.tables.files) (manifest : e.tables.manifest = s.engine.tables.manifest)
    (idle : flushClaim e.config pc = .none) : Filed { s with flush := pc, engine := e } := by
  have registered (id : Nat) : Registered e.tables id ↔ Registered s.engine.tables id := same_registered manifest id
  refine filed_idle idle (fun id there => ?_) fun r id toDelete gone there => ?_
  · rw [files]
    exact filed.kept id ((registered id).mp there)
  · exact filed.dropped r id toDelete gone ((registered id).mp there)

end

section
variable {Run : Type} [DecidableEq Run] {compressedLen : Bytes → Nat} {s s' : Shared Run}

theorem filed_flush (filed : Filed s) (nowUs : Int)
    (free : flushTakesId s.flush = true → ∀ r, nextId s.engine.tables ∉ remaining (s.gc r))
    (moved : s.next compressedLen (.flush nowUs) = some s') : Filed s' := by
  obtain rfl := Option.some.inj moved
  cases place : s.flush with
  | idle => exact filed_flush_idle filed _ _ rfl rfl rfl
  | frozen =>
    simp only [flushStep]
    split
    · exact filed_flush_idle filed _ _ rfl rfl rfl
    · split_ifs
      · exact filed_flush_idle filed _ _ rfl rfl rfl
      · exact filed_flush_idle filed _ _ rfl rfl rfl
  | popped allRecords =>
    have unused := free (by rw [place]; rfl)
    refine ⟨filed.kept, fun n holds => ?_, fun n holds r => ?_, fun n file placed => ?_, filed.dropped⟩
    · obtain rfl := Option.some.inj holds
      exact nextId_not_registered s.engine.tables
    · obtain rfl := Option.some.inj holds
      exact unused r
    · cases placed
  | numbered sstId allRecords =>
    have holds : held s = some sstId := by rw [held, place]; rfl
    have fresh := filed.fresh sstId holds
    have placed (overwritten : List Nat) : Filed { s with
        flush := .written sstId allRecords
        engine := withTables s.engine (withFile s.engine.tables sstId (flushedSst s.engine.config allRecords).1)
        overwritten := overwritten } := by
      refine ⟨fun id there => ?_, fun n same => ?_, fun n same r => ?_, fun n file same => ?_, filed.dropped⟩
      · have other : id ≠ sstId := by
          rintro rfl
          exact fresh there
        obtain ⟨file, wrote, found⟩ := filed.kept id there
        refine ⟨file, wrote, ?_⟩
        show ((s.engine.tables.files.insert _ _).get? id) = _
        rw [get?_insert, if_neg other, found]
      · obtain rfl := Option.some.inj same
        exact fresh
      · obtain rfl := Option.some.inj same
        exact filed.apart sstId holds r
      · cases same
        exact get?_insert_self ..
    simp only [flushStep, flushClaim, Shared.observe]
    split_ifs
    · exact placed _
    · exact placed _
  | written sstId allRecords =>
    have placed : flushClaim s.engine.config s.flush = .placed sstId (flushedSst s.engine.config allRecords).1 := by
      rw [place]; rfl
    have holds : held s = some sstId := by rw [held, placed]; rfl
    have registers := flush_registers compressedLen s.engine.tables s.engine.config sstId allRecords
    refine ⟨fun id there => ?_, fun n holds => ?_, fun n holds => ?_, fun n file holds => ?_, fun r id toDelete gone there => ?_⟩
    · by_cases same : id = sstId
      · subst same
        exact ⟨_, Function.update_self .., filed.placed id _ placed⟩
      · obtain ⟨file, wrote, found⟩ := filed.kept id (((registers id).mp there).resolve_left same)
        exact ⟨file, (Function.update_of_ne same ..).trans wrote, found⟩
    · cases holds
    · cases holds
    · cases holds
    · rcases (registers id).mp there with rfl | inside
      · refine filed.apart id holds r ?_
        rw [show s.gc r = .unregistered id toDelete from gone]
        exact List.mem_cons_self
      · exact filed.dropped r id toDelete gone inside
  | registered sstId allRecords => exact filed_flush_idle filed _ _ rfl rfl rfl
  | indexed allRecords => exact filed_flush_idle filed _ _ rfl rfl rfl

/-- A step of a garbage collection: it registers nothing and leaves the files of
registered tables and of the flush alone. -/
theorem filed_gc_step (filed : Filed s) (r : Run) (pc : GcPc) (t : Tables)
    (registered : ∀ id, Registered t id → Registered s.engine.tables id)
    (files : ∀ id, Registered t id ∨ held s = some id → t.files.get? id = s.engine.tables.files.get? id)
    (apart : ∀ n, held s = some n → n ∉ remaining pc)
    (dropped : ∀ id toDelete, pc = .unregistered id toDelete → ¬ Registered t id) :
    Filed { s with gc := Function.update s.gc r pc, engine := withTables s.engine t } := by
  refine ⟨fun id there => ?_, fun n holds there => ?_, fun n holds k => ?_, fun n file placed => ?_,
    fun k id toDelete gone => ?_⟩
  · obtain ⟨file, wrote, found⟩ := filed.kept id (registered id there)
    exact ⟨file, wrote, (files id (Or.inl there)).trans found⟩
  · exact filed.fresh n holds (registered n there)
  · show n ∉ remaining (Function.update s.gc r pc k)
    by_cases same : k = r
    · subst same
      rw [Function.update_self]
      exact apart n holds
    · rw [Function.update_of_ne same]
      exact filed.apart n holds k
  · have holds : held s = some n := by
      rw [held, show flushClaim s.engine.config s.flush = .placed n file from placed]
      rfl
    exact (files n (Or.inr holds)).trans (filed.placed n file placed)
  · replace gone : Function.update s.gc r pc k = .unregistered id toDelete := gone
    by_cases same : k = r
    · subst same
      rw [Function.update_self] at gone
      exact dropped id toDelete gone
    · rw [Function.update_of_ne same] at gone
      exact fun there => filed.dropped k id toDelete gone (registered id there)

theorem expiredSsts_registered (t : Tables) (nowUs : Int) : ∀ id ∈ expiredSsts t.manifest.state nowUs, Registered t id := by
  intro id member
  obtain ⟨pair, expired, rfl⟩ := List.mem_map.mp member
  have entry := List.mem_of_mem_filter expired
  exact (mem_keys_iff _ _).mp (List.mem_map_of_mem entry)

theorem filed_gc (filed : Filed s) (r : Run) (nowUs : Int) (moved : s.next compressedLen (.gc r nowUs) = some s') :
    Filed s' := by
  obtain rfl := Option.some.inj moved
  have pending (n : Nat) (holds : held s = some n) : n ∉ remaining (s.gc r) := filed.apart n holds r
  cases place : s.gc r with
  | idle =>
    apply filed_gc_step filed
    · exact fun _ => id
    · exact fun _ _ => rfl
    · exact fun n holds member => filed.fresh n holds (expiredSsts_registered _ _ n member)
    · nofun
  | deleting toDelete =>
    rw [place] at pending
    cases toDelete with
    | nil =>
      apply filed_gc_step filed
      · exact fun _ => id
      · exact fun _ _ => rfl
      · exact pending
      · nofun
    | cons sstId toDelete =>
      apply filed_gc_step filed
      · exact fun id => (same_registered rfl id).mp
      · exact fun _ _ => rfl
      · exact pending
      · nofun
  | unindexed sstId toDelete =>
    rw [place] at pending
    have unregisters := gc_unregisters s.engine.tables sstId
    apply filed_gc_step filed
    · exact fun id there => ((unregisters id).mp there).2
    · exact fun _ _ => rfl
    · exact pending
    · intro id rest same there
      cases same
      exact ((unregisters sstId).mp there).1 rfl
  | unregistered sstId toDelete =>
    rw [place] at pending
    have gone := filed.dropped r sstId toDelete place
    apply filed_gc_step filed
    · exact fun _ => id
    · intro id live
      have other : id ≠ sstId := by
        rintro rfl
        rcases live with there | holds
        · exact gone there
        · exact pending id holds List.mem_cons_self
      show (s.engine.tables.files.erase sstId).get? id = _
      rw [get?_erase, if_neg other]
    · exact fun n holds member => pending n holds (List.mem_cons_of_mem sstId member)
    · nofun

theorem filed_next (filed : Filed s) (choice : Choice Run) (free : NotPending s choice)
    (moved : s.next compressedLen choice = some s') : Filed s' := by
  cases choice with
  | write records =>
    simp only [Shared.next] at moved
    split_ifs at moved
    obtain rfl := Option.some.inj moved
    exact ⟨filed.kept, filed.fresh, filed.apart, filed.placed, filed.dropped⟩
  | flush nowUs => exact filed_flush filed nowUs free moved
  | compact r popped => exact free.elim
  | gc r nowUs => exact filed_gc filed r nowUs moved

/-- Every registered table has its file, with what its flush wrote, at all times in
runs of flushes and garbage collections, as long as no flush reads as its id one
whose file a garbage collection has still to remove. -/
theorem registered_keep_files (reached : Reachable (Shared.next compressedLen) NotPending AtRest s) (id : Nat)
    (registered : Registered s.engine.tables id) :
    ∃ file, s.wrote id = some file ∧ s.engine.tables.files.get? id = some file := by
  have filed : Filed s := by
    apply Reachable.invariant _ _ reached
    · exact fun s => filed_atRest
    · exact fun s choice s' before free moved => filed_next before choice free moved
  exact filed.kept id registered

end

theorem atRest_alone (config : Config) : AtRest (alone config) := by
  refine ⟨rfl, fun _ => rfl, fun id there => ?_, fun _ => rfl⟩
  cases there

/-- A put that expires with the first second. -/
def shortLived : InternalRecord := { putAs 1 with expireAt := 1000000 }

/-- A table expires, is collected, and its id is used again. -/
theorem registered_keep_files_reused :
    ∃ s : Shared Unit, ∃ file, s.wrote 1 = some file ∧ s.engine.tables.files.get? 1 = some file := by
  obtain ⟨s, reached, reused⟩ := reachable_of_follow (alone eager)
    ([.write [shortLived]] ++ List.replicate 7 (.flush 0) ++ [.write [putAs 2]] ++ List.replicate 5 (.gc () 2000000) ++
      List.replicate 7 (.flush 0))
    (fun s => Registered s.engine.tables 1) (atRest_alone eager)
    (show (follow (Shared.next (fun _ => 0)) NotPending _ _).any _ = true by decide +kernel)
  exact ⟨s, registered_keep_files reached 1 (of_decide_eq_true reused)⟩

/-- A collection has unregistered table 1 and not yet removed its file when a flush
takes the id 1 again and registers its own table under it; then the collection
removes that table's file. -/
theorem live_file_removed :
    ¬ ∀ s : Shared Unit, Reachable (Shared.next (fun _ => 0)) NoCompaction AtRest s →
      s.flush = .idle → (∀ r, s.gc r = .idle) →
      ∀ id, Registered s.engine.tables id → (s.engine.tables.files.get? id).isSome := by
  intro filed
  obtain ⟨s, reached, passed⟩ := reachable_of_follow (alone eager)
    ([.write [shortLived]] ++ List.replicate 7 (.flush 0) ++ [.write [putAs 2]] ++ List.replicate 3 (.gc () 2000000) ++
      List.replicate 7 (.flush 0) ++ List.replicate 2 (.gc () 2000000))
    (fun s => s.flush = .idle ∧ (∀ r, s.gc r = .idle) ∧ Registered s.engine.tables 1 ∧
      s.engine.tables.files.get? 1 = none) (atRest_alone eager)
    (show (follow (Shared.next (fun _ => 0)) NoCompaction _ _).any _ = true by decide +kernel)
  obtain ⟨flush, gc, registered, gone⟩ := of_decide_eq_true passed
  have there := filed s reached flush gc 1 registered
  rw [gone] at there
  cases there

end FlowDb.FreedIds
