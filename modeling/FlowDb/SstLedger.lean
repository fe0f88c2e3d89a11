import FlowDb.MaintenanceSteps

/-! A ledger of table ids in use by any number of actors. An actor takes the next
id, puts a file in place under it, and registers it; the id is not reserved in
between. Kept in good order, the ledger never has two files under one id. -/
namespace FlowDb.SstLedger
open OrderedMap Sstable ManifestLog ManifestState TableStore MaintenanceSteps

/-- What an actor holds: nothing, an id it has read, or a file in place under an id
it has still to register. -/
inductive Claim where
  | none
  | taken (id : Nat)
  | placed (id : Nat) (file : SstFile)
  deriving DecidableEq, Repr

def Claim.id : Claim → Option Nat
  | .none => Option.none
  | .taken id => some id
  | .placed id _ => some id

def nextId (t : Tables) : Nat := t.manifest.state.nextSstId

def Registered (t : Tables) (id : Nat) : Prop := (t.manifest.state.sstables.get? id).isSome

instance (t : Tables) (id : Nat) : Decidable (Registered t id) := inferInstanceAs (Decidable (_ = true))

theorem lt_nextId {t : Tables} {id : Nat} (registered : Registered t id) : id < nextId t :=
  nextSstId_fresh _ id registered

theorem nextId_not_registered (t : Tables) : ¬ Registered t (nextId t) := fun registered =>
  lt_irrefl _ (lt_nextId registered)

theorem nextId_le {t : Tables} {n : Nat} (positive : 0 < n) (above : ∀ id, Registered t id → id < n) : nextId t ≤ n :=
  foldl_max_lt positive fun id member => above id ((mem_keys_iff _ _).mp member)

theorem nextId_pos (t : Tables) : 0 < nextId t := Nat.succ_pos _

section
variable {Actor : Type}

/-- The ledger in good order. `wrote` is what the run that registered an id wrote,
`overwritten` the ids under which a file was put in place of another. -/
structure Books (t : Tables) (claim : Actor → Claim) (wrote : Nat → Option SstFile) (overwritten : List Nat) : Prop where
  one : ∀ a b, claim a ≠ .none → claim b ≠ .none → a = b
  above : ∀ a n, (claim a).id = some n → nextId t ≤ n
  known : ∀ id, (t.files.get? id).isSome → id < nextId t ∨ ∃ a file, claim a = .placed id file
  content : ∀ a n file, claim a = .placed n file → t.files.get? n = some file
  kept : ∀ id, Registered t id → ∃ file, wrote id = some file ∧ t.files.get? id = some file
  clean : overwritten = []

variable {t t' : Tables} {claim : Actor → Claim} {wrote : Nat → Option SstFile} {overwritten : List Nat} {a : Actor}
  {n : Nat} {file : SstFile}

/-- Removing a file under an old id that is not registered. -/
theorem Books.unlink (books : Books t claim wrote overwritten) {id : Nat} (old : id < nextId t)
    (gone : ¬ Registered t id) : Books (withoutFile t id) claim wrote overwritten := by
  refine ⟨books.one, books.above, fun k there => ?_, fun b m f placed => ?_, fun k registered => ?_, books.clean⟩
  · refine books.known k ?_
    by_cases same : k = id
    · simp [withoutFile, get?_erase, same] at there
    · rwa [withoutFile, get?_erase, if_neg same] at there
  · have above : nextId t ≤ m := books.above b m (by rw [placed]; rfl)
    rw [withoutFile, get?_erase, if_neg (by omega)]
    exact books.content b m f placed
  · have other : k ≠ id := by
      rintro rfl
      exact gone registered
    obtain ⟨f, written, there⟩ := books.kept k registered
    exact ⟨f, written, by rw [withoutFile, get?_erase, if_neg other, there]⟩

/-- A step that does nothing with ids or files. -/
theorem Books.idle (books : Books t claim wrote overwritten) (files : t'.files = t.files)
    (registered : ∀ id, Registered t' id ↔ Registered t id) :
    nextId t' = nextId t ∧ Books t' claim wrote overwritten := by
  have next : nextId t' = nextId t := by
    apply le_antisymm
    · exact nextId_le (nextId_pos t) fun id there => lt_nextId ((registered id).mp there)
    · exact nextId_le (nextId_pos t') fun id there => lt_nextId ((registered id).mpr there)
  refine ⟨next, books.one, fun b m holds => ?_, fun id there => ?_, fun b m f placed => ?_, fun id inside => ?_, books.clean⟩
  · rw [next]
    exact books.above b m holds
  · rw [files] at there
    rw [next]
    exact books.known id there
  · rw [files]
    exact books.content b m f placed
  · rw [files]
    exact books.kept id ((registered id).mp inside)

variable [DecidableEq Actor]

theorem update_claim_ne {c : Claim} {b : Actor} (held : Function.update claim a c b ≠ .none) :
    b = a ∨ claim b ≠ .none := by
  by_cases same : b = a
  · exact Or.inl same
  · rw [Function.update_of_ne same] at held
    exact Or.inr held

/-- An id may be taken while nobody holds one. -/
theorem Books.take (books : Books t claim wrote overwritten) (free : ∀ b, claim b = .none) :
    Books t (Function.update claim a (.taken (nextId t))) wrote overwritten := by
  have only (b : Actor) (held : Function.update claim a (.taken (nextId t)) b ≠ .none) : b = a :=
    (update_claim_ne held).resolve_right fun other => other (free b)
  refine ⟨fun b c first second => (only b first).trans (only c second).symm, fun b m held => ?_, fun id there => ?_,
    fun b m f placed => ?_, books.kept, books.clean⟩
  · obtain rfl := only b (by intro none; rw [none] at held; cases held)
    rw [Function.update_self] at held
    exact (Option.some.inj held).le
  · rcases books.known id there with low | ⟨b, f, placed⟩
    · exact Or.inl low
    · rw [free b] at placed
      cases placed
  · obtain rfl := only b (by rw [placed]; nofun)
    rw [Function.update_self] at placed
    cases placed

/-- The holder of an id finds no file under it and puts its own there. -/
theorem Books.place (books : Books t claim wrote overwritten) (taken : claim a = .taken n) (file : SstFile) :
    t.files.get? n = none ∧ Books (withFile t n file) (Function.update claim a (.placed n file)) wrote overwritten := by
  have holder : claim a ≠ .none := by rw [taken]; nofun
  have above : nextId t ≤ n := books.above a n (by rw [taken]; rfl)
  have only (b : Actor) (held : Function.update claim a (.placed n file) b ≠ .none) : b = a :=
    (update_claim_ne held).elim id fun other => books.one b a other holder
  have absent : t.files.get? n = none := by
    by_contra there
    rcases books.known n (Option.isSome_iff_ne_none.mpr there) with low | ⟨b, f, placed⟩
    · omega
    · obtain rfl := books.one b a (by rw [placed]; nofun) holder
      rw [taken] at placed
      cases placed
  refine ⟨absent, fun b c first second => (only b first).trans (only c second).symm, fun b m held => ?_, fun id there => ?_,
    fun b m f placed => ?_, fun id registered => ?_, books.clean⟩
  · obtain rfl := only b (by intro none; rw [none] at held; cases held)
    rw [Function.update_self] at held
    obtain rfl := Option.some.inj held
    exact above
  · by_cases same : id = n
    · exact Or.inr ⟨a, file, by rw [same, Function.update_self]⟩
    · rw [withFile, get?_insert, if_neg same] at there
      rcases books.known id there with low | ⟨b, f, placed⟩
      · exact Or.inl low
      · obtain rfl := books.one b a (by rw [placed]; nofun) holder
        rw [taken] at placed
        cases placed
  · obtain rfl := only b (by rw [placed]; nofun)
    rw [Function.update_self] at placed
    cases placed
    rw [withFile, get?_insert_self]
  · have other : id ≠ n := by
      rintro rfl
      exact absurd (lt_nextId (t := t) registered) (by omega)
    obtain ⟨f, written, there⟩ := books.kept id registered
    exact ⟨f, written, by rw [withFile, get?_insert, if_neg other, there]⟩

/-- Registering the placed file, perhaps in exchange for others, gives the claim up. -/
theorem Books.register (books : Books t claim wrote overwritten) (placed : claim a = .placed n file)
    (files : t'.files = t.files) (registered : ∀ id, Registered t' id → id = n ∨ Registered t id) (new : Registered t' n) :
    nextId t ≤ nextId t' ∧
      Books t' (Function.update claim a .none) (Function.update wrote n (some file)) overwritten := by
  have holder : claim a ≠ .none := by rw [placed]; nofun
  have above : nextId t ≤ n := books.above a n (by rw [placed]; rfl)
  have later : n < nextId t' := lt_nextId new
  have none (b : Actor) : Function.update claim a .none b = .none := by
    by_cases same : b = a
    · rw [same, Function.update_self]
    · rw [Function.update_of_ne same]
      by_contra held
      exact same (books.one b a held holder)
  refine ⟨by omega, fun b c first => absurd (none b) first, fun b m held => ?_, fun id there => ?_, fun b m f held => ?_,
    fun id inside => ?_, books.clean⟩
  · rw [none b] at held
    cases held
  · rw [files] at there
    rcases books.known id there with low | ⟨b, f, held⟩
    · exact Or.inl (by omega)
    · obtain rfl := books.one b a (by rw [held]; nofun) holder
      rw [placed] at held
      cases held
      exact Or.inl later
  · rw [none b] at held
    cases held
  · by_cases same : id = n
    · subst same
      exact ⟨file, Function.update_self .., by rw [files]; exact books.content a id file placed⟩
    · obtain ⟨f, written, there⟩ := books.kept id ((registered id inside).resolve_left same)
      exact ⟨f, (Function.update_of_ne same ..).trans written, by rw [files]; exact there⟩

end

end FlowDb.SstLedger
