import FlowDb.AppliedStores
import FlowDb.LateIndexes

/-! A program applies its schemas each time it starts. Once `apply_schemas` has accepted them, it finds
nothing to do from then on. -/
namespace FlowDb.AppliedSchemas
open OrderedMap Records JsonValue JsonEncoding JsonDb JsonIndexes JsonSessions JsonStores AppliedStores
open LateIndexes (tagSerde)
open SchemaRecords (andThen forEach createIndexOf deleteIndexOf applyStore)

section
variable (S : Serde) (debugPaths : List String → String)

def applySchemas (db : JsonDB) (stores : List StoreDef) : Except FlowError Unit × JsonDB :=
  forEach (fun d db => applyStore S debugPaths db d) stores db

/-- The indexes are those requested, but for whether they have several entries. -/
structure Matches (found d : StoreDef) : Prop where
  keyPath : found.keyPath = d.keyPath
  indexes : ∀ idx, idx ∈ found.indexes.map plain ↔ idx ∈ d.indexes.map plain

/-- What stands under a name has it, and its indexes have names of their own. -/
def Tidy (db : JsonDB) (name : String) : Prop :=
  ∀ found, db.schema.get? name = some found → found.name = name ∧ (found.indexes.map IndexDef.name).Nodup

end

/-! ### One definition leaves the other stores alone -/

section
variable {S : Serde} {debugPaths : List String → String} {start db : JsonDB} {store name : String} {d : StoreDef}

theorem attempted_elsewhere {attempt : Except FlowError JsonDB}
    (kept : ∀ after, attempt = .ok after → after.schema.get? name = db.schema.get? name) :
    (attempted db attempt).2.schema.get? name = db.schema.get? name := by
  cases attempt with
  | ok after => exact kept after rfl
  | error e => rfl

theorem perform_elsewhere (standing : Standing start db store d) (other : name ≠ store) (c : Change) :
    (c.perform S store db).2.schema.get? name = db.schema.get? name := by
  -- A change writes the definition anew under the name that it has.
  have inserted : ∀ d', (db.schema.insert d.name d').get? name = db.schema.get? name := by
    intro d'
    rw [get?_insert, if_neg (standing.named ▸ other)]
  cases c with
  | mark =>
    change (markAutoIncrement S db store).2.schema.get? name = _
    rw [markAutoIncrement_eq standing]
    apply attempted_elsewhere
    intro after done
    obtain ⟨_, _, done⟩ := bind_ok done
    obtain rfl := Except.ok.inj done
    exact inserted _
  | create idx =>
    change (createIndexOf S store idx db).2.schema.get? name = _
    rw [createIndexOf_eq standing]
    apply attempted_elsewhere
    intro after done
    obtain ⟨_, _, done⟩ := bind_ok done
    obtain ⟨_, _, done⟩ := bind_ok done
    obtain ⟨_, _, done⟩ := bind_ok done
    obtain rfl := Except.ok.inj done
    exact inserted _
  | delete idx =>
    change (deleteIndexOf S store idx db).2.schema.get? name = _
    rw [deleteIndexOf_eq standing]
    apply attempted_elsewhere
    intro after done
    obtain ⟨_, _, done⟩ := bind_ok done
    obtain ⟨_, _, done⟩ := bind_ok done
    obtain rfl := Except.ok.inj done
    exact inserted _

theorem changes_elsewhere (standing : Standing start db store d) (other : name ≠ store) (cs : List Change) :
    (forEach (Change.perform S store) cs db).2.schema.get? name = db.schema.get? name := by
  induction cs generalizing db d with
  | nil => rfl
  | cons c rest ih =>
    have first := @perform_elsewhere S start db store name d standing other c
    rw [forEach]
    obtain ⟨_, after, performed, standing'⟩ | ⟨_, e, performed⟩ := perform_cases (S := S) standing c
    · rw [performed] at first ⊢
      exact (ih standing').trans first
    · rw [performed]
      rfl

theorem createObjectStore_elsewhere (keyPath : String) (other : name ≠ store) :
    (createObjectStore S db store keyPath).2.schema.get? name = db.schema.get? name := by
  unfold createObjectStore
  dsimp only
  split
  · next after done =>
    obtain ⟨_, _, done⟩ := bind_ok done
    split at done
    · split_ifs at done
      exact Except.ok.inj done ▸ rfl
    · obtain ⟨_, _, done⟩ := bind_ok done
      obtain rfl := Except.ok.inj done
      exact (get?_insert ..).trans (if_neg other)
  · rfl

/-- A definition is refused, or changes are made to a store: the one that is there or one that is opened first. -/
theorem applyStore_cases (tidy : Tidy db d.name) : (∃ e, applyStore S debugPaths db d = (.error e, db)) ∨
    ∃ base cs first, (Leads base d cs ∧ ¬Conflicts base d ∧ base.keyPath = d.keyPath) ∧
      Standing db first d.name base ∧ (∀ name, name ≠ d.name → first.schema.get? name = db.schema.get? name) ∧
        applyStore S debugPaths db d = forEach (Change.perform S d.name) cs first := by
  cases present : db.schema.get? d.name with
  | none =>
    have aside := fun name => @createObjectStore_elsewhere S db d.name name d.keyPath
    rw [applyStore_new present]
    obtain ⟨_, first, created, standing⟩ | ⟨_, e, failed⟩ := open_cases (S := S) present
    · right
      have calm : ¬Conflicts (opened d) d := fun ⟨_, _, _, found, _⟩ => nomatch found
      rw [created] at aside ⊢
      exact ⟨opened d, newChanges d, first, ⟨newChanges_lead d, calm, rfl⟩, standing, aside, rfl⟩
    · left
      rw [failed]
      exact ⟨e, rfl⟩
  | some existing =>
    by_cases refused : existing.keyPath ≠ d.keyPath ∨ Conflicts existing d
    · exact Or.inl (applyStore_refused present refused)
    · right
      obtain ⟨same, calm⟩ := not_or.mp refused
      have standing : Standing db db d.name existing :=
        ⟨present, (tidy _ present).1, (tidy _ present).2, fun _ => rfl⟩
      have keyPath := not_not.mp same
      exact ⟨existing, changes existing d, db, ⟨changes_lead existing d, calm, keyPath⟩, standing, fun _ _ => rfl,
        applyStore_existing present keyPath calm⟩

theorem applyStore_elsewhere (tidy : Tidy db d.name) (other : name ≠ d.name) :
    (applyStore S debugPaths db d).2.schema.get? name = db.schema.get? name := by
  obtain ⟨e, refused⟩ | ⟨base, cs, first, _, standing, aside, made⟩ :=
    @applyStore_cases S debugPaths db d tidy
  · rw [refused]
  · rw [made]
    exact (changes_elsewhere standing other cs).trans (aside name other)

/-! ### One definition that is accepted -/

/-- The store matches the request, which finds nothing to do wherever the store is defined so. -/
def Settled (S : Serde) (debugPaths : List String → String) (found d : StoreDef) : Prop :=
  Matches found d ∧
    ∀ later : JsonDB, later.schema.get? d.name = some found → applyStore S debugPaths later d = (.ok (), later)

theorem settled_of_leads {base : StoreDef} {cs : List Change} {after : JsonDB} (leads : Leads base d cs)
    (calm : ¬Conflicts base d) (keyPath : base.keyPath = d.keyPath)
    (standing : Standing start after d.name (cs.foldl Change.next base)) :
    Settled S debugPaths (cs.foldl Change.next base) d := by
  refine ⟨⟨(keyPath_after cs base).trans keyPath, fun idx => ?_⟩, fun later defined => ?_⟩
  · simp only [List.mem_map]
    constructor
    · rintro ⟨g, found, rfl⟩
      obtain ⟨own, inside, named⟩ := found_requested leads found
      refine ⟨own, inside, ?_⟩
      rw [found_eq leads calm standing.distinct found inside named]
      rfl
    · rintro ⟨own, inside, rfl⟩
      exact ⟨_, requested_found leads calm inside, rfl⟩
  · exact applied_again leads calm standing.distinct defined keyPath

theorem applyStore_settled (tidy : Tidy db d.name) (accepted : (applyStore S debugPaths db d).1 = .ok ()) :
    ∃ found, (applyStore S debugPaths db d).2.schema.get? d.name = some found ∧ Settled S debugPaths found d := by
  obtain ⟨e, refused⟩ | ⟨base, cs, first, ⟨leads, calm, keyPath⟩, standing, _, made⟩ :=
    @applyStore_cases S debugPaths db d tidy
  · rw [refused] at accepted
    cases accepted
  · rw [made] at accepted ⊢
    obtain ⟨_, after, done, standing'⟩ | ⟨_, e, after, _, _, _, _, _, failed, _⟩ :=
      forEach_cases (S := S) standing cs
    · rw [done]
      exact ⟨_, standing'.defined, settled_of_leads leads calm keyPath standing'⟩
    · rw [failed] at accepted
      cases accepted

/-! ### All of them -/

theorem tidy_first (tidy : Tidy db d.name) {rest : List StoreDef} (fresh : d.name ∉ rest.map StoreDef.name)
    (each : ∀ d' ∈ rest, Tidy db d'.name) : ∀ d' ∈ rest, Tidy (applyStore S debugPaths db d).2 d'.name := by
  intro d' member found defined
  have other : d'.name ≠ d.name := fun same => fresh (same ▸ List.mem_map_of_mem member)
  rw [applyStore_elsewhere tidy other] at defined
  exact each d' member found defined

/-- It has stopped at the first definition of the rest, if any: those before are settled, and no store is touched that it
has not come to. -/
structure Stopped (S : Serde) (debugPaths : List String → String) (db : JsonDB) (done rest : List StoreDef) : Prop where
  before : (applySchemas S debugPaths db done).1 = .ok ()
  accepted : (applySchemas S debugPaths db (done ++ rest)).1 = .ok () ↔ rest = []
  last : ∀ d ∈ rest.head?, applySchemas S debugPaths db (done ++ rest) =
    applyStore S debugPaths (applySchemas S debugPaths db done).2 d
  settled : ∀ d ∈ done, ∃ found,
    (applySchemas S debugPaths db (done ++ rest)).2.schema.get? d.name = some found ∧ Settled S debugPaths found d
  elsewhere : ∀ name, name ∉ (done ++ rest.take 1).map StoreDef.name →
    (applySchemas S debugPaths db (done ++ rest)).2.schema.get? name = db.schema.get? name

theorem applySchemas_cons (d : StoreDef) (rest : List StoreDef) : applySchemas S debugPaths db (d :: rest) =
    andThen (applyStore S debugPaths db d) fun db => applySchemas S debugPaths db rest := rfl

theorem stopped_first {e : FlowError} {after : JsonDB} (failed : applyStore S debugPaths db d = (.error e, after))
    (aside : ∀ name, name ≠ d.name → after.schema.get? name = db.schema.get? name) (rest : List StoreDef) :
    Stopped S debugPaths db [] (d :: rest) := by
  have step : applySchemas S debugPaths db ([] ++ d :: rest) = (.error e, after) := by
    rw [List.nil_append, applySchemas_cons, failed]
    rfl
  constructor
  · rfl
  · rw [step]
    exact iff_of_false nofun (List.cons_ne_nil _ _)
  · rintro d' ⟨⟩
    exact step.trans failed.symm
  · exact nofun
  · intro name other
    rw [step]
    apply aside
    rintro rfl
    exact other (List.mem_singleton_self _)

theorem stopped_later {after : JsonDB} {found : StoreDef} {done rest : List StoreDef}
    (applied : applyStore S debugPaths db d = (.ok (), after))
    (aside : ∀ name, name ≠ d.name → after.schema.get? name = db.schema.get? name)
    (defined : after.schema.get? d.name = some found) (settled : Settled S debugPaths found d)
    (apart : d.name ∉ (done ++ rest).map StoreDef.name) (stopped : Stopped S debugPaths after done rest) :
    Stopped S debugPaths db (d :: done) rest := by
  have step : ∀ l, applySchemas S debugPaths db (d :: l) = applySchemas S debugPaths after l := by
    intro l
    rw [applySchemas_cons, applied]
    rfl
  constructor
  · rw [step]
    exact stopped.before
  · rw [List.cons_append, step]
    exact stopped.accepted
  · rw [List.cons_append, step, step]
    exact stopped.last
  · rw [List.cons_append, step, List.forall_mem_cons]
    refine ⟨⟨found, ?_, settled⟩, stopped.settled⟩
    refine (stopped.elsewhere d.name fun member => apart ?_).trans defined
    exact (((List.take_sublist 1 rest).append_left done).map StoreDef.name).subset member
  · intro name other
    rw [List.cons_append, List.map_cons, List.mem_cons, not_or] at other
    rw [List.cons_append, step]
    exact (stopped.elsewhere name other.2).trans (aside name other.1)

theorem applySchemas_stops (stores : List StoreDef) (apart : (stores.map StoreDef.name).Nodup)
    (tidy : ∀ d ∈ stores, Tidy db d.name) :
    ∃ done rest, stores = done ++ rest ∧ Stopped S debugPaths db done rest := by
  induction stores generalizing db with
  | nil => exact ⟨[], [], rfl, ⟨rfl, iff_of_true rfl rfl, nofun, nofun, fun _ _ => rfl⟩⟩
  | cons d rest ih =>
    rw [List.map_cons, List.nodup_cons] at apart
    rw [List.forall_mem_cons] at tidy
    have settled := @applyStore_settled S debugPaths db d tidy.1
    have aside := fun name => @applyStore_elsewhere S debugPaths db name d tidy.1
    have tidy' := @tidy_first S debugPaths db d tidy.1 rest apart.1 tidy.2
    generalize applied : applyStore S debugPaths db d = outcome at settled aside tidy'
    obtain ⟨result, after⟩ := outcome
    cases result with
    | error e => exact ⟨[], d :: rest, rfl, stopped_first applied aside rest⟩
    | ok _ =>
      obtain ⟨found, defined, settles⟩ := settled rfl
      obtain ⟨done, rest, rfl, stopped⟩ := ih apart.2 tidy'
      exact ⟨d :: done, rest, rfl, stopped_later applied aside defined settles apart.1 stopped⟩

theorem applySchemas_resumes (done rest : List StoreDef)
    (settled : ∀ d ∈ done, applyStore S debugPaths db d = (.ok (), db)) :
    applySchemas S debugPaths db (done ++ rest) = applySchemas S debugPaths db rest := by
  induction done with
  | nil => rfl
  | cons d more ih =>
    rw [List.forall_mem_cons] at settled
    rw [List.cons_append, applySchemas, forEach, settled.1]
    exact ih settled.2

end

/-- Schemas of different stores are applied up to the first that fails, the call ending as it does. The stores before it
are as requested, those that come neither before it nor at it are as they were, and applying the schemas again, to any
database that has the stores before it, writes nothing until it is there. -/
theorem schemas_settle (S : Serde) (debugPaths : List String → String) {db : JsonDB} (named : SchemaNamed db)
    (stores : List StoreDef) (apart : (stores.map StoreDef.name).Nodup) : ∃ done rest, stores = done ++ rest ∧
      (applySchemas S debugPaths db done).1 = .ok () ∧
      ((applySchemas S debugPaths db stores).1 = .ok () ↔ rest = []) ∧
      (∀ d ∈ rest.head?, applySchemas S debugPaths db stores =
        applyStore S debugPaths (applySchemas S debugPaths db done).2 d) ∧
      (∀ d ∈ done, ∃ found,
        (applySchemas S debugPaths db stores).2.schema.get? d.name = some found ∧ Matches found d) ∧
      (∀ name, name ∉ (done ++ rest.take 1).map StoreDef.name →
        (applySchemas S debugPaths db stores).2.schema.get? name = db.schema.get? name) ∧
      ∀ later : JsonDB,
        (∀ d ∈ done, later.schema.get? d.name = (applySchemas S debugPaths db stores).2.schema.get? d.name) →
          applySchemas S debugPaths later stores = applySchemas S debugPaths later rest := by
  have tidy : ∀ d ∈ stores, Tidy db d.name := fun d _ found defined =>
    ⟨(named.named _ _ defined).1, named.distinct _ _ defined⟩
  obtain ⟨done, rest, rfl, stopped⟩ := @applySchemas_stops S debugPaths db stores apart tidy
  refine ⟨done, rest, rfl, stopped.before, stopped.accepted, stopped.last, fun d member => ?_, stopped.elsewhere,
    fun later same => ?_⟩
  · obtain ⟨found, defined, settles⟩ := stopped.settled d member
    exact ⟨found, defined, settles.1⟩
  · apply applySchemas_resumes
    intro d member
    obtain ⟨found, defined, settles⟩ := stopped.settled d member
    exact settles.2 later ((same d member).trans defined)

/-! ### Two stores -/

def appStores : List StoreDef :=
  [⟨"users", "id", true, [⟨["email"], "by_email", true, false⟩], 0⟩, ⟨"orders", "id", false, [], 0⟩]

/-- On a new database both are created; a second start finds them and writes nothing. -/
theorem schemas_settle_app : ((applySchemas tagSerde (fun _ => "[]") ⟨∅, ∅⟩ appStores).2.schema.get? "users").map
      StoreDef.indexes = some [⟨["email"], "by_email", true, false⟩] ∧
    ∀ later : JsonDB, later.schema = (applySchemas tagSerde (fun _ => "[]") ⟨∅, ∅⟩ appStores).2.schema →
      applySchemas tagSerde (fun _ => "[]") later appStores = (.ok (), later) := by
  obtain ⟨done, rest, _, _, accepted, _, _, _, resumes⟩ :=
    @schemas_settle tagSerde (fun _ => "[]") ⟨∅, ∅⟩ ⟨by simp, by simp, by simp⟩ appStores (by decide)
  obtain rfl : rest = [] := accepted.mp (by decide +kernel)
  refine ⟨by decide +kernel, fun later same => resumes later fun d _ => ?_⟩
  rw [same]

end FlowDb.AppliedSchemas
