import FlowDb.SchemaChangeRuns

/-! The steps of a run of schema changes, puts and deletes: each keeps the invariant, so no change is
lost along an undisturbed run. Two indexes created at once, one of them lost. -/
namespace FlowDb.SchemaChangesKept
open ByteString OrderedMap JsonValue JsonEncoding JsonDb JsonIndexes JsonSessions JsonStores KeySpace StoreIsolation
open IndexMaintenance ConcurrentCommits Interleaving StagedRuns SchemaChanges SchemaChangeRuns
open Records hiding Query
open OptimisticRuns (Choice)

section
variable {S : Serde} {store : String} {Id : Type} [DecidableEq Id] {calls : Id → StoreCall} {d₀ : StoreDef} {s : State Id}

theorem statusOf_update (threads : Id → Thread FlowError Query Answer (Option Value) Effect) (k : Id)
    (t : Thread FlowError Query Answer (Option Value) Effect) :
    statusOf ∘ Function.update threads k t = Function.update (statusOf ∘ threads) k (statusOf t) :=
  Function.comp_update ..

/-- One thread moves on. -/
theorem inv_moved (inv : Inv S store calls d₀ s) {k : Id} {t : Thread FlowError Query Answer (Option Value) Effect}
    {state : JsonDB} {holder : Option Id}
    (tracked : Tracked (fun k => (calls k).call S store) ⟨state, holder, Function.update s.threads k t⟩)
    (consistent : Consistent S store calls d₀ (Function.update (statusOf ∘ s.threads) k (statusOf t)) state)
    (later : statusOf (s.threads k) ≠ .done)
    (reads : ReadOk S store calls d₀ (Function.update (statusOf ∘ s.threads) k (statusOf t)) (told t))
    (docs : (∀ key, getBytes state (docKey store key) = getBytes s.state (docKey store key)) ∨
      ((calls k).call S store).exclusive = true ∧ (s.threads k).Active)
    (olds : ((calls k).call S store).exclusive = true → ∀ key a,
      (⟨.getBytes (docKey store key), a⟩ : Σ q, Answer q) ∈ told t → getBytes state (docKey store key) = a)
    (pending : ∀ j seen left r, Function.update s.threads k t j = .updating seen left r →
      PendingOk S store calls (Function.update (statusOf ∘ s.threads) k (statusOf t)) state j seen left) :
    Inv S store calls d₀ ⟨state, holder, Function.update s.threads k t⟩ := by
  refine ⟨tracked, ?_, fun j => ?_, fun j exclusive key a member => ?_, fun j seen left r updating => ?_⟩
  · rw [statusOf_update]
    exact consistent
  · rw [statusOf_update]
    dsimp only
    by_cases here : j = k
    · subst here
      rw [Function.update_self]
      exact reads
    · rw [Function.update_of_ne here]
      refine (inv.reads j).later fun i done => ?_
      have apart : i ≠ k := fun same => later (same ▸ done)
      rwa [Function.update_of_ne apart]
  · dsimp only at member ⊢
    by_cases here : j = k
    · subst here
      rw [Function.update_self] at member
      exact olds exclusive key a member
    · rw [Function.update_of_ne here] at member
      have before := inv.olds j exclusive key a member
      obtain same | ⟨mine, active⟩ := docs
      · rw [same, before]
      -- Two threads would hold the lock.
      · have active' : (s.threads j).Active := by
          cases thread : s.threads j with
          | waiting | returned result =>
            rw [thread] at member
            cases member
          | running _ _ | updating _ _ _ => trivial
        have held := inv.tracked.holds k mine active
        have held' := inv.tracked.holds j exclusive active'
        exact absurd (Option.some.inj (held'.symm.trans held)) here
  · rw [statusOf_update]
    exact pending j seen left r updating

/-- A step that changes no state and no status. -/
theorem inv_idle (inv : Inv S store calls d₀ s) {k : Id} {t : Thread FlowError Query Answer (Option Value) Effect}
    {holder : Option Id} (tracked : Tracked (fun k => (calls k).call S store) ⟨s.state, holder, Function.update s.threads k t⟩)
    (before : statusOf (s.threads k) = .idle) (after : statusOf t = .idle)
    (reads : ReadOk S store calls d₀ (statusOf ∘ s.threads) (told t))
    (olds : ((calls k).call S store).exclusive = true → ∀ key a,
      (⟨.getBytes (docKey store key), a⟩ : Σ q, Answer q) ∈ told t → getBytes s.state (docKey store key) = a) :
    Inv S store calls d₀ ⟨s.state, holder, Function.update s.threads k t⟩ := by
  have same : Function.update (statusOf ∘ s.threads) k (statusOf t) = statusOf ∘ s.threads := by
    rw [after, ← before]
    exact Function.update_eq_self k (statusOf ∘ s.threads)
  refine inv_moved inv tracked (same.symm ▸ inv.consistent) (before ▸ nofun) (same.symm ▸ reads) (.inl fun _ => rfl) olds
    fun j seen left r updating => ?_
  rw [same]
  by_cases here : j = k
  · subst here
    rw [Function.update_self] at updating
    rw [updating] at after
    cases after
  · rw [Function.update_of_ne here] at updating
    exact inv.pending j seen left r updating

omit [DecidableEq Id] in
/-- An answer given now stands. -/
theorem read_answered {σ : Id → Status} {db : JsonDB} (consistent : Consistent S store calls d₀ σ db) {seen : Told}
    (reads : ReadOk S store calls d₀ σ seen) (q : Query) : ReadOk S store calls d₀ σ (seen ++ [⟨q, answer db q⟩]) := by
  have schema : ∀ q a, a = answer db q → ∀ d, (⟨.schema store, some d⟩ : Σ q, Answer q) = ⟨q, a⟩ →
      db.schema.get? store = some d := by
    rintro q a given d ⟨⟩
    exact given.symm
  have scan : ∀ q a, a = answer db q → ∀ docs, (⟨.scan (prefixRange (docPrefix store)), docs⟩ : Σ q, Answer q) = ⟨q, a⟩ →
      docs = JsonDb.scan db.engine (prefixRange (docPrefix store)) := by
    rintro q a given docs ⟨⟩
    exact given
  refine ⟨fun d member => ?_, fun docs member e inside => ?_⟩
  · rcases List.mem_append.mp member with before | now
    · exact reads.defs d before
    · have defined := schema q _ rfl d (List.mem_singleton.mp now)
      obtain ⟨d', defined', known, _⟩ := consistent.definition
      obtain rfl := Option.some.inj (defined.symm.trans defined')
      exact known
  · rcases List.mem_append.mp member with before | now
    · exact reads.docs docs before e inside
    · obtain rfl := scan q _ rfl docs (List.mem_singleton.mp now)
      obtain ⟨present, starts⟩ := (mem_prefixScan db.engine (docPrefix store) e).mp inside
      obtain ⟨key, named⟩ := owns_docs starts
      rw [named] at present
      obtain ⟨doc, decoded⟩ := consistent.decoded key e.2 present
      refine ⟨key, doc, named, decoded, consistent.keyed key doc ?_⟩
      rw [storedDoc, getBytes, present, Option.bind_some, decoded]
      rfl

theorem old_answered {db : JsonDB} {seen : Told} {key : Bytes} {a : Answer (.getBytes key)} (q : Query)
    (before : (⟨.getBytes key, a⟩ : Σ q, Answer q) ∈ seen → getBytes db key = a)
    (member : (⟨.getBytes key, a⟩ : Σ q, Answer q) ∈ seen ++ [⟨q, answer db q⟩]) : getBytes db key = a := by
  have given : ∀ q b, b = answer db q → (⟨.getBytes key, a⟩ : Σ q, Answer q) = ⟨q, b⟩ → getBytes db key = a := by
    rintro q b given ⟨⟩
    exact given.symm
  rcases List.mem_append.mp member with old | now
  · exact before old
  · exact given q _ rfl (List.mem_singleton.mp now)

section
variable (inv : Inv S store calls d₀ s) {k : Id} {seen : Told} {r : Option Value}
include inv

/-- The write of a put or a delete. -/
theorem inv_document (names : Names calls d₀) {updates : List Effect} {d : StoreDef} {key : Bytes} {new : Option (Bytes × Value)}
    (ending : s.threads k = .running seen (.done (r, updates))) (uncreated : created (calls k) = none)
    (undeleted : ∀ name, calls k ≠ .deleteIndex name) (exclusive : ((calls k).call S store).exclusive = true)
    (write : ToldWrite S store seen updates d key new) (reads : ∀ p, new = some p → decodeDoc S p.1 = .ok p.2)
    (keyed : ∀ p, new = some p → encodePrimaryKey S ((extractField p.2 d₀.keyPath).getD .null) = .ok key)
    (fits : Fits S store calls (statusOf ∘ s.threads) s.state d key (new.map Prod.snd))
    (tracked : Tracked (fun k => (calls k).call S store)
      (settle Effect.apply (fun k => (calls k).call S store) s k seen r updates)) :
    Inv S store calls d₀ (settle Effect.apply (fun k => (calls k).call S store) s k seen r updates) := by
  have told_seen : told (s.threads k) = seen := by rw [ending]; rfl
  have idle : (statusOf ∘ s.threads) k = .idle := by rw [Function.comp_apply, ending]; rfl
  obtain ⟨a, member, batch⟩ := write.old
  have known := (inv.reads k).defs d (told_seen ▸ write.definition)
  obtain rfl := batch s.state (inv.olds k exclusive key a (told_seen ▸ member))
  have quiet : Quiet calls (statusOf ∘ s.threads) (Function.update (statusOf ∘ s.threads) k .done) := by
    refine ⟨fun j idx creates => ?_, fun j name deletes => ?_, fun j => done_later j, fun j => ?_⟩
    · refine Function.update_of_ne (fun same => ?_) ..
      rw [same, uncreated] at creates
      cases creates
    · exact Function.update_of_ne (fun same => by subst same; exact undeleted name deletes) ..
    · by_cases same : j = k
      · rw [same, Function.update_self, idle]
        exact iff_of_false nofun nofun
      · rw [Function.update_of_ne same]
  have changed := consistent_changed names inv.consistent known reads fits keyed
  -- The document read under the lock is still the one stored, so the batch is one change of this state.
  refine inv_moved inv tracked (consistent_quiet quiet changed) (fun done => nomatch idle.symm.trans done) ⟨nofun, nofun⟩
    (.inr ⟨exclusive, ending ▸ trivial⟩) (fun _ _ _ => nofun) fun j seen' left r' updating => ?_
  have apart : j ≠ k := fun same => by
    rw [same, Function.update_self] at updating
    cases updating
  rw [Function.update_of_ne apart] at updating
  have ok := inv.pending j seen' left r' updating
  have waiting : (statusOf ∘ s.threads) j = .pending := by rw [Function.comp_apply, updating]; rfl
  refine pending_quiet quiet ⟨ok.only, ok.next, fun d' left' => ?_, fun idx creates docs scanned key' owns => ?_⟩
  · obtain ⟨text, printed, present⟩ := ok.persisted d' left'
    exact ⟨text, printed, (change_schema key new).trans present⟩
  · obtain ⟨fresh, accepted⟩ := inv.consistent.fresh j idx creates fun idle' => nomatch waiting.symm.trans idle'
    have unnamed : ∀ own ∈ d.indexes, own.name ≠ idx.name := by
      intro own inside same
      obtain here | ⟨i, creates', finished⟩ := known.made own inside
      · exact fresh own here same
      · obtain rfl := names.distinct.once i j own idx creates' creates same
        exact nomatch waiting.symm.trans finished
    have kept := change_region names inv.consistent known (validateName_nul_free _ accepted) unnamed key new owns
    change (∀ v, (JsonDB.write s.state (changeRecords S s.state d store key new)).engine.get? key' = some v → _) ∧
      ∀ v, _ → ∃ v', (JsonDB.write s.state (changeRecords S s.state d store key new)).engine.get? key' = some v'
    rw [kept]
    exact ok.entries idx creates docs scanned key' owns

/-- The write of a schema change, its definition unpublished yet. -/
theorem inv_written {records : List InternalRecord} {d' : StoreDef}
    (ending : s.threads k = .running seen (.done (r, [.write records, .publish d'])))
    (consistent : Consistent S store calls d₀ (Function.update (statusOf ∘ s.threads) k .pending) (JsonDB.write s.state records))
    (rested : ∀ j, statusOf (s.threads j) ≠ .pending) (persisted : Persisted S store (JsonDB.write s.state records) d')
    (docs : ∀ key, getBytes (JsonDB.write s.state records) (docKey store key) = getBytes s.state (docKey store key))
    (unlocked : ((calls k).call S store).exclusive = false)
    (current : ∀ a, (⟨.schema store, a⟩ : Σ q, Answer q) ∈ seen → s.state.schema.get? store = a)
    (entries : ∀ idx, created (calls k) = some idx → ∀ docs,
      (⟨.scan (prefixRange (docPrefix store)), docs⟩ : Σ q, Answer q) ∈ seen → ∀ key, Owns store (.index idx.name) key →
        (∀ v, (JsonDB.write s.state records).engine.get? key = some v → ScannedEntry S store docs idx key v) ∧
          ∀ v, ScannedEntry S store docs idx key v → ∃ v', (JsonDB.write s.state records).engine.get? key = some v')
    (tracked : Tracked (fun k => (calls k).call S store)
      (settle Effect.apply (fun k => (calls k).call S store) s k seen r [.write records, .publish d'])) :
    Inv S store calls d₀ (settle Effect.apply (fun k => (calls k).call S store) s k seen r [.write records, .publish d']) := by
  have idle : (statusOf ∘ s.threads) k = .idle := by rw [Function.comp_apply, ending]; rfl
  have reads := inv.reads k
  rw [ending] at reads
  refine inv_moved inv tracked consistent (fun done => nomatch idle.symm.trans done)
    (reads.later fun j => (pending_done idle j).mpr) (.inl docs) (fun exclusive => nomatch unlocked.symm.trans exclusive)
    fun j seen' left r' updating => ?_
  have here : j = k := by
    by_contra apart
    rw [Function.update_of_ne apart] at updating
    exact rested j (by rw [updating]; rfl)
  subst here
  rw [Function.update_self] at updating
  obtain ⟨rfl, rfl, rfl⟩ := Thread.updating.inj updating
  refine ⟨fun i pending => ?_, fun d'' member => current _ member, fun d'' member => ?_, entries⟩
  · by_contra apart
    rw [Function.update_of_ne apart] at pending
    exact rested i pending
  · obtain rfl := Effect.publish.inj (List.mem_singleton.mp member)
    exact persisted

/-- The publication of a definition. -/
theorem inv_published {d' : StoreDef} (going : s.threads k = .updating seen [.publish d'] r)
    (consistent : Consistent S store calls d₀ (Function.update (statusOf ∘ s.threads) k .done)
      { s.state with schema := s.state.schema.insert d'.name d' })
    (tracked : Tracked (fun k => (calls k).call S store)
      (settle Effect.apply (fun k => (calls k).call S store) s k seen r [.publish d'])) :
    Inv S store calls d₀ (settle Effect.apply (fun k => (calls k).call S store) s k seen r [.publish d']) := by
  have pending : (statusOf ∘ s.threads) k = .pending := by rw [Function.comp_apply, going]; rfl
  refine inv_moved inv tracked consistent (fun done => nomatch pending.symm.trans done) ⟨nofun, nofun⟩ (.inl fun _ => rfl)
    (fun _ _ _ => nofun) fun j seen' left r' updating => ?_
  have apart : j ≠ k := fun same => by
    rw [same, Function.update_self] at updating
    cases updating
  rw [Function.update_of_ne apart] at updating
  have waiting : (statusOf ∘ s.threads) j = .pending := by rw [Function.comp_apply, updating]; rfl
  exact absurd ((inv.pending k _ _ _ going).only j waiting) apart

end

theorem two_updates {α : Type} {made left : List α} {a b : α} (whole : made ++ left = [a, b]) (first : made ≠ [])
    (rest : left ≠ []) : left = [b] := by
  match made, first with
  | [x], _ => exact (List.cons.inj whole).2
  | x :: y :: more, _ =>
    have lengths := congrArg List.length whole
    have := List.length_pos_of_ne_nil rest
    simp only [List.length_append, List.length_cons, List.length_nil] at lengths
    omega

theorem one_update {α : Type} {made left : List α} {a : α} (whole : made ++ left = [a]) (first : made ≠ []) : left = [] := by
  rcases List.append_eq_singleton_iff.mp whole with ⟨nothing, _⟩ | ⟨_, nothing⟩
  · exact absurd nothing first
  · exact nothing

section
variable (inv : Inv S store calls d₀ s) {k : Id} {seen : Told} {r : Option Value}
include inv

theorem creation_told {name : String} {keyPaths : List String} {unique : Bool} {updates : List Effect}
    (called : calls k = .createIndex name keyPaths unique) (own : told (s.threads k) = seen)
    (follows : Follows ((calls k).call S store).program seen (.done (r, updates))) :
    ∃ d docs records, seen = [⟨.schema store, some d⟩, ⟨.scan (prefixRange (docPrefix store)), docs⟩] ∧
      Creation S store calls d₀ (statusOf ∘ s.threads) ⟨keyPaths, name, unique, false⟩ d docs records ∧
      updates = [.write records, .publish (StoreDef.withIndex d ⟨keyPaths, name, unique, false⟩)] := by
  rw [called] at follows
  obtain ⟨d, docs, record, records, rfl, prepared, filled, rfl⟩ := told_createIndex follows
  have reads := inv.reads k
  rw [own] at reads
  exact ⟨d, docs, records, rfl, ⟨reads.defs d (by simp), reads.docs docs (by simp), record, prepared, filled⟩, rfl⟩

theorem deletion_told {name : String} {updates : List Effect} (called : calls k = .deleteIndex name)
    (own : told (s.threads k) = seen) (follows : Follows ((calls k).call S store).program seen (.done (r, updates))) :
    ∃ d d' records, seen = [⟨.schema store, some d⟩] ∧
      Deletion S store calls d₀ (statusOf ∘ s.threads) name d d' records ∧ updates = [.write records, .publish d'] := by
  rw [called] at follows
  obtain ⟨d, pos, record, rfl, required, printed, rfl⟩ := told_deleteIndex follows
  have reads := inv.reads k
  rw [own] at reads
  exact ⟨d, _, _, rfl, ⟨reads.defs d (by simp), ⟨pos, required, rfl⟩, record, printed, rfl⟩, rfl⟩

/-- A call's first updates. -/
theorem inv_ending (names : Names calls d₀) (whole : ∀ k doc, calls k = .put doc → doc.wellFormed = true)
    {updates : List Effect} (ending : s.threads k = .running seen (.done (r, updates)))
    (allowed : Undisturbed S store calls s (.step k))
    (tracked : Tracked (fun k => (calls k).call S store)
      (settle Effect.apply (fun k => (calls k).call S store) s k seen r updates)) :
    Inv S store calls d₀ (settle Effect.apply (fun k => (calls k).call S store) s k seen r updates) := by
  have follows := inv.tracked.tracks k
  have own : told (s.threads k) = seen := by rw [ending]; rfl
  have idle : (statusOf ∘ s.threads) k = .idle := by rw [Function.comp_apply, ending]; rfl
  rw [ending] at follows
  change Follows ((calls k).call S store).program seen (.done (r, updates)) at follows
  cases called : calls k with
  | createIndex name keyPaths unique =>
    obtain ⟨d, docs, records, rfl, creation, rfl⟩ := creation_told inv called own follows
    simp only [Undisturbed, ending, called] at allowed
    have defined := allowed.2 (some d) (by simp)
    have creates : created (calls k) = some ⟨keyPaths, name, unique, false⟩ := by rw [called]; rfl
    refine inv_written inv ending (consistent_created creation names inv.consistent idle creates defined) allowed.1
      (created_persisted creation) (fun key => ?_) (by rw [called]; rfl) allowed.2 (fun idx creates' docs' member key owns => ?_) tracked
    · exact created_untouched creation s.state.engine (docKey_unowned store name key) fun same =>
        absurd (List.cons.inj same).1 (by decide)
    · obtain rfl := Option.some.inj (creates.symm.trans creates')
      obtain rfl : docs' = docs := by simpa using member
      exact created_entries creation (fun key => creation_bare creation names inv.consistent idle creates defined) owns
  | deleteIndex name =>
    obtain ⟨d, d', records, rfl, deletion, rfl⟩ := deletion_told inv called own follows
    simp only [Undisturbed, ending, called] at allowed
    refine inv_written inv ending (consistent_deleted deletion names inv.consistent idle called) allowed.1
      (deleted_persisted deletion) (fun key => ?_) (by rw [called]; rfl) allowed.2 (fun idx creates => ?_) tracked
    · exact deleted_untouched deletion s.state.engine (docKey_unowned store name key) fun same =>
        absurd (List.cons.inj same).1 (by decide)
    · rw [called] at creates
      cases creates
  | put doc =>
    rw [called] at follows
    obtain ⟨d, keyVal, key, docBytes, keyed, encodedKey, encoded, write⟩ := told_put follows
    simp only [Undisturbed, ending, called] at allowed
    have known := (inv.reads k).defs d (own ▸ write.definition)
    refine inv_document inv names ending (by rw [called]; rfl) (by simp [called]) (by rw [called]; rfl) write
      (fun p same => ?_) (fun p same => ?_) (allowed d keyVal key write.definition keyed encodedKey) tracked
    · obtain rfl := Option.some.inj same
      exact decode_encode_doc S doc docBytes (whole k doc called) encoded
    · obtain rfl := Option.some.inj same
      rw [← known.keyPath, keyOf_ok keyed]
      exact encodedKey
  | delete keyVal =>
    rw [called] at follows
    obtain ⟨d, key, encodedKey, write⟩ := told_delete follows
    simp only [Undisturbed, ending, called] at allowed
    exact inv_document inv names ending (by rw [called]; rfl) (by simp [called]) (by rw [called]; rfl) write nofun nofun
      (allowed d key write.definition encodedKey) tracked

/-- A call's later updates: the publication of a definition. -/
theorem inv_going (names : Names calls d₀) {left : List Effect} (going : s.threads k = .updating seen left r)
    (allowed : Undisturbed S store calls s (.step k))
    (tracked : Tracked (fun k => (calls k).call S store)
      (settle Effect.apply (fun k => (calls k).call S store) s k seen r left)) :
    Inv S store calls d₀ (settle Effect.apply (fun k => (calls k).call S store) s k seen r left) := by
  have tracks := inv.tracked.tracks k
  have own : told (s.threads k) = seen := by rw [going]; rfl
  have pending : (statusOf ∘ s.threads) k = .pending := by rw [Function.comp_apply, going]; rfl
  rw [going] at tracks
  obtain ⟨made, some_made, some_left, follows⟩ := tracks
  have ok := inv.pending k seen left r going
  change Follows ((calls k).call S store).program seen (.done (r, made ++ left)) at follows
  cases called : calls k with
  | createIndex name keyPaths unique =>
    obtain ⟨d, docs, records, rfl, creation, two⟩ := creation_told inv called own follows
    obtain rfl := two_updates two some_made some_left
    simp only [Undisturbed, going, called] at allowed
    have creates : created (calls k) = some ⟨keyPaths, name, unique, false⟩ := by rw [called]; rfl
    exact inv_published inv going (consistent_indexed names inv.consistent pending creates (ok.next d (by simp))
      (ok.persisted _ (List.mem_singleton_self _)) ok.only (ok.entries _ creates docs (by simp)) (allowed docs (by simp))) tracked
  | deleteIndex name =>
    obtain ⟨d, d', records, rfl, deletion, two⟩ := deletion_told inv called own follows
    obtain rfl := two_updates two some_made some_left
    exact inv_published inv going (consistent_dropped names inv.consistent pending called deletion (ok.next d (by simp))
      (ok.persisted _ (List.mem_singleton_self _)) ok.only) tracked
  -- A put or a delete makes one update, and has none left.
  | put doc =>
    rw [called] at follows
    obtain ⟨records, _, one⟩ := told_written follows
    exact absurd (one_update one some_made) some_left
  | delete keyVal =>
    rw [called] at follows
    obtain ⟨records, _, one⟩ := told_written follows
    exact absurd (one_update one some_made) some_left

end

/-- An undisturbed step keeps the invariant. -/
theorem inv_step (names : Names calls d₀) (whole : ∀ k doc, calls k = .put doc → doc.wellFormed = true) {s' : State Id}
    {c : Choice Id} (inv : Inv S store calls d₀ s) (allowed : Undisturbed S store calls s c)
    (moved : interleave S store calls s c = some s') : Inv S store calls d₀ s' := by
  have tracked : Tracked (fun k => (calls k).call S store) s' := tracked_step inv.tracked moved
  obtain ⟨k, _, waiting, _, rfl⟩ | ⟨k, seen, q, more, _, asking, rfl⟩ | ⟨k, seen, r, updates, rfl, ending, rfl⟩ |
    ⟨k, seen, left, r, rfl, going, rfl⟩ | ⟨k, seen, e, _, failing, rfl⟩ := next_cases moved
  · exact inv_idle inv tracked (by rw [waiting]; rfl) rfl ⟨nofun, nofun⟩ fun _ _ _ => nofun
  · have own : told (s.threads k) = seen := by rw [asking]; rfl
    refine inv_idle inv tracked (by rw [asking]; rfl) rfl (read_answered inv.consistent (own ▸ inv.reads k) q)
      fun exclusive key a member => old_answered q (fun before => ?_) member
    exact inv.olds k exclusive key a (own.symm ▸ before)
  · exact inv_ending inv names whole ending allowed tracked
  · exact inv_going inv names going allowed tracked
  · exact inv_idle inv tracked (by rw [failing]; rfl) rfl ⟨nofun, nofun⟩ fun _ _ _ => nofun

theorem inv_initial {db : JsonDB} (rest : AtRest S store d₀ db) : Inv S store calls d₀ (StagedRuns.initial db : State Id) := by
  have made : ∀ idx, Made calls d₀ (statusOf ∘ (StagedRuns.initial db : State Id).threads) idx ↔ idx ∈ d₀.indexes := fun idx =>
    or_iff_left fun ⟨_, _, finished⟩ => nomatch finished
  have live : ∀ name, ¬Deleted calls (statusOf ∘ (StagedRuns.initial db : State Id).threads) name := fun name ⟨_, _, finished⟩ =>
    nomatch finished
  refine ⟨tracked_initial db, ⟨rest.valid, rest.decoded, rest.keyed, ⟨d₀, rest.defined, ⟨?_, rfl, ?_, rest.distinct⟩, ?_⟩, ?_, ?_,
    fun k idx _ moved => absurd rfl moved, fun k name _ => nofun, fun _ d defined => ?_⟩, fun k => ⟨nofun, nofun⟩,
    fun _ _ _ _ => nofun, fun _ _ _ _ => nofun⟩
  · exact rest.valid.named store d₀ rest.defined
  · exact fun idx inside => (made idx).mpr inside
  · exact fun idx => (made idx).symm.trans (and_iff_left (live idx.name)).symm
  · exact fun idx inside _ _ => rest.filed idx ((made idx).mp inside)
  · exact fun name free own _ => rest.bare name free own
  · obtain rfl := Option.some.inj (rest.defined.symm.trans defined)
    exact rest.persisted

/-- Along an undisturbed run of calls with distinct names on a store at rest, no schema change is lost. -/
theorem schema_changes_kept {db : JsonDB} (rest : AtRest S store d₀ db) (distinct : DistinctNames calls d₀)
    (whole : ∀ k doc, calls k = .put doc → doc.wellFormed = true)
    (reached : Reachable (interleave S store calls) (Undisturbed S store calls) (· = StagedRuns.initial db) s)
    (returned : ∀ k, ∃ result, s.threads k = .returned result) : ChangesKept S store calls d₀ s := by
  have names : Names calls d₀ := ⟨distinct, rest.distinct, rest.valid.index store d₀ rest.defined⟩
  have inv : Inv S store calls d₀ s := reached.invariant (fun _ start => start ▸ inv_initial rest) fun _ _ _ inv allowed =>
    inv_step names whole inv allowed
  have none_pending : ∀ k, statusOf (s.threads k) ≠ .pending := fun k => by
    obtain ⟨result, back⟩ := returned k
    rw [back]
    cases result <;> exact nofun
  obtain ⟨d, defined, _, indexes⟩ := inv.consistent.definition
  refine ⟨d, defined, inv.consistent.persisted none_pending d defined, indexes, fun idx inside => ?_⟩
  obtain ⟨made, live⟩ := (indexes idx).mp inside
  exact inv.consistent.filed idx made live fun ⟨k, _, unpublished⟩ => none_pending k unpublished

end

/-! Two indexes of one store, created at once and one after the other. -/

def tagIndex : IndexDef := ⟨["tag"], "by_tag", false, false⟩

def dayIndex : IndexDef := ⟨["day"], "by_day", false, false⟩

def items (indexes : List IndexDef) : StoreDef := ⟨"items", "id", false, indexes, 0⟩

def indexText : Value → Option Bytes
  | .object [("key_paths", .array [.string "tag"]), ("name", .string "by_tag"), ("unique", .bool false),
      ("multi_entry", .bool false)] =>
      some (utf8 "\x7b\"key_paths\":[\"tag\"],\"name\":\"by_tag\",\"unique\":false,\"multi_entry\":false\x7d")
  | .object [("key_paths", .array [.string "day"]), ("name", .string "by_day"), ("unique", .bool false),
      ("multi_entry", .bool false)] =>
      some (utf8 "\x7b\"key_paths\":[\"day\"],\"name\":\"by_day\",\"unique\":false,\"multi_entry\":false\x7d")
  | _ => none

def indexesText : List Value → Option Bytes
  | [] => some []
  | [a] => indexText a
  | [a, b] => (indexText a).bind fun first => (indexText b).map fun second => first ++ 44 :: second
  | _ => none

def itemsText (indexes : Bytes) : Bytes :=
  utf8 "\x7b\"name\":\"items\",\"key_path\":\"id\",\"auto_increment\":false,\"indexes\":[" ++ indexes ++
    utf8 "],\"next_auto_id\":0\x7d"

theorem indexText_nul_free {v : Value} {text : Bytes} (written : indexText v = some text) : (0 : UInt8) ∉ text := by
  unfold indexText at written
  split at written
  iterate 2
    · obtain rfl := Option.some.inj written
      decide
  · cases written

theorem indexesText_nul_free {indexes : List Value} {text : Bytes} (written : indexesText indexes = some text) :
    (0 : UInt8) ∉ text := by
  unfold indexesText at written
  split at written
  · obtain rfl := Option.some.inj written
    exact List.not_mem_nil
  · exact indexText_nul_free written
  · obtain ⟨first, written₁, written⟩ := Option.bind_eq_some_iff.mp written
    obtain ⟨second, written₂, rfl⟩ := Option.map_eq_some_iff.mp written
    simp [indexText_nul_free written₁, indexText_nul_free written₂]
  · cases written

def itemsSerde : Serde where
  toVec v := match v with
    | .object [("name", .string "items"), ("key_path", .string "id"), ("auto_increment", .bool false),
        ("indexes", .array indexes), ("next_auto_id", .number (.posInt 0))] => (indexesText indexes).map itemsText
    | _ => none
  fromSlice _ := none
  floatText _ := [48, 46, 48]
  debugValues _ := "[String(\"a\")]"
  debugLossy _ := "\"a\""
  errorText _ := "expected value at line 1 column 1"
  round_trip v b whole written := by
    split at written
    · have ordered := of_decide_eq_true (Bool.and_eq_true _ _ ▸ whole : _ ∧ _).1
      exact absurd (List.rel_of_pairwise_cons ordered List.mem_cons_self) (by decide : ¬"name" < "key_path")
    · cases written
  text_nul_free v b written := by
    split at written
    · obtain ⟨text, printed, rfl⟩ := Option.map_eq_some_iff.mp written
      simp only [itemsText, List.mem_append, indexesText_nul_free printed, or_false]
      decide
    · cases written
  float_nul_free := zeroPointZero_nul_free

def itemsDb : JsonDB :=
  ⟨(∅ : OMap Bytes Bytes).insert (schemaKey "items") (itemsText []), (∅ : OMap String StoreDef).insert "items" (items [])⟩

def bothCreate (first : Bool) : StoreCall :=
  if first then .createIndex "by_tag" ["tag"] false else .createIndex "by_day" ["day"] false

theorem itemsDb_rest : AtRest itemsSerde "items" (items []) itemsDb := by
  have lookup : ∀ k, k ≠ schemaKey "items" → itemsDb.engine.get? k = none := fun k other => by
    simp [itemsDb, get?_insert, other]
  have noDoc : ∀ key, itemsDb.engine.get? (docKey "items" key) = none := fun key =>
    lookup _ fun same => absurd (List.cons.inj same).1 (by decide)
  have unstored : ∀ key doc, storedDoc itemsSerde itemsDb "items" key ≠ some doc := fun key doc stored => by
    rw [storedDoc, getBytes, noDoc] at stored
    cases stored
  have valid : SchemaValid ⟨∅, ∅⟩ := ⟨by simp, by simp, by simp⟩
  refine ⟨valid.insert rfl (by decide) (by simp [items]), get?_insert_self .., List.nodup_nil,
    ⟨itemsText [], rfl, get?_insert_self ..⟩, fun key bytes there => ?_, fun key doc stored => absurd stored (unstored key doc),
    by simp [items], fun name _ _ k owns => lookup k fun same => ?_⟩
  · rw [noDoc key] at there
    cases there
  · rw [same] at owns
    exact absurd (Option.some.inj (owns_head owns)) (by decide : schTag ≠ idxTag)

theorem bothCreate_distinct : DistinctNames bothCreate (items []) := by
  refine ⟨fun k j a b creates creates' same => ?_, fun k j idx _ deletes => ?_⟩
  · cases k <;> cases j <;> first
      | rfl
      | (obtain rfl := Option.some.inj creates
         obtain rfl := Option.some.inj creates'
         exact absurd same (by decide))
  · cases j <;> cases deletes

/-- One of two calls takes a step while the other is not between its updates, what it was told still
stands, and there are no documents. -/
def alone (s : State Bool) : Choice Bool → Bool
  | .start _ => true
  | .step k => decide (statusOf (s.threads !k) ≠ .pending) &&
      (told (s.threads k)).all (fun x => decide (x.2 = answer s.state x.1)) &&
        (scan s.state.engine (prefixRange (docPrefix "items"))).isEmpty

theorem alone_undisturbed (s : State Bool) (c : Choice Bool) (fine : alone s c = true) :
    Undisturbed itemsSerde "items" bothCreate s c := by
  cases c with
  | start k => trivial
  | step k =>
    simp only [alone, Bool.and_eq_true, decide_eq_true_eq, List.all_eq_true, List.isEmpty_iff] at fine
    obtain ⟨⟨other, current⟩, empty⟩ := fine
    have creates : ∃ name keyPaths unique, bothCreate k = .createIndex name keyPaths unique := by
      cases k <;> exact ⟨_, _, _, rfl⟩
    obtain ⟨name, keyPaths, unique, called⟩ := creates
    cases thread : s.threads k with
    | waiting | returned _ => simp only [Undisturbed, thread]
    | running seen rest =>
      cases rest with
      | ask _ _ | fail _ => simp only [Undisturbed, thread]
      | done _ =>
        simp only [Undisturbed, thread, called]
        refine ⟨fun j pending => ?_, fun a member => ?_⟩
        · by_cases same : j = k
          · rw [same, thread] at pending
            cases pending
          · rw [Bool.eq_not_of_ne same] at pending
            exact other pending
        · exact (current ⟨.schema "items", a⟩ (by rw [thread]; exact member)).symm
    | updating seen left r =>
      simp only [Undisturbed, thread, called]
      intro docs member
      have none_scanned : docs = [] := (current ⟨_, docs⟩ (by rw [thread]; exact member)).trans empty
      have unstored : ∀ key doc, storedDoc itemsSerde s.state "items" key ≠ some doc := by
        intro key doc stored
        obtain ⟨bytes, present, _⟩ := Option.bind_eq_some_iff.mp stored
        have scanned : (docKey "items" key, bytes) ∈ scan s.state.engine (prefixRange (docPrefix "items")) :=
          (mem_prefixScan ..).mpr ⟨present, docPrefix_isPrefix "items" key⟩
        rw [empty] at scanned
        cases scanned
      subst none_scanned
      exact ⟨fun k v => iff_of_false (fun ⟨_, inside, _⟩ => nomatch inside) fun ⟨doc, stored, _⟩ => unstored v doc stored,
        fun key doc stored => absurd stored (unstored key doc)⟩

theorem statusOf_done {t : Thread FlowError Query Answer (Option Value) Effect} (done : statusOf t = .done) :
    ∃ r, t = .returned (.ok r) := by
  cases t with
  | waiting | running _ _ | updating _ _ _ => cases done
  | returned result =>
    cases result with
    | error e => cases done
    | ok r => exact ⟨r, rfl⟩

/-- One after the other, both indexes are kept. -/
theorem schema_changes_kept_in_turn :
    ∃ s, Reachable (interleave itemsSerde "items" bothCreate) (Undisturbed itemsSerde "items" bothCreate)
        (· = StagedRuns.initial itemsDb) s ∧
      s.state.schema.get? "items" = some (items [tagIndex, dayIndex]) ∧
      ChangesKept itemsSerde "items" bothCreate (items []) s := by
  have ran : ∃ s, Reachable (interleave itemsSerde "items" bothCreate) (fun s c => alone s c = true)
      (· = StagedRuns.initial itemsDb) s ∧ decide (statusOf (s.threads true) = .done ∧ statusOf (s.threads false) = .done ∧
        s.state.schema.get? "items" = some (items [tagIndex, dayIndex])) = true :=
    reachable_of_follow (StagedRuns.initial itemsDb)
      (.start true :: List.replicate 4 (.step true) ++ .start false :: List.replicate 4 (.step false))
      (fun s => statusOf (s.threads true) = .done ∧ statusOf (s.threads false) = .done ∧
        s.state.schema.get? "items" = some (items [tagIndex, dayIndex])) rfl (by decide +kernel)
  obtain ⟨s, reached, passed⟩ := ran
  obtain ⟨first, second, both⟩ := of_decide_eq_true passed
  have undisturbed := reached.mono alone_undisturbed
  refine ⟨s, undisturbed, both, schema_changes_kept itemsDb_rest bothCreate_distinct (fun k doc called => ?_) undisturbed
    fun k => ?_⟩
  · cases k <;> cases called
  · cases k
    · exact (statusOf_done second).imp' .ok fun _ => id
    · exact (statusOf_done first).imp' .ok fun _ => id

/-- Both read the definition before either publishes its own: the second publication drops the
first index. -/
theorem schema_change_lost : AtRest itemsSerde "items" (items []) itemsDb ∧ DistinctNames bothCreate (items []) ∧
    ∃ s, Reachable (interleave itemsSerde "items" bothCreate) anyStep (· = StagedRuns.initial itemsDb) s ∧
      (∀ k, ∃ r, s.threads k = .returned (.ok r)) ∧ s.state.schema.get? "items" = some (items [dayIndex]) ∧
      ¬ChangesKept itemsSerde "items" bothCreate (items []) s := by
  have ran : ∃ s, Reachable (interleave itemsSerde "items" bothCreate) anyStep (· = StagedRuns.initial itemsDb) s ∧
      decide (statusOf (s.threads true) = .done ∧ statusOf (s.threads false) = .done ∧
        s.state.schema.get? "items" = some (items [dayIndex])) = true :=
    reachable_of_follow (StagedRuns.initial itemsDb)
      (Choice.start true :: Choice.start false :: List.replicate 2 (.step true) ++ List.replicate 2 (.step false) ++
        List.replicate 2 (.step true) ++ List.replicate 2 (.step false))
      (fun s => statusOf (s.threads true) = .done ∧ statusOf (s.threads false) = .done ∧
        s.state.schema.get? "items" = some (items [dayIndex])) rfl (by decide +kernel)
  obtain ⟨s, reached, passed⟩ := ran
  obtain ⟨first, second, left⟩ := of_decide_eq_true passed
  have returned : ∀ k, ∃ r, s.threads k = .returned (.ok r) := fun k => by
    cases k
    · exact statusOf_done second
    · exact statusOf_done first
  refine ⟨itemsDb_rest, bothCreate_distinct, s, reached, returned, left, fun kept => ?_⟩
  obtain ⟨d, defined, _, indexes, _⟩ := kept
  obtain rfl := Option.some.inj (left.symm.trans defined)
  have made : Made bothCreate (items []) (statusOf ∘ s.threads) tagIndex :=
    .inr ⟨true, rfl, first⟩
  have live : ¬Deleted bothCreate (statusOf ∘ s.threads) tagIndex.name := by
    rintro ⟨k, deletes, _⟩
    cases k <;> cases deletes
  exact absurd ((indexes tagIndex).mpr ⟨made, live⟩) (by decide)

end FlowDb.SchemaChangesKept
