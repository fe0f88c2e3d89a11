import FlowDb.IndexMaintenance

/-! Which legal transactions a commit accepts. Uniqueness is a property of the documents that the
transaction leaves; the commit compares each buffered document with the entries from before it and
with the other buffered documents. -/
namespace FlowDb.LegalCommits
open ByteString OrderedMap Records JsonValue JsonEncoding JsonDb JsonTransaction JsonIndexes JsonSessions KeySpace StoreIsolation
open IndexMaintenance

section
variable (S : Serde)

/-- The document under a key when the writes of a transaction are applied. -/
def outcomeDoc (db : JsonDB) (tx : Transaction) (store : String) (key : Bytes) : Option Value :=
  match tx.writes.get? (toLex (store, key)) with
  | some content => content.bind fun bytes => (decodeDoc S bytes).toOption
  | none => storedDoc S db store key

/-- The writes are documents, or deletions, of stores that are there, and no two documents that they
leave agree on a value of a unique index. -/
structure Legal (db : JsonDB) (tx : Transaction) : Prop where
  stores : ∀ w ∈ tx.writes.entries, ∃ d, db.schema.get? (ofLex w.1).1 = some d
  documents : ∀ w ∈ tx.writes.entries, ∀ bytes, w.2 = some bytes → ∃ doc, decodeDoc S bytes = .ok doc
  unique : ∀ store d, db.schema.get? store = some d → ∀ idx ∈ d.indexes, idx.unique = true →
    ∀ key₁ key₂ doc₁ doc₂, outcomeDoc S db tx store key₁ = some doc₁ → outcomeDoc S db tx store key₂ = some doc₂ →
      ∀ vals₁ ∈ extractIndexValues doc₁ idx, ∀ vals₂ ∈ extractIndexValues doc₂ idx,
        encodeCompositeValue S vals₁ = encodeCompositeValue S vals₂ → key₁ = key₂

/-- The entries of unique indexes are those of the documents. -/
def Indexed (db : JsonDB) : Prop :=
  ∀ store d, db.schema.get? store = some d → ∀ idx ∈ d.indexes, idx.unique = true → Filed S store db idx

/-- The values that documents have in unique indexes, before and after, hold no NUL. -/
def NulFree (db : JsonDB) (tx : Transaction) : Prop :=
  ∀ store d, db.schema.get? store = some d → ∀ idx ∈ d.indexes, idx.unique = true → ∀ key doc,
    storedDoc S db store key = some doc ∨ outcomeDoc S db tx store key = some doc →
      ∀ vals ∈ extractIndexValues doc idx, ∀ v ∈ vals, sep ∉ encodeIndexValue S v

/-- No buffered document takes a unique value that another document held before. -/
def NoneTaken (db : JsonDB) (tx : Transaction) : Prop :=
  ∀ store key bytes doc d, tx.writes.get? (toLex (store, key)) = some (some bytes) → decodeDoc S bytes = .ok doc →
    db.schema.get? store = some d → ∀ idx ∈ d.indexes, idx.unique = true → ∀ vals ∈ extractIndexValues doc idx,
      ∀ other held, storedDoc S db store other = some held → ∀ vals' ∈ extractIndexValues held idx,
        encodeCompositeValue S vals' = encodeCompositeValue S vals → other = key

end

section
variable {S : Serde}

/-! ### What a commit passes -/

/-- The store of a write is there, and what it puts is a document that passes the checks. -/
def Passes (S : Serde) (db : JsonDB) (order : List Write) (w : Write) : Prop :=
  ∃ d, db.schema.get? (ofLex w.1).1 = some d ∧ ∀ bytes, w.2 = some bytes → ∃ doc, decodeDoc S bytes = .ok doc ∧
    ∀ idx ∈ d.indexes, checkUniqueBuffered S db order (ofLex w.1).1 idx (ofLex w.1).2 doc = .ok ()

theorem commitWrite_passes {db : JsonDB} {order : List Write} {w : Write} {records : List InternalRecord} :
    (∃ out, commitWrite S db order w records = .ok out) ↔ Passes S db order w := by
  obtain ⟨slot, content⟩ := w
  constructor
  · rintro ⟨out, done⟩
    obtain ⟨d, found, done⟩ := bind_ok done
    refine ⟨d, getStore_ok found, fun bytes put => ?_⟩
    obtain rfl : content = some bytes := put
    obtain ⟨doc, decoded, pushed⟩ := bind_ok done
    exact ⟨doc, decoded, (pushIndexes_ok pushed).2⟩
  · rintro ⟨d, defined, passes⟩
    have found : getStore db (ofLex slot).1 = .ok d := getStore_of defined
    unfold commitWrite
    dsimp only
    rw [found, ok_bind]
    cases content with
    | none => exact ⟨_, rfl⟩
    | some bytes =>
      obtain ⟨doc, decoded, checks⟩ := passes bytes rfl
      dsimp only
      rw [decoded, ok_bind, pushIndexes_eq, forM_of_ok checks]
      exact ⟨_, rfl⟩

theorem commitWrites_passes {db : JsonDB} {order ws : List Write} {records : List InternalRecord} :
    (∃ out, commitWrites S db order ws records = .ok out) ↔ ∀ w ∈ ws, Passes S db order w := by
  induction ws generalizing records with
  | nil => simp [commitWrites]
  | cons w rest ih =>
    rw [List.forall_mem_cons]
    constructor
    · rintro ⟨out, done⟩
      obtain ⟨middle, first, later⟩ := bind_ok done
      exact ⟨commitWrite_passes.mp ⟨middle, first⟩, ih.mp ⟨out, later⟩⟩
    · rintro ⟨first, later⟩
      obtain ⟨middle, done⟩ := (@commitWrite_passes _ _ _ _ records).mpr first
      obtain ⟨out, done'⟩ := (@ih middle).mpr later
      exact ⟨out, by rw [commitWrites, done]; exact done'⟩

theorem commit_passes {db : JsonDB} {tx : Transaction} (live : tx.committed = false) (order : List Write) :
    (tx.commit S db order).1 = .ok () ↔ ∀ w ∈ order, Passes S db order w := by
  rw [← @commitWrites_passes S db order order tx.counterUpdates, commit_live live]
  cases commitWrites S db order order tx.counterUpdates with
  | error e => exact iff_of_false nofun nofun
  | ok out => exact iff_of_true rfl ⟨out, rfl⟩

/-! ### Values in keys -/

theorem collectFields_length {doc : Value} {paths : List String} {raw : List Value}
    (collected : collectFields doc paths = some raw) : raw.length = paths.length := by
  induction paths generalizing raw with
  | nil =>
    obtain rfl := Option.some.inj collected
    rfl
  | cons path rest ih =>
    rw [collectFields] at collected
    split at collected
    · next v vs _ others =>
      obtain rfl := Option.some.inj collected
      rw [List.length_cons, List.length_cons, ih others]
    · cases collected

/-- All values of an index have one field for each of its paths. -/
theorem extractIndexValues_length {doc : Value} {idx : IndexDef} {vals : List Value}
    (extracted : vals ∈ extractIndexValues doc idx) : vals.length = idx.keyPaths.length := by
  unfold extractIndexValues at extracted
  split at extracted
  · cases extracted
  · next raw collected =>
    have length := collectFields_length collected
    split at extracted
    · obtain ⟨v, _, rfl⟩ := List.mem_map.mp extracted
      exact length
    · obtain rfl := List.mem_singleton.mp extracted
      exact length

/-- Values of as many fields, none with a NUL: one begins the other only if they are equal. -/
theorem composite_begins {vals vals' : List Value} (free : ∀ v ∈ vals, sep ∉ encodeIndexValue S v)
    (free' : ∀ v ∈ vals', sep ∉ encodeIndexValue S v) (length : vals.length = vals'.length) {key : Bytes}
    (begins : encodeCompositeValue S vals ++ [sep] <+: encodeCompositeValue S vals' ++ sep :: key) :
    encodeCompositeValue S vals = encodeCompositeValue S vals' := by
  obtain ⟨back, whole⟩ := begins
  match vals, vals', length with
  | [], [], _ => rfl
  | v :: rest, v' :: rest', length =>
    simp only [encodeCompositeValue] at whole ⊢
    -- Field by field: the first separator of either side ends the first field.
    induction rest generalizing v v' rest' with
    | nil =>
      obtain rfl : rest' = [] := List.length_eq_zero_iff.mp (by simpa using length.symm)
      have same : encodeIndexValue S v ++ sep :: back = encodeIndexValue S v' ++ sep :: key := by simpa using whole
      simpa using (append_sep_inj (free v List.mem_cons_self) (free' v' List.mem_cons_self) same).1
    | cons w more ih =>
      cases rest' with
      | nil => cases length
      | cons w' more' =>
        have same : encodeIndexValue S v ++ sep :: (encodeIndexValue S w ++
            (more.flatMap fun x => sep :: encodeIndexValue S x) ++ [sep] ++ back) =
          encodeIndexValue S v' ++ sep :: (encodeIndexValue S w' ++
            (more'.flatMap fun x => sep :: encodeIndexValue S x) ++ sep :: key) := by simpa using whole
        obtain ⟨heads, tails⟩ := append_sep_inj (free v List.mem_cons_self) (free' v' List.mem_cons_self) same
        have later := ih w w' more' (by simpa using length) (fun x member => free x (List.mem_cons_of_mem v member))
          (fun x member => free' x (List.mem_cons_of_mem v' member)) tails
        simp only [List.flatMap_cons, List.cons_append]
        rw [heads, later]

theorem idxValuePrefix_begins {store index : String} {value value' key : Bytes} :
    idxValuePrefix store index value <+: idxKey store index value' key ↔ value ++ [sep] <+: value' ++ sep :: key := by
  simp [idxValuePrefix, idxKey, List.prefix_append_right_inj]

/-! ### The checks -/

variable {db : JsonDB} {store : String} {d : StoreDef} {idx : IndexDef}

/-- The check against the entries passes if no other document's entry begins with the value. -/
theorem checkEngine_begins (filed : Filed S store db idx) {key : Bytes} {vals : List Value} :
    checkEngine S db store idx key vals = .ok () ↔ ∀ other held, storedDoc S db store other = some held →
      ∀ vals' ∈ extractIndexValues held idx,
        encodeCompositeValue S vals ++ [sep] <+: encodeCompositeValue S vals' ++ sep :: other → other = key := by
  have seen : (scan db.engine (prefixRange (idxValuePrefix store idx.name (encodeCompositeValue S vals)))).any
      (fun e => e.2 != key) = true ↔ ∃ other held, storedDoc S db store other = some held ∧
        ∃ vals' ∈ extractIndexValues held idx,
          encodeCompositeValue S vals ++ [sep] <+: encodeCompositeValue S vals' ++ sep :: other ∧ other ≠ key := by
    rw [scan_any _ (· != key)]
    constructor
    · rintro ⟨k, v, present, begins, apart⟩
      -- What begins with the value is an entry of this index.
      have owns := (idxPrefix_isPrefix_idxValuePrefix store idx.name _).trans begins
      obtain ⟨held, stored, inside⟩ := (filed k v owns).mp present
      obtain ⟨vals', extracted, rfl⟩ := List.mem_map.mp inside
      exact ⟨v, held, stored, vals', extracted, idxValuePrefix_begins.mp begins, bne_iff_ne.mp apart⟩
    · rintro ⟨other, held, stored, vals', extracted, begins, apart⟩
      have entry : idxKey store idx.name (encodeCompositeValue S vals') other ∈ indexKeys S store idx held other :=
        List.mem_map_of_mem extracted
      exact ⟨_, other, (filed _ other (indexKeys_owned entry)).mpr ⟨held, stored, entry⟩,
        idxValuePrefix_begins.mpr begins, bne_iff_ne.mpr apart⟩
  unfold checkEngine
  dsimp only
  split_ifs with taken
  · refine iff_of_false nofun fun none_taken => ?_
    obtain ⟨other, held, stored, vals', extracted, begins, apart⟩ := seen.mp taken
    exact apart (none_taken other held stored vals' extracted begins)
  · refine iff_of_true rfl fun other held stored vals' extracted begins => ?_
    by_contra apart
    exact taken (seen.mpr ⟨other, held, stored, vals', extracted, begins, apart⟩)

/-- Where no field holds a NUL, it looks for the value in the documents from before. -/
theorem checkEngine_iff (filed : Filed S store db idx) (free : ∀ key doc, storedDoc S db store key = some doc →
      ∀ vals ∈ extractIndexValues doc idx, ∀ v ∈ vals, sep ∉ encodeIndexValue S v) {key : Bytes} {vals : List Value}
    (free' : ∀ v ∈ vals, sep ∉ encodeIndexValue S v) (length : vals.length = idx.keyPaths.length) :
    checkEngine S db store idx key vals = .ok () ↔ ∀ other held, storedDoc S db store other = some held →
      ∀ vals' ∈ extractIndexValues held idx, encodeCompositeValue S vals' = encodeCompositeValue S vals → other = key := by
  rw [checkEngine_begins filed]
  refine forall₂_congr fun other held => forall_congr' fun stored => forall₂_congr fun vals' extracted => ?_
  constructor
  · exact fun alone same => alone ⟨other, by rw [same, List.append_assoc]; rfl⟩
  · exact fun alone begins => alone (composite_begins free' (free other held stored vals' extracted)
      (length.trans (extractIndexValues_length extracted).symm) begins).symm

variable {tx : Transaction} {order : List Write}

theorem outcome_put {key bytes : Bytes} {doc : Value} (buffered : tx.writes.get? (toLex (store, key)) = some (some bytes))
    (decoded : decodeDoc S bytes = .ok doc) : outcomeDoc S db tx store key = some doc := by
  rw [outcomeDoc, buffered]
  simp [decoded, Except.toOption]

/-- In a legal transaction no buffered document meets another. -/
theorem checkBuffered_legal (legal : Legal S db tx) (visits : order.Perm tx.writes.entries)
    (defined : db.schema.get? store = some d) (inside : idx ∈ d.indexes) (unique : idx.unique = true) {key : Bytes}
    {doc : Value} (left : outcomeDoc S db tx store key = some doc) {vals : List Value} (extracted : vals ∈ extractIndexValues doc idx) :
    checkBuffered S order store idx key vals = .ok () := by
  refine forM_of_ok fun w member => ?_
  have buffered := visits.mem_iff.mp member
  obtain ⟨⟨other, otherKey⟩, content⟩ := w
  cases content with
  | none => rfl
  | some bytes =>
    dsimp only
    split_ifs with elsewhere
    · rfl
    · rw [not_or, not_not] at elsewhere
      obtain ⟨rfl, apart⟩ := elsewhere
      obtain ⟨otherDoc, decoded⟩ := legal.documents _ buffered bytes rfl
      have there := @outcome_put S db _ _ _ _ _ ((get?_eq_some_iff ..).mpr buffered) decoded
      rw [decoded, ok_bind]
      split_ifs with clash
      · obtain ⟨ov, extracted', same⟩ := List.any_eq_true.mp clash
        exact absurd (legal.unique other d defined idx inside unique otherKey key otherDoc doc there left ov extracted' vals
          extracted (beq_iff_eq.mp same)) apart
      · rfl

/-- A legal transaction is accepted exactly if no document it puts takes a value that another document
held before, even one that the transaction deletes or changes. -/
theorem legal_commit_iff (S : Serde) {db : JsonDB} {tx : Transaction} {order : List Write} (indexed : Indexed S db)
    (nulFree : NulFree S db tx) (legal : Legal S db tx) (live : tx.committed = false)
    (visits : order.Perm tx.writes.entries) : (tx.commit S db order).1 = .ok () ↔ NoneTaken S db tx := by
  rw [commit_passes live]
  constructor
  · intro passes store key bytes doc d buffered decoded defined idx inside unique vals extracted
    obtain ⟨d', defined', passed⟩ := passes (toLex (store, key), some bytes)
      (visits.mem_iff.mpr ((get?_eq_some_iff ..).mp buffered))
    obtain rfl := Option.some.inj (defined.symm.trans defined')
    obtain ⟨doc', decoded', checks⟩ := passed bytes rfl
    obtain rfl := Except.ok.inj (decoded.symm.trans decoded')
    have checked := checks idx inside
    rw [checkUniqueBuffered, if_pos unique] at checked
    obtain ⟨_, engine, _⟩ := bind_ok (forM_ok checked vals extracted)
    exact (checkEngine_iff (indexed store d defined idx inside unique)
      (fun key doc stored => nulFree store d defined idx inside unique key doc (.inl stored))
      (nulFree store d defined idx inside unique key doc (.inr (outcome_put buffered decoded)) vals extracted)
      (extractIndexValues_length extracted)).mp engine
  · intro none_taken w member
    have buffered := visits.mem_iff.mp member
    obtain ⟨⟨store, key⟩, content⟩ := w
    obtain ⟨d, defined⟩ := legal.stores _ buffered
    refine ⟨d, defined, fun bytes put => ?_⟩
    obtain rfl : content = some bytes := put
    obtain ⟨doc, decoded⟩ := legal.documents _ buffered bytes rfl
    refine ⟨doc, decoded, fun idx inside => ?_⟩
    have here := (get?_eq_some_iff ..).mpr buffered
    have left := @outcome_put S db _ _ _ _ _ here decoded
    unfold checkUniqueBuffered
    split_ifs with unique
    · refine forM_of_ok fun vals extracted => ?_
      have engine : checkEngine S db store idx key vals = .ok () :=
        (checkEngine_iff (indexed store d defined idx inside unique)
          (fun key doc stored => nulFree store d defined idx inside unique key doc (.inl stored))
          (nulFree store d defined idx inside unique key doc (.inr left) vals extracted)
          (extractIndexValues_length extracted)).mpr
          (none_taken store key bytes doc d here decoded defined idx inside unique vals extracted)
      change (checkEngine S db store idx key vals >>= _) = _
      rw [engine, ok_bind]
      exact checkBuffered_legal legal visits defined inside unique left extracted
    · rfl

theorem mirrored_indexed {db : JsonDB} (mirrored : Mirrored S db) : Indexed S db := by
  intro store d defined idx inside _ k v owns
  constructor
  · intro present
    obtain ⟨store', d', defined', member⟩ := (mirrored.entries k v).mp ⟨present, owns_head owns⟩
    obtain ⟨doc, stored, idx', inside', vals, extracted, rfl⟩ := (mem_entryKeys S d' store' v _ _).mp member
    obtain ⟨rfl, kinds⟩ := @owner_unique store store' (.index idx.name) (.index idx'.name) _ (mirrored.named _ _ defined).2
      (mirrored.named _ _ defined').2 (mirrored.indexNamed _ _ defined idx inside) (mirrored.indexNamed _ _ defined' idx' inside')
      owns (idxPrefix_isPrefix_idxKey store' idx'.name _ v)
    obtain rfl := Option.some.inj (defined.symm.trans defined')
    obtain rfl := List.inj_on_of_nodup_map (mirrored.distinct _ _ defined) inside inside' (Kind.index.inj kinds)
    exact ⟨doc, stored, List.mem_map_of_mem extracted⟩
  · rintro ⟨doc, stored, member⟩
    obtain ⟨vals, extracted, rfl⟩ := List.mem_map.mp member
    exact ((mirrored.entries _ v).mpr ⟨store, d, defined,
      (mem_entryKeys S d store v _ _).mpr ⟨doc, stored, idx, inside, vals, extracted, rfl⟩⟩).1

end

/-! A document is put where there was none; and one document takes the value of another that the
same transaction deletes. -/

def opened : Transaction := ⟨.readWrite, ∅, [], ∅, false⟩

def firstPut : Transaction := opened.buffer "users" (utf8 "u1") (some sampleText)

def handOver : Transaction := (opened.buffer "users" (utf8 "u1") none).buffer "users" (utf8 "u2") (some clashText)

theorem sample_defined {db : JsonDB} (schema : db.schema = sampleDb.schema) {store : String} {d : StoreDef}
    (defined : db.schema.get? store = some d) : store = "users" ∧ d = sampleStore := by
  rw [schema, sampleDb, get?_insert] at defined
  split_ifs at defined with same
  · exact ⟨same, (Option.some.inj defined).symm⟩
  · cases defined

theorem sample_values {doc : Value} (sample : doc = sampleDoc ∨ doc = clashDoc) {idx : IndexDef} (inside : idx ∈ sampleStore.indexes) :
    ∀ vals ∈ extractIndexValues doc idx, ∀ v ∈ vals, sep ∉ encodeIndexValue sampleSerde v := by
  obtain rfl := List.mem_singleton.mp inside
  rcases sample with rfl | rfl <;> decide

theorem unstored (store : String) (key : Bytes) : storedDoc sampleSerde sampleDb store key = none := by
  simp [storedDoc, getBytes, sampleDb]

theorem firstPut_outcome {store : String} {key : Bytes} {doc : Value}
    (left : outcomeDoc sampleSerde sampleDb firstPut store key = some doc) : key = utf8 "u1" ∧ doc = sampleDoc := by
  unfold outcomeDoc at left
  rw [firstPut, Transaction.buffer, get?_insert, unstored] at left
  split_ifs at left with same
  · exact ⟨congrArg Prod.snd (toLex.injective same), (Option.some.inj left).symm⟩
  · cases left

theorem firstPut_write {w : Write} (member : w ∈ firstPut.writes.entries) : w = (toLex ("users", utf8 "u1"), some sampleText) := by
  rcases (mem_insert_iff _ _ _ w).mp member with here | ⟨there, _⟩
  · exact here
  · cases there

theorem legal_commit_iff_first : (firstPut.commit sampleSerde sampleDb firstPut.writes.entries).1 = .ok () := by
  have mirrored := (fresh_keeps (S := sampleSerde) sampleDb_fresh).1
  refine (legal_commit_iff sampleSerde (mirrored_indexed mirrored) ?_ ⟨?_, ?_, ?_⟩ rfl (.refl _)).mpr ?_
  · intro store d defined idx inside _ key doc there
    obtain ⟨rfl, rfl⟩ := sample_defined rfl defined
    rcases there with stored | left
    · rw [unstored] at stored
      cases stored
    · exact sample_values (.inl (firstPut_outcome left).2) inside
  · intro w member
    obtain rfl := firstPut_write member
    exact ⟨sampleStore, by decide⟩
  · intro w member bytes put
    obtain rfl := firstPut_write member
    obtain rfl := Option.some.inj put
    exact ⟨sampleDoc, rfl⟩
  · intro store d defined idx inside unique key₁ key₂ doc₁ doc₂ left₁ left₂ _ _ _ _ _
    rw [(firstPut_outcome left₁).1, (firstPut_outcome left₂).1]
  · intro store key bytes doc d _ _ _ idx _ _ vals _ other held stored
    rw [unstored] at stored
    cases stored

theorem held_schema : sampleSession.db.schema = sampleDb.schema := rfl

theorem held_only {key : Bytes} {doc : Value} (stored : storedDoc sampleSerde sampleSession.db "users" key = some doc) :
    key = utf8 "u1" ∧ doc = sampleDoc := by
  obtain ⟨bytes, present, decoded⟩ := Option.bind_eq_some_iff.mp stored
  have single : ∀ e ∈ sampleSession.db.engine.entries, e.1.head? = some docTag →
      e = (docKey "users" (utf8 "u1"), sampleText) := by decide
  have entry := single _ ((get?_eq_some_iff ..).mp present) rfl
  obtain rfl : bytes = sampleText := congrArg Prod.snd entry
  exact ⟨(docKey_inj (by decide) (by decide) (congrArg Prod.fst entry)).2, (Option.some.inj decoded).symm⟩

theorem handOver_outcome {key : Bytes} {doc : Value}
    (left : outcomeDoc sampleSerde sampleSession.db handOver "users" key = some doc) : key = utf8 "u2" ∧ doc = clashDoc := by
  unfold outcomeDoc at left
  rw [handOver, Transaction.buffer, Transaction.buffer, get?_insert, get?_insert] at left
  split_ifs at left with second first
  · exact ⟨congrArg Prod.snd (toLex.injective second), (Option.some.inj left).symm⟩
  · cases left
  · have stored : storedDoc sampleSerde sampleSession.db "users" key = some doc := left
    exact absurd (congrArg (fun key => toLex ("users", key)) (held_only stored).1) first

theorem handOver_write {w : Write} (member : w ∈ handOver.writes.entries) :
    w = (toLex ("users", utf8 "u2"), some clashText) ∨ w = (toLex ("users", utf8 "u1"), none) := by
  rcases (mem_insert_iff _ _ _ w).mp member with here | ⟨there, _⟩
  · exact .inl here
  · rcases (mem_insert_iff _ _ _ w).mp there with here | ⟨none, _⟩
    · exact .inr here
    · cases none

/-- The value of a deleted document goes to another one: legal, but refused. -/
theorem hand_over_refused :
    (Reachable sampleSerde sampleSession ∧ UniqueKept sampleSerde sampleSession.db ∧ Mirrored sampleSerde sampleSession.db) ∧
    (opened.delete sampleSerde sampleSession.db "users" (.string "u1") >>= fun tx =>
      tx.put sampleSerde sampleSession.db "users" clashDoc) = .ok handOver ∧
    NulFree sampleSerde sampleSession.db handOver ∧ Legal sampleSerde sampleSession.db handOver ∧
    ∃ e, (handOver.commit sampleSerde sampleSession.db handOver.writes.entries).1 = .error e := by
  have sound := reachable_sound sampleSession_reachable
  refine ⟨⟨sampleSession_reachable, sound.unique, sound.mirrored⟩, rfl, ?_, ⟨?_, ?_, ?_⟩, _, rfl⟩
  · intro store d defined idx inside _ key doc there
    obtain ⟨rfl, rfl⟩ := sample_defined held_schema defined
    rcases there with stored | left
    · exact sample_values (.inl (held_only stored).2) inside
    · exact sample_values (.inr (handOver_outcome left).2) inside
  · intro w member
    rcases handOver_write member with rfl | rfl <;> exact ⟨sampleStore, rfl⟩
  · intro w member bytes put
    rcases handOver_write member with rfl | rfl
    · obtain rfl := Option.some.inj put
      exact ⟨clashDoc, rfl⟩
    · cases put
  · intro store d defined idx inside unique key₁ key₂ doc₁ doc₂ left₁ left₂ _ _ _ _ _
    obtain ⟨rfl, rfl⟩ := sample_defined held_schema defined
    rw [(handOver_outcome left₁).1, (handOver_outcome left₂).1]

end FlowDb.LegalCommits
