import FlowDb.Multiplicity
import FlowDb.TransactionReads

/-! Index reads inside a transaction. They overlay the write buffer on the index entries
of the engine, which know nothing of it: what the entries name is checked against the
buffer by the index's first key path alone, and buffered documents are added where the
loops hold them to be new. -/
namespace FlowDb.TransactionLookups
open ByteString OrderedMap Records JsonValue JsonEncoding JsonDb JsonTransaction JsonIndexes JsonStores JsonSessions
open JsonQuery KeySpace PrefixOrder StoreIsolation Overlay TransactionReads Multiplicity

section
variable (S : Serde)

-- `key_paths.first()` stands for all paths of an index.
def firstPath (idx : IndexDef) : String := idx.keyPaths.head?.getD ""

/-- `extract_field(doc, path) == Some(value)` -/
def holdsValue (path : String) (value doc : Value) : Bool :=
  match extractField doc path with
  | some v => valueEq v value
  | none => false

def holdsWithin (path : String) (encStart encEnd : Bytes) (doc : Value) : Bool :=
  match extractField doc path with
  | some v => decide (encStart ≤ encodeIndexValue S v) && decide (encodeIndexValue S v < encEnd)
  | none => false

/-- `extract_field(d, key_path) == extract_field(doc, key_path)` -/
def sameField (path : String) (d doc : Value) : Bool :=
  match extractField d path, extractField doc path with
  | some v, some w => valueEq v w
  | none, none => true
  | _, _ => false

/-- The loop over the index entries. A buffered document stands in for the stored one if the lookup takes it. -/
def entryLoop (db : JsonDB) (tx : Transaction) (store : String) (takes : Value → Bool) :
    List (Bytes × Bytes) → Except FlowError (List Value)
  | [] => .ok []
  | entry :: rest => do
      let found ← match pendingDoc tx store entry.2 with
        | some (some bytes) => do
            let doc ← decodeDoc S bytes
            .ok (if takes doc then [doc] else [])
        | some none => .ok []
        | none =>
            match getBytes db (docKey store entry.2) with
            | some bytes => do
                let doc ← decodeDoc S bytes
                .ok [doc]
            | none => .ok []
      let docs ← entryLoop db tx store takes rest
      .ok (found ++ docs)

/-- The loop of `get_by_index` over the buffer: documents are the same if their key paths hold equal values. -/
def equalLoop (store keyPath : String) (takes : Value → Bool) : List Write → List Value → Except FlowError (List Value)
  | [], docs => .ok docs
  | w :: rest, docs =>
      if (ofLex w.1).1 ≠ store then equalLoop store keyPath takes rest docs
      else
        match w.2 with
        | some bytes => do
            let doc ← decodeDoc S bytes
            equalLoop store keyPath takes rest
              (if takes doc && !docs.any fun d => sameField keyPath d doc then docs ++ [doc] else docs)
        | none => equalLoop store keyPath takes rest docs

/-- The loop of `range_by_index` over the buffer: a document that the engine has is passed over. -/
def rangeLoop (db : JsonDB) (store : String) (takes : Value → Bool) : List Write → List Value → Except FlowError (List Value)
  | [], docs => .ok docs
  | w :: rest, docs =>
      if (ofLex w.1).1 ≠ store then rangeLoop db store takes rest docs
      else
        match w.2 with
        | some bytes =>
            if (getBytes db (docKey store (ofLex w.1).2)).isSome then rangeLoop db store takes rest docs
            else do
              let doc ← decodeDoc S bytes
              rangeLoop db store takes rest (if takes doc then docs ++ [doc] else docs)
        | none => rangeLoop db store takes rest docs

/-- The order is the one in which the hash map yields the buffered writes. -/
def Transaction.getByIndex (db : JsonDB) (tx : Transaction) (order : List Write) (store index : String) (value : Value) :
    Except FlowError (List Value) := do
  let d ← getStore db store
  let idx ← findIndex d store index
  let takes := holdsValue (firstPath idx) value
  let docs ← entryLoop S db tx store takes (JsonDb.scan db.engine (valueRange store index (encodeIndexValue S value)))
  equalLoop S store d.keyPath takes order docs

def Transaction.rangeByIndex (db : JsonDB) (tx : Transaction) (order : List Write) (store index : String)
    (start stop : Value) : Except FlowError (List Value) := do
  let d ← getStore db store
  let idx ← findIndex d store index
  let encStart := encodeIndexValue S start
  let encEnd := encodeIndexValue S stop
  let takes := holdsWithin S (firstPath idx) encStart encEnd
  let docs ← entryLoop S db tx store takes (JsonDb.scan db.engine (indexRange store index encStart encEnd))
  rangeLoop S db store takes order docs

end

/-! ### Entries of one document -/

section
variable (S : Serde)

/-- The entries of one index are those of the stored documents. -/
structure Mirrors (db : JsonDB) (store : String) (idx : IndexDef) : Prop where
  docs : ∀ key bytes, getBytes db (docKey store key) = some bytes → ∃ doc, decodeDoc S bytes = .ok doc
  entries : ∀ k key, db.engine.get? k = some key ∧ idxPrefix store idx.name <+: k ↔
    ∃ doc, storedDoc S db store key = some doc ∧ k ∈ indexKeys S store idx doc key

/-- How many entries a document has in a range of an index. -/
def entryCount (store : String) (idx : IndexDef) (range : ScanRange) (key : Bytes) (doc : Option Value) : Nat :=
  ((doc.toList.flatMap fun doc => indexKeys S store idx doc key).dedup.filter fun k =>
    range.toQueryParams.1.matchesKey k).length

variable {S}

/-- What sessions keep is enough. -/
theorem mirrors_of_mirrored {db : JsonDB} {store : String} {d : StoreDef} {idx : IndexDef} (mirrored : Mirrored S db)
    (defined : db.schema.get? store = some d) (member : idx ∈ d.indexes) : Mirrors S db store idx := by
  have name := (mirrored.named store d defined).2
  have idxName := mirrored.indexNamed store d defined idx member
  refine ⟨fun key bytes present => ?_, fun k key => ?_⟩
  · obtain ⟨_, _, _, doc, _, _, _, decoded⟩ := mirrored.docs _ _ present rfl
    exact ⟨doc, decoded⟩
  · constructor
    · rintro ⟨present, starts⟩
      obtain ⟨tail, rfl⟩ := starts
      obtain ⟨store', d', defined', entry⟩ := (mirrored.entries _ key).mp ⟨present, rfl⟩
      obtain ⟨doc, stored, idx', member', vals, holds, same⟩ := (mem_entryKeys S d' store' key _ _).mp entry
      obtain ⟨rfl, sameName⟩ := idxPrefix_of_idxKey name (mirrored.named store' d' defined').2 idxName
        (mirrored.indexNamed store' d' defined' idx' member') ⟨tail, same⟩
      obtain rfl := Option.some.inj (defined.symm.trans defined')
      obtain rfl := List.inj_on_of_nodup_map (mirrored.distinct store d defined) member member' sameName
      exact ⟨doc, stored, List.mem_map.mpr ⟨vals, holds, same.symm⟩⟩
    · rintro ⟨doc, stored, inside⟩
      obtain ⟨vals, holds, rfl⟩ := List.mem_map.mp inside
      have entry := (mem_entryKeys S d store key (storedDoc S db store key) _).mpr ⟨doc, stored, idx, member, vals, holds, rfl⟩
      exact ⟨((mirrored.entries _ key).mpr ⟨store, d, defined, entry⟩).1, idxPrefix_isPrefix_idxKey store idx.name _ key⟩

section
variable {db : JsonDB} {store : String} {idx : IndexDef} (mirrors : Mirrors S db store idx)
include mirrors

/-- A scan inside the index names a document as often as the document has entries there. -/
theorem scan_count {range : ScanRange} (within : ∀ k, range.toQueryParams.1.matchesKey k = true → idxPrefix store idx.name <+: k)
    (key : Bytes) : ((JsonDb.scan db.engine range).map Prod.snd).count key =
      entryCount S store idx range key (storedDoc S db store key) := by
  have distinct : (JsonDb.scan db.engine range).Nodup :=
    (db.engine.sorted.filter _).imp fun below same => absurd (same ▸ below) (lt_irrefl _)
  have group : (((JsonDb.scan db.engine range).filter fun e => e.2 = key).map Prod.fst).Perm
      (((storedDoc S db store key).toList.flatMap fun doc => indexKeys S store idx doc key).dedup.filter fun k =>
        range.toQueryParams.1.matchesKey k) := by
    refine (List.perm_ext_iff_of_nodup ?_ ((List.nodup_dedup _).filter _)).mpr fun k => ?_
    · refine (distinct.filter _).map_on fun a first b second same => Prod.ext same ?_
      rw [of_decide_eq_true (List.mem_filter.mp first).2, of_decide_eq_true (List.mem_filter.mp second).2]
    · simp only [List.mem_map, List.mem_filter, List.mem_dedup, List.mem_flatMap, Option.mem_toList, decide_eq_true_eq,
        JsonDb.scan]
      constructor
      · rintro ⟨⟨k, v⟩, ⟨⟨present, inside⟩, rfl⟩, rfl⟩
        obtain ⟨doc, stored, entry⟩ := (mirrors.entries k v).mp ⟨(get?_eq_some_iff _ _ _).mpr present, within k inside⟩
        exact ⟨⟨doc, stored, entry⟩, inside⟩
      · rintro ⟨⟨doc, stored, entry⟩, inside⟩
        have present := (get?_eq_some_iff _ _ _).mp ((mirrors.entries k key).mpr ⟨doc, stored, entry⟩).1
        exact ⟨(k, key), ⟨⟨present, inside⟩, rfl⟩, rfl⟩
  rw [entryCount, ← group.length_eq, List.length_map, List.count_eq_countP, List.countP_map, List.countP_eq_length_filter]
  congr 1
  exact List.filter_congr fun e _ => by simp [Bool.beq_eq_decide_eq]

end

end

/-! ### What the loops return -/

section
variable (S : Serde) (db : JsonDB) (tx : Transaction) (store : String)

/-- The document of a key with the buffer applied. -/
def visibleDoc (key : Bytes) : Option Value :=
  match pendingDoc tx store key with
  | some content => content.bind fun bytes => (decodeDoc S bytes).toOption
  | none => storedDoc S db store key

/-- An entry's document goes through the loop over the entries. -/
def passes (takes : Value → Bool) (key : Bytes) : Bool :=
  (pendingDoc tx store key).isNone || (visibleDoc S db tx store key).any takes

/-- The buffered documents of a store in the order in which the hash map yields them. -/
def bufferedPuts (order : List Write) : List (Bytes × Value) :=
  (storeWrites order store).filterMap fun w =>
    (w.2.bind fun bytes => (decodeDoc S bytes).toOption).map fun doc => (w.1, doc)

/-- Every document that a lookup can come across can be read. -/
structure Readable : Prop where
  docs : ∀ key bytes, getBytes db (docKey store key) = some bytes → ∃ doc, decodeDoc S bytes = .ok doc
  buffered : ∀ key bytes, pendingDoc tx store key = some (some bytes) → ∃ doc, decodeDoc S bytes = .ok doc

variable {S db tx store}

theorem entryLoop_eq (readable : Readable S db tx store) (takes : Value → Bool) (entries : List (Bytes × Bytes)) :
    entryLoop S db tx store takes entries =
      .ok (((entries.map Prod.snd).filter (passes S db tx store takes)).filterMap (visibleDoc S db tx store)) := by
  induction entries with
  | nil => rfl
  | cons entry rest ih =>
    rw [entryLoop, ih, List.map_cons, List.filter_cons]
    cases pending : pendingDoc tx store entry.2 with
    | some content =>
      cases content with
      | none => simp [passes, visibleDoc, pending, ok_bind]
      | some bytes =>
        obtain ⟨doc, decoded⟩ := readable.buffered _ _ pending
        by_cases takes' : takes doc = true <;>
          simp [passes, visibleDoc, pending, decoded, ok_bind, Except.toOption, takes']
    | none =>
      cases present : getBytes db (docKey store entry.2) with
      | none => simp [passes, visibleDoc, pending, storedDoc, present, ok_bind]
      | some bytes =>
        obtain ⟨doc, decoded⟩ := readable.docs _ _ present
        simp [passes, visibleDoc, pending, storedDoc, present, decoded, ok_bind, Except.toOption]

theorem equalLoop_eq (keyPath : String) (takes : Value → Bool) (order : List Write) (docs : List Value)
    (reads : ∀ key bytes, (toLex (store, key), some bytes) ∈ order → ∃ doc, decodeDoc S bytes = .ok doc) :
    equalLoop S store keyPath takes order docs =
      .ok (docs ++ (admitted takes (sameField keyPath) docs (bufferedPuts S store order)).map Prod.snd) := by
  induction order generalizing docs with
  | nil => simp [equalLoop, bufferedPuts, storeWrites, admitted]
  | cons w rest ih =>
    have later := fun docs => ih docs fun key bytes member => reads key bytes (List.mem_cons_of_mem _ member)
    obtain ⟨slot, content⟩ := w
    rw [equalLoop]
    by_cases own : (ofLex slot).1 = store
    · subst own
      cases content with
      | none => simp [later, bufferedPuts, storeWrites]
      | some bytes =>
        obtain ⟨doc, decoded⟩ := reads (ofLex slot).2 bytes List.mem_cons_self
        have head : bufferedPuts S (ofLex slot).1 ((slot, some bytes) :: rest) =
            ((ofLex slot).2, doc) :: bufferedPuts S (ofLex slot).1 rest := by
          simp [bufferedPuts, storeWrites, decoded, Except.toOption]
        rw [if_neg (not_not.mpr rfl), head, admitted]
        dsimp only
        rw [decoded, ok_bind, later]
        split_ifs <;> simp
    · simp [own, later, bufferedPuts, storeWrites]

theorem rangeLoop_eq (takes : Value → Bool) (order : List Write) (docs : List Value)
    (reads : ∀ key bytes, (toLex (store, key), some bytes) ∈ order → ∃ doc, decodeDoc S bytes = .ok doc) :
    rangeLoop S db store takes order docs = .ok (docs ++
      ((bufferedPuts S store order).filter fun e => takes e.2 && !knownDoc db store e.1).map Prod.snd) := by
  induction order generalizing docs with
  | nil => simp [rangeLoop, bufferedPuts, storeWrites]
  | cons w rest ih =>
    have later := fun docs => ih docs fun key bytes member => reads key bytes (List.mem_cons_of_mem _ member)
    obtain ⟨slot, content⟩ := w
    rw [rangeLoop]
    by_cases own : (ofLex slot).1 = store
    · subst own
      cases content with
      | none => simp [later, bufferedPuts, storeWrites]
      | some bytes =>
        obtain ⟨doc, decoded⟩ := reads (ofLex slot).2 bytes List.mem_cons_self
        have head : bufferedPuts S (ofLex slot).1 ((slot, some bytes) :: rest) =
            ((ofLex slot).2, doc) :: bufferedPuts S (ofLex slot).1 rest := by
          simp [bufferedPuts, storeWrites, decoded, Except.toOption]
        rw [if_neg (not_not.mpr rfl), head, List.filter_cons]
        dsimp only
        by_cases known : (getBytes db (docKey (ofLex slot).1 (ofLex slot).2)).isSome = true
        · simp [known, knownDoc, later]
        · rw [if_neg known, decoded, ok_bind, later]
          by_cases takes' : takes doc = true <;> simp [known, knownDoc, takes']
    · simp [own, later, bufferedPuts, storeWrites]

/-- Behind a commit each entry names a document that can be read. -/
theorem fetch_eq {after : JsonDB} (docs : ∀ key bytes, getBytes after (docKey store key) = some bytes →
    ∃ doc, decodeDoc S bytes = .ok doc) (entries : List (Bytes × Bytes)) :
    fetch S after store entries = .ok ((entries.map Prod.snd).filterMap (storedDoc S after store)) := by
  induction entries with
  | nil => rfl
  | cons entry rest ih =>
    rw [fetch, ih, List.map_cons]
    cases present : getBytes after (docKey store entry.2) with
    | none => simp [storedDoc, present, ok_bind]
    | some bytes =>
      obtain ⟨doc, decoded⟩ := docs _ _ present
      simp [storedDoc, present, decoded, ok_bind, Except.toOption]

end

/-! ### How often a document is returned -/

section
variable (S : Serde) (db : JsonDB) (tx : Transaction) (store : String) (idx : IndexDef)

/-- The keys that the engine or the buffer knows. -/
def storeKeys : Finset Bytes :=
  ((docsOf db.engine store).map Prod.fst ++ (storeWrites tx.writes.entries store).map Prod.fst).toFinset

open Classical in
/-- The keys that hold a document once the buffer is applied; two can hold equal documents. -/
noncomputable def holders (doc : Value) : Finset Bytes := {key ∈ storeKeys db tx store | visibleDoc S db tx store key = some doc}

open Classical in
/-- How often a lookup shows the document of a key: once for each entry that the stored document has in the range, and
for a buffered document that the lookup takes once more unless the loop over the buffer holds it to be shown. -/
noncomputable def shownTimes (range : ScanRange) (takes : Value → Bool) (held : Bytes → Value → Prop) (key : Bytes) (doc : Value) :
    Nat :=
  match pendingDoc tx store key with
  | none => entryCount S store idx range key (storedDoc S db store key)
  | some _ =>
      if takes doc then entryCount S store idx range key (storedDoc S db store key) + if held key doc then 0 else 1 else 0

/-- Each document is shown as often as the committed documents have entries in the range that is looked up. -/
def ShownAsCommitted (range committed : ScanRange) (takes : Value → Bool) (held : Bytes → Value → Prop) : Prop :=
  ∀ doc, ∑ key ∈ holders S db tx store doc, shownTimes S db tx store idx range takes held key doc =
    ∑ key ∈ holders S db tx store doc, entryCount S store idx committed key (some doc)

variable {S db tx store idx}

theorem mem_holders {doc : Value} {key : Bytes} : key ∈ holders S db tx store doc ↔ visibleDoc S db tx store key = some doc := by
  classical
  unfold holders
  refine Finset.mem_filter.trans (and_iff_right_of_imp fun visible => ?_)
  rw [storeKeys, List.mem_toFinset, List.mem_append]
  unfold visibleDoc at visible
  split at visible
  · next content pending =>
    have buffered := (get?_eq_some_iff _ _ _).mp pending
    exact Or.inr (List.mem_map_of_mem ((mem_storeWrites _ _ _ _).mpr buffered))
  · obtain ⟨bytes, present, _⟩ := Option.bind_eq_some_iff.mp visible
    exact Or.inl (List.mem_map_of_mem ((mem_docsOf _ _ _ _).mpr present))

section
variable {order : List Write} (visits : order.Perm tx.writes.entries)
include visits

theorem mem_order_iff {key : Bytes} {content : Option Bytes} :
    (toLex (store, key), content) ∈ order ↔ pendingDoc tx store key = some content := by
  rw [visits.mem_iff]
  exact (get?_eq_some_iff _ _ _).symm

theorem mem_bufferedPuts {key : Bytes} {doc : Value} : (key, doc) ∈ bufferedPuts S store order ↔
    pendingDoc tx store key ≠ none ∧ visibleDoc S db tx store key = some doc := by
  simp only [bufferedPuts, List.mem_filterMap]
  constructor
  · rintro ⟨⟨key, content⟩, member, shown⟩
    obtain ⟨doc, read, same⟩ := Option.map_eq_some_iff.mp shown
    obtain ⟨rfl, rfl⟩ := Prod.mk.inj same
    have pending := (mem_order_iff visits).mp ((mem_storeWrites _ _ _ _).mp member)
    refine ⟨by simp [pending], ?_⟩
    simp only [visibleDoc, pending]
    exact read
  · rintro ⟨buffered, visible⟩
    obtain ⟨content, pending⟩ := Option.ne_none_iff_exists'.mp buffered
    simp only [visibleDoc, pending] at visible
    exact ⟨(key, content), (mem_storeWrites _ _ _ _).mpr ((mem_order_iff visits).mpr pending), by simp [visible]⟩

theorem bufferedPuts_keyed : Keyed (bufferedPuts S store order) := by
  refine List.Pairwise.filterMap _ (fun a b apart x shown y other same => apart ?_)
    (storeWrites_keyed (order_keyed visits) store)
  obtain ⟨_, _, rfl⟩ := Option.map_eq_some_iff.mp shown
  obtain ⟨_, _, rfl⟩ := Option.map_eq_some_iff.mp other
  exact same

theorem reads_of_readable (readable : Readable S db tx store) (key bytes : Bytes)
    (member : (toLex (store, key), some bytes) ∈ order) : ∃ doc, decodeDoc S bytes = .ok doc :=
  readable.buffered key bytes ((mem_order_iff visits).mp member)

/-- The entries that a loop over the buffer adds, by their keys. -/
theorem added_visible {added : List (Bytes × Value)} (part : added.Sublist (bufferedPuts S store order)) :
    added.map Prod.snd = (added.map Prod.fst).filterMap (visibleDoc S db tx store) := by
  rw [List.filterMap_map, ← List.filterMap_eq_map]
  refine List.filterMap_congr fun e member => ?_
  exact ((mem_bufferedPuts visits).mp (part.subset member)).2.symm

theorem shownTimes_count (mirrors : Mirrors S db store idx) {range : ScanRange} {takes : Value → Bool}
    {held : Bytes → Value → Prop}
    (within : ∀ k, range.toQueryParams.1.matchesKey k = true → idxPrefix store idx.name <+: k)
    {added : List (Bytes × Value)} (part : added.Sublist (bufferedPuts S store order))
    (adds : ∀ e ∈ bufferedPuts S store order, e ∈ added ↔ takes e.2 = true ∧ ¬ held e.1 e.2)
    {key : Bytes} {doc : Value} (visible : visibleDoc S db tx store key = some doc) :
    ((((JsonDb.scan db.engine range).map Prod.snd).filter (passes S db tx store takes)) ++ added.map Prod.fst).count key =
      shownTimes S db tx store idx range takes held key doc := by
  classical
  have once : (added.map Prod.fst).Nodup :=
    List.pairwise_map.mpr ((bufferedPuts_keyed visits).sublist part)
  have inAdded : key ∈ added.map Prod.fst ↔ pendingDoc tx store key ≠ none ∧ takes doc = true ∧ ¬ held key doc := by
    rw [List.mem_map]
    constructor
    · rintro ⟨⟨key, doc'⟩, member, rfl⟩
      obtain ⟨buffered, visible'⟩ := (@mem_bufferedPuts S db tx store order visits _ _).mp (part.subset member)
      obtain rfl := Option.some.inj (visible.symm.trans visible')
      exact ⟨buffered, (adds _ (part.subset member)).mp member⟩
    · rintro ⟨buffered, rest⟩
      exact ⟨(key, doc), (adds _ ((mem_bufferedPuts visits).mpr ⟨buffered, visible⟩)).mpr rest, rfl⟩
  have added_count : (added.map Prod.fst).count key = if key ∈ added.map Prod.fst then 1 else 0 := once.count
  have entries := scan_count mirrors within key
  rw [List.count_append, added_count, if_congr inAdded rfl rfl, shownTimes]
  cases pending : pendingDoc tx store key with
  | none =>
    have through : passes S db tx store takes key = true := by simp [passes, pending]
    rw [List.count_filter through, entries]
    simp
  | some content =>
    by_cases takes' : takes doc = true
    · have through : passes S db tx store takes key = true := by simp [passes, visible, takes']
      rw [List.count_filter through, entries]
      by_cases shown : held key doc <;> simp [takes', shown]
    · have blocked : key ∉ ((JsonDb.scan db.engine range).map Prod.snd).filter (passes S db tx store takes) := by
        simp [passes, pending, visible, takes']
      rw [List.count_eq_zero.mpr blocked]
      simp [takes']

end

end

/-! ### The two lookups -/

section
variable (S : Serde) (db : JsonDB) (tx : Transaction) (order : List Write) (store : String) (idx : IndexDef)

/-- An equal key path is shown by an entry of the engine, or by a buffered document that is visited earlier. -/
def Masked (range : ScanRange) (keyPath : String) (takes : Value → Bool) (key : Bytes) (doc : Value) : Prop :=
  ∃ other shown, visibleDoc S db tx store other = some shown ∧ sameField keyPath shown doc = true ∧
    ((0 < entryCount S store idx range other (storedDoc S db store other) ∧ passes S db tx store takes other = true) ∨
      (takes shown = true ∧ ∃ front back, bufferedPuts S store order = front ++ (key, doc) :: back ∧ (other, shown) ∈ front))

/-- When `get_by_index` of a transaction shows what its commit leaves. -/
def GetAgrees (keyPath : String) (value : Value) : Prop :=
  let range := valueRange store idx.name (encodeIndexValue S value)
  let takes := holdsValue (firstPath idx) value
  ShownAsCommitted S db tx store idx range (valueRange store idx.name (encodeLookup S idx value)) takes
    (Masked S db tx order store idx range keyPath takes)

/-- When `range_by_index` of a transaction shows what its commit leaves. -/
def RangeAgrees (start stop : Value) : Prop :=
  let encStart := encodeIndexValue S start
  let encEnd := encodeIndexValue S stop
  ShownAsCommitted S db tx store idx (indexRange store idx.name encStart encEnd)
    (indexRange store idx.name (encodeLookup S idx start) (encodeLookup S idx stop))
    (holdsWithin S (firstPath idx) encStart encEnd) fun key _ => knownDoc db store key = true

variable {S db tx order store idx}

theorem valueRange_within (value : Bytes) (k : Bytes)
    (inside : (valueRange store idx.name value).toQueryParams.1.matchesKey k = true) : idxPrefix store idx.name <+: k := by
  rw [valueRange, prefixRange_matches] at inside
  exact List.IsPrefix.trans ⟨value ++ [sep], by simp [idxPrefix, idxValuePrefix]⟩ inside

theorem indexRange_within (start stop : Bytes) (k : Bytes)
    (inside : (indexRange store idx.name start stop).toQueryParams.1.matchesKey k = true) : idxPrefix store idx.name <+: k :=
  matches_begins (List.prefix_append _ _) (List.prefix_append _ _) inside

theorem sameField_trans (path : String) (a b c : Value) (first : sameField path a b = true) (second : sameField path b c = true) :
    sameField path a c = true := by
  unfold sameField at *
  cases here : extractField a path <;> cases there : extractField b path <;> cases last : extractField c path <;>
    simp only [here, there, last] at first second ⊢ <;> try contradiction
  exact valueEq_trans _ _ _ first second

section
variable {after : JsonDB} (mirrors : Mirrors S db store idx) (mirrors' : Mirrors S after store idx)
  (visits : order.Perm tx.writes.entries)
  (holds : ∀ key, getBytes after (docKey store key) = (pendingDoc tx store key).getD (getBytes db (docKey store key)))
include mirrors mirrors' visits holds

theorem perm_iff_shown {range committed : ScanRange} {takes : Value → Bool} {held : Bytes → Value → Prop}
    (within : ∀ k, range.toQueryParams.1.matchesKey k = true → idxPrefix store idx.name <+: k)
    (within' : ∀ k, committed.toQueryParams.1.matchesKey k = true → idxPrefix store idx.name <+: k)
    {added : List (Bytes × Value)} (part : added.Sublist (bufferedPuts S store order))
    (adds : ∀ e ∈ bufferedPuts S store order, e ∈ added ↔ takes e.2 = true ∧ ¬ held e.1 e.2) :
    ((((JsonDb.scan db.engine range).map Prod.snd).filter (passes S db tx store takes)).filterMap (visibleDoc S db tx store) ++
        added.map Prod.snd).Perm
      (((JsonDb.scan after.engine committed).map Prod.snd).filterMap (storedDoc S after store)) ↔
    ShownAsCommitted S db tx store idx range committed takes held := by
  classical
  have same : storedDoc S after store = visibleDoc S db tx store := by
    funext key
    rw [storedDoc, holds, visibleDoc]
    cases pendingDoc tx store key <;> rfl
  rw [@added_visible S db tx store order visits added part, ← List.filterMap_append, same, List.perm_iff_count]
  refine forall_congr' fun doc => ?_
  have counts : ∀ items : List Bytes, (items.filterMap (visibleDoc S db tx store)).count doc =
      ∑ key ∈ holders S db tx store doc, items.count key := by
    intro items
    rw [count_filterMap (visibleDoc S db tx store) (storeKeys db tx store) items doc fun key _ visible =>
      (Finset.mem_filter.mp (mem_holders.mpr visible)).1]
    exact Finset.sum_congr (Finset.filter_congr_decidable _ _ _) fun _ _ => rfl
  have shown := Finset.sum_congr rfl fun key (member : key ∈ holders S db tx store doc) =>
    shownTimes_count visits mirrors within part adds (mem_holders.mp member)
  have entries := Finset.sum_congr rfl fun key (member : key ∈ holders S db tx store doc) =>
    (scan_count mirrors' within' key).trans (by rw [same, mem_holders.mp member])
  rw [counts, counts, shown, entries]

omit mirrors' visits holds in
/-- The documents that the loop over the entries shows. -/
theorem mem_entryDocs {range : ScanRange} {takes : Value → Bool}
    (within : ∀ k, range.toQueryParams.1.matchesKey k = true → idxPrefix store idx.name <+: k) (shown : Value) :
    shown ∈ (((JsonDb.scan db.engine range).map Prod.snd).filter (passes S db tx store takes)).filterMap
        (visibleDoc S db tx store) ↔
      ∃ other, visibleDoc S db tx store other = some shown ∧
        0 < entryCount S store idx range other (storedDoc S db store other) ∧ passes S db tx store takes other = true := by
  simp only [List.mem_filterMap, List.mem_filter, ← scan_count mirrors within, List.count_pos_iff]
  constructor
  · exact fun ⟨other, ⟨inside, through⟩, visible⟩ => ⟨other, visible, inside, through⟩
  · exact fun ⟨other, visible, inside, through⟩ => ⟨other, ⟨inside, through⟩, visible⟩

omit mirrors' holds in
theorem mem_admitted_iff {range : ScanRange} {keyPath : String} {takes : Value → Bool}
    (within : ∀ k, range.toQueryParams.1.matchesKey k = true → idxPrefix store idx.name <+: k)
    (e : Bytes × Value) (member : e ∈ bufferedPuts S store order) :
    e ∈ admitted takes (sameField keyPath)
        ((((JsonDb.scan db.engine range).map Prod.snd).filter (passes S db tx store takes)).filterMap
          (visibleDoc S db tx store)) (bufferedPuts S store order) ↔
      takes e.2 = true ∧ ¬ Masked S db tx order store idx range keyPath takes e.1 e.2 := by
  obtain ⟨key, doc⟩ := e
  have visible := fun other shown => @mem_bufferedPuts S db tx store order visits other shown
  rw [mem_admitted (sameField_trans keyPath)]
  constructor
  · rintro ⟨front, back, shape, taken, apart, earlier⟩
    refine ⟨taken, fun ⟨other, shown, seen, same, masks⟩ => ?_⟩
    rcases masks with listed | ⟨taken', front', back', shape', before⟩
    · have unlike := apart shown ((mem_entryDocs mirrors within shown).mpr ⟨other, seen, listed⟩)
      rw [unlike] at same
      cases same
    · have once := (@bufferedPuts_keyed S tx store order visits).nodup
      rw [shape] at once
      obtain ⟨_, right, disjoint⟩ := List.nodup_append.mp once
      have outside : (key, doc) ∉ front := fun inside => disjoint _ inside _ List.mem_cons_self rfl
      obtain ⟨rfl, _⟩ := (List.append_cons_inj_of_notMem outside (List.nodup_cons.mp right).1).mp (shape.symm.trans shape')
      have unlike := earlier _ before taken'
      rw [unlike] at same
      cases same
  · rintro ⟨taken, unmasked⟩
    obtain ⟨front, back, shape⟩ := List.append_of_mem member
    refine ⟨front, back, shape, taken, fun shown inside => ?_, fun earlier before taken' => ?_⟩
    · by_contra same
      obtain ⟨other, seen, listed⟩ := (mem_entryDocs mirrors within shown).mp inside
      exact unmasked ⟨other, shown, seen, by simpa using same, Or.inl listed⟩
    · by_contra same
      have inside : earlier ∈ bufferedPuts S store order := shape ▸ List.mem_append_left _ before
      exact unmasked ⟨earlier.1, earlier.2, ((visible _ _).mp inside).2, by simpa using same,
        Or.inr ⟨taken', front, back, shape, before⟩⟩

end

theorem buffered_decodes {committing : List Write} (commits : committing.Perm tx.writes.entries)
    (uncommitted : Uncommitted tx) (done : (tx.commit S db committing).1 = .ok ()) (key bytes : Bytes)
    (pending : pendingDoc tx store key = some (some bytes)) : ∃ doc, decodeDoc S bytes = .ok doc := by
  obtain ⟨_, built, _⟩ := commit_built uncommitted done
  have kept := commitWrites_decoded built _ ((mem_order_iff commits).mpr pending)
  cases decoded : decodeDoc S bytes with
  | ok doc => exact ⟨doc, rfl⟩
  | error e => simp [newDoc, decoded, Except.toOption] at kept

/-- A lookup of a transaction by value or by range returns the documents that the same lookup returns behind the commit
exactly if each document is shown as often as it has committed entries there. -/
theorem index_reads_match_iff (reached : Reached S db) (begun : Begun S tx) {committing : List Write}
    (commits : committing.Perm tx.writes.entries) (done : (tx.commit S db committing).1 = .ok ()) {d : StoreDef} {index : String}
    (defined : getStore db store = .ok d) (found : findIndex d store index = .ok idx) (mirrors : Mirrors S db store idx)
    (mirrors' : Mirrors S (tx.commit S db committing).2 store idx) (visits : order.Perm tx.writes.entries) :
    (∀ value, (Transaction.getByIndex S db tx order store index value).map (fun docs => (docs : Multiset Value)) =
        (JsonStores.getByIndex S (tx.commit S db committing).2 store index value).map (fun docs => (docs : Multiset Value)) ↔
      GetAgrees S db tx order store idx d.keyPath value) ∧
    ∀ start stop, (Transaction.rangeByIndex S db tx order store index start stop).map (fun docs => (docs : Multiset Value)) =
        (JsonStores.rangeByIndex S (tx.commit S db committing).2 store index start stop).map
          (fun docs => (docs : Multiset Value)) ↔
      RangeAgrees S db tx store idx start stop := by
  have valid := reached_valid reached
  have uncommitted := begun_uncommitted begun
  obtain ⟨schema, docs⟩ := commit_docs commits valid uncommitted done
  have stores : getStore (tx.commit S db committing).2 store = .ok d := by rw [← defined, getStore, schema]; rfl
  have holds := docs store (validateName_nul_free _ (valid.store _ _ (getStore_ok defined)))
  have readable : Readable S db tx store := ⟨mirrors.docs, buffered_decodes commits uncommitted done⟩
  have reads := reads_of_readable visits readable
  obtain rfl : idx.name = index := by
    unfold findIndex at found
    split at found
    · next here =>
      obtain rfl := Except.ok.inj found
      simpa using List.find?_some here
    · cases found
  constructor
  · intro value
    simp only [Transaction.getByIndex, JsonStores.getByIndex, defined, stores, found, ok_bind, entryLoop_eq readable,
      equalLoop_eq _ _ _ _ reads, fetch_eq mirrors'.docs]
    refine (Except.ok.injEq _ _).to_iff.trans (Multiset.coe_eq_coe.trans ?_)
    exact perm_iff_shown mirrors mirrors' visits holds (valueRange_within _) (valueRange_within _) (admitted_sublist _ _ _ _)
      (mem_admitted_iff mirrors visits (valueRange_within _))
  · intro start stop
    simp only [Transaction.rangeByIndex, JsonStores.rangeByIndex, defined, stores, found, ok_bind, entryLoop_eq readable,
      rangeLoop_eq _ _ _ reads, fetch_eq mirrors'.docs]
    refine (Except.ok.injEq _ _).to_iff.trans (Multiset.coe_eq_coe.trans ?_)
    refine perm_iff_shown mirrors mirrors' visits holds (indexRange_within _ _) (indexRange_within _ _) List.filter_sublist
      fun e member => ?_
    simp [List.mem_filter, member]

end

/-! A document that a transaction moves into a range. -/

def byIdStore : StoreDef := ⟨"users", "email", false, [⟨["id"], "by_id", false, false⟩], 0⟩

def emptyById : JsonDB := ⟨∅, (∅ : OMap String StoreDef).insert "users" byIdStore⟩

def clashStored : JsonDB := (JsonDb.put sampleSerde emptyById "users" clashDoc).2

def movingTx : Transaction :=
  ⟨.readWrite, (∅ : OMap (String ×ₗ Bytes) (Option Bytes)).insert (toLex ("users", utf8 "a")) (some sampleText), [], ∅, false⟩

theorem clashStored_reached : Reached sampleSerde clashStored := by
  have empty : SchemaValid ⟨∅, ∅⟩ := ⟨by simp, by simp, by simp⟩
  exact .call _ (.put "users" clashDoc) (.opened _ (empty.insert rfl (by decide) (by decide)))

theorem movingTx_begun : Begun sampleSerde movingTx :=
  .put clashStored _ _ "users" sampleDoc (.begin clashStored ["users"] .readWrite _ rfl) rfl

theorem clashStored_keeps : Mirrored sampleSerde clashStored ∧ UniqueKept sampleSerde clashStored := by
  obtain ⟨mirrored, unique⟩ := fresh_keeps (S := sampleSerde)
    (@single_fresh "users" byIdStore rfl (by decide) (by decide) (by decide))
  refine outcome_keeps mirrored unique (put_outcome emptyById "users" clashDoc (by decide) ?_)
  intro d defined null
  obtain rfl : byIdStore = d := Option.some.inj defined
  cases null

theorem moved_mirrored : Mirrored sampleSerde (movingTx.commit sampleSerde clashStored movingTx.writes.entries).2 := by
  have empty : Buffered sampleSerde ⟨.readWrite, ∅, [], ∅, false⟩ := ⟨nofun, by simp⟩
  have buffered : Buffered sampleSerde movingTx :=
    buffer_buffered empty "users" (utf8 "a") (some sampleText) ⟨by decide, rfl⟩
  exact (outcome_keeps clashStored_keeps.1 clashStored_keeps.2 (commit_outcome _ _ _ (.refl _) buffered)).1

theorem index_reads_match_iff_moved : ¬ RangeAgrees sampleSerde clashStored movingTx "users" ⟨["id"], "by_id", false, false⟩
    (.string "u1") (.string "u2") := by
  intro agrees
  have stored : Mirrors sampleSerde clashStored "users" ⟨["id"], "by_id", false, false⟩ :=
    mirrors_of_mirrored clashStored_keeps.1 (d := byIdStore) rfl (by decide)
  have moved : Mirrors sampleSerde (movingTx.commit sampleSerde clashStored movingTx.writes.entries).2 "users"
      ⟨["id"], "by_id", false, false⟩ := mirrors_of_mirrored moved_mirrored (d := byIdStore) rfl (by decide)
  have right := ((@index_reads_match_iff sampleSerde clashStored movingTx movingTx.writes.entries "users" _ clashStored_reached
    movingTx_begun _ (.refl _) rfl byIdStore "by_id" rfl rfl stored moved (.refl _)).2 (.string "u1") (.string "u2")).mpr agrees
  have sizes : 0 = 1 := congrArg Multiset.card (Except.ok.inj right)
  cases sizes

theorem moved_missed : Transaction.rangeByIndex sampleSerde clashStored movingTx movingTx.writes.entries "users" "by_id"
      (.string "u1") (.string "u2") = .ok [] ∧
    JsonStores.rangeByIndex sampleSerde (movingTx.commit sampleSerde clashStored movingTx.writes.entries).2 "users" "by_id"
      (.string "u1") (.string "u2") = .ok [sampleDoc] := ⟨by rfl, by rfl⟩

end FlowDb.TransactionLookups
