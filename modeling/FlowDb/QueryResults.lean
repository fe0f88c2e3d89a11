import FlowDb.JsonSessions
import FlowDb.QueryPlans
import FlowDb.Multiplicity

/-! What a query returns over an engine whose index entries mirror the documents.
An index scan returns a document as often as the scanned range holds entries of it:
of the chosen index at most one, but a prefix that has lost its separator also holds
the entries of every index whose name goes on. -/
namespace FlowDb.QueryResults
open ByteString OrderedMap Records JsonValue JsonEncoding JsonDb JsonTransaction JsonIndexes JsonSessions JsonQuery
open KeySpace QueryPlans PrefixOrder Multiplicity

/-- Where all index entries of a store lie. -/
def storeEntries (store : String) : Bytes := idxTag :: (utf8 store ++ [sep])

/-- A store with single-field and composite indexes whose entries are those of its
documents. -/
structure Indexed (S : Serde) (db : JsonDB) (store : String) (d : StoreDef) : Prop where
  defined : db.schema.get? store = some d
  valid : ∀ idx ∈ d.indexes, validateName idx.name = .ok ()
  distinct : (d.indexes.map IndexDef.name).Nodup
  single : ∀ idx ∈ d.indexes, idx.multiEntry = false
  docs : ∀ key bytes, getBytes db (docKey store key) = some bytes → ∃ doc, decodeDoc S bytes = .ok doc
  entries : ∀ k v, db.engine.get? k = some v ∧ storeEntries store <+: k ↔
    k ∈ entryKeys S d store v (storedDoc S db store v)

/-- What sessions keep is enough. -/
theorem indexed_of_mirrored {S : Serde} {db : JsonDB} {store : String} {d : StoreDef} (mirrored : Mirrored S db)
    (defined : db.schema.get? store = some d) (valid : ∀ idx ∈ d.indexes, validateName idx.name = .ok ())
    (single : ∀ idx ∈ d.indexes, idx.multiEntry = false) : Indexed S db store d := by
  have named := mirrored.named store d defined
  refine ⟨defined, valid, mirrored.distinct store d defined, single, fun key bytes present => ?_, fun k v => ?_⟩
  · obtain ⟨_, _, _, doc, _, _, _, decoded⟩ := mirrored.docs _ _ present rfl
    exact ⟨doc, decoded⟩
  · constructor
    · rintro ⟨present, starts⟩
      obtain ⟨rest, rfl⟩ := starts
      obtain ⟨store', d', defined', entry⟩ := (mirrored.entries _ v).mp ⟨present, rfl⟩
      obtain ⟨_, _, idx, _, vals, _, same⟩ := (mem_entryKeys S d' store' v _ _).mp entry
      have tails : utf8 store ++ sep :: rest = utf8 store' ++ sep :: (utf8 idx.name ++ sep :: (encodeCompositeValue S vals ++ sep :: v)) := by
        simpa [storeEntries, idxKey] using same
      obtain rfl := utf8_injective _ _ (append_sep_inj named.2 (mirrored.named store' d' defined').2 tails).1
      obtain rfl : d = d' := Option.some.inj (defined.symm.trans defined')
      exact entry
    · intro entry
      refine ⟨((mirrored.entries k v).mpr ⟨store, d, defined, entry⟩).1, ?_⟩
      obtain ⟨_, _, idx, _, vals, _, rfl⟩ := (mem_entryKeys S d store v _ k).mp entry
      exact ⟨utf8 idx.name ++ sep :: (encodeCompositeValue S vals ++ sep :: v), by simp [storeEntries, idxKey]⟩

section
variable (S : Serde)

/-- The documents of a store, in key order. -/
def storedDocs (db : JsonDB) (store : String) : List Value :=
  (scan db.engine (prefixRange (docPrefix store))).filterMap fun e => (decodeDoc S e.2).toOption

def Satisfies (filters : List QueryFilter) (doc : Value) : Prop := ∀ f ∈ filters, filterMatches S doc f = true

instance (filters : List QueryFilter) (doc : Value) : Decidable (Satisfies S filters doc) :=
  inferInstanceAs (Decidable (∀ f ∈ filters, _))

/-- The query returns each stored document that satisfies the filters once, and
nothing else. -/
def Exact (db : JsonDB) (store : String) (filters : List QueryFilter) : Prop :=
  ∃ out, { QueryBuilder.new store with filters := filters }.collect S db = .ok out ∧
    out.Perm ((storedDocs S db store).filter fun doc => Satisfies S filters doc)

/-- An index row of a document behind the index's name. -/
def row (vals : List Value) (key : Bytes) : Bytes := fieldBytes S vals ++ key

/-- The document is met once when the index is scanned. An `In` filter on the first
key path leaves the index's name as the prefix, so of all indexes whose names begin
with it exactly one may hold the document. Otherwise the index itself must hold it,
in a row that the equality values open, and that with a range filter behind them goes
on no further than the range's end. -/
def SeenOnce (filters : List QueryFilter) (d : StoreDef) (idx : IndexDef) (key : Bytes) (doc : Value) : Prop :=
  match leading filters idx.keyPaths with
  | ([], some (.isIn _ _)) =>
      (d.indexes.filter fun i => (utf8 idx.name).isPrefixOf (utf8 i.name) &&
        (collectFields doc i.keyPaths).isSome).length = 1
  | (eqs, some (.range _ _ stop)) =>
      ∃ vals rest, collectFields doc idx.keyPaths = some vals ∧ row S vals key = fieldBytes S eqs ++ rest ∧
        rest ≤ encodeIndexValue S stop
  | (eqs, _) => ∃ vals, collectFields doc idx.keyPaths = some vals ∧ (fieldBytes S eqs).dropLast <+: row S vals key

variable {S}

theorem extract_single {idx : IndexDef} (single : idx.multiEntry = false) (doc : Value) :
    extractIndexValues doc idx = (collectFields doc idx.keyPaths).toList := by
  rw [extractIndexValues, single]
  cases collectFields doc idx.keyPaths <;> rfl

theorem stored_decodes {db : JsonDB} {store : String} {key : Bytes} {doc : Value}
    (stored : storedDoc S db store key = some doc) :
    ∃ bytes, getBytes db (docKey store key) = some bytes ∧ decodeDoc S bytes = .ok doc := by
  obtain ⟨bytes, present, decoded⟩ := Option.bind_eq_some_iff.mp stored
  refine ⟨bytes, present, ?_⟩
  cases result : decodeDoc S bytes with
  | ok other => rw [result] at decoded; exact congrArg Except.ok (Option.some.inj decoded)
  | error e => rw [result] at decoded; cases decoded

variable (S)

def docOf (db : JsonDB) (store : String) (key : Bytes) : Value := (storedDoc S db store key).getD .null

def storedKeys (db : JsonDB) (store : String) : List Bytes :=
  (scan db.engine (prefixRange (docPrefix store))).map fun e => e.1.drop (docPrefix store).length

variable {S} {db : JsonDB} {store : String} {d : StoreDef}

theorem indexLoop_all {entries : List (Bytes × Bytes)} (results : List Value)
    (held : ∀ e ∈ entries, ∃ doc, storedDoc S db store e.2 = some doc) :
    indexLoop S db store none entries results = .ok (results ++ entries.map fun e => docOf S db store e.2) := by
  induction entries generalizing results with
  | nil => simp [indexLoop]
  | cons e rest ih =>
    obtain ⟨doc, stored⟩ := held e List.mem_cons_self
    obtain ⟨bytes, present, decoded⟩ := stored_decodes stored
    have step : indexLoop S db store none (e :: rest) results = indexLoop S db store none rest (results ++ [doc]) := by
      rw [indexLoop, present]
      dsimp only [bind, Except.bind]
      rw [decoded]
      rfl
    rw [step, ih _ fun x member => held x (List.mem_cons_of_mem _ member)]
    simp [docOf, stored]

theorem fullLoop_all {entries : List (Bytes × Bytes)} (results : List Value)
    (decodes : ∀ e ∈ entries, ∃ doc, decodeDoc S e.2 = .ok doc) :
    fullLoop S none entries results =
      .ok (results ++ entries.filterMap fun e => (decodeDoc S e.2).toOption) := by
  induction entries generalizing results with
  | nil => simp [fullLoop]
  | cons e rest ih =>
    obtain ⟨doc, decoded⟩ := decodes e List.mem_cons_self
    have step : fullLoop S none (e :: rest) results = fullLoop S none rest (results ++ [doc]) := by
      rw [fullLoop, decoded]
      rfl
    rw [step, ih _ fun x member => decodes x (List.mem_cons_of_mem _ member)]
    simp [decoded, Except.toOption]

theorem foldl_filters (filters : List QueryFilter) (docs : List Value) :
    filters.foldl (fun docs f => docs.filter fun doc => filterMatches S doc f) docs =
      docs.filter fun doc => Satisfies S filters doc := by
  induction filters generalizing docs with
  | nil => simp [Satisfies]
  | cons f rest ih =>
    rw [List.foldl_cons, ih, List.filter_filter]
    refine List.filter_congr fun doc _ => Bool.eq_iff_iff.mpr ?_
    rw [Bool.and_eq_true, decide_eq_true_iff, decide_eq_true_iff]
    simp [Satisfies, and_comm]

theorem scanned_doc {e : Bytes × Bytes} (member : e ∈ scan db.engine (prefixRange (docPrefix store))) :
    getBytes db (docKey store (e.1.drop (docPrefix store).length)) = some e.2 ∧
      e.1 = docKey store (e.1.drop (docPrefix store).length) := by
  obtain ⟨present, key, whole⟩ := (mem_prefixScan _ _ e).mp member
  have named : docKey store key = e.1 := by rw [← whole]; simp [docKey, docPrefix]
  have dropped : e.1.drop (docPrefix store).length = key := by rw [← whole, List.drop_left]
  rw [dropped, getBytes, named]
  exact ⟨present, rfl⟩

theorem mem_storedKeys (indexed : Indexed S db store d) (key : Bytes) :
    key ∈ storedKeys db store ↔ ∃ doc, storedDoc S db store key = some doc := by
  constructor
  · intro member
    obtain ⟨e, inside, rfl⟩ := List.mem_map.mp member
    obtain ⟨present, _⟩ := scanned_doc inside
    obtain ⟨doc, decoded⟩ := indexed.docs _ _ present
    exact ⟨doc, by simp [storedDoc, present, decoded, Except.toOption]⟩
  · rintro ⟨doc, stored⟩
    obtain ⟨bytes, present, _⟩ := stored_decodes stored
    refine List.mem_map.mpr ⟨(docKey store key, bytes), (mem_prefixScan _ _ _).mpr ⟨present, docPrefix_isPrefix store key⟩, ?_⟩
    rw [show docKey store key = docPrefix store ++ key by simp [docKey, docPrefix], List.drop_left]

theorem scan_nodup (engine : JsonDb.Engine) (range : ScanRange) : ((scan engine range).map Prod.fst).Nodup := by
  have sorted : (scan engine range).Pairwise fun a b => a.1 < b.1 := engine.sorted.filter _
  exact List.pairwise_map.mpr (sorted.imp fun below => below.ne)

theorem storedKeys_nodup : (storedKeys db store).Nodup := by
  have keys : (storedKeys db store).map (docKey store) = (scan db.engine (prefixRange (docPrefix store))).map Prod.fst := by
    rw [storedKeys, List.map_map]
    exact List.map_congr_left fun e member => (scanned_doc member).2.symm
  exact List.Nodup.of_map (docKey store) (keys ▸ scan_nodup _ _)

theorem storedDocs_eq (indexed : Indexed S db store d) :
    storedDocs S db store = (storedKeys db store).map (docOf S db store) := by
  rw [storedDocs, storedKeys, List.map_map, ← List.filterMap_eq_map]
  refine List.filterMap_congr fun e member => ?_
  obtain ⟨present, _⟩ := scanned_doc member
  obtain ⟨doc, decoded⟩ := indexed.docs _ _ present
  simp [docOf, storedDoc, present, decoded, Except.toOption]

/-! The entries of one document in a scanned range, over all indexes. -/

def rowKey (S : Serde) (store : String) (key : Bytes) (doc : Value) (idx : IndexDef) : Bytes :=
  idxKey store idx.name (encodeCompositeValue S ((collectFields doc idx.keyPaths).getD [])) key

def Found (S : Serde) (range : ScanRange) (store : String) (key : Bytes) (doc : Value) (idx : IndexDef) : Bool :=
  (collectFields doc idx.keyPaths).isSome && range.toQueryParams.1.matchesKey (rowKey S store key doc idx)

theorem mem_rows (indexed : Indexed S db store d) {key k : Bytes} {doc : Value} :
    k ∈ entryKeys S d store key (some doc) ↔
      ∃ idx ∈ d.indexes, (collectFields doc idx.keyPaths).isSome ∧ k = rowKey S store key doc idx := by
  rw [mem_entryKeys]
  constructor
  · rintro ⟨_, same, idx, member, vals, holds, rfl⟩
    obtain rfl := Option.some.inj same
    rw [extract_single (indexed.single idx member), Option.mem_toList] at holds
    exact ⟨idx, member, by simp [holds], by simp [rowKey, holds]⟩
  · rintro ⟨idx, member, covers, rfl⟩
    obtain ⟨vals, holds⟩ := Option.isSome_iff_exists.mp covers
    refine ⟨doc, rfl, idx, member, vals, ?_, by simp [rowKey, holds]⟩
    rw [extract_single (indexed.single idx member), holds]
    exact Option.mem_toList.mpr rfl

theorem nul_free (indexed : Indexed S db store d) {idx : IndexDef} (member : idx ∈ d.indexes) : sep ∉ utf8 idx.name :=
  validateName_nul_free _ (indexed.valid idx member)

-- Within a store an index prefix names its index.
theorem name_of_start {idx other : IndexDef} {value key : Bytes} (free : sep ∉ utf8 idx.name)
    (free' : sep ∉ utf8 other.name) (starts : idxPrefix store idx.name <+: idxKey store other.name value key) :
    idx.name = other.name := by
  obtain ⟨rest, whole⟩ := starts
  have tails : utf8 store ++ sep :: (utf8 idx.name ++ sep :: rest) =
      utf8 store ++ sep :: (utf8 other.name ++ sep :: (value ++ sep :: key)) := by
    simpa [idxPrefix, idxKey] using whole
  have names := (List.cons.inj (List.append_cancel_left tails)).2
  exact utf8_injective _ _ (append_sep_inj free free' names).1

theorem eq_of_rowKey (indexed : Indexed S db store d) {key : Bytes} {doc : Value} {i j : IndexDef}
    (first : i ∈ d.indexes) (second : j ∈ d.indexes) (same : rowKey S store key doc i = rowKey S store key doc j) :
    i = j := by
  have starts : idxPrefix store i.name <+: rowKey S store key doc j :=
    same ▸ idxPrefix_isPrefix_idxKey store i.name _ key
  exact List.inj_on_of_nodup_map indexed.distinct first second
    (name_of_start (nul_free indexed first) (nul_free indexed second) starts)

theorem group_perm (indexed : Indexed S db store d) {range : ScanRange} {key : Bytes} {doc : Value}
    (within : ∀ k, range.toQueryParams.1.matchesKey k = true → storeEntries store <+: k)
    (stored : storedDoc S db store key = some doc) :
    ((scan db.engine range).filter fun e => e.2 = key).Perm
      ((d.indexes.filter (Found S range store key doc)).map fun idx => (rowKey S store key doc idx, key)) := by
  have distinct : (scan db.engine range).Nodup := List.Nodup.of_map _ (scan_nodup db.engine range)
  have apart : ((d.indexes.filter (Found S range store key doc)).map fun idx => (rowKey S store key doc idx, key)).Nodup := by
    refine List.Nodup.map_on (fun i first j second same => ?_) ((List.Nodup.of_map _ indexed.distinct).filter _)
    exact eq_of_rowKey indexed (List.mem_filter.mp first).1 (List.mem_filter.mp second).1 (congrArg Prod.fst same)
  refine (List.perm_ext_iff_of_nodup (distinct.filter _) apart).mpr fun e => ?_
  obtain ⟨k, v⟩ := e
  simp only [List.mem_filter, List.mem_map, decide_eq_true_eq, scan, ← get?_eq_some_iff, Prod.mk.injEq, Found,
    Bool.and_eq_true]
  constructor
  · rintro ⟨⟨present, matched⟩, rfl⟩
    have entry := (indexed.entries k v).mp ⟨present, within k matched⟩
    rw [stored, mem_rows indexed] at entry
    obtain ⟨idx, member, covers, rfl⟩ := entry
    exact ⟨idx, ⟨member, covers, matched⟩, rfl, rfl⟩
  · rintro ⟨idx, ⟨member, covers, matched⟩, rfl, rfl⟩
    refine ⟨⟨((indexed.entries _ key).mpr ?_).1, matched⟩, rfl⟩
    rw [stored, mem_rows indexed]
    exact ⟨idx, member, covers, rfl⟩

/-! What a row of the chosen index begins with. -/

theorem composite_row {vals : List Value} (filled : vals ≠ []) (key : Bytes) :
    encodeCompositeValue S vals ++ sep :: key = row S vals key := by
  cases vals with
  | nil => exact absurd rfl filled
  | cons v rest =>
    have tail : ∀ rest : List Value,
        (rest.flatMap fun w => sep :: encodeIndexValue S w) ++ sep :: key = sep :: (fieldBytes S rest ++ key) := by
      intro rest
      induction rest with
      | nil => rfl
      | cons w more ih => simp [fieldBytes_cons, ih]
    rw [encodeCompositeValue, List.append_assoc, tail, row, fieldBytes_cons, List.append_assoc]
    rfl

theorem collected_filled {doc : Value} {path : String} {paths : List String} {vals : List Value}
    (covers : collectFields doc (path :: paths) = some vals) :
    ∃ v rest, vals = v :: rest ∧ extractField doc path = some v ∧ collectFields doc paths = some rest := by
  rw [collectFields] at covers
  split at covers
  · next v rest here there => exact ⟨v, rest, (Option.some.inj covers).symm, here, there⟩
  · cases covers

theorem rowKey_own {idx : IndexDef} {key : Bytes} {doc : Value} {vals : List Value} (paths : idx.keyPaths ≠ [])
    (covers : collectFields doc idx.keyPaths = some vals) :
    rowKey S store key doc idx = idxPrefix store idx.name ++ row S vals key := by
  have filled : vals ≠ [] := by
    obtain ⟨path, rest, here⟩ := List.exists_cons_of_ne_nil paths
    obtain ⟨v, more, rfl, _⟩ := collected_filled (here ▸ covers)
    exact List.cons_ne_nil _ _
  rw [rowKey, covers, Option.getD_some, idxKey, idxPrefix, composite_row filled]
  simp

-- Equal values need not be encoded alike (the two zeros), but their encodings end at
-- the same separator: they have one length or are written without NUL.
theorem valueEq_shape {v w : Value} (same : valueEq v w = true) :
    (encodeIndexValue S v).length = (encodeIndexValue S w).length ∨
      sep ∉ encodeIndexValue S v ∧ sep ∉ encodeIndexValue S w := by
  have written : ∀ value, sep ∉ 0x08 :: (S.toVec value).getD [] := fun value zero => by
    rcases List.mem_cons.mp zero with tag | inside
    · exact absurd tag (by decide)
    · cases text : S.toVec value with
      | none => simp [text] at inside
      | some bytes =>
        rw [text] at inside
        exact S.text_nul_free value bytes text inside
  cases v with
  | null =>
    cases w with
    | null => exact Or.inl rfl
    | _ => cases same
  | bool x =>
    cases w with
    | bool y =>
      obtain rfl : x = y := by simpa [valueEq] using same
      exact Or.inl rfl
    | _ => cases same
  | string x =>
    cases w with
    | string y =>
      obtain rfl : x = y := by simpa [valueEq] using same
      exact Or.inl rfl
    | _ => cases same
  | number x =>
    cases w with
    | number y =>
      cases x <;> cases y <;> try cases same
      · obtain rfl := beq_iff_eq.mp same
        exact Or.inl rfl
      · obtain rfl := beq_iff_eq.mp same
        exact Or.inl rfl
      · exact Or.inl (by simp [encodeIndexValue, Number.asI64, Number.asU64])
    | _ => cases same
  | array items =>
    cases w with
    | array other => exact Or.inr ⟨written _, written _⟩
    | _ => cases same
  | object members =>
    cases w with
    | object other => exact Or.inr ⟨written _, written _⟩
    | _ => cases same

theorem valueEq_rest {v w : Value} {a b : Bytes} (same : valueEq v w = true)
    (bytes : encodeIndexValue S v ++ sep :: a = encodeIndexValue S w ++ sep :: b) : a = b := by
  rcases valueEq_shape (S := S) same with lengths | ⟨free, free'⟩
  · exact (List.cons.inj (List.append_inj bytes lengths).2).2
  · exact (append_sep_inj free free' bytes).2

variable {filters : List QueryFilter}

theorem satisfied_eq {doc : Value} {path field : String} {w : Value} (satisfied : Satisfies S filters doc)
    (first : (filters.find? fun f => f.field == path) = some (.eq field w)) :
    ∃ v, extractField doc path = some v ∧ valueEq v w = true := by
  have passes := satisfied _ (List.mem_of_find?_eq_some first)
  obtain rfl : field = path := by simpa [QueryFilter.field] using List.find?_some first
  rw [filterMatches] at passes
  split at passes
  · next v here => exact ⟨v, here, passes⟩
  · cases passes

-- Behind the leading equalities a row goes on with the fields they do not cover.
theorem row_rest {doc : Value} {paths : List String} {vals : List Value} {key rest : Bytes}
    (satisfied : Satisfies S filters doc) (covers : collectFields doc paths = some vals)
    (opens : row S vals key = fieldBytes S (leading filters paths).1 ++ rest) :
    rest = row S (vals.drop (leading filters paths).1.length) key := by
  induction paths generalizing vals with
  | nil => exact opens.symm
  | cons path more ih =>
    by_cases first : ∃ field w, (filters.find? fun f => f.field == path) = some (.eq field w)
    · obtain ⟨field, w, first⟩ := first
      obtain ⟨v, tail, rfl, here, there⟩ := collected_filled covers
      obtain ⟨v', here', same⟩ := satisfied_eq satisfied first
      obtain rfl := Option.some.inj (here.symm.trans here')
      rw [leading_eq first] at opens ⊢
      rw [row, fieldBytes_cons, fieldBytes_cons, List.append_assoc, List.append_assoc] at opens
      exact ih there (valueEq_rest same opens)
    · have first : ∀ field w, (filters.find? fun f => f.field == path) ≠ some (.eq field w) :=
        fun field w here => first ⟨field, w, here⟩
      rw [leading_stop first] at opens ⊢
      exact opens.symm

-- The filter the equalities stop at is on the next field of the row.
theorem stop_next {doc : Value} {paths : List String} {vals : List Value} {stop : QueryFilter}
    (covers : collectFields doc paths = some vals) (stops : (leading filters paths).2 = some stop) :
    ∃ v more, vals.drop (leading filters paths).1.length = v :: more ∧ extractField doc stop.field = some v := by
  induction paths generalizing vals with
  | nil => cases stops
  | cons path rest ih =>
    obtain ⟨v, tail, rfl, here, there⟩ := collected_filled covers
    by_cases first : ∃ field w, (filters.find? fun f => f.field == path) = some (.eq field w)
    · obtain ⟨field, w, first⟩ := first
      rw [leading_eq first] at stops ⊢
      exact ih there stops
    · have first : ∀ field w, (filters.find? fun f => f.field == path) ≠ some (.eq field w) :=
        fun field w here => first ⟨field, w, here⟩
      rw [leading_stop first] at stops ⊢
      obtain rfl : stop.field = path := by simpa using List.find?_some stops
      exact ⟨v, tail, rfl, here⟩

theorem found_range {idx : IndexDef} {key : Bytes} {doc : Value} {field : String} {start stop : Value}
    (satisfied : Satisfies S filters doc) (stops : (leading filters idx.keyPaths).2 = some (.range field start stop)) :
    Found S ((buildIndexScan S filters store idx).range store) store key doc idx = true ↔
      ∃ vals rest, collectFields doc idx.keyPaths = some vals ∧
        row S vals key = fieldBytes S (leading filters idx.keyPaths).1 ++ rest ∧ rest ≤ encodeIndexValue S stop := by
  have paths : idx.keyPaths ≠ [] := fun none => by rw [none] at stops; cases stops
  rw [Found, Bool.and_eq_true, plan_range, stops]
  dsimp only
  constructor
  · rintro ⟨covers, found⟩
    obtain ⟨vals, covers⟩ := Option.isSome_iff_exists.mp covers
    have low := List.prefix_append (idxPrefix store idx.name ++ fieldBytes S (leading filters idx.keyPaths).1)
      (popSep (encodeIndexValue S start))
    rw [rowKey_own paths covers] at found
    obtain ⟨rest, whole⟩ := matches_begins low (List.prefix_append _ _) found
    rw [List.append_assoc] at whole
    have opens := List.append_cancel_left whole
    refine ⟨vals, rest, covers, opens.symm, ?_⟩
    have below := matches_le (tagged_append _ (tagged_append _ (idxPrefix_tagged store idx.name))) found
    rwa [← opens, ← List.append_assoc, append_le_append_left] at below
  · rintro ⟨vals, rest, covers, opens, below⟩
    obtain ⟨v, more, dropped, here⟩ := stop_next covers stops
    have passes := satisfied _ (List.mem_of_find?_eq_some (stop_first stops).1)
    rw [QueryFilter.field] at here
    rw [filterMatches, here] at passes
    simp only [Bool.and_eq_true, decide_eq_true_eq] at passes
    refine ⟨by rw [covers]; rfl, ?_⟩
    rw [rowKey_own paths covers, opens, ← List.append_assoc]
    have next : rest = encodeIndexValue S v ++ sep :: row S more key := by
      rw [row_rest satisfied covers opens, dropped, row, fieldBytes_cons, row]
      simp
    refine matches_of_le (tagged_append _ (tagged_append _ (idxPrefix_tagged store idx.name)))
      ((List.prefix_append_right_inj _).mpr (next ▸ List.prefix_append (encodeIndexValue S v) _)) (fun same => ?_) ?_ ?_
    · exact absurd (List.append_cancel_left same) (by simp [next])
    · rw [append_le_append_left]
      exact (prefix_le (popSep_begins _)).trans passes.1
    · rw [append_le_append_left]
      exact below

theorem found_leading {idx : IndexDef} {key : Bytes} {doc : Value} (filled : (leading filters idx.keyPaths).1 ≠ [])
    (stops : ∀ field start stop, (leading filters idx.keyPaths).2 ≠ some (.range field start stop)) :
    Found S ((buildIndexScan S filters store idx).range store) store key doc idx = true ↔
      ∃ vals, collectFields doc idx.keyPaths = some vals ∧
        (fieldBytes S (leading filters idx.keyPaths).1).dropLast <+: row S vals key := by
  have paths : idx.keyPaths ≠ [] := fun none => by rw [none] at filled; exact filled rfl
  have range : (buildIndexScan S filters store idx).range store =
      prefixRange (idxPrefix store idx.name ++ (fieldBytes S (leading filters idx.keyPaths).1).dropLast) := by
    rw [plan_range]
    split
    · next here => exact absurd here (stops _ _ _)
    · rw [popSep_append (fieldBytes_pop filled).2, (fieldBytes_pop filled).1]
  rw [Found, Bool.and_eq_true, range, prefixRange_matches]
  constructor
  · rintro ⟨covers, found⟩
    obtain ⟨vals, covers⟩ := Option.isSome_iff_exists.mp covers
    rw [rowKey_own paths covers, List.prefix_append_right_inj] at found
    exact ⟨vals, covers, found⟩
  · rintro ⟨vals, covers, found⟩
    rw [rowKey_own paths covers, List.prefix_append_right_inj]
    exact ⟨by rw [covers]; rfl, found⟩

-- An `In` filter first: the prefix is the index's name, which other names may continue.
theorem found_named (indexed : Indexed S db store d) {idx i : IndexDef} {key : Bytes} {doc : Value}
    (member : idx ∈ d.indexes) (empty : (leading filters idx.keyPaths).1 = [])
    (stops : ∀ field start stop, (leading filters idx.keyPaths).2 ≠ some (.range field start stop)) :
    Found S ((buildIndexScan S filters store idx).range store) store key doc i =
      ((utf8 idx.name).isPrefixOf (utf8 i.name) && (collectFields doc i.keyPaths).isSome) := by
  have names : indexName store idx.name <+: rowKey S store key doc i ↔ utf8 idx.name <+: utf8 i.name := by
    have whole : rowKey S store key doc i = idxTag :: (utf8 store ++ sep :: (utf8 i.name ++
        sep :: (encodeCompositeValue S ((collectFields doc i.keyPaths).getD []) ++ sep :: key))) := rfl
    rw [whole, indexName, List.prefix_cons_inj, List.prefix_append_right_inj, List.prefix_cons_inj]
    exact ⟨prefix_before_mark (nul_free indexed member), fun front => front.trans (List.prefix_append _ _)⟩
  rw [Found, plan_named empty stops, Bool.eq_iff_iff, Bool.and_eq_true, Bool.and_eq_true, prefixRange_matches, names,
    List.isPrefixOf_iff_prefix, and_comm]

-- Where the filters reach into the index, only its own entries are met.
theorem found_own (indexed : Indexed S db store d) {idx i : IndexDef} {key : Bytes} {doc : Value} (opens : Opens filters idx)
    (member : idx ∈ d.indexes) (here : i ∈ d.indexes)
    (found : Found S ((buildIndexScan S filters store idx).range store) store key doc i = true) : i = idx := by
  have starts := plan_owned opens ((Bool.and_eq_true _ _).mp found).2
  exact List.inj_on_of_nodup_map indexed.distinct here member
    (name_of_start (nul_free indexed member) (nul_free indexed here) starts).symm

theorem filter_own (indexed : Indexed S db store d) {idx : IndexDef} {key : Bytes} {doc : Value}
    (opens : Opens filters idx) (member : idx ∈ d.indexes) :
    (d.indexes.filter (Found S ((buildIndexScan S filters store idx).range store) store key doc)).length =
      if Found S ((buildIndexScan S filters store idx).range store) store key doc idx then 1 else 0 := by
  have own : d.indexes.filter (Found S ((buildIndexScan S filters store idx).range store) store key doc) =
      d.indexes.filter fun i => i = idx && Found S ((buildIndexScan S filters store idx).range store) store key doc idx := by
    refine List.filter_congr fun i here => Bool.eq_iff_iff.mpr ⟨fun found => ?_, fun found => ?_⟩
    · obtain rfl := found_own indexed opens member here found
      simpa using found
    · obtain ⟨same, found⟩ := (Bool.and_eq_true _ _).mp found
      exact of_decide_eq_true same ▸ found
  rw [own]
  split_ifs with found
  · rw [← List.count_eq_one_of_mem (List.Nodup.of_map _ indexed.distinct) member, List.count_eq_length_filter]
    exact congrArg List.length (List.filter_congr fun i _ => by rw [found, Bool.and_true]; rfl)
  · simp [found]

theorem found_once_iff (indexed : Indexed S db store d) {idx : IndexDef} {key : Bytes} {doc : Value}
    (chosen : Chosen filters d.indexes idx) (satisfied : Satisfies S filters doc) :
    (d.indexes.filter (Found S ((buildIndexScan S filters store idx).range store) store key doc)).length = 1 ↔
      SeenOnce S filters d idx key doc := by
  rcases chosen_leading chosen with opens | ⟨field, values, named⟩
  · rw [filter_own indexed opens chosen.mem]
    have once : ((if Found S ((buildIndexScan S filters store idx).range store) store key doc idx then 1 else 0) = 1) ↔
        Found S ((buildIndexScan S filters store idx).range store) store key doc idx = true := by
      split_ifs with found <;> simp [found]
    rw [once, SeenOnce]
    split
    · next _ _ here =>
      rcases opens with filled | ⟨_, _, _, stops⟩
      · exact absurd (congrArg Prod.fst here) filled
      · rw [here] at stops
        cases stops
    · next _ _ _ here =>
      rw [found_range satisfied (congrArg Prod.snd here), here]
    · next eqs stop other stops here =>
      have noRange : ∀ field start stop, (leading filters idx.keyPaths).2 ≠ some (.range field start stop) := by
        rw [here]
        exact stops
      have filled := opens.resolve_right fun ⟨_, _, _, range⟩ => noRange _ _ _ range
      rw [found_leading filled noRange, here]
  · have stops : ∀ field start stop, (leading filters idx.keyPaths).2 ≠ some (.range field start stop) := by
      simp [named]
    rw [List.filter_congr fun i here => found_named indexed chosen.mem (by rw [named]) stops, SeenOnce, named]

/-! What a query without order, limit and offset collects. -/

theorem collect_full (indexed : Indexed S db store d) (unplanned : d.indexes.foldl (better filters) none = none) :
    { QueryBuilder.new store with filters := filters }.collect S db =
      .ok ((storedDocs S db store).filter fun doc => Satisfies S filters doc) := by
  have plan : planScan S filters store d = (.fullScan, none) := by rw [planScan, unplanned]
  have read := fullLoop_all [] fun e (member : e ∈ scan db.engine (prefixRange (docPrefix store))) =>
    indexed.docs _ _ (scanned_doc member).1
  simp only [QueryBuilder.collect, QueryBuilder.new, getStore, indexed.defined, plan, ScanPlan.range, Option.map_none,
    bind, Except.bind, read, foldl_filters, List.nil_append, List.drop_zero]
  rfl

theorem scanned_stored (indexed : Indexed S db store d) {idx : IndexDef} {e : Bytes × Bytes}
    (member : e ∈ scan db.engine ((buildIndexScan S filters store idx).range store)) :
    ∃ doc, storedDoc S db store e.2 = some doc := by
  obtain ⟨inside, found⟩ := List.mem_filter.mp member
  have within : storeEntries store <+: e.1 :=
    List.IsPrefix.trans ⟨utf8 idx.name, by simp [storeEntries, indexName]⟩ (plan_within found)
  have entry := (indexed.entries e.1 e.2).mp ⟨(get?_eq_some_iff _ _ _).mpr inside, within⟩
  obtain ⟨doc, stored, _⟩ := (mem_entryKeys S d store e.2 _ _).mp entry
  exact ⟨doc, stored⟩

theorem collect_index (indexed : Indexed S db store d) {idx : IndexDef} (chosen : Chosen filters d.indexes idx) :
    { QueryBuilder.new store with filters := filters }.collect S db =
      .ok (((scan db.engine ((buildIndexScan S filters store idx).range store)).map fun e => docOf S db store e.2).filter
        fun doc => Satisfies S filters doc) := by
  have plan : planScan S filters store d = (buildIndexScan S filters store idx, some idx) := by
    rw [planScan, foldl_some_iff.mpr ⟨chosen, rfl⟩]
  have read := indexLoop_all [] fun e (member : e ∈ scan db.engine ((buildIndexScan S filters store idx).range store)) =>
    scanned_stored indexed member
  simp only [QueryBuilder.collect, QueryBuilder.new, QueryBuilder.needsSort, getStore, indexed.defined, plan, Option.map_none,
    bind, Except.bind, Bool.false_eq_true, ↓reduceIte, foldl_filters, List.drop_zero]
  have indexScan : ∃ pfx low high, buildIndexScan S filters store idx = .index pfx low high := ⟨_, _, _, rfl⟩
  obtain ⟨pfx, low, high, scanned⟩ := indexScan
  rw [scanned] at read ⊢
  dsimp only
  rw [read]
  rfl

/-- A scan of the chosen index returns each document as often as entries of it are met. -/
theorem collected_perm (indexed : Indexed S db store d) (idx : IndexDef) :
    (((scan db.engine ((buildIndexScan S filters store idx).range store)).map fun e => docOf S db store e.2).filter
        fun doc => Satisfies S filters doc).Perm
      (repeated (docOf S db store)
        (fun key => (d.indexes.filter (Found S ((buildIndexScan S filters store idx).range store) store key
          (docOf S db store key))).length)
        ((storedKeys db store).filter fun key => Satisfies S filters (docOf S db store key))) := by
  rw [← filter_repeated (docOf S db store) fun doc => decide (Satisfies S filters doc)]
  refine List.Perm.filter _ ?_
  have groups := perm_groups Prod.snd (storedKeys db store) storedKeys_nodup
    (scan db.engine ((buildIndexScan S filters store idx).range store))
    fun e member => (mem_storedKeys indexed e.2).mpr (scanned_stored indexed member)
  refine (groups.map fun e => docOf S db store e.2).trans (.of_eq ?_)
  rw [List.map_flatMap, repeated]
  refine List.flatMap_congr fun key member => ?_
  obtain ⟨doc, stored⟩ := (mem_storedKeys indexed key).mp member
  have within : ∀ k, ((buildIndexScan S filters store idx).range store).toQueryParams.1.matchesKey k = true →
      storeEntries store <+: k := fun k found =>
    List.IsPrefix.trans ⟨utf8 idx.name, by simp [storeEntries, indexName]⟩ (plan_within found)
  have size := (group_perm indexed within stored).length_eq
  rw [List.length_map] at size
  have same : docOf S db store key = doc := by rw [docOf, stored, Option.getD_some]
  rw [same, ← size, List.eq_replicate_iff]
  refine ⟨List.length_map _, fun value inside => ?_⟩
  obtain ⟨e, here, rfl⟩ := List.mem_map.mp inside
  rw [of_decide_eq_true (List.mem_filter.mp here).2, same]

-- Every satisfying document is met once: the lengths tell where an entry can only be
-- missing, the counts where all copies of a document are met equally often.
theorem once_iff (indexed : Indexed S db store d) {idx : IndexDef} (chosen : Chosen filters d.indexes idx)
    (keys : List Bytes) :
    (repeated (docOf S db store)
      (fun key => (d.indexes.filter (Found S ((buildIndexScan S filters store idx).range store) store key
        (docOf S db store key))).length) keys).Perm (keys.map (docOf S db store)) ↔
      ∀ key ∈ keys, (d.indexes.filter (Found S ((buildIndexScan S filters store idx).range store) store key
        (docOf S db store key))).length = 1 := by
  rcases chosen_leading chosen with opens | ⟨field, values, named⟩
  · refine repeated_perm_iff_of_few _ fun key _ => ?_
    rw [filter_own indexed opens chosen.mem]
    split_ifs <;> simp
  · refine repeated_perm_iff_of_value _ (fun doc => (d.indexes.filter fun i =>
      (utf8 idx.name).isPrefixOf (utf8 i.name) && (collectFields doc i.keyPaths).isSome).length) fun key _ => ?_
    rw [List.filter_congr fun i _ => found_named indexed chosen.mem (by rw [named]) (by simp [named])]

/-- The exact condition under which the indexes of a store do not show in what a query returns. -/
theorem query_ignores_indexes_iff (indexed : Indexed S db store d) : Exact S db store filters ↔
    ∀ idx, Chosen filters d.indexes idx → ∀ key doc, storedDoc S db store key = some doc →
      Satisfies S filters doc → SeenOnce S filters d idx key doc := by
  cases planned : d.indexes.foldl (better filters) none with
  | none =>
    refine iff_of_true ⟨_, collect_full indexed planned, List.Perm.refl _⟩ fun idx chosen => ?_
    rw [foldl_some_iff.mpr ⟨chosen, rfl⟩] at planned
    cases planned
  | some best =>
    obtain ⟨score, idx⟩ := best
    obtain ⟨chosen, _⟩ := foldl_some_iff.mp planned
    have collected := @collected_perm S db store d filters indexed idx
    have matching : ((storedDocs S db store).filter fun doc => Satisfies S filters doc) =
        ((storedKeys db store).filter fun key => Satisfies S filters (docOf S db store key)).map (docOf S db store) := by
      rw [storedDocs_eq indexed, List.filter_map]
      rfl
    have returned : Exact S db store filters ↔ ∀ key ∈ (storedKeys db store).filter fun key =>
        Satisfies S filters (docOf S db store key),
        (d.indexes.filter (Found S ((buildIndexScan S filters store idx).range store) store key
          (docOf S db store key))).length = 1 := by
      rw [← once_iff indexed chosen, Exact, collect_index indexed chosen, matching]
      constructor
      · rintro ⟨out, done, perm⟩
        obtain rfl := Except.ok.inj done
        exact collected.symm.trans perm
      · exact fun perm => ⟨_, rfl, collected.trans perm⟩
    rw [returned]
    constructor
    · intro once other alsoChosen key doc stored satisfied
      obtain rfl : idx = other := Option.some.inj (chosen.1.symm.trans alsoChosen.1)
      have same : docOf S db store key = doc := by rw [docOf, stored, Option.getD_some]
      have here := once key (List.mem_filter.mpr ⟨(mem_storedKeys indexed key).mpr ⟨doc, stored⟩,
        decide_eq_true (same.symm ▸ satisfied)⟩)
      rw [same] at here
      exact (found_once_iff indexed chosen satisfied).mp here
    · intro seen key member
      obtain ⟨inside, satisfied⟩ := List.mem_filter.mp member
      obtain ⟨doc, stored⟩ := (mem_storedKeys indexed key).mp inside
      have same : docOf S db store key = doc := by rw [docOf, stored, Option.getD_some]
      rw [same, decide_eq_true_eq] at satisfied
      rw [same]
      exact (found_once_iff indexed chosen satisfied).mpr (seen idx chosen key doc stored satisfied)

end

def twoIndexes : StoreDef :=
  ⟨"users", "id", false, [⟨["email"], "by", false, false⟩, ⟨["email"], "by_email", false, false⟩], 0⟩

def queriedDb : JsonDB := (put sampleSerde ⟨∅, (∅ : OMap String StoreDef).insert "users" twoIndexes⟩ "users" sampleDoc).2

theorem queriedDb_indexed : Indexed sampleSerde queriedDb "users" twoIndexes := by
  have fresh : Fresh ⟨∅, (∅ : OMap String StoreDef).insert "users" twoIndexes⟩ :=
    single_fresh rfl (by decide) (by decide) (by decide)
  obtain ⟨mirrored, unique⟩ := fresh_keeps (S := sampleSerde) fresh
  have kept : Mirrored sampleSerde queriedDb := by
    refine (outcome_keeps mirrored unique (put_outcome _ "users" sampleDoc (by decide) fun d defined null => ?_)).1
    obtain rfl : twoIndexes = d := Option.some.inj defined
    cases null
  exact indexed_of_mirrored kept rfl (by decide) (by decide)

theorem query_ignores_indexes_iff_eq : Exact sampleSerde queriedDb "users" [.eq "email" (.string "a")] := by
  refine (query_ignores_indexes_iff queriedDb_indexed).mpr fun idx chosen key doc stored satisfied => ?_
  obtain rfl : ⟨["email"], "by", false, false⟩ = idx := Option.some.inj ((by decide : _ = some _).symm.trans chosen.1)
  have member : key ∈ storedKeys queriedDb "users" := (mem_storedKeys queriedDb_indexed key).mpr ⟨doc, stored⟩
  obtain rfl : key = utf8 "u1" := List.mem_singleton.mp ((by decide : storedKeys queriedDb "users" = [utf8 "u1"]) ▸ member)
  obtain rfl : sampleDoc = doc := Option.some.inj ((rfl : _ = some sampleDoc).symm.trans stored)
  exact ⟨[.string "a"], rfl, by decide⟩

/-- A document that two indexes hold comes twice where the name of one begins the
name of the other and an `In` filter picks the shorter. -/
theorem in_query_doubles : Indexed sampleSerde queriedDb "users" twoIndexes ∧
    ¬Exact sampleSerde queriedDb "users" [.isIn "email" [.string "a"]] := by
  refine ⟨queriedDb_indexed, fun ⟨out, collected, perm⟩ => ?_⟩
  have doubled : { QueryBuilder.new "users" with filters := [.isIn "email" [.string "a"]] }.collect sampleSerde queriedDb =
      .ok [sampleDoc, sampleDoc] := rfl
  obtain rfl := Except.ok.inj (doubled.symm.trans collected)
  exact absurd perm.length_eq (by decide)

end FlowDb.QueryResults
