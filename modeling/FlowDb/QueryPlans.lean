import Mathlib.Data.List.MinMax
import FlowDb.JsonQuery
import FlowDb.KeySpace

/-! What the planner picks and which bytes it scans. The leading key paths whose
first filter is an equality lay their values into the key; the filter they stop at
either bounds the range, or leaves a prefix that has lost its last separator. -/
namespace FlowDb.QueryPlans
open ByteString OrderedMap Records JsonValue JsonEncoding JsonDb JsonQuery KeySpace PrefixOrder

section
variable (filters : List QueryFilter)

def score (idx : IndexDef) : Nat := scoreIndex filters idx.keyPaths

/-- The index a query uses: the first with the highest score, if any key path
carries a filter. -/
def Chosen (indexes : List IndexDef) (idx : IndexDef) : Prop :=
  indexes.argmax (score filters) = some idx ∧ 0 < score filters idx

instance (indexes : List IndexDef) (idx : IndexDef) : Decidable (Chosen filters indexes idx) :=
  inferInstanceAs (Decidable (_ ∧ _))

variable {filters}

theorem Chosen.mem {indexes : List IndexDef} {idx : IndexDef} (chosen : Chosen filters indexes idx) : idx ∈ indexes :=
  List.argmax_mem chosen.1

-- The induction takes the last index off, as the fold does.
theorem better_foldl (indexes : List IndexDef) : indexes.foldl (better filters) none =
    ((indexes.argmax (score filters)).filter fun idx => 0 < score filters idx).map fun idx => (score filters idx, idx) := by
  induction indexes using List.reverseRecOn with
  | nil => rfl
  | append_singleton before idx ih =>
    rw [List.foldl_append, List.foldl_cons, List.foldl_nil, ih, List.argmax_concat]
    have unfolded : ∀ best, better filters best idx =
        if score filters idx > (best.map Prod.fst).getD 0 then some (score filters idx, idx) else best := fun _ => rfl
    rw [unfolded]
    cases List.argmax (score filters) before with
    | none =>
      by_cases scores : 0 < score filters idx <;> simp [Option.filter, scores]
    | some best =>
      by_cases positive : 0 < score filters best
      · by_cases more : score filters best < score filters idx
        · have scores : 0 < score filters idx := positive.trans more
          simp [Option.filter, positive, more, scores]
        · simp [Option.filter, positive, more]
      · by_cases more : 0 < score filters idx
        · have above : score filters best < score filters idx := by omega
          simp [Option.filter, positive, more, above]
        · have above : ¬score filters best < score filters idx := by omega
          simp [Option.filter, positive, more, above]

theorem foldl_some_iff {indexes : List IndexDef} {idx : IndexDef} {n : Nat} :
    indexes.foldl (better filters) none = some (n, idx) ↔ Chosen filters indexes idx ∧ score filters idx = n := by
  rw [better_foldl]
  simp only [Option.map_eq_some_iff, Option.filter_eq_some_iff, decide_eq_true_eq, Prod.mk.injEq, Chosen]
  constructor
  · rintro ⟨_, picked, rfl, rfl⟩
    exact ⟨picked, rfl⟩
  · rintro ⟨picked, rfl⟩
    exact ⟨idx, picked, rfl, rfl⟩

variable (filters)

/-- The equality values of the leading key paths, each path taken by its first
filter, and the filter the first other path carries. -/
def leading : List String → List Value × Option QueryFilter
  | [] => ([], none)
  | path :: rest =>
      match filters.find? fun f => f.field == path with
      | some (.eq _ v) => (v :: (leading rest).1, (leading rest).2)
      | stop => ([], stop)

variable {filters}

theorem leading_eq {path field : String} {v : Value} {rest : List String}
    (first : (filters.find? fun f => f.field == path) = some (.eq field v)) :
    leading filters (path :: rest) = (v :: (leading filters rest).1, (leading filters rest).2) := by
  rw [leading, first]

theorem leading_stop {path : String} {rest : List String}
    (first : ∀ field v, (filters.find? fun f => f.field == path) ≠ some (.eq field v)) :
    leading filters (path :: rest) = ([], filters.find? fun f => f.field == path) := by
  rw [leading]
  split
  · next found => exact absurd found (first _ _)
  · rfl

-- The filter the leading paths stop at is the first on its field, and no equality.
theorem stop_first {paths : List String} {stop : QueryFilter} (stops : (leading filters paths).2 = some stop) :
    (filters.find? fun f => f.field == stop.field) = some stop ∧ ∀ field v, stop ≠ .eq field v := by
  induction paths with
  | nil => cases stops
  | cons path rest ih =>
    by_cases first : ∃ field v, (filters.find? fun f => f.field == path) = some (.eq field v)
    · obtain ⟨field, v, first⟩ := first
      rw [leading_eq first] at stops
      exact ih stops
    · have first : ∀ field v, (filters.find? fun f => f.field == path) ≠ some (.eq field v) :=
        fun field v here => first ⟨field, v, here⟩
      rw [leading_stop first] at stops
      obtain rfl : stop.field = path := by simpa using List.find?_some stops
      exact ⟨stops, fun field v same => first field v (same ▸ stops)⟩

theorem findEq_first {path field : String} {v : Value}
    (first : (filters.find? fun f => f.field == path) = some (.eq field v)) : findEq filters path = some v := by
  induction filters with
  | nil => cases first
  | cons f rest ih =>
    rw [findEq, List.findSome?_cons]
    by_cases here : f.field = path
    · rw [List.find?_cons_of_pos (by simpa using here)] at first
      obtain rfl := Option.some.inj first
      have same : (field == path) = true := by simpa [QueryFilter.field] using here
      simp [same]
    · rw [List.find?_cons_of_neg (by simpa using here)] at first
      cases f with
      | eq other w =>
        have differs : (other == path) = false := by simpa [QueryFilter.field] using here
        simp only [differs, Bool.false_eq_true, ↓reduceIte]
        exact ih first
      | range _ _ _ | isIn _ _ => exact ih first

end

section
variable (S : Serde)

/-- Encoded values, each before a separator. -/
def fieldBytes (values : List Value) : Bytes := values.flatMap fun v => encodeIndexValue S v ++ [sep]

variable {S} {filters : List QueryFilter}

theorem fieldBytes_cons (v : Value) (rest : List Value) :
    fieldBytes S (v :: rest) = encodeIndexValue S v ++ sep :: fieldBytes S rest := by
  simp [fieldBytes]

theorem encodeIndexValue_head (v : Value) : ∃ tag rest, encodeIndexValue S v = tag :: rest ∧ tag ≠ sep := by
  unfold encodeIndexValue
  split
  · exact ⟨_, _, rfl, by decide⟩
  · exact ⟨_, _, rfl, by decide⟩
  · exact ⟨_, _, rfl, by decide⟩
  · split <;> exact ⟨_, _, rfl, by decide⟩
  · exact ⟨_, _, rfl, by decide⟩
  · exact ⟨_, _, rfl, by decide⟩

theorem rangeEndKey_leading {paths : List String} {stop : QueryFilter} (encEnd : Bytes)
    (stops : (leading filters paths).2 = some stop) (endKey : Bytes) :
    rangeEndKey S filters stop.field encEnd paths endKey =
      endKey ++ fieldBytes S (leading filters paths).1 ++ encEnd := by
  induction paths generalizing endKey with
  | nil => cases stops
  | cons path rest ih =>
    by_cases first : ∃ field v, (filters.find? fun f => f.field == path) = some (.eq field v)
    · obtain ⟨field, v, first⟩ := first
      rw [leading_eq first] at stops ⊢
      have other : (path == stop.field) = false := by
        refine beq_eq_false_iff_ne.mpr fun same => ?_
        have again := (stop_first stops).1
        rw [← same, first] at again
        exact (stop_first stops).2 _ _ (Option.some.inj again).symm
      rw [rangeEndKey, other, findEq_first first]
      simp [ih stops, fieldBytes_cons]
    · have first : ∀ field v, (filters.find? fun f => f.field == path) ≠ some (.eq field v) :=
        fun field v here => first ⟨field, v, here⟩
      rw [leading_stop first] at stops ⊢
      have here : stop.field = path := by simpa using List.find?_some stops
      rw [rangeEndKey, here]
      simp [fieldBytes]

/-- Where the scan begins behind the equality values. -/
def startBytes (S : Serde) : Option QueryFilter → Bytes
  | some (.range _ start _) => encodeIndexValue S start
  | _ => []

def stopValue : Option QueryFilter → Option Value
  | some (.range _ _ stop) => some stop
  | _ => none

theorem scanBytes_leading {store : String} {idx : IndexDef} (paths : List String) (built : Bytes) :
    scanBytes S filters store idx paths built =
      (built ++ fieldBytes S (leading filters paths).1 ++ startBytes S (leading filters paths).2,
        match (leading filters paths).2 with
        | some (.range field _ stop) =>
            some (rangeEndKey S filters field (encodeIndexValue S stop) idx.keyPaths (idxPrefix store idx.name))
        | _ => none) := by
  induction paths generalizing built with
  | nil => simp [scanBytes, leading, fieldBytes, startBytes]
  | cons path rest ih =>
    by_cases first : ∃ field v, (filters.find? fun f => f.field == path) = some (.eq field v)
    · obtain ⟨field, v, first⟩ := first
      rw [leading_eq first, scanBytes, first]
      dsimp only
      rw [ih, fieldBytes_cons]
      simp
    · have first : ∀ field v, (filters.find? fun f => f.field == path) ≠ some (.eq field v) :=
        fun field v here => first ⟨field, v, here⟩
      rw [leading_stop first, scanBytes]
      cases found : filters.find? fun f => f.field == path with
      | none => simp [fieldBytes, startBytes]
      | some f =>
        cases f with
        | eq field v => exact absurd found (first field v)
        | range field start stop =>
          obtain rfl : field = path := by simpa [QueryFilter.field] using List.find?_some found
          simp [fieldBytes, startBytes]
        | isIn field values => simp [fieldBytes, startBytes]

theorem popSep_append {front back : Bytes} (filled : back ≠ []) : popSep (front ++ back) = front ++ popSep back := by
  unfold popSep
  rw [List.getLast?_append_of_ne_nil _ filled, List.dropLast_append_of_ne_nil filled]
  split_ifs <;> rfl

@[simp] theorem popSep_sep (front : Bytes) : popSep (front ++ [sep]) = front := by
  simp [popSep]

theorem popSep_begins (bytes : Bytes) : popSep bytes <+: bytes := by
  unfold popSep
  split_ifs
  · exact List.dropLast_prefix bytes
  · exact List.prefix_rfl

/-- Behind which bytes the entries of an index lie that a query may stop at. -/
def indexName (store index : String) : Bytes := idxTag :: (utf8 store ++ sep :: utf8 index)

theorem idxPrefix_eq (store index : String) : idxPrefix store index = indexName store index ++ [sep] := by
  simp [idxPrefix, indexName]

variable (S filters)

/-- The range of an index scan: a range of the index's own entries where a range
filter follows the equalities, else a prefix without its last separator. -/
theorem plan_range (store : String) (idx : IndexDef) : (buildIndexScan S filters store idx).range store =
    match (leading filters idx.keyPaths).2 with
    | some (.range _ start stop) =>
        ⟨.included (idxPrefix store idx.name ++ fieldBytes S (leading filters idx.keyPaths).1 ++
            popSep (encodeIndexValue S start)),
          .excluded (idxPrefix store idx.name ++ fieldBytes S (leading filters idx.keyPaths).1 ++
            encodeIndexValue S stop), .unbounded, .unbounded⟩
    | _ => prefixRange (popSep (idxPrefix store idx.name ++ fieldBytes S (leading filters idx.keyPaths).1)) := by
  have notEmpty : ∀ back, (popSep (idxPrefix store idx.name ++ back)).isEmpty = false := fun back => by
    rw [idxPrefix, List.cons_append, ← List.singleton_append, popSep_append (by simp)]
    rfl
  rw [buildIndexScan, scanBytes_leading]
  cases stops : (leading filters idx.keyPaths).2 with
  | none =>
    dsimp only [startBytes]
    rw [List.append_nil, notEmpty]
    rfl
  | some f =>
    cases f with
    | range field start stop =>
      obtain ⟨tag, rest, encoded, _⟩ := encodeIndexValue_head (S := S) start
      have filled : encodeIndexValue S start ≠ [] := encoded ▸ List.cons_ne_nil tag rest
      have popped := @popSep_append (idxPrefix store idx.name ++ fieldBytes S (leading filters idx.keyPaths).1) _ filled
      have ended := rangeEndKey_leading (S := S) (encodeIndexValue S stop) stops (idxPrefix store idx.name)
      dsimp only [startBytes, QueryFilter.field] at ended ⊢
      rw [List.append_assoc (idxPrefix store idx.name), notEmpty, ended, ← List.append_assoc, popped]
      rfl
    | eq _ _ | isIn _ _ =>
      dsimp only [startBytes]
      rw [List.append_nil, notEmpty]
      rfl

variable {S filters}

theorem fieldBytes_pop {values : List Value} (filled : values ≠ []) :
    popSep (fieldBytes S values) = (fieldBytes S values).dropLast ∧ fieldBytes S values ≠ [] := by
  obtain ⟨before, last, rfl⟩ := List.eq_nil_or_concat values |>.resolve_left filled
  have split : fieldBytes S (before ++ [last]) = (fieldBytes S before ++ encodeIndexValue S last) ++ [sep] := by
    simp [fieldBytes]
  rw [List.concat_eq_append, split, popSep_sep, List.dropLast_concat]
  exact ⟨rfl, by simp⟩

/-- Every scanned key begins with the index's name. -/
theorem plan_within {store : String} {idx : IndexDef} {k : Bytes}
    (found : ((buildIndexScan S filters store idx).range store).toQueryParams.1.matchesKey k = true) :
    indexName store idx.name <+: k := by
  have named : indexName store idx.name <+: idxPrefix store idx.name :=
    idxPrefix_eq store idx.name ▸ List.prefix_append _ _
  rw [plan_range] at found
  split at found
  · have front := named.trans (List.prefix_append _ (fieldBytes S (leading filters idx.keyPaths).1))
    exact matches_begins (front.trans (List.prefix_append _ _)) (front.trans (List.prefix_append _ _)) found
  · rw [prefixRange_matches, idxPrefix_eq, List.append_assoc, popSep_append (by simp)] at found
    exact (List.prefix_append _ _).trans found

/-- The filters reach into the first key path: an equality or a range stands there. -/
def Opens (filters : List QueryFilter) (idx : IndexDef) : Prop :=
  (leading filters idx.keyPaths).1 ≠ [] ∨ ∃ field start stop, (leading filters idx.keyPaths).2 = some (.range field start stop)

-- An `In` filter first: nothing but the index's name is left.
theorem plan_named {store : String} {idx : IndexDef} (empty : (leading filters idx.keyPaths).1 = [])
    (stops : ∀ field start stop, (leading filters idx.keyPaths).2 ≠ some (.range field start stop)) :
    (buildIndexScan S filters store idx).range store = prefixRange (indexName store idx.name) := by
  rw [plan_range]
  split
  · next here => exact absurd here (stops _ _ _)
  · rw [empty, fieldBytes, List.flatMap_nil, List.append_nil, idxPrefix_eq, popSep_sep]

theorem chosen_leading {idx : IndexDef} {indexes : List IndexDef} (chosen : Chosen filters indexes idx) :
    Opens filters idx ∨ ∃ field values, leading filters idx.keyPaths = ([], some (.isIn field values)) := by
  have scores := chosen.2
  rw [score] at scores
  cases paths : idx.keyPaths with
  | nil => rw [paths] at scores; exact absurd scores (by simp [scoreIndex])
  | cons path rest =>
    rw [paths, scoreIndex] at scores
    split_ifs at scores with carries
    · obtain ⟨f, found⟩ := Option.isSome_iff_exists.mp (List.find?_isSome.mpr (List.any_eq_true.mp carries))
      unfold Opens
      rw [paths]
      cases f with
      | eq field v => exact Or.inl (Or.inl (by rw [leading_eq found]; exact List.cons_ne_nil _ _))
      | range field start stop =>
        rw [leading_stop (by simp [found]), found]
        exact Or.inl (Or.inr ⟨field, start, stop, rfl⟩)
      | isIn field values =>
        rw [leading_stop (by simp [found]), found]
        exact Or.inr ⟨field, values, rfl⟩
    · exact absurd scores (lt_irrefl 0)

/-- Then every scanned key is an entry of the index. -/
theorem plan_owned {store : String} {idx : IndexDef} {k : Bytes} (opens : Opens filters idx)
    (found : ((buildIndexScan S filters store idx).range store).toQueryParams.1.matchesKey k = true) :
    idxPrefix store idx.name <+: k := by
  rw [plan_range] at found
  split at found
  · have front := List.prefix_append (idxPrefix store idx.name) (fieldBytes S (leading filters idx.keyPaths).1)
    exact matches_begins (front.trans (List.prefix_append _ _)) (front.trans (List.prefix_append _ _)) found
  · next other =>
    have filled := opens.resolve_right fun ⟨_, _, _, stops⟩ => other _ _ _ stops
    rw [prefixRange_matches, popSep_append (fieldBytes_pop filled).2] at found
    exact (List.prefix_append _ _).trans found

end
end FlowDb.QueryPlans
