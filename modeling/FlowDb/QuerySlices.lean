import FlowDb.QueryResults
import FlowDb.StableSlices

/-! Limit and offset against the slice of the whole result. A scan that a limit ends early reads
limit + offset documents, whether or not they pass the filters and before they are sorted. -/
namespace FlowDb.QuerySlices
open ByteString OrderedMap Records JsonValue JsonEncoding JsonDb JsonTransaction JsonIndexes JsonSessions JsonQuery QueryResults
open StableSlices

def unsliced (q : QueryBuilder) : QueryBuilder := { q with limit := none, offset := 0 }

def sliced (q : QueryBuilder) (m n : Nat) : QueryBuilder := { q with limit := some n, offset := m }

section
variable (S : Serde) (q : QueryBuilder) (db : JsonDB) (d : StoreDef)

/-- Offset `m` and limit `n` slice the result, and their sum, where the store is there to compute it, is a `usize`. -/
def Sliced (m n : Nat) : Prop :=
  (∀ d, db.schema.get? q.store = some d → n + m < 2 ^ 64) ∧
    (sliced q m n).collect S db = ((unsliced q).collect S db).map fun docs => (docs.drop m).take n

/-- The documents that the planned range leads to, in the order of the scan. -/
def scannedDocs : List Value :=
  match (planScan S q.filters q.store d).1 with
  | .index pfx low high => (scan db.engine ((ScanPlan.index pfx low high).range q.store)).filterMap fun e => storedDoc S db q.store e.2
  | .fullScan => (scan db.engine (ScanPlan.fullScan.range q.store)).filterMap fun e => (decodeDoc S e.2).toOption

/-- A limit ends the scan: a full scan always, an index scan if no sort follows. -/
def endsEarly : Bool :=
  match planScan S q.filters q.store d with
  | (.fullScan, _) => true
  | (.index _ _ _, used) => !q.needsSort used

/-- The order that `collect` sorts by; where it does not sort, all documents are equal. -/
def comparison : Value → Value → Bool :=
  match q.orderField with
  | some field =>
    if q.needsSort (planScan S q.filters q.store d).2 then fun a b =>
      match q.orderDir with
      | .asc => decide (sortKey S field a ≤ sortKey S field b)
      | .desc => decide (sortKey S field b ≤ sortKey S field a)
    else fun _ _ => true
  | none => fun _ _ => true

def matching (docs : List Value) : List Value := docs.filter fun doc => Satisfies S q.filters doc

/-- The matching documents among the first `n + m` of the scan, and those behind. -/
def seen (m n : Nat) : List Value := matching S q ((scannedDocs S q db d).take (n + m))

def missed (m n : Nat) : List Value := matching S q ((scannedDocs S q db d).drop (n + m))

/-- The sum of limit and offset is a `usize`, and a scan that the limit ends misses no document that would show:
nothing is taken, no matching document is missed, none lies behind the offset, or the documents read all match
and those missed sort behind them. -/
def SliceKept (m n : Nat) : Prop :=
  ∀ d, db.schema.get? q.store = some d → n + m < 2 ^ 64 ∧ (endsEarly S q d = true →
    n = 0 ∨ missed S q db d m n = [] ∨ (seen S q db d m n ++ missed S q db d m n).length ≤ m ∨
      (seen S q db d m n).length = n + m ∧ Undisturbed (comparison S q d) m n (seen S q db d m n) (missed S q db d m n))

end

section
variable {S : Serde} {q : QueryBuilder} {db : JsonDB} {d : StoreDef}

/-! ### The loops -/

def upTo (target : Option Nat) (docs : List Value) : List Value :=
  match target with
  | some t => docs.take t
  | none => docs

/-- A loop over entries that stops when it has found enough. -/
theorem loop_found {loop : List (Bytes × Bytes) → List Value → Except FlowError (List Value)} {target : Option Nat}
    {found : Bytes × Bytes → Option Value} {entries : List (Bytes × Bytes)} (done : ∀ results, loop [] results = .ok results)
    (step : ∀ e ∈ entries, ∀ rest results, loop (e :: rest) results =
      if reached target (results ++ (found e).toList) then .ok (results ++ (found e).toList) else loop rest (results ++ (found e).toList))
    (results : List Value) : ∃ out, loop entries results = .ok out ∧ ((∀ t, target = some t → results.length < t) →
      out = upTo target (results ++ entries.filterMap found)) := by
  induction entries generalizing results with
  | nil =>
    refine ⟨results, done results, fun short => ?_⟩
    cases target with
    | none => simp [upTo]
    | some t => simp [upTo, List.take_of_length_le (short t rfl).le]
  | cons e rest ih =>
    have cons : results ++ (e :: rest).filterMap found = (results ++ (found e).toList) ++ rest.filterMap found := by
      cases here : found e <;> simp [here]
    rw [step e List.mem_cons_self]
    split_ifs with enough
    · refine ⟨_, rfl, fun short => ?_⟩
      cases target with
      | none => cases enough
      | some t =>
        have least : t ≤ (results ++ (found e).toList).length := by simpa [reached] using enough
        have most : (results ++ (found e).toList).length ≤ t := by
          have below := short t rfl
          have one : (found e).toList.length ≤ 1 := by cases found e <;> simp
          rw [List.length_append]
          omega
        rw [cons, upTo, List.take_append_of_le_length least, List.take_of_length_le most]
    · obtain ⟨out, ran, reads⟩ := ih (fun x member => step x (List.mem_cons_of_mem e member)) (results ++ (found e).toList)
      refine ⟨out, ran, fun _ => ?_⟩
      rw [cons]
      refine reads fun t same => ?_
      subst same
      simpa [reached] using enough

theorem decodes (mirrored : Mirrored S db) {store : String} {key bytes : Bytes} (present : getBytes db (docKey store key) = some bytes) :
    ∃ doc, decodeDoc S bytes = .ok doc := by
  obtain ⟨_, _, _, doc, _, _, _, decoded⟩ := mirrored.docs _ _ present rfl
  exact ⟨doc, decoded⟩

theorem indexLoop_found (mirrored : Mirrored S db) (store : String) (target : Option Nat) (entries : List (Bytes × Bytes)) :
    ∃ out, indexLoop S db store target entries [] = .ok out ∧ ((∀ t, target = some t → 0 < t) →
      out = upTo target (entries.filterMap fun e => storedDoc S db store e.2)) := by
  refine loop_found (fun _ => rfl) (fun e _ rest results => ?_) []
  rw [indexLoop]
  cases present : getBytes db (docKey store e.2) with
  | none => simp [storedDoc, present, ok_bind]
  | some bytes =>
    obtain ⟨doc, decoded⟩ := decodes mirrored present
    simp [storedDoc, present, decoded, Except.toOption, ok_bind]

theorem fullLoop_found (mirrored : Mirrored S db) (store : String) (target : Option Nat) :
    ∃ out, fullLoop S target (scan db.engine (ScanPlan.fullScan.range store)) [] = .ok out ∧ ((∀ t, target = some t → 0 < t) →
      out = upTo target ((scan db.engine (ScanPlan.fullScan.range store)).filterMap fun e => (decodeDoc S e.2).toOption)) := by
  refine loop_found (fun _ => rfl) (fun e member rest results => ?_) []
  obtain ⟨doc, decoded⟩ := decodes mirrored (scanned_doc member).1
  rw [fullLoop, decoded, ok_bind]
  rfl

theorem mergeSort_comparison (docs : List Value) : docs.mergeSort (comparison S q d) = match q.orderField with
    | some field => if q.needsSort (planScan S q.filters q.store d).2 then sortDocs S field q.orderDir docs else docs
    | none => docs := by
  have unsorted : docs.mergeSort (fun _ _ => true) = docs :=
    List.mergeSort_of_pairwise (List.pairwise_of_forall fun _ _ => rfl)
  unfold comparison
  cases q.orderField with
  | none => exact unsorted
  | some field =>
    dsimp only
    split_ifs
    · rfl
    · exact unsorted

/-- What a query makes of the documents it has read. -/
def finish (S : Serde) (q : QueryBuilder) (d : StoreDef) (docs : List Value) : List Value :=
  upTo q.limit (((matching S q docs).mergeSort (comparison S q d)).drop q.offset)

theorem finish_eq {plan : ScanPlan} {used : Option IndexDef} (planned : planScan S q.filters q.store d = (plan, used)) (docs : List Value) :
    finish S q d docs =
      upTo q.limit ((match q.orderField with
        | some field =>
          if q.needsSort used then
            sortDocs S field q.orderDir (q.filters.foldl (fun docs f => docs.filter fun doc => filterMatches S doc f) docs)
          else q.filters.foldl (fun docs f => docs.filter fun doc => filterMatches S doc f) docs
        | none => q.filters.foldl (fun docs f => docs.filter fun doc => filterMatches S doc f) docs).drop q.offset) := by
  rw [finish, mergeSort_comparison, planned, foldl_filters]
  rfl

/-- A query reads what the scan leads to, as far as a limit lets it, and slices what it sorts of that. -/
theorem collect_reads (mirrored : Mirrored S db) (defined : db.schema.get? q.store = some d) :
    ∃ docs, q.collect S db = .ok (finish S q d docs) ∧ ((∀ l, q.limit = some l → 0 < (l + q.offset) % 2 ^ 64) → docs =
      upTo (if endsEarly S q d then q.limit.map fun l => (l + q.offset) % 2 ^ 64 else none) (scannedDocs S q db d)) := by
  have positive : (∀ l, q.limit = some l → 0 < (l + q.offset) % 2 ^ 64) →
      ∀ t, (q.limit.map fun l => (l + q.offset) % 2 ^ 64) = some t → 0 < t := by
    rintro each t same
    obtain ⟨l, limited, rfl⟩ := Option.map_eq_some_iff.mp same
    exact each l limited
  unfold QueryBuilder.collect
  rw [getStore, defined, ok_bind]
  cases planned : planScan S q.filters q.store d with
  | mk plan used =>
    cases plan with
    | fullScan =>
      obtain ⟨docs, ran, reads⟩ := @fullLoop_found S db mirrored q.store (q.limit.map fun l => (l + q.offset) % 2 ^ 64)
      have ends : endsEarly S q d = true := by rw [endsEarly, planned]
      refine ⟨docs, ?_, fun each => ?_⟩
      · dsimp only
        rw [ran, ok_bind, finish_eq planned]
        rfl
      · rw [if_pos ends, scannedDocs, planned]
        exact reads (positive each)
    | index pfx low high =>
      obtain ⟨docs, ran, reads⟩ := indexLoop_found mirrored q.store
        (if q.needsSort used then none else q.limit.map fun l => (l + q.offset) % 2 ^ 64)
        (scan db.engine ((ScanPlan.index pfx low high).range q.store))
      refine ⟨docs, ?_, fun each => ?_⟩
      · dsimp only
        rw [ran, ok_bind, finish_eq planned]
        rfl
      · have ends : endsEarly S q d = !q.needsSort used := by rw [endsEarly, planned]
        rw [scannedDocs, planned]
        cases sorts : q.needsSort used with
        | false =>
          rw [sorts] at reads ends
          rw [if_pos (show endsEarly S q d = true from ends)]
          exact reads (positive each)
        | true =>
          rw [sorts] at reads ends
          rw [if_neg (ne_true_of_eq_false (show endsEarly S q d = false from ends))]
          refine reads fun t limited => ?_
          cases limited

/-! ### The slice -/

theorem comparison_preordered (q : QueryBuilder) (d : StoreDef) : Preordered (comparison S q d) := by
  unfold comparison
  cases q.orderField with
  | none => exact ⟨fun _ _ _ _ _ => rfl, fun _ _ => rfl⟩
  | some field =>
    dsimp only
    split_ifs
    · cases q.orderDir with
      | asc =>
        refine ⟨fun a b c first second => ?_, fun a b => ?_⟩
        · exact decide_eq_true ((of_decide_eq_true first).trans (of_decide_eq_true second))
        · simpa only [Bool.or_eq_true, decide_eq_true_eq] using le_total (sortKey S field a) (sortKey S field b)
      | desc =>
        refine ⟨fun a b c first second => ?_, fun a b => ?_⟩
        · exact decide_eq_true ((of_decide_eq_true second).trans (of_decide_eq_true first))
        · simpa only [Bool.or_eq_true, decide_eq_true_eq] using le_total (sortKey S field b) (sortKey S field a)
    · exact ⟨fun _ _ _ _ _ => rfl, fun _ _ => rfl⟩

theorem collect_absent (absent : db.schema.get? q.store = none) :
    q.collect S db = .error (.jsonDb s!"store '{q.store}' not found") := by
  unfold QueryBuilder.collect
  rw [getStore, absent]
  rfl

theorem seen_append_missed (m n : Nat) : seen S q db d m n ++ missed S q db d m n = matching S q (scannedDocs S q db d) := by
  unfold seen missed matching
  rw [← List.filter_append, List.take_append_drop]

theorem seen_few (m n : Nat) : (seen S q db d m n).length ≤ n + m :=
  (List.length_filter_le _ _).trans (List.length_take_le _ _)

/-- Where the sum does not overflow, a scan that is not ended early reads all, and one that is reads a front part. -/
theorem sliced_iff (mirrored : Mirrored S db) (defined : db.schema.get? q.store = some d) {m n : Nat} (small : n + m < 2 ^ 64) :
    Sliced S q db m n ↔ (endsEarly S q d = true → n = 0 ∨ missed S q db d m n = [] ∨
      (seen S q db d m n ++ missed S q db d m n).length ≤ m ∨ (seen S q db d m n).length = n + m ∧
        Undisturbed (comparison S q d) m n (seen S q db d m n) (missed S q db d m n)) := by
  obtain ⟨docs, taken, reads⟩ := @collect_reads S (sliced q m n) db d mirrored defined
  obtain ⟨all, whole, reads'⟩ := @collect_reads S (unsliced q) db d mirrored defined
  have taken : (sliced q m n).collect S db = .ok ((((matching S q docs).mergeSort (comparison S q d)).drop m).take n) := taken
  have whole : (unsliced q).collect S db = .ok ((matching S q all).mergeSort (comparison S q d)) := whole
  obtain rfl : all = scannedDocs S q db d := by
    refine (reads' nofun).trans ?_
    split_ifs <;> rfl
  have same : Sliced S q db m n ↔ (((matching S q docs).mergeSort (comparison S q d)).drop m).take n =
      (((matching S q (scannedDocs S q db d)).mergeSort (comparison S q d)).drop m).take n := by
    rw [Sliced, taken, whole, map_ok, Except.ok.injEq, and_iff_right fun _ _ => small]
  rw [same]
  -- A target of zero still reads a document, but nothing is taken then.
  by_cases none_taken : n = 0
  · simp [none_taken]
  have read : docs = upTo (if endsEarly S q d then some (n + m) else none) (scannedDocs S q db d) := by
    have sum : (n + m) % 2 ^ 64 = n + m := Nat.mod_eq_of_lt small
    refine (reads fun l limited => ?_).trans ?_
    · obtain rfl := Option.some.inj limited
      change 0 < (n + m) % 2 ^ 64
      omega
    · change upTo (if endsEarly S q d then some ((n + m) % 2 ^ 64) else none) _ = _
      rw [sum]
      rfl
  cases ends : endsEarly S q d with
  | true =>
    rw [ends, if_pos rfl] at read
    obtain rfl : docs = (scannedDocs S q db d).take (n + m) := read
    rw [← seen_append_missed m n, forall_prop_of_true rfl]
    exact slice_iff (comparison_preordered q d) (seen_few m n)
  | false =>
    rw [ends, if_neg Bool.false_ne_true] at read
    exact iff_of_true (by rw [read]; rfl) nofun

/-- The exact condition under which limit and offset only slice the result. -/
theorem limit_offset_slice_iff (S : Serde) (q : QueryBuilder) {db : JsonDB} (mirrored : Mirrored S db) (m n : Nat) :
    Sliced S q db m n ↔ SliceKept S q db m n := by
  cases defined : db.schema.get? q.store with
  | none =>
    -- Both queries fail before the sum is computed.
    have undefined : ∀ d, db.schema.get? q.store ≠ some d := fun d there => nomatch defined.symm.trans there
    refine iff_of_true ⟨fun d there => absurd there (undefined d), ?_⟩ fun d there => absurd there (undefined d)
    rw [collect_absent (show db.schema.get? (sliced q m n).store = none from defined),
      collect_absent (show db.schema.get? (unsliced q).store = none from defined)]
    rfl
  | some d =>
    have only : ∀ d', db.schema.get? q.store = some d' → d' = d := fun d' there => Option.some.inj (there.symm.trans defined)
    by_cases small : n + m < 2 ^ 64
    · rw [sliced_iff mirrored defined small]
      constructor
      · intro kept d' there
        obtain rfl := only d' there
        exact ⟨small, kept⟩
      · exact fun kept => (kept d defined).2
    · exact iff_of_false (fun slices => small (slices.1 d defined)) fun kept => small (kept d defined).1

end

/-! Two documents and no index: every query is a full scan. -/

def noIndexes : StoreDef := ⟨"users", "id", false, [], 0⟩

def emptyUsers : JsonDB := ⟨∅, (∅ : OMap String StoreDef).insert "users" noIndexes⟩

def bothUsers : JsonDB := (put sampleSerde (put sampleSerde emptyUsers "users" sampleDoc).2 "users" clashDoc).2

theorem bothUsers_mirrored : Mirrored sampleSerde bothUsers := by
  have fresh : Fresh emptyUsers := single_fresh rfl (by decide) (by decide) (by decide)
  have keyed : ∀ {db : JsonDB} {doc : Value}, db.schema = emptyUsers.schema → extractField doc "id" ≠ some .null →
      KeyNotNull db "users" doc := by
    intro db doc schema notNull d defined
    obtain rfl : noIndexes = d := Option.some.inj ((congrArg (fun s => s.get? "users") schema).symm.trans defined)
    exact notNull
  obtain ⟨mirrored, unique⟩ := fresh_keeps (S := sampleSerde) fresh
  obtain ⟨mirrored, unique⟩ := outcome_keeps mirrored unique
    (put_outcome emptyUsers "users" sampleDoc (by decide) (keyed rfl nofun))
  exact (outcome_keeps mirrored unique (put_outcome _ "users" clashDoc (by decide) (keyed rfl nofun))).1

theorem limit_offset_slice_iff_second : Sliced sampleSerde (QueryBuilder.new "users") bothUsers 1 1 := by
  refine (limit_offset_slice_iff sampleSerde _ bothUsers_mirrored 1 1).mpr fun d defined => ⟨by decide, fun _ => .inr (.inl ?_)⟩
  obtain rfl : noIndexes = d := Option.some.inj defined
  rfl

/-- The first document is read, and does not match; the second one matches, and is not read. -/
theorem limit_before_filter : Mirrored sampleSerde bothUsers ∧
    ¬Sliced sampleSerde ((QueryBuilder.new "users").whereEq "id" (.string "u2")) bothUsers 0 1 := by
  refine ⟨bothUsers_mirrored, fun slices => ?_⟩
  have taken : (sliced ((QueryBuilder.new "users").whereEq "id" (.string "u2")) 0 1).collect sampleSerde bothUsers =
      .ok [] := rfl
  have whole : (unsliced ((QueryBuilder.new "users").whereEq "id" (.string "u2"))).collect sampleSerde bothUsers =
      .ok [clashDoc] := rfl
  have same := slices.2
  rw [taken, whole] at same
  cases same

end FlowDb.QuerySlices
