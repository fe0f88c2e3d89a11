import FlowDb.IndexOrder
import FlowDb.TransactionLookups
import FlowDb.CommitOrders
import FlowDb.QueryResults

/-! Lookups of one index value. An entry begins with the looked-up tuple exactly if its
own tuple is the same, or if two strings stand in one place of which one runs on behind
a NUL: only strings hold the separator without a length that tells where they end. -/
namespace FlowDb.IndexLookups
open ByteString OrderedMap Records JsonValue JsonEncoding JsonDb JsonQuery JsonIndexes JsonStores IndexOrder
open QueryPlans QueryResults IndexMaintenance

/-! ### Words that end in a mark -/

section
variable {α : Type} {mark : α} {a b x y : List α}

/-- The first marks agree, or one word goes on behind the mark that ends the other. -/
theorem append_mark_begins : a ++ mark :: x <+: b ++ mark :: y ↔ a = b ∧ x <+: y ∨
    (∃ r, b = a ++ mark :: r ∧ x <+: r ++ mark :: y) ∨ ∃ r, a = b ++ mark :: r ∧ r ++ mark :: x <+: y := by
  induction a generalizing b with
  | nil =>
    cases b with
    | nil => simp
    | cons c rest =>
      rw [List.nil_append, List.cons_append, List.cons_prefix_cons]
      constructor
      · rintro ⟨rfl, front⟩
        exact Or.inr (Or.inl ⟨rest, rfl, front⟩)
      · rintro (⟨empty, _⟩ | ⟨r, whole, front⟩ | ⟨r, empty, _⟩)
        · cases empty
        · obtain ⟨rfl, rfl⟩ := List.cons.inj whole
          exact ⟨rfl, front⟩
        · cases empty
  | cons c rest ih =>
    cases b with
    | nil =>
      rw [List.nil_append, List.cons_append, List.cons_prefix_cons]
      constructor
      · rintro ⟨rfl, front⟩
        exact Or.inr (Or.inr ⟨rest, rfl, front⟩)
      · rintro (⟨empty, _⟩ | ⟨r, empty, _⟩ | ⟨r, whole, front⟩)
        · cases empty
        · cases empty
        · obtain ⟨rfl, rfl⟩ := List.cons.inj whole
          exact ⟨rfl, front⟩
    | cons c' rest' =>
      rw [List.cons_append, List.cons_append, List.cons_prefix_cons, ih]
      simp only [List.cons_append, List.cons.injEq]
      grind

theorem append_mark_begins_of_alike (alike : a.length = b.length ∨ mark ∉ a ∧ mark ∉ b) :
    a ++ mark :: x <+: b ++ mark :: y ↔ a = b ∧ x <+: y := by
  rw [append_mark_begins]
  refine or_iff_left ?_
  rintro (⟨r, rfl, _⟩ | ⟨r, rfl, _⟩) <;> simp at alike

end

/-! ### Equality of values -/

theorem finite_not_nan {bits : UInt64} (whole : finite bits = true) : isNan bits = false := by
  have exponent : ((bits >>> 52) &&& 0x7ff).toNat ≠ 2047 := by
    intro same
    refine bne_iff_ne.mp whole (UInt64.toNat_inj.mp ?_)
    exact same
  have low : (bits &&& 0x7fffffffffffffff).toNat = bits.toNat % 2 ^ 63 := by
    rw [UInt64.toNat_and]
    exact Nat.and_two_pow_sub_one_eq_mod _ 63
  have high : ((bits >>> 52) &&& 0x7ff).toNat = bits.toNat / 2 ^ 52 % 2 ^ 11 := by
    rw [UInt64.toNat_and, UInt64.toNat_shiftRight]
    exact (Nat.and_two_pow_sub_one_eq_mod _ 11).trans (by rw [Nat.shiftRight_eq_div_pow]; rfl)
  rw [isNan, decide_eq_false_iff_not, gt_iff_lt, UInt64.lt_iff_toNat_lt, low]
  have top : (0x7ff0000000000000 : UInt64).toNat = 2047 * 2 ^ 52 := rfl
  omega

theorem numberEq_refl {n : Number} (whole : (Value.number n).wellFormed = true) : numberEq n n = true := by
  cases n with
  | float bits => simp [numberEq, floatEq, finite_not_nan whole]
  | _ => simp [numberEq]

mutual
theorem valueEq_refl : ∀ v : Value, v.wellFormed = true → valueEq v v = true
  | .null, _ => rfl
  | .bool _, _ | .string _, _ => by simp [valueEq]
  | .number _, whole => numberEq_refl whole
  | .array items, whole => itemsEq_refl items whole
  | .object members, whole => membersEq_refl members (Bool.and_eq_true_iff.mp whole).2

theorem itemsEq_refl : ∀ items : List Value, itemsWellFormed items = true → itemsEq items items = true
  | [], _ => rfl
  | v :: rest, whole => by
      obtain ⟨first, later⟩ := Bool.and_eq_true_iff.mp whole
      rw [itemsEq, valueEq_refl v first, itemsEq_refl rest later]
      rfl

theorem membersEq_refl : ∀ members : List (String × Value), membersWellFormed members = true → membersEq members members = true
  | [], _ => rfl
  | (name, v) :: rest, whole => by
      obtain ⟨first, later⟩ := Bool.and_eq_true_iff.mp whole
      rw [membersEq, valueEq_refl v first, membersEq_refl rest later]
      simp
end

/-! ### Values from their encodings -/

section
variable (S : Serde)

/-- A value as the library builds it, which it can also write. -/
def Library (v : Value) : Prop := v.wellFormed = true ∧ (isScalar v = true ∨ (S.toVec v).isSome = true)

variable {S}

theorem negInt_below {n : Int64} (whole : (Value.number (.negInt n)).wellFormed = true) (m : UInt64) :
    integer (.negInt n) < integer (.posInt m) := by
  have negative : n < 0 := of_decide_eq_true whole
  have below := Int64.lt_iff_toInt_lt.mp negative
  simp only [integer]
  have zero : (0 : Int64).toInt = 0 := rfl
  omega

theorem number_inj {m n : Number} (whole : (Value.number m).wellFormed = true) (whole' : (Value.number n).wellFormed = true)
    (same : encodeIndexValue S (.number m) = encodeIndexValue S (.number n)) : m = n := by
  rw [encode_number, encode_number] at same
  obtain ⟨tags, payloads⟩ := List.cons.inj same
  have alike : representation m = representation n := by
    have values := congrArg UInt8.toNat tags
    rw [toNat_numberTag, toNat_numberTag] at values
    omega
  have words : payload m = payload n := (toBe_inj (payload_lt m) (payload_lt n)).mp payloads
  by_cases float : representation m = 1
  · obtain ⟨a, rfl⟩ := float_of_representation float
    obtain ⟨b, rfl⟩ := float_of_representation (alike ▸ float)
    rw [Binary64.sortKey_inj words]
  · have integers : integer m = integer n := by
      have left := payload_integer float
      have right := payload_integer (n := n) (alike ▸ float)
      rw [show offset m = offset n by rw [offset, offset, alike]] at left
      omega
    cases m with
    | float a => exact (float rfl).elim
    | posInt a => cases n with
      | float b => exact (float alike).elim
      | posInt b => rw [UInt64.toNat_inj.mp (Int.ofNat_inj.mp integers)]
      | negInt b => exact absurd integers (ne_of_gt (negInt_below whole' a))
    | negInt a => cases n with
      | float b => exact (float alike).elim
      | posInt b => exact absurd integers (ne_of_lt (negInt_below whole b))
      | negInt b => rw [Int64.toInt_inj.mp integers]

theorem other_free (v : Value) : sep ∉ 0x08 :: (S.toVec v).getD [] := by
  intro zero
  rcases List.mem_cons.mp zero with tag | inside
  · exact absurd tag (by decide)
  · cases text : S.toVec v with
    | none => simp [text] at inside
    | some bytes =>
      rw [text] at inside
      exact S.text_nul_free v bytes text inside

/-- The tag tells where the bytes of a value end, but for a string. -/
theorem alike_of_tag {v w : Value} (tags : tagOf v = tagOf w) : (∃ s t, v = .string s ∧ w = .string t) ∨
    (encodeIndexValue S v).length = (encodeIndexValue S w).length ∨ sep ∉ encodeIndexValue S v ∧ sep ∉ encodeIndexValue S w := by
  have shape : ∀ v, (∃ s, v = .string s) ∨ (tagOf v = 8 ∧ sep ∉ encodeIndexValue S v) ∨
      (tagOf v).toNat < 7 ∧ (encodeIndexValue S v).length = if (tagOf v).toNat < 4 then 1 else 9 := by
    intro v
    cases v with
    | null => exact Or.inr (Or.inr ⟨by decide, rfl⟩)
    | bool b => cases b <;> exact Or.inr (Or.inr ⟨by decide, rfl⟩)
    | string s => exact Or.inl ⟨s, rfl⟩
    | number n =>
      have few := representation_lt n
      refine Or.inr (Or.inr ?_)
      rw [tagOf, encode_number, List.length_cons, length_toBe, toNat_numberTag]
      exact ⟨by omega, by rw [if_neg (by omega)]⟩
    | array items | object members => exact Or.inr (Or.inl ⟨rfl, other_free _⟩)
  rcases shape v with ⟨s, rfl⟩ | ⟨other, free⟩ | ⟨small, length⟩
  · rcases shape w with ⟨t, rfl⟩ | ⟨other, _⟩ | ⟨small, _⟩
    · exact Or.inl ⟨s, t, rfl, rfl⟩
    · exact absurd (tags.trans other) (by decide : (7 : UInt8) ≠ 8)
    · have low : (tagOf (.string s)).toNat < 7 := tags ▸ small
      exact absurd low (by decide : ¬(7 : UInt8).toNat < 7)
  · rcases shape w with ⟨t, rfl⟩ | ⟨_, free'⟩ | ⟨small, _⟩
    · exact absurd (tags.symm.trans other) (by decide : (7 : UInt8) ≠ 8)
    · exact Or.inr (Or.inr ⟨free, free'⟩)
    · exact absurd (other ▸ tags ▸ small) (by decide)
  · rcases shape w with ⟨t, rfl⟩ | ⟨other, _⟩ | ⟨_, length'⟩
    · have low : (tagOf (.string t)).toNat < 7 := tags ▸ small
      exact absurd low (by decide : ¬(7 : UInt8).toNat < 7)
    · exact absurd (other ▸ tags ▸ small) (by decide)
    · exact Or.inr (Or.inl (by rw [length, length', tags]))

theorem isScalar_eq (v : Value) : isScalar v = decide (typeRank v < 5) := by
  cases v with
  | bool b => cases b <;> rfl
  | _ => rfl

theorem rank_of_tag {v w : Value} (tags : tagOf v = tagOf w) : typeRank v = typeRank w := by
  by_contra apart
  rcases Ne.lt_or_gt apart with below | above
  · exact (tagOf_lt below).ne tags
  · exact (tagOf_lt above).ne' tags

theorem encode_other {v : Value} (other : isScalar v = false) : encodeIndexValue S v = 0x08 :: (S.toVec v).getD [] := by
  cases v <;> first | rfl | cases other

theorem written_of_library {v : Value} (library : Library S v) (other : isScalar v = false) : ∃ text, S.toVec v = some text := by
  rcases library.2 with scalar | written
  · rw [other] at scalar
    cases scalar
  · exact Option.isSome_iff_exists.mp written

theorem encode_inj {v w : Value} (library : Library S v) (library' : Library S w)
    (same : encodeIndexValue S v = encodeIndexValue S w) : v = w := by
  have tags : tagOf v = tagOf w := by
    obtain ⟨rest, head⟩ := encode_head S v
    obtain ⟨rest', head'⟩ := encode_head S w
    rw [head, head'] at same
    exact (List.cons.inj same).1
  have ranks := rank_of_tag tags
  cases scalar : isScalar v with
  | true =>
    rcases alike_cases scalar ranks with ⟨m, n, rfl, rfl⟩ | ⟨s, t, rfl, rfl⟩ | ⟨equal, _⟩
    · rw [number_inj library.1 library'.1 same]
    · rw [utf8_injective s t (List.cons.inj same).2]
    · exact equal
  | false =>
    have scalar' : isScalar w = false := by rw [isScalar_eq, ← ranks, ← isScalar_eq, scalar]
    obtain ⟨text, written⟩ := written_of_library library scalar
    obtain ⟨text', written'⟩ := written_of_library library' scalar'
    rw [encode_other scalar, encode_other scalar', written, written'] at same
    obtain rfl : text = text' := (List.cons.inj same).2
    have back := S.round_trip v text library.1 written
    exact Option.some.inj (back.symm.trans (S.round_trip w text library'.1 written'))

variable (S) in
/-- The tuples part at two strings of which one runs on behind a NUL, and still the bytes
of the first are those with which the entry of the second begins. -/
def RunsOn : List Value → List Value → Bytes → Prop
  | w :: ws, v :: vs, key => w = v ∧ RunsOn ws vs key ∨ ∃ s t, w = .string s ∧ v = .string t ∧
      ((∃ r, utf8 t = utf8 s ++ sep :: r ∧ fieldBytes S ws <+: r ++ sep :: row S vs key) ∨
        ∃ r, utf8 s = utf8 t ++ sep :: r ∧ r ++ sep :: fieldBytes S ws <+: row S vs key)
  | _, _, _ => False

theorem string_field {s t : String} {x y : Bytes} :
    encodeIndexValue S (.string s) ++ sep :: x <+: encodeIndexValue S (.string t) ++ sep :: y ↔
      Value.string s = .string t ∧ x <+: y ∨ (∃ r, utf8 t = utf8 s ++ sep :: r ∧ x <+: r ++ sep :: y) ∨
        ∃ r, utf8 s = utf8 t ++ sep :: r ∧ r ++ sep :: x <+: y := by
  have names : utf8 s = utf8 t ↔ s = t := ⟨utf8_injective s t, congrArg utf8⟩
  simp only [encodeIndexValue, List.cons_append, List.cons_prefix_cons, true_and]
  rw [append_mark_begins, Value.string.injEq, names]

theorem other_field {w v : Value} {x y : Bytes} (library : Library S w) (library' : Library S v)
    (apart : ¬∃ s t, w = .string s ∧ v = .string t) :
    encodeIndexValue S w ++ sep :: x <+: encodeIndexValue S v ++ sep :: y ↔ w = v ∧ x <+: y := by
  by_cases tags : tagOf w = tagOf v
  · rw [append_mark_begins_of_alike ((alike_of_tag tags).resolve_left apart)]
    exact and_congr_left fun _ => ⟨encode_inj library library', fun same => by rw [same]⟩
  · obtain ⟨rest, head⟩ := encode_head S w
    obtain ⟨rest', head'⟩ := encode_head S v
    rw [head, head', List.cons_append, List.cons_append, List.cons_prefix_cons]
    exact iff_of_false (fun front => tags front.1) fun same => tags (congrArg tagOf same.1)

/-- A row begins with the fields of a tuple if its own are the same, or one runs on. -/
theorem row_begins {ws vs : List Value} {key : Bytes} (length : ws.length = vs.length) (library : ∀ w ∈ ws, Library S w)
    (library' : ∀ v ∈ vs, Library S v) : fieldBytes S ws <+: row S vs key ↔ ws = vs ∨ RunsOn S ws vs key := by
  induction ws generalizing vs with
  | nil =>
    obtain rfl := List.length_eq_zero_iff.mp length.symm
    simp [fieldBytes]
  | cons w ws ih =>
    cases vs with
    | nil => cases length
    | cons v vs =>
      have later := @ih vs (Nat.succ.inj length) (fun x member => library x (List.mem_cons_of_mem w member))
        fun x member => library' x (List.mem_cons_of_mem v member)
      have shape : row S (v :: vs) key = encodeIndexValue S v ++ sep :: row S vs key := by
        rw [row, fieldBytes_cons, List.append_assoc]
        rfl
      rw [shape, fieldBytes_cons, List.cons.injEq, RunsOn]
      by_cases strings : ∃ s t, w = .string s ∧ v = .string t
      · obtain ⟨s, t, rfl, rfl⟩ := strings
        rw [string_field, later, and_or_left, or_assoc]
        refine or_congr_right (or_congr_right ⟨fun runs => ⟨s, t, rfl, rfl, runs⟩, ?_⟩)
        rintro ⟨s', t', first, second, runs⟩
        obtain rfl := Value.string.inj first
        obtain rfl := Value.string.inj second
        exact runs
      · rw [other_field (library w List.mem_cons_self) (library' v List.mem_cons_self) strings, later, and_or_left]
        refine or_congr_right (or_iff_left ?_).symm
        rintro ⟨s, t, first, second, _⟩
        exact strings ⟨s, t, first, second⟩

theorem runsOn_differs {ws vs : List Value} {key : Bytes} (runs : RunsOn S ws vs key) : itemsEq vs ws = false := by
  induction ws generalizing vs with
  | nil => cases runs
  | cons w ws ih =>
    cases vs with
    | nil => cases runs
    | cons v vs =>
      rw [itemsEq, Bool.and_eq_false_iff]
      rcases runs with ⟨_, later⟩ | ⟨s, t, rfl, rfl, runs⟩
      · exact Or.inr (ih later)
      · refine Or.inl (beq_eq_false_iff_ne.mpr ?_)
        rintro rfl
        rcases runs with ⟨r, longer, _⟩ | ⟨r, longer, _⟩ <;> simpa using congrArg List.length longer

theorem itemsWellFormed_of_library {ws : List Value} (library : ∀ w ∈ ws, Library S w) : itemsWellFormed ws = true := by
  induction ws with
  | nil => rfl
  | cons w rest ih =>
    rw [itemsWellFormed, (library w List.mem_cons_self).1, ih fun x member => library x (List.mem_cons_of_mem w member)]
    rfl

/-- A row is found for an equal tuple and for no other exactly if none runs on and the equal
tuple is the same one. -/
theorem found_iff_equal {ws vs : List Value} {key : Bytes} (length : ws.length = vs.length) (library : ∀ w ∈ ws, Library S w)
    (library' : ∀ v ∈ vs, Library S v) : (fieldBytes S ws <+: row S vs key ↔ itemsEq vs ws = true) ↔
      ¬RunsOn S ws vs key ∧ (itemsEq vs ws = true → vs = ws) := by
  rw [row_begins length library library']
  constructor
  · intro agree
    have apart : ¬RunsOn S ws vs key := fun runs => by
      have equal := agree.mp (Or.inr runs)
      rw [runsOn_differs runs] at equal
      cases equal
    exact ⟨apart, fun equal => ((agree.mpr equal).resolve_right apart).symm⟩
  · rintro ⟨apart, same⟩
    constructor
    · rintro (rfl | runs)
      · exact itemsEq_refl ws (itemsWellFormed_of_library library)
      · exact (apart runs).elim
    · exact fun equal => Or.inl (same equal).symm

end

/-! ### What a lookup returns -/

section
variable (S : Serde) (db : JsonDB) (store : String)

/-- The result is the documents of the store with a property, each of them once. -/
def Returns (takes : Value → Prop) (result : Except FlowError (List Value)) : Prop :=
  ∃ keys : List Bytes, keys.Nodup ∧ (∀ key, key ∈ keys ↔ ∃ doc, storedDoc S db store key = some doc ∧ takes doc) ∧
    result = .ok (keys.filterMap (storedDoc S db store))

variable {S db store}

theorem length_filterMap_stored {keys : List Bytes} (stored : ∀ key ∈ keys, ∃ doc, storedDoc S db store key = some doc) :
    (keys.filterMap (storedDoc S db store)).length = keys.length := by
  induction keys with
  | nil => rfl
  | cons key rest ih =>
    obtain ⟨doc, here⟩ := stored key List.mem_cons_self
    rw [List.filterMap_cons_some here, List.length_cons, List.length_cons,
      ih fun x member => stored x (List.mem_cons_of_mem key member)]

theorem returns_iff {keys : List Bytes} {hit : Bytes → Value → Prop} {takes : Value → Prop} (nodup : keys.Nodup)
    (hits : ∀ key, key ∈ keys ↔ ∃ doc, storedDoc S db store key = some doc ∧ hit key doc) :
    Returns S db store takes (.ok (keys.filterMap (storedDoc S db store))) ↔
      ∀ key doc, storedDoc S db store key = some doc → (hit key doc ↔ takes doc) := by
  constructor
  · rintro ⟨taken, distinct, takes_iff, same⟩ key doc stored
    have lists := Except.ok.inj same
    -- Whatever is returned is taken, so the keys are among those that should be; there are as many.
    have within : ∀ k ∈ keys, k ∈ taken := by
      intro k member
      obtain ⟨found, there, _⟩ := (hits k).mp member
      have shown : found ∈ taken.filterMap (storedDoc S db store) := lists ▸ List.mem_filterMap.mpr ⟨k, member, there⟩
      obtain ⟨k', member', there'⟩ := List.mem_filterMap.mp shown
      obtain ⟨doc', stored', accepted⟩ := (takes_iff k').mp member'
      obtain rfl := Option.some.inj (there'.symm.trans stored')
      exact (takes_iff k).mpr ⟨_, there, accepted⟩
    have sizes := congrArg List.length lists
    rw [length_filterMap_stored fun k member => ((hits k).mp member).imp fun _ => And.left,
      length_filterMap_stored fun k member => ((takes_iff k).mp member).imp fun _ => And.left] at sizes
    have perm := (List.subperm_of_subset nodup within).perm_of_length_le sizes.ge
    constructor
    · intro met
      obtain ⟨doc', stored', accepted⟩ := (takes_iff key).mp (within key ((hits key).mpr ⟨doc, stored, met⟩))
      obtain rfl := Option.some.inj (stored.symm.trans stored')
      exact accepted
    · intro accepted
      obtain ⟨doc', stored', met⟩ := (hits key).mp (perm.mem_iff.mpr ((takes_iff key).mpr ⟨doc, stored, accepted⟩))
      obtain rfl := Option.some.inj (stored.symm.trans stored')
      exact met
  · intro agree
    refine ⟨keys, nodup, fun key => (hits key).trans ?_, rfl⟩
    exact exists_congr fun doc => and_congr_right fun stored => agree key doc stored

/-- A scan names a document at most once if the document has one tuple in the index. -/
theorem scanned_keys {idx : IndexDef} (mirrors : TransactionLookups.Mirrors S db store idx)
    (single : ∀ key doc, storedDoc S db store key = some doc → extractIndexValues doc idx = (collectFields doc idx.keyPaths).toList)
    {range : Records.ScanRange} (within : ∀ k, range.toQueryParams.1.matchesKey k = true → idxPrefix store idx.name <+: k) :
    ((JsonDb.scan db.engine range).map Prod.snd).Nodup ∧ ∀ key, key ∈ (JsonDb.scan db.engine range).map Prod.snd ↔
      ∃ doc, storedDoc S db store key = some doc ∧ ∃ vals, collectFields doc idx.keyPaths = some vals ∧
        range.toQueryParams.1.matchesKey (idxKey store idx.name (encodeCompositeValue S vals) key) = true := by
  have count := TransactionLookups.scan_count mirrors within
  have entries : ∀ key, TransactionLookups.entryCount S store idx range key (storedDoc S db store key) ≤ 1 ∧
      (0 < TransactionLookups.entryCount S store idx range key (storedDoc S db store key) ↔
        ∃ doc, storedDoc S db store key = some doc ∧ ∃ vals, collectFields doc idx.keyPaths = some vals ∧
          range.toQueryParams.1.matchesKey (idxKey store idx.name (encodeCompositeValue S vals) key) = true) := by
    intro key
    unfold TransactionLookups.entryCount indexKeys
    cases stored : storedDoc S db store key with
    | none => simp
    | some doc =>
      rw [Option.toList_some, List.flatMap_singleton, single key doc stored]
      cases collected : collectFields doc idx.keyPaths with
      | none => simp [collected]
      | some vals =>
        rw [Option.toList_some, List.map_singleton, (List.nodup_singleton _).dedup, List.filter_singleton]
        cases inside : range.toQueryParams.1.matchesKey (idxKey store idx.name (encodeCompositeValue S vals) key) <;>
          simp [collected, inside]
  constructor
  · exact List.nodup_iff_count_le_one.mpr fun key => (count key).trans_le (entries key).1
  · exact fun key => by rw [← (entries key).2, ← count key, List.count_pos_iff]

/-- The fields of a lookup: the items of an array for a composite index, else the value itself. -/
def lookupTuple (idx : IndexDef) (value : Value) : List Value :=
  match decide (idx.keyPaths.length > 1), value with
  | true, .array items => items
  | _, value => [value]

theorem encodeLookup_eq (idx : IndexDef) (value : Value) :
    encodeLookup S idx value = encodeCompositeValue S (lookupTuple idx value) := by
  unfold encodeLookup lookupTuple
  generalize decide (idx.keyPaths.length > 1) = several
  cases several <;> cases value <;> simp [encodeCompositeValue]

theorem begins_iff_row {ws vs : List Value} {key : Bytes} (length : ws.length = vs.length) :
    encodeCompositeValue S ws ++ [sep] <+: encodeCompositeValue S vs ++ sep :: key ↔ fieldBytes S ws <+: row S vs key := by
  cases ws with
  | nil =>
    obtain rfl := List.length_eq_zero_iff.mp length.symm
    simp [encodeCompositeValue, fieldBytes]
  | cons w ws =>
    have filled : vs ≠ [] := by
      rintro rfl
      cases length
    have front := composite_row (S := S) (List.cons_ne_nil w ws) []
    rw [composite_row filled, front, row, List.append_nil]

/-- Every value that the index holds is as the library builds it. -/
def LibraryIndex (S : Serde) (db : JsonDB) (store : String) (idx : IndexDef) : Prop :=
  ∀ key doc, storedDoc S db store key = some doc → ∀ vals ∈ extractIndexValues doc idx, ∀ v ∈ vals, Library S v

def EqualTuple (idx : IndexDef) (tuple : List Value) (doc : Value) : Prop :=
  ∃ vals ∈ extractIndexValues doc idx, itemsEq vals tuple = true

/-- What sets a stored tuple that is found apart from one that is equal. -/
def ToldApart (S : Serde) (idx : IndexDef) (tuple : List Value) (key : Bytes) (doc : Value) : Prop :=
  ∀ vals ∈ extractIndexValues doc idx, ¬RunsOn S tuple vals key ∧ (itemsEq vals tuple = true → vals = tuple)

theorem findIndex_ok {idx : IndexDef} {d : StoreDef} {index : String} (found : findIndex d store index = .ok idx) :
    idx ∈ d.indexes ∧ idx.name = index := by
  unfold findIndex at found
  split at found
  · next here =>
    obtain rfl := Except.ok.inj found
    exact ⟨List.mem_of_find?_eq_some here, by simpa using List.find?_some here⟩
  · cases found

theorem getByIndex_exact_iff {idx : IndexDef} {d : StoreDef} {index : String} {value : Value} (mirrored : Mirrored S db)
    (defined : db.schema.get? store = some d) (found : findIndex d store index = .ok idx) (single : idx.multiEntry = false)
    (full : (lookupTuple idx value).length = idx.keyPaths.length) (library : ∀ w ∈ lookupTuple idx value, Library S w)
    (stored : LibraryIndex S db store idx) :
    Returns S db store (EqualTuple idx (lookupTuple idx value)) (getByIndex S db store index value) ↔
      ∀ key doc, storedDoc S db store key = some doc → ToldApart S idx (lookupTuple idx value) key doc := by
  obtain ⟨member, rfl⟩ := findIndex_ok found
  have mirrors := TransactionLookups.mirrors_of_mirrored mirrored defined member
  obtain ⟨distinct, hits⟩ := scanned_keys mirrors (fun _ doc _ => extract_single single doc)
    (TransactionLookups.valueRange_within (encodeLookup S idx value))
  rw [getByIndex, getStore_of defined, ok_bind, found, ok_bind, TransactionLookups.fetch_eq mirrors.docs, returns_iff distinct hits]
  refine forall_congr' fun key => forall_congr' fun doc => forall_congr' fun here => ?_
  have values := stored key doc here
  rw [EqualTuple, ToldApart]
  cases collected : collectFields doc idx.keyPaths with
  | none => simp [extract_single single, collected]
  | some vals =>
    have only : extractIndexValues doc idx = [vals] := by rw [extract_single single, collected]; rfl
    have length : (lookupTuple idx value).length = vals.length := full.trans (LegalCommits.collectFields_length collected).symm
    rw [only] at values ⊢
    have bytes : (valueRange store idx.name (encodeLookup S idx value)).toQueryParams.1.matchesKey
        (idxKey store idx.name (encodeCompositeValue S vals) key) = true ↔
        fieldBytes S (lookupTuple idx value) <+: row S vals key := by
      rw [valueRange, KeySpace.prefixRange_matches, LegalCommits.idxValuePrefix_begins, encodeLookup_eq, begins_iff_row length]
    simp only [Option.some.injEq, exists_eq_left', List.mem_singleton, exists_eq_left, forall_eq, bytes]
    exact found_iff_equal length library (values vals List.mem_cons_self)

/-! ### What the unique check refuses -/

/-- A write is refused exactly if another document's row begins with a unique tuple of it. -/
theorem put_accepted_iff {d : StoreDef} (mirrored : Mirrored S db) (defined : db.schema.get? store = some d)
    {key docBytes : Bytes} {doc : Value} :
    (∀ e, buildPutBatch S db d store key docBytes doc ≠ .error e) ↔ ∀ idx ∈ d.indexes, idx.unique = true →
      ∀ vals ∈ extractIndexValues doc idx, ∀ other held, storedDoc S db store other = some held →
        ∀ vals' ∈ extractIndexValues held idx, fieldBytes S vals <+: row S vals' other → other = key := by
  have checked : (∀ e, buildPutBatch S db d store key docBytes doc ≠ .error e) ↔
      (d.indexes.forM fun idx => checkUnique S db store idx key doc) = .ok () := by
    rw [buildPutBatch_eq, CommitOrders.readOldDoc_mirrored mirrored, ok_bind]
    cases d.indexes.forM fun idx => checkUnique S db store idx key doc with
    | error e => simp [Except.map]
    | ok u => simp [Except.map]
  have engine : ∀ idx ∈ d.indexes, idx.unique = true → ∀ vals ∈ extractIndexValues doc idx,
      (checkEngine S db store idx key vals = .ok () ↔ ∀ other held, storedDoc S db store other = some held →
        ∀ vals' ∈ extractIndexValues held idx, fieldBytes S vals <+: row S vals' other → other = key) := by
    intro idx member unique vals extracted
    rw [LegalCommits.checkEngine_begins (LegalCommits.mirrored_indexed mirrored store d defined idx member unique)]
    refine forall₂_congr fun other held => forall_congr' fun stored => forall₂_congr fun vals' extracted' => ?_
    rw [begins_iff_row]
    rw [LegalCommits.extractIndexValues_length extracted, LegalCommits.extractIndexValues_length extracted']
  rw [checked]
  constructor
  · intro passed idx member unique vals extracted
    have check := forM_ok passed idx member
    rw [checkUnique, if_pos unique] at check
    exact (engine idx member unique vals extracted).mp (forM_ok check vals extracted)
  · intro alone
    refine forM_of_ok fun idx member => ?_
    rw [checkUnique]
    split_ifs with unique
    · exact forM_of_ok fun vals extracted => (engine idx member unique vals extracted).mpr (alone idx member unique vals extracted)
    · rfl

section
variable (S db store)

/-- Another document of the store agrees with this one on a unique tuple. -/
def EqualElsewhere (d : StoreDef) (key : Bytes) (doc : Value) : Prop :=
  ∃ idx ∈ d.indexes, idx.unique = true ∧ ∃ vals ∈ extractIndexValues doc idx, ∃ other held,
    storedDoc S db store other = some held ∧ other ≠ key ∧ EqualTuple idx vals held

/-- Another document's tuple runs on from one of this document, in a unique index. -/
def RunsOnElsewhere (d : StoreDef) (key : Bytes) (doc : Value) : Prop :=
  ∃ idx ∈ d.indexes, idx.unique = true ∧ ∃ vals ∈ extractIndexValues doc idx, ∃ other held,
    storedDoc S db store other = some held ∧ other ≠ key ∧ ∃ vals' ∈ extractIndexValues held idx, RunsOn S vals vals' other

end

theorem refusal_exact_iff {d : StoreDef} (mirrored : Mirrored S db) (defined : db.schema.get? store = some d)
    (stored : ∀ idx ∈ d.indexes, LibraryIndex S db store idx) {key docBytes : Bytes} {doc : Value}
    (library : ∀ idx ∈ d.indexes, ∀ vals ∈ extractIndexValues doc idx, ∀ v ∈ vals, Library S v) :
    (∀ e, buildPutBatch S db d store key docBytes doc = .error e → EqualElsewhere S db store d key doc) ↔
      (RunsOnElsewhere S db store d key doc → EqualElsewhere S db store d key doc) := by
  have begins : ∀ idx ∈ d.indexes, ∀ vals ∈ extractIndexValues doc idx, ∀ other held,
      storedDoc S db store other = some held → ∀ vals' ∈ extractIndexValues held idx,
        (fieldBytes S vals <+: row S vals' other ↔ vals = vals' ∨ RunsOn S vals vals' other) := by
    intro idx member vals extracted other held here vals' extracted'
    refine row_begins ?_ (library idx member vals extracted) (stored idx member other held here vals' extracted')
    rw [LegalCommits.extractIndexValues_length extracted, LegalCommits.extractIndexValues_length extracted']
  constructor
  · rintro exact ⟨idx, member, unique, vals, extracted, other, held, here, apart, vals', extracted', runs⟩
    by_contra lacking
    have accepted := (@put_accepted_iff S db store d mirrored defined key docBytes doc).mp
      fun e refused => lacking (exact e refused)
    exact apart (accepted idx member unique vals extracted other held here vals' extracted'
      ((begins idx member vals extracted other held here vals' extracted').mpr (Or.inr runs)))
  · intro covered e refused
    by_contra lacking
    refine (put_accepted_iff mirrored defined).mpr ?_ e refused
    intro idx member unique vals extracted other held here vals' extracted' front
    by_contra apart
    refine lacking ?_
    rcases (begins idx member vals extracted other held here vals' extracted').mp front with rfl | runs
    · exact ⟨idx, member, unique, vals, extracted, other, held, here, apart, vals, extracted',
        itemsEq_refl vals (itemsWellFormed_of_library (library idx member vals extracted))⟩
    · exact covered ⟨idx, member, unique, vals, extracted, other, held, here, apart, vals', extracted', runs⟩

/-- Lookups of a tuple are exact for an index, and refusals for a document, exactly if no tuple
runs on and equal tuples are the same. -/
theorem equality_lookups_iff (S : Serde) {db : JsonDB} {store : String} {d : StoreDef} (mirrored : Mirrored S db)
    (defined : db.schema.get? store = some d) (stored : ∀ idx ∈ d.indexes, LibraryIndex S db store idx) :
    (∀ index idx value, findIndex d store index = .ok idx → idx.multiEntry = false →
      (lookupTuple idx value).length = idx.keyPaths.length → (∀ w ∈ lookupTuple idx value, Library S w) →
      (Returns S db store (EqualTuple idx (lookupTuple idx value)) (getByIndex S db store index value) ↔
        ∀ key doc, storedDoc S db store key = some doc → ToldApart S idx (lookupTuple idx value) key doc)) ∧
    ∀ key docBytes doc, (∀ idx ∈ d.indexes, ∀ vals ∈ extractIndexValues doc idx, ∀ v ∈ vals, Library S v) →
      ((∀ e, buildPutBatch S db d store key docBytes doc = .error e → EqualElsewhere S db store d key doc) ↔
        (RunsOnElsewhere S db store d key doc → EqualElsewhere S db store d key doc)) :=
  ⟨fun _ _ _ found single full library => getByIndex_exact_iff mirrored defined found single full library
      (stored _ (findIndex_ok found).1),
    fun _ _ _ library => refusal_exact_iff mirrored defined stored library⟩

end

/-! A document whose indexed string holds a NUL. -/

def nulDoc : Value := .object [("email", .string "a\x00b"), ("id", .string "u1")]

def nulText : Bytes := utf8 "\x7b\"email\":\"a\\u0000b\",\"id\":\"u1\"\x7d"

def nulSerde : Serde where
  toVec v := match v with
    | .object [("email", .string "a\x00b"), ("id", .string "u1")] => some nulText
    | _ => none
  fromSlice b := if b = nulText then some nulDoc else none
  floatText _ := [48, 46, 48]
  debugValues _ := "[String(\"a\")]"
  debugLossy _ := "\"u1\""
  errorText _ := "expected value at line 1 column 1"
  round_trip v b _ written := by
    split at written
    · obtain rfl := Option.some.inj written
      exact if_pos rfl
    · cases written
  text_nul_free v b written := by
    split at written
    · obtain rfl := Option.some.inj written
      decide
    · cases written
  float_nul_free := zeroPointZero_nul_free

def byEmail : IndexDef := ⟨["email"], "by_email", true, false⟩

def nulDb : JsonDB := (JsonDb.put nulSerde JsonSessions.sampleDb "users" nulDoc).2

theorem nulDb_mirrored : Mirrored nulSerde nulDb := by
  obtain ⟨mirrored, unique⟩ := JsonSessions.fresh_keeps (S := nulSerde) JsonSessions.sampleDb_fresh
  refine (JsonSessions.outcome_keeps mirrored unique
    (put_outcome JsonSessions.sampleDb "users" nulDoc (by decide) fun d defined null => ?_)).1
  obtain rfl : JsonSessions.sampleStore = d := Option.some.inj defined
  cases null

theorem nulDb_stored : storedDoc nulSerde nulDb "users" (utf8 "u1") = some nulDoc := by rfl

theorem nul_library : ∀ vals ∈ extractIndexValues nulDoc byEmail, ∀ v ∈ vals, Library nulSerde v := by
  intro vals extracted v member
  obtain rfl : vals = [.string "a\x00b"] := List.mem_singleton.mp extracted
  obtain rfl := List.mem_singleton.mp member
  exact ⟨rfl, Or.inl rfl⟩

theorem nulDb_library : ∀ idx ∈ JsonSessions.sampleStore.indexes, LibraryIndex nulSerde nulDb "users" idx := by
  intro idx inside key doc stored
  obtain rfl : idx = byEmail := List.mem_singleton.mp inside
  obtain ⟨bytes, _, decoded⟩ := stored_decodes stored
  obtain rfl : doc = nulDoc := by
    unfold decodeDoc nulSerde at decoded
    dsimp only at decoded
    split_ifs at decoded
    exact (Except.ok.inj decoded).symm
  exact nul_library

theorem nul_runs_on : RunsOn nulSerde [.string "a"] [.string "a\x00b"] (utf8 "u1") :=
  Or.inr ⟨"a", "a\x00b", rfl, rfl, Or.inl ⟨[98], by decide, List.nil_prefix⟩⟩

theorem equality_lookups_iff_nul : ¬Returns nulSerde nulDb "users" (EqualTuple byEmail [.string "a"])
    (getByIndex nulSerde nulDb "users" "by_email" (.string "a")) := by
  intro exact
  have apart := ((equality_lookups_iff nulSerde nulDb_mirrored (d := JsonSessions.sampleStore) rfl nulDb_library).1
    "by_email" byEmail (.string "a") rfl rfl rfl (by simp [lookupTuple, Library, isScalar, Value.wellFormed])).mp exact
    (utf8 "u1") nulDoc nulDb_stored
  exact (apart [.string "a\x00b"] (List.mem_singleton.mpr rfl)).1 nul_runs_on

theorem string_before_nul_found : ¬∀ (S : Serde) (db : JsonDB) (store index : String) (d : StoreDef) (idx : IndexDef) (value : Value),
    Mirrored S db → db.schema.get? store = some d → findIndex d store index = .ok idx → idx.multiEntry = false →
    (lookupTuple idx value).length = idx.keyPaths.length → (∀ w ∈ lookupTuple idx value, Library S w) →
    (∀ idx ∈ d.indexes, LibraryIndex S db store idx) →
    Returns S db store (EqualTuple idx (lookupTuple idx value)) (getByIndex S db store index value) := by
  intro exact
  have returned := exact nulSerde nulDb "users" "by_email" JsonSessions.sampleStore byEmail (.string "a") nulDb_mirrored rfl rfl
    rfl rfl (by simp [lookupTuple, Library, isScalar, Value.wellFormed]) nulDb_library
  obtain ⟨keys, _, takes, result⟩ := returned
  have found : getByIndex nulSerde nulDb "users" "by_email" (.string "a") = .ok [nulDoc] := by rfl
  have shown : nulDoc ∈ keys.filterMap (storedDoc nulSerde nulDb "users") := by
    rw [← Except.ok.inj (found.symm.trans result)]
    exact List.mem_singleton_self _
  obtain ⟨key, member, stored⟩ := List.mem_filterMap.mp shown
  obtain ⟨doc, stored', vals, extracted, equal⟩ := (takes key).mp member
  obtain rfl := Option.some.inj (stored.symm.trans stored')
  obtain rfl : vals = [.string "a\x00b"] := List.mem_singleton.mp extracted
  exact absurd equal (by decide)

end FlowDb.IndexLookups
