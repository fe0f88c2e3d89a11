import FlowDb.JsonSessions
import FlowDb.JsonStores

/-! Primary keys as bytes. Numbers, booleans and strings are written as their texts with
nothing in front, so a string that reads like a number or a boolean has the same key. -/
namespace FlowDb.PrimaryKeys
open ByteString OrderedMap JsonValue JsonEncoding JsonDb JsonTransaction JsonIndexes JsonStores

section
variable (S : Serde)

/-- A finite float is written as a numeral with a point or an exponent, and no other float is
written as it is. -/
structure FloatTexts : Prop where
  injective : ∀ a b, finite a = true → finite b = true → S.floatText a = S.floatText b → a = b
  fraction : ∀ a, finite a = true → 46 ∈ S.floatText a ∨ 101 ∈ S.floatText a
  numeral : ∀ a, finite a = true → ∃ c rest, S.floatText a = c :: rest ∧ (c = 45 ∨ 48 ≤ c.toNat ∧ c.toNat ≤ 57)

def boolText (b : Bool) : String := if b then "true" else "false"

/-- One of the two is a string and reads like the other. -/
def ReadsLike : Value → Value → Prop
  | .string s, .number n | .number n, .string s => utf8 s = numberText S n
  | .string s, .bool b | .bool b, .string s => s = boolText b
  | _, _ => False

variable {S}

/-! ### Texts of numbers -/

theorem numberText_head (floats : FloatTexts S) {n : Number} (whole : (Value.number n).wellFormed = true) :
    ∃ c rest, numberText S n = c :: rest ∧ (c = 45 ∨ 48 ≤ c.toNat ∧ c.toNat ≤ 57) := by
  cases n with
  | posInt n =>
    obtain ⟨c, rest, digits⟩ := List.exists_cons_of_ne_nil (show decimal n.toNat ≠ [] by simp [decimal])
    exact ⟨c, rest, digits, Or.inr (digit_of_mem_decimal (digits ▸ List.mem_cons_self))⟩
  | negInt n => exact ⟨45, _, rfl, Or.inl rfl⟩
  | float bits => exact floats.numeral bits whole

theorem integer_text {n : Nat} {b : UInt8} (member : b ∈ 45 :: decimal n) : b ≠ 46 ∧ b ≠ 101 := by
  rcases List.mem_cons.mp member with rfl | digit
  · decide
  · have range := digit_of_mem_decimal digit
    constructor <;> rintro rfl <;> exact absurd range (by decide)

theorem float_not_integer (floats : FloatTexts S) {bits : UInt64} (whole : finite bits = true) {text : Bytes} {n : Nat}
    (integer : text = decimal n ∨ text = 45 :: decimal n) : S.floatText bits ≠ text := by
  rintro rfl
  have bytes : ∀ b ∈ S.floatText bits, b ∈ 45 :: decimal n := by
    intro b member
    rcases integer with plain | minus
    · exact List.mem_cons_of_mem _ (plain ▸ member)
    · exact minus ▸ member
  rcases floats.fraction bits whole with point | exponent
  · exact (integer_text (bytes _ point)).1 rfl
  · exact (integer_text (bytes _ exponent)).2 rfl

theorem decimal_no_sign {n m : Nat} : decimal n ≠ 45 :: decimal m := fun same =>
  absurd (digit_of_mem_decimal (same ▸ List.mem_cons_self : (45 : UInt8) ∈ decimal n)).1 (by decide)

theorem numberText_inj (floats : FloatTexts S) {m n : Number} (whole : (Value.number m).wellFormed = true)
    (whole' : (Value.number n).wellFormed = true) (same : numberText S m = numberText S n) : m = n := by
  cases m with
  | posInt a => cases n with
    | posInt b => rw [UInt64.toNat_inj.mp (decimal_injective same)]
    | negInt b => exact absurd same decimal_no_sign
    | float b => exact absurd same.symm (float_not_integer floats whole' (Or.inl rfl))
  | negInt a => cases n with
    | posInt b => exact absurd same.symm decimal_no_sign
    | negInt b =>
      have sizes := decimal_injective (List.cons.inj same).2
      have left := Int64.lt_iff_toInt_lt.mp (of_decide_eq_true whole)
      have right := Int64.lt_iff_toInt_lt.mp (of_decide_eq_true whole')
      have zero : (0 : Int64).toInt = 0 := rfl
      rw [Int64.toInt_inj.mp (show a.toInt = b.toInt by omega)]
    | float b => exact absurd same.symm (float_not_integer floats whole' (Or.inr rfl))
  | float a => cases n with
    | posInt b => exact absurd same (float_not_integer floats whole (Or.inl rfl))
    | negInt b => exact absurd same (float_not_integer floats whole (Or.inr rfl))
    | float b => rw [floats.injective a b whole whole' same]

/-! ### Keys -/

theorem string_key {s : String} {a : Bytes} (accepted : encodePrimaryKey S (.string s) = .ok a) : a = utf8 s := by
  simp only [encodePrimaryKey] at accepted
  split_ifs at accepted
  exact (Except.ok.inj accepted).symm

theorem nested_key {k : Value} {a : Bytes} (nested : (∃ items, k = .array items) ∨ ∃ members, k = .object members)
    (accepted : encodePrimaryKey S k = .ok a) : ∃ text, S.toVec k = some text ∧ a = 0xFF :: text := by
  rcases nested with ⟨items, rfl⟩ | ⟨members, rfl⟩
  all_goals
    simp only [encodePrimaryKey] at accepted
    split at accepted
    · next text written => exact ⟨text, written, (Except.ok.inj accepted).symm⟩
    · cases accepted

/-- The first byte of a key that is no string tells its type. -/
def byteKind (c : UInt8) : Nat := if c = 0 then 0 else if c = 116 ∨ c = 102 then 1 else if c = 255 then 3 else 2

def keyKind : Value → Nat
  | .null => 0
  | .bool _ => 1
  | .number _ => 2
  | .array _ | .object _ => 3
  | .string _ => 4

theorem numeral_kind {c : UInt8} (numeral : c = 45 ∨ 48 ≤ c.toNat ∧ c.toNat ≤ 57) : byteKind c = 2 := by
  have apart : ∀ d : UInt8, d.toNat < 45 ∨ 57 < d.toNat → c ≠ d := by
    rintro d outside rfl
    rcases numeral with rfl | range
    · exact absurd outside (by decide)
    · omega
  rw [byteKind, if_neg (apart 0 (by decide)), if_neg (not_or.mpr ⟨apart 116 (by decide), apart 102 (by decide)⟩),
    if_neg (apart 255 (by decide))]

theorem key_head (floats : FloatTexts S) {k : Value} {a : Bytes} (whole : k.wellFormed = true) (other : ∀ s, k ≠ .string s)
    (accepted : encodePrimaryKey S k = .ok a) : ∃ c rest, a = c :: rest ∧ byteKind c = keyKind k := by
  cases k with
  | null => exact ⟨0, [], (Except.ok.inj accepted).symm, rfl⟩
  | bool b =>
    obtain rfl := Except.ok.inj accepted
    cases b
    · exact ⟨102, [97, 108, 115, 101], by decide, rfl⟩
    · exact ⟨116, [114, 117, 101], by decide, rfl⟩
  | number n =>
    obtain rfl := Except.ok.inj accepted
    obtain ⟨c, rest, shape, numeral⟩ := numberText_head floats whole
    exact ⟨c, rest, shape, numeral_kind numeral⟩
  | string s => exact (other s rfl).elim
  | array items =>
    obtain ⟨text, _, rfl⟩ := nested_key (Or.inl ⟨items, rfl⟩) accepted
    exact ⟨255, text, rfl, rfl⟩
  | object members =>
    obtain ⟨text, _, rfl⟩ := nested_key (Or.inr ⟨members, rfl⟩) accepted
    exact ⟨255, text, rfl, rfl⟩

theorem nested_inj {k k' : Value} {a : Bytes} (whole : k.wellFormed = true) (whole' : k'.wellFormed = true)
    (nested : (∃ items, k = .array items) ∨ ∃ members, k = .object members)
    (nested' : (∃ items, k' = .array items) ∨ ∃ members, k' = .object members)
    (accepted : encodePrimaryKey S k = .ok a) (accepted' : encodePrimaryKey S k' = .ok a) : k = k' := by
  obtain ⟨text, written, rfl⟩ := nested_key nested accepted
  obtain ⟨text', written', same⟩ := nested_key nested' accepted'
  obtain rfl := (List.cons.inj same).2
  exact Option.some.inj ((S.round_trip k text whole written).symm.trans (S.round_trip k' text whole' written'))

theorem key_same_other (floats : FloatTexts S) {k k' : Value} {a : Bytes} (whole : k.wellFormed = true)
    (whole' : k'.wellFormed = true) (other : ∀ s, k ≠ .string s) (other' : ∀ s, k' ≠ .string s)
    (accepted : encodePrimaryKey S k = .ok a) (accepted' : encodePrimaryKey S k' = .ok a) : k = k' := by
  have kinds : keyKind k = keyKind k' := by
    obtain ⟨c, rest, rfl, kind⟩ := key_head floats whole other accepted
    obtain ⟨_, _, same, kind'⟩ := key_head floats whole' other' accepted'
    obtain ⟨rfl, rfl⟩ := List.cons.inj same
    exact kind.symm.trans kind'
  cases k with
  | null => cases k' <;> first | rfl | cases kinds
  | bool b =>
    cases k' with
    | bool b' =>
      have same : utf8 (boolText b) = utf8 (boolText b') := Except.ok.inj (accepted.trans accepted'.symm)
      have texts := utf8_injective _ _ same
      cases b <;> cases b' <;> first | rfl | exact absurd texts (by decide)
    | _ => cases kinds
  | number n =>
    cases k' with
    | number n' => rw [numberText_inj floats whole whole' (Except.ok.inj (accepted.trans accepted'.symm))]
    | _ => cases kinds
  | string s => exact (other s rfl).elim
  | array items =>
    cases k' with
    | array items' => exact nested_inj whole whole' (Or.inl ⟨_, rfl⟩) (Or.inl ⟨_, rfl⟩) accepted accepted'
    | object members' => exact nested_inj whole whole' (Or.inl ⟨_, rfl⟩) (Or.inr ⟨_, rfl⟩) accepted accepted'
    | _ => cases kinds
  | object members =>
    cases k' with
    | array items' => exact nested_inj whole whole' (Or.inr ⟨_, rfl⟩) (Or.inl ⟨_, rfl⟩) accepted accepted'
    | object members' => exact nested_inj whole whole' (Or.inr ⟨_, rfl⟩) (Or.inr ⟨_, rfl⟩) accepted accepted'
    | _ => cases kinds

/-- What a string shares its key with reads like it. -/
theorem string_key_same {s : String} {k : Value} {a : Bytes} (accepted : encodePrimaryKey S (.string s) = .ok a)
    (accepted' : encodePrimaryKey S k = .ok a) : k = .string s ∨ ReadsLike S (.string s) k := by
  obtain rfl := string_key accepted
  cases k with
  | null =>
    have free := encodePrimaryKey_nul_free S _ _ (by simp) accepted
    exact (free (Except.ok.inj accepted' ▸ List.mem_singleton_self _)).elim
  | bool b => exact Or.inr (utf8_injective _ _ (Except.ok.inj accepted').symm)
  | number n => exact Or.inr (Except.ok.inj accepted').symm
  | string t => exact Or.inl (by rw [utf8_injective _ _ (string_key accepted')])
  | array items =>
    obtain ⟨text, _, same⟩ := nested_key (Or.inl ⟨items, rfl⟩) accepted'
    exact (top_notMem_utf8 s (same ▸ List.mem_cons_self)).elim
  | object members =>
    obtain ⟨text, _, same⟩ := nested_key (Or.inr ⟨members, rfl⟩) accepted'
    exact (top_notMem_utf8 s (same ▸ List.mem_cons_self)).elim

theorem readsLike_symm {k k' : Value} (reads : ReadsLike S k k') : ReadsLike S k' k := by
  cases k <;> cases k' <;> exact reads

/-- Two keys are written alike only if they are one or read alike. -/
theorem key_same (floats : FloatTexts S) {k k' : Value} {a : Bytes} (whole : k.wellFormed = true) (whole' : k'.wellFormed = true)
    (accepted : encodePrimaryKey S k = .ok a) (accepted' : encodePrimaryKey S k' = .ok a) : k = k' ∨ ReadsLike S k k' := by
  by_cases first : ∃ s, k = .string s
  · obtain ⟨s, rfl⟩ := first
    exact (string_key_same accepted accepted').imp Eq.symm id
  · by_cases second : ∃ s, k' = .string s
    · obtain ⟨s, rfl⟩ := second
      exact (string_key_same accepted' accepted).imp id readsLike_symm
    · exact Or.inl (key_same_other floats whole whole' (fun s same => first ⟨s, same⟩) (fun s same => second ⟨s, same⟩)
        accepted accepted')

/-- Keys that read alike are written alike. -/
theorem readsLike_same {k k' : Value} {a a' : Bytes} (reads : ReadsLike S k k') (accepted : encodePrimaryKey S k = .ok a)
    (accepted' : encodePrimaryKey S k' = .ok a') : a = a' ∧ k ≠ k' := by
  have sorted : ∀ {s k a a'}, ReadsLike S (.string s) k → encodePrimaryKey S (.string s) = .ok a →
      encodePrimaryKey S k = .ok a' → a = a' ∧ Value.string s ≠ k := by
    intro s k a a' reads accepted accepted'
    obtain rfl := string_key accepted
    cases k with
    | number n => exact ⟨(show utf8 s = numberText S n from reads).trans (Except.ok.inj accepted'), nofun⟩
    | bool b =>
      obtain rfl : s = boolText b := reads
      exact ⟨Except.ok.inj accepted', nofun⟩
    | _ => cases reads
  cases k with
  | string s => exact sorted reads accepted accepted'
  | _ =>
    cases k' with
    | string s =>
      obtain ⟨same, apart⟩ := sorted (readsLike_symm reads) accepted' accepted
      exact ⟨same.symm, apart.symm⟩
    | _ => cases reads

/-! ### Documents -/

theorem commitBatch_state {α : Type} {db : JsonDB} {attempt : Except FlowError (α × List Records.InternalRecord)}
    {P : JsonDB → Prop} (before : P db)
    (wrote : ∀ result records, attempt = .ok (result, records) → P (JsonDB.write db records)) : P (commitBatch db attempt).2 := by
  cases attempt with
  | error e => exact before
  | ok out => exact wrote out.1 out.2 rfl

/-- A put leaves every document alone whose key is written otherwise. -/
theorem get_put_elsewhere {db : JsonDB} {store : String} {d : StoreDef} {doc k k' : Value} (defined : db.schema.get? store = some d)
    (keyed : extractField doc d.keyPath = some k)
    (apart : ∀ a, encodePrimaryKey S k = .ok a → encodePrimaryKey S k' ≠ .ok a) :
    JsonStores.get S (JsonDb.put S db store doc).2 store k' = JsonStores.get S db store k' := by
  refine commitBatch_state (P := fun after => JsonStores.get S after store k' = JsonStores.get S db store k') rfl
    fun result records done => ?_
  obtain ⟨d', found, done⟩ := bind_ok done
  obtain rfl := Option.some.inj (defined.symm.trans (getStore_ok found))
  obtain ⟨keyVal, key, done⟩ := bind_ok done
  obtain rfl := Option.some.inj (keyed.symm.trans (keyOf_ok key))
  obtain ⟨a, accepted, done⟩ := bind_ok done
  obtain ⟨docBytes, encoded, done⟩ := bind_ok done
  obtain ⟨batch, pushed, done⟩ := bind_ok done
  obtain ⟨rfl, rfl⟩ := Prod.mk.inj (Except.ok.inj done)
  obtain ⟨rfl, _⟩ := buildPutBatch_ok pushed
  have stores : getStore (JsonDB.write db (changeRecords S db d store a (some (docBytes, doc)))) store = .ok d :=
    getStore_of defined
  unfold JsonStores.get
  rw [stores, getStore_of defined, ok_bind, ok_bind]
  cases accepted' : encodePrimaryKey S k' with
  | error e => rfl
  | ok a' =>
    have other : docKey store a' ≠ docKey store a := fun same =>
      apart a accepted (docKey_injective store same ▸ accepted')
    have kept : getBytes (JsonDB.write db (changeRecords S db d store a (some (docBytes, doc)))) (docKey store a') =
        getBytes db (docKey store a') := by
      rw [getBytes, get?_change, if_neg docKey_notMem_entryKeys, if_neg other, if_neg docKey_notMem_entryKeys, getBytes]
    rw [ok_bind, ok_bind, kept]

/-- Equal keys come from equal values, and a put under one value is not seen under another. -/
def OwnDocuments (S : Serde) (k k' : Value) : Prop :=
  (encodePrimaryKey S k = encodePrimaryKey S k' → k = k') ∧ (k ≠ k' → ∀ (db : JsonDB) (store : String) (d : StoreDef) (doc : Value),
    db.schema.get? store = some d → extractField doc d.keyPath = some k →
    JsonStores.get S (JsonDb.put S db store doc).2 store k' = JsonStores.get S db store k')

/-- Two values that are accepted as keys name documents of their own exactly if neither is a string
that reads like the other. -/
theorem own_documents_iff (S : Serde) (floats : FloatTexts S) {k k' : Value} {a a' : Bytes} (whole : k.wellFormed = true)
    (whole' : k'.wellFormed = true) (accepted : encodePrimaryKey S k = .ok a) (accepted' : encodePrimaryKey S k' = .ok a') :
    OwnDocuments S k k' ↔ ¬ReadsLike S k k' := by
  constructor
  · rintro ⟨injective, _⟩ reads
    obtain ⟨rfl, apart⟩ := readsLike_same reads accepted accepted'
    exact apart (injective (accepted.trans accepted'.symm))
  · intro unlike
    refine ⟨fun same => ?_, fun apart db store d doc defined keyed => ?_⟩
    · exact (key_same floats whole whole' accepted (same.symm.trans accepted)).resolve_right unlike
    · refine get_put_elsewhere defined keyed fun b encoded encoded' => ?_
      exact (key_same floats whole whole' encoded encoded').elim apart unlike

end

/-! A string and the number it reads like. -/

def keySerde : Serde := { JsonSessions.sampleSerde with
  floatText := fun bits => decimal bits.toNat ++ [46, 48]
  float_nul_free := fun bits zero => by
    rcases List.mem_append.mp zero with digits | point
    · exact zero_notMem_decimal _ digits
    · exact absurd point (by decide) }

theorem keySerde_floats : FloatTexts keySerde := by
  refine ⟨fun a b _ _ same => ?_, fun a _ => Or.inl (List.mem_append_right _ (by decide)), fun a _ => ?_⟩
  · exact UInt64.toNat_inj.mp (decimal_injective (List.append_cancel_right same))
  · obtain ⟨c, rest, digits⟩ := List.exists_cons_of_ne_nil (show decimal a.toNat ≠ [] by simp [decimal])
    refine ⟨c, rest ++ [46, 48], ?_, Or.inr (digit_of_mem_decimal (digits ▸ List.mem_cons_self))⟩
    change decimal a.toNat ++ _ = _
    rw [digits, List.cons_append]

theorem own_documents_iff_one : ¬OwnDocuments keySerde (.string "1") (.number (.posInt 1)) := fun own =>
  (@own_documents_iff keySerde keySerde_floats _ _ (utf8 "1") (utf8 "1") rfl rfl (by rfl) (by rfl)).mp own
    (show utf8 "1" = numberText keySerde (.posInt 1) by rfl)

theorem text_shares_key : ¬∀ (S : Serde) (k k' : Value) (a a' : Bytes), FloatTexts S → k.wellFormed = true → k'.wellFormed = true →
    encodePrimaryKey S k = .ok a → encodePrimaryKey S k' = .ok a' → OwnDocuments S k k' := by
  intro own
  have numbered := own keySerde (.string "1") (.number (.posInt 1)) (utf8 "1") (utf8 "1") keySerde_floats rfl rfl (by rfl) (by rfl)
  exact nomatch numbered.1 (by rfl)

end FlowDb.PrimaryKeys
