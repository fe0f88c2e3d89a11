import FlowDb.Records
import FlowDb.JsonValue

/-! Key layout and value encoding of encoding.rs. Store and index names hold no
NUL, nor do the primary keys of stored documents, so the first and the last
separator of a key cut it in one way whatever bytes the indexed value holds. -/
namespace FlowDb.JsonEncoding
open ByteString Records JsonValue

inductive FlowError where
  | json
  | jsonDb (msg : String)
  deriving DecidableEq, Repr

def docTag : UInt8 := 0x01
def idxTag : UInt8 := 0x02
def schTag : UInt8 := 0x03
def ctrTag : UInt8 := 0x04
def sep : UInt8 := 0x00

def docPrefix (store : String) : Bytes := docTag :: (utf8 store ++ [sep])

def docKey (store : String) (key : Bytes) : Bytes := docTag :: (utf8 store ++ sep :: key)

def idxPrefix (store index : String) : Bytes :=
  idxTag :: (utf8 store ++ sep :: (utf8 index ++ [sep]))

def idxValuePrefix (store index : String) (value : Bytes) : Bytes :=
  idxTag :: (utf8 store ++ sep :: (utf8 index ++ sep :: (value ++ [sep])))

def idxKey (store index : String) (value key : Bytes) : Bytes :=
  idxTag :: (utf8 store ++ sep :: (utf8 index ++ sep :: (value ++ sep :: key)))

def schemaKey (store : String) : Bytes := schTag :: utf8 store

def counterKey (store : String) : Bytes := ctrTag :: utf8 store

def prefixRange (pfx : Bytes) : ScanRange where
  keyStart := .included pfx
  keyEnd := .excluded (incrementPrefixBytes pfx)
  tsStart := .unbounded
  tsEnd := .unbounded

-- The range's upper end is what the query side recognises as a prefix.
theorem prefixRange_params (pfx : Bytes) :
    (prefixRange pfx).toQueryParams = (.keyPrefix pfx, none) := by
  simp [prefixRange, ScanRange.toQueryParams, isPrefixRange]

theorem append_sep_inj {α : Type} {mark : α} {a a' x x' : List α} (free : mark ∉ a)
    (free' : mark ∉ a') (same : a ++ mark :: x = a' ++ mark :: x') : a = a' ∧ x = x' := by
  induction a generalizing a' with
  | nil =>
    cases a' with
    | nil => exact ⟨rfl, (List.cons.inj same).2⟩
    | cons b rest => exact absurd (List.cons.inj same).1 fun h => free' (h ▸ List.mem_cons_self)
  | cons b rest ih =>
    cases a' with
    | nil => exact absurd (List.cons.inj same).1 fun h => free (h ▸ List.mem_cons_self)
    | cons b' rest' =>
      obtain ⟨rfl, tails⟩ := List.cons.inj same
      obtain ⟨rfl, rfl⟩ := ih (fun h => free (List.mem_cons_of_mem _ h))
        (fun h => free' (List.mem_cons_of_mem _ h)) tails
      exact ⟨rfl, rfl⟩

theorem append_last_sep_inj {α : Type} {mark : α} {a a' x x' : List α} (free : mark ∉ x)
    (free' : mark ∉ x') (same : a ++ mark :: x = a' ++ mark :: x') : a = a' ∧ x = x' := by
  have reversed : x.reverse ++ mark :: a.reverse = x'.reverse ++ mark :: a'.reverse := by
    simpa using congrArg List.reverse same
  obtain ⟨tails, heads⟩ := append_sep_inj (by simpa using free) (by simpa using free') reversed
  exact ⟨List.reverse_inj.mp heads, List.reverse_inj.mp tails⟩

theorem docKey_inj {store store' : String} {key key' : Bytes} (name : sep ∉ utf8 store)
    (name' : sep ∉ utf8 store') (same : docKey store key = docKey store' key') :
    store = store' ∧ key = key' := by
  obtain ⟨stores, keys⟩ := append_sep_inj name name' (List.cons.inj same).2
  exact ⟨utf8_injective _ _ stores, keys⟩

theorem docKey_injective (store : String) : Function.Injective (docKey store) := fun _ _ same =>
  (List.cons.inj (List.append_cancel_left (List.cons.inj same).2)).2

theorem idxKey_inj {store store' index index' : String} {value value' key key' : Bytes}
    (name : sep ∉ utf8 store) (name' : sep ∉ utf8 store')
    (idxName : sep ∉ utf8 index) (idxName' : sep ∉ utf8 index')
    (pk : sep ∉ key) (pk' : sep ∉ key')
    (same : idxKey store index value key = idxKey store' index' value' key') :
    store = store' ∧ index = index' ∧ value = value' ∧ key = key' := by
  obtain ⟨stores, rest⟩ := append_sep_inj name name' (List.cons.inj same).2
  obtain ⟨indexes, tails⟩ := append_sep_inj idxName idxName' rest
  obtain ⟨values, keys⟩ := append_last_sep_inj pk pk' tails
  exact ⟨utf8_injective _ _ stores, utf8_injective _ _ indexes, values, keys⟩

theorem idxPrefix_isPrefix_idxKey (store index : String) (value key : Bytes) :
    idxPrefix store index <+: idxKey store index value key :=
  ⟨value ++ sep :: key, by simp [idxPrefix, idxKey]⟩

theorem idxValuePrefix_isPrefix_idxKey (store index : String) (value key : Bytes) :
    idxValuePrefix store index value <+: idxKey store index value key :=
  ⟨key, by simp [idxValuePrefix, idxKey]⟩

-- An index prefix names its store and its index.
theorem idxPrefix_of_idxKey {store store' index index' : String} {value key : Bytes}
    (name : sep ∉ utf8 store) (name' : sep ∉ utf8 store')
    (idxName : sep ∉ utf8 index) (idxName' : sep ∉ utf8 index')
    (starts : idxPrefix store index <+: idxKey store' index' value key) :
    store = store' ∧ index = index' := by
  obtain ⟨tail, whole⟩ := starts
  have same : utf8 store ++ sep :: (utf8 index ++ sep :: tail) =
      utf8 store' ++ sep :: (utf8 index' ++ sep :: (value ++ sep :: key)) := by
    simpa [idxPrefix, idxKey] using whole
  obtain ⟨stores, rest⟩ := append_sep_inj name name' same
  obtain ⟨indexes, _⟩ := append_sep_inj idxName idxName' rest
  exact ⟨utf8_injective _ _ stores, utf8_injective _ _ indexes⟩

def signBit : UInt64 := 0x8000000000000000

def encodeIndexValue (S : Serde) : Value → Bytes
  | .null => [0x01]
  | .bool false => [0x02]
  | .bool true => [0x03]
  | .number n =>
      match n.asI64, n.asU64, n with
      | some i, _, _ => 0x04 :: toBe 8 (i ^^^ signBit).toNat
      | none, some u, _ => 0x06 :: toBe 8 (u ^^^ signBit).toNat
      | none, none, .float bits =>
          let adjusted := if bits &&& signBit != 0 then ~~~bits else bits ^^^ signBit
          0x05 :: toBe 8 adjusted.toNat
      | none, none, _ => [0x08]
  | .string s => 0x07 :: utf8 s
  | value => 0x08 :: (S.toVec value).getD []

/-- The fields of a tuple, each after the first behind a separator. -/
def encodeCompositeValue (S : Serde) : List Value → Bytes
  | [] => []
  | v :: rest => encodeIndexValue S v ++ rest.flatMap fun w => sep :: encodeIndexValue S w

def numberText (S : Serde) : Number → Bytes
  | .posInt n => decimal n.toNat
  | .negInt n => 45 :: decimal n.toInt.natAbs
  | .float bits => S.floatText bits

def encodePrimaryKey (S : Serde) : Value → Except FlowError Bytes
  | .string s =>
      if s.toList.contains (Char.ofNat 0) then
        .error (.jsonDb "primary key must not contain null byte (\\x00)")
      else .ok (utf8 s)
  | .number n => .ok (numberText S n)
  | .bool b => .ok (utf8 (if b then "true" else "false"))
  | .null => .ok [0x00]
  | value =>
      match S.toVec value with
      | some text => .ok (0xFF :: text)
      | none => .error .json

theorem zero_notMem_numberText (S : Serde) (n : Number) : sep ∉ numberText S n := by
  cases n with
  | posInt n => exact zero_notMem_decimal _
  | negInt n =>
    intro zero
    rcases List.mem_cons.mp zero with h | h
    · exact absurd h (by decide)
    · exact zero_notMem_decimal _ h
  | float bits => exact S.float_nul_free bits

-- Only the null key is written with a NUL byte.
theorem encodePrimaryKey_nul_free (S : Serde) (value : Value) (key : Bytes)
    (notNull : value ≠ .null) (encoded : encodePrimaryKey S value = .ok key) :
    sep ∉ key := by
  cases value with
  | null => exact (notNull rfl).elim
  | bool b =>
    obtain rfl := Except.ok.inj encoded
    cases b <;> decide
  | number n =>
    obtain rfl := Except.ok.inj encoded
    exact zero_notMem_numberText S n
  | string s =>
    simp only [encodePrimaryKey] at encoded
    split_ifs at encoded with nul
    obtain rfl := Except.ok.inj encoded
    intro zero
    exact nul (by simpa using zero_mem_utf8 s zero)
  | array items | object members =>
    simp only [encodePrimaryKey] at encoded
    split at encoded
    · next text written =>
      obtain rfl := Except.ok.inj encoded
      intro zero
      rcases List.mem_cons.mp zero with h | h
      · exact absurd h (by decide)
      · exact S.text_nul_free _ _ written h
    · cases encoded

def encodeDoc (S : Serde) (doc : Value) : Except FlowError Bytes :=
  match S.toVec doc with
  | some text => .ok text
  | none => .error .json

def decodeDoc (S : Serde) (bytes : Bytes) : Except FlowError Value :=
  match S.fromSlice bytes with
  | some doc => .ok doc
  | none => .error .json

theorem decode_encode_doc (S : Serde) (doc : Value) (bytes : Bytes)
    (whole : doc.wellFormed = true) (encoded : encodeDoc S doc = .ok bytes) :
    decodeDoc S bytes = .ok doc := by
  unfold encodeDoc at encoded
  split at encoded
  · next text written =>
    obtain rfl := Except.ok.inj encoded
    simp [decodeDoc, S.round_trip doc text whole written]
  · cases encoded

def isNameByte (b : UInt8) : Bool :=
  (48 ≤ b && b ≤ 57) || (65 ≤ b && b ≤ 90) || (97 ≤ b && b ≤ 122) || b == 95 || b == 45

def validateName (name : String) : Except FlowError Unit :=
  if name.isEmpty then .error (.jsonDb "name cannot be empty")
  else if (utf8 name).length > 255 then .error (.jsonDb "name too long (max 255 bytes)")
  else if !(utf8 name).all isNameByte then
    .error (.jsonDb s!"invalid name '{name}': only alphanumeric, underscore and dash are allowed")
  else .ok ()

theorem validateName_nul_free (name : String) (valid : validateName name = .ok ()) :
    sep ∉ utf8 name := by
  unfold validateName at valid
  split_ifs at valid with empty long bad
  intro zero
  have every : (utf8 name).all isNameByte = true := by simpa using bad
  exact absurd (List.all_eq_true.mp every _ zero) (by decide)

end FlowDb.JsonEncoding
