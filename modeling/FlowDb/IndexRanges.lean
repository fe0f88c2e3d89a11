import FlowDb.IndexLookups

/-! Ranges of a single-field index. Behind the value an entry goes on with a separator and a
primary key. No value of another length goes on with a NUL, so neither the inclusive end nor
the rewriting into a prefix scan moves an entry across a bound. -/
namespace FlowDb.IndexRanges
open ByteString OrderedMap Records JsonValue JsonEncoding JsonDb JsonQuery JsonIndexes JsonStores IndexOrder IndexLookups
open KeySpace PrefixOrder QueryResults TransactionLookups

/-- A null, boolean or number, or a string without NUL. -/
def Bounded (v : Value) : Prop := isScalar v = true ∧ ∀ s, v = .string s → sep ∉ utf8 s

section
variable {S : Serde}

theorem no_mark_behind {v w : Value} (bounded : Bounded v) (bounded' : Bounded w) :
    ¬encodeIndexValue S v ++ [sep] <+: encodeIndexValue S w := by
  intro front
  have tags : tagOf v = tagOf w := by
    obtain ⟨rest, head⟩ := encode_head S v
    obtain ⟨rest', head'⟩ := encode_head S w
    rw [head, head', List.cons_append, List.cons_prefix_cons] at front
    exact front.1
  have inside : sep ∈ encodeIndexValue S w := front.subset (by simp)
  rcases alike_of_tag (S := S) tags with ⟨s, t, rfl, rfl⟩ | lengths | ⟨_, free⟩
  · rcases List.mem_cons.mp inside with tag | later
    · exact absurd tag (by decide)
    · exact bounded'.2 t rfl later
  · have longer := front.length_le
    rw [List.length_append, lengths] at longer
    simp at longer
  · exact free inside

/-- A scan from one value to another meets the entries of the values between them. -/
theorem range_matches {store index : String} {start stop v : Value} {key : Bytes} (first : Bounded start) (last : Bounded stop)
    (bounded : Bounded v) :
    (indexRange store index (encodeIndexValue S start) (encodeIndexValue S stop)).toQueryParams.1.matchesKey
        (idxKey store index (encodeIndexValue S v) key) = true ↔
      encodeIndexValue S start ≤ encodeIndexValue S v ∧ encodeIndexValue S v < encodeIndexValue S stop := by
  have shape : idxKey store index (encodeIndexValue S v) key = idxPrefix store index ++ (encodeIndexValue S v ++ sep :: key) := by
    simp [idxKey, idxPrefix]
  have least : ∀ x, sep ≤ x := least_byte
  rw [shape, indexRange, ScanRange.toQueryParams]
  dsimp only
  split_ifs with successor
  · have tagged := tagged_append (encodeIndexValue S start) (idxPrefix_tagged store index)
    rw [KeyFilter.matchesKey, List.isPrefixOf_iff_prefix, ← between_increment tagged, ← beq_iff_eq.mp successor,
      append_le_append_left, append_lt_append_left, le_marked least (no_mark_behind bounded first),
      marked_lt least (no_mark_behind bounded last)]
  · rw [KeyFilter.matchesKey, decide_eq_true_iff, append_le_append_left, append_le_append_left,
      le_marked least (no_mark_behind bounded first), marked_le least (no_mark_behind bounded last)]

/-- The value of a document is in the range. -/
def Within (S : Serde) (path : String) (start stop : Value) (doc : Value) : Prop :=
  ∃ v, extractField doc path = some v ∧ encodeIndexValue S start ≤ encodeIndexValue S v ∧
    encodeIndexValue S v < encodeIndexValue S stop

theorem collect_single {doc : Value} {path : String} : collectFields doc [path] = (extractField doc path).map fun v => [v] := by
  rw [collectFields, collectFields]
  cases extractField doc path <;> rfl

theorem extract_bounded {doc : Value} {idx : IndexDef} {path : String} (paths : idx.keyPaths = [path])
    (bounded : ∀ v, extractField doc path = some v → Bounded v) :
    extractIndexValues doc idx = (collectFields doc idx.keyPaths).toList := by
  rw [extractIndexValues, paths, collect_single]
  cases found : extractField doc path with
  | none => rfl
  | some v =>
    have scalar := (bounded v found).1
    cases v with
    | array items => cases scalar
    | _ => cases idx.multiEntry <;> rfl

/-- A range lookup returns each document whose encoded value lies between the bounds once, and no other. -/
theorem range_by_index_exact (S : Serde) {db : JsonDB} {store index path : String} {d : StoreDef} {idx : IndexDef}
    {start stop : Value} (mirrored : Mirrored S db) (defined : db.schema.get? store = some d)
    (found : findIndex d store index = .ok idx) (paths : idx.keyPaths = [path])
    (stored : ∀ key doc, storedDoc S db store key = some doc → ∀ v, extractField doc path = some v → Bounded v)
    (first : Bounded start) (last : Bounded stop) :
    Returns S db store (Within S path start stop) (rangeByIndex S db store index start stop) := by
  obtain ⟨member, rfl⟩ := findIndex_ok found
  have mirrors := mirrors_of_mirrored mirrored defined member
  obtain ⟨distinct, hits⟩ := scanned_keys mirrors (fun key doc here => extract_bounded paths (stored key doc here))
    (indexRange_within (encodeLookup S idx start) (encodeLookup S idx stop))
  rw [rangeByIndex, getStore_of defined, ok_bind, found, ok_bind, fetch_eq mirrors.docs, returns_iff distinct hits]
  intro key doc here
  have alone : ∀ v, encodeLookup S idx v = encodeIndexValue S v := by
    intro v
    simp [encodeLookup, paths]
  rw [paths, collect_single, alone, alone, Within]
  cases value : extractField doc path with
  | none => simp
  | some v =>
    have bytes : encodeCompositeValue S [v] = encodeIndexValue S v := by simp [encodeCompositeValue]
    simp only [Option.map_some, Option.some.injEq, exists_eq_left', bytes]
    exact range_matches first last (stored key doc here v value)

end

theorem sample_bounded (db : JsonDB) (store : String) : ∀ key doc, storedDoc JsonSessions.sampleSerde db store key = some doc →
    ∀ v, extractField doc "email" = some v → Bounded v := by
  intro key doc stored v value
  obtain ⟨bytes, _, decoded⟩ := stored_decodes stored
  have sample : doc = JsonSessions.sampleDoc ∨ doc = JsonSessions.clashDoc := by
    unfold decodeDoc JsonSessions.sampleSerde at decoded
    dsimp only at decoded
    split_ifs at decoded
    · exact Or.inl (Except.ok.inj decoded).symm
    · exact Or.inr (Except.ok.inj decoded).symm
  obtain rfl : v = .string "a" := by
    rcases sample with rfl | rfl <;> exact (Option.some.inj value).symm
  exact ⟨rfl, fun s same => by rw [← Value.string.inj same]; decide⟩

theorem range_by_index_exact_sample :
    Returns JsonSessions.sampleSerde JsonSessions.sampleSession.db "users"
      (Within JsonSessions.sampleSerde "email" (.string "a") (.string "b"))
      (rangeByIndex JsonSessions.sampleSerde JsonSessions.sampleSession.db "users" "by_email" (.string "a") (.string "b")) :=
  range_by_index_exact JsonSessions.sampleSerde (JsonSessions.reachable_sound JsonSessions.sampleSession_reachable).mirrored
    (d := JsonSessions.sampleStore) rfl rfl rfl (sample_bounded _ _)
    ⟨rfl, fun s same => by rw [← Value.string.inj same]; decide⟩ ⟨rfl, fun s same => by rw [← Value.string.inj same]; decide⟩

end FlowDb.IndexRanges
