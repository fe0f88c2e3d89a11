import FlowDb.JsonDb
import FlowDb.PrefixOrder

/-! Who owns a key of the shared key space. A store owns its document keys, the
entries of each of its indexes, its schema record and its counter; names without
NUL make the owner unique. Ranges are cut at prefixes of owned keys. -/
namespace FlowDb.KeySpace
open ByteString OrderedMap Records JsonValue JsonEncoding JsonDb PrefixOrder

inductive Kind where
  | docs
  | index (name : String)
  | schema
  | counter
  deriving DecidableEq, Repr

def Kind.Named : Kind → Prop
  | .index name => sep ∉ utf8 name
  | _ => True

def Owns (store : String) : Kind → Bytes → Prop
  | .docs, k => docPrefix store <+: k
  | .index name, k => idxPrefix store name <+: k
  | .schema, k => k = schemaKey store
  | .counter, k => k = counterKey store

theorem owns_docs {store : String} {k : Bytes} (owns : Owns store .docs k) : ∃ key, k = docKey store key := by
  obtain ⟨key, rfl⟩ := owns
  exact ⟨key, by simp [docPrefix, docKey]⟩

theorem owns_index {store index : String} {k : Bytes} (owns : Owns store (.index index) k) :
    ∃ rest, k = idxTag :: (utf8 store ++ sep :: (utf8 index ++ sep :: rest)) := by
  obtain ⟨rest, rfl⟩ := owns
  exact ⟨rest, by simp [idxPrefix]⟩

def Kind.tag : Kind → UInt8
  | .docs => docTag
  | .index _ => idxTag
  | .schema => schTag
  | .counter => ctrTag

theorem owns_head {store : String} {kind : Kind} {k : Bytes} (owns : Owns store kind k) : k.head? = some kind.tag := by
  cases kind with
  | docs =>
    obtain ⟨key, rfl⟩ := owns_docs owns
    rfl
  | index name =>
    obtain ⟨rest, rfl⟩ := owns_index owns
    rfl
  | schema | counter =>
    subst owns
    rfl

/-- A key has one owner: the tag tells the kind, the separators end the names. -/
theorem owner_unique {store store' : String} {kind kind' : Kind} {k : Bytes} (name : sep ∉ utf8 store)
    (name' : sep ∉ utf8 store') (named : kind.Named) (named' : kind'.Named) (owns : Owns store kind k)
    (owns' : Owns store' kind' k) : store = store' ∧ kind = kind' := by
  have tags : kind.tag = kind'.tag := Option.some.inj ((owns_head owns).symm.trans (owns_head owns'))
  cases kind with
  | docs =>
    cases kind' with
    | docs =>
      obtain ⟨key, rfl⟩ := owns_docs owns
      obtain ⟨key', same⟩ := owns_docs owns'
      exact ⟨(docKey_inj name name' same).1, rfl⟩
    | index _ | schema | counter => exact absurd tags (by dsimp only [Kind.tag]; decide)
  | index index =>
    cases kind' with
    | index index' =>
      obtain ⟨rest, rfl⟩ := owns_index owns
      obtain ⟨rest', same⟩ := owns_index owns'
      obtain ⟨stores, tails⟩ := append_sep_inj name name' (List.cons.inj same).2
      obtain ⟨indexes, _⟩ := append_sep_inj named named' tails
      exact ⟨utf8_injective _ _ stores, congrArg Kind.index (utf8_injective _ _ indexes)⟩
    | docs | schema | counter => exact absurd tags (by dsimp only [Kind.tag]; decide)
  | schema =>
    cases kind' with
    | schema => exact ⟨utf8_injective _ _ (List.cons.inj (owns.symm.trans owns')).2, rfl⟩
    | docs | index _ | counter => exact absurd tags (by dsimp only [Kind.tag]; decide)
  | counter =>
    cases kind' with
    | counter => exact ⟨utf8_injective _ _ (List.cons.inj (owns.symm.trans owns')).2, rfl⟩
    | docs | index _ | schema => exact absurd tags (by dsimp only [Kind.tag]; decide)

/-! The range of a prefix. A key's tag can always grow, so the upper end is the
successor of the prefix and the range holds exactly the keys that begin with it. -/

theorem bumpLast_eq {key bumped : Bytes} (grown : bumpLast key = some bumped) :
    ∃ n x rest, key = List.replicate n 255 ++ x :: rest ∧ x < 255 ∧ bumped = (x + 1) :: rest := by
  induction key with
  | nil => cases grown
  | cons b rest ih =>
    rw [bumpLast] at grown
    split_ifs at grown with small
    · obtain rfl := Option.some.inj grown
      exact ⟨0, b, rest, rfl, small, rfl⟩
    · obtain rfl : b = 255 := le_antisymm (UInt8.le_iff_toNat_le.mpr (by have := b.toNat_lt; change b.toNat ≤ 255; omega))
        (not_lt.mp small)
      obtain ⟨n, x, tail, rfl, bounded, same⟩ := ih grown
      exact ⟨n + 1, x, tail, rfl, bounded, same⟩

theorem bumpLast_grows {key : Bytes} {b : UInt8} (member : b ∈ key) (small : b < 255) : bumpLast key ≠ none := by
  induction key with
  | nil => exact absurd member List.not_mem_nil
  | cons c rest ih =>
    rw [bumpLast]
    split_ifs with first
    · exact Option.some_ne_none _
    · exact ih ((List.mem_cons.mp member).resolve_left fun same => first (same ▸ small))

theorem bumpLast_top {p : Bytes} (top : ∀ b ∈ p, b = 255) : bumpLast p.reverse = none := by
  by_contra grown
  obtain ⟨bumped, grown⟩ := Option.ne_none_iff_exists'.mp grown
  obtain ⟨n, x, rest, shape, small, _⟩ := bumpLast_eq grown
  have inside : x ∈ p := List.mem_reverse.mp (shape ▸ by simp)
  exact absurd (top x inside ▸ small) (lt_irrefl _)

theorem increment_sentinel {p : Bytes} (top : ∀ b ∈ p, b = 255) : incrementPrefixBytes p = p ++ [0] := by
  simp [incrementPrefixBytes, incrementOr, bumpLast_top top]

theorem byte_covers {x : UInt8} (small : x < 255) : x ⋖ x + 1 := by
  have bound : x.toNat < 255 := UInt8.lt_iff_toNat_lt.mp small
  have grown : (x + 1).toNat = x.toNat + 1 := by
    rw [UInt8.toNat_add]
    exact Nat.mod_eq_of_lt (by change x.toNat + 1 < 256; omega)
  refine ⟨UInt8.lt_iff_toNat_lt.mpr (by omega), fun y above below => ?_⟩
  have := UInt8.lt_iff_toNat_lt.mp above
  have := UInt8.lt_iff_toNat_lt.mp below
  omega

theorem increment_successor {pfx : Bytes} {b : UInt8} (member : b ∈ pfx) (small : b < 255) :
    Successor 255 pfx (incrementPrefixBytes pfx) := by
  obtain ⟨bumped, grown⟩ := Option.ne_none_iff_exists'.mp (bumpLast_grows (List.mem_reverse.mpr member) small)
  obtain ⟨n, x, rest, whole, bounded, rfl⟩ := bumpLast_eq grown
  refine ⟨rest.reverse, x, x + 1, n, ?_, byte_covers bounded, ?_⟩
  · rw [← List.reverse_reverse pfx, whole]
    simp
  · simp [incrementPrefixBytes, incrementOr, grown]

theorem greatest_byte (x : UInt8) : x ≤ 255 :=
  UInt8.le_iff_toNat_le.mpr (Nat.le_of_lt_succ x.toNat_lt)

theorem least_byte (x : UInt8) : 0 ≤ x := UInt8.le_iff_toNat_le.mpr (Nat.zero_le _)

/-- A key that can be extended into ranges: one of the four tags stands first. -/
def Tagged (pfx : Bytes) : Prop := ∃ b rest, pfx = b :: rest ∧ b < 255

theorem tagged_successor {pfx : Bytes} (tagged : Tagged pfx) : Successor 255 pfx (incrementPrefixBytes pfx) := by
  obtain ⟨b, rest, rfl, small⟩ := tagged
  exact increment_successor List.mem_cons_self small

theorem between_increment {pfx k : Bytes} (tagged : Tagged pfx) :
    pfx ≤ k ∧ k < incrementPrefixBytes pfx ↔ pfx <+: k :=
  between_successor greatest_byte (tagged_successor tagged)

/-- A scan whose two ends begin with the same bytes returns only keys that begin with them. -/
theorem matches_begins {p start stop k : Bytes} (low : p <+: start) (high : p <+: stop)
    (found : (ScanRange.toQueryParams ⟨.included start, .excluded stop, .unbounded, .unbounded⟩).1.matchesKey k = true) :
    p <+: k := by
  simp only [ScanRange.toQueryParams] at found
  split_ifs at found with successor
  · simp only [KeyFilter.matchesKey, List.isPrefixOf_iff_prefix] at found
    exact low.trans found
  · simp only [KeyFilter.matchesKey, decide_eq_true_eq] at found
    exact prefix_between low high found.1 found.2

theorem tagged_append {pfx : Bytes} (back : Bytes) (tagged : Tagged pfx) : Tagged (pfx ++ back) := by
  obtain ⟨b, rest, rfl, small⟩ := tagged
  exact ⟨b, rest ++ back, rfl, small⟩

theorem docPrefix_tagged (store : String) : Tagged (docPrefix store) := ⟨docTag, _, rfl, by decide⟩

theorem idxPrefix_tagged (store index : String) : Tagged (idxPrefix store index) := ⟨idxTag, _, rfl, by decide⟩

theorem matches_le {start stop k : Bytes} (tagged : Tagged start)
    (found : (ScanRange.toQueryParams ⟨.included start, .excluded stop, .unbounded, .unbounded⟩).1.matchesKey k = true) :
    k ≤ stop := by
  simp only [ScanRange.toQueryParams] at found
  split_ifs at found with successor
  · simp only [KeyFilter.matchesKey, List.isPrefixOf_iff_prefix] at found
    obtain rfl := beq_iff_eq.mp successor
    exact ((between_increment tagged).mpr found).2.le
  · simp only [KeyFilter.matchesKey, decide_eq_true_eq] at found
    exact found.2

-- An end that is the successor of the start is not met: what a key has in front of it
-- would lie below the start.
theorem matches_of_le {start stop front k : Bytes} (tagged : Tagged start) (inside : front <+: k) (proper : front ≠ k)
    (above : start ≤ front) (below : k ≤ stop) :
    (ScanRange.toQueryParams ⟨.included start, .excluded stop, .unbounded, .unbounded⟩).1.matchesKey k = true := by
  simp only [ScanRange.toQueryParams]
  split_ifs with successor
  · simp only [KeyFilter.matchesKey, List.isPrefixOf_iff_prefix]
    obtain rfl := beq_iff_eq.mp successor
    refine (between_increment tagged).mp ⟨above.trans (prefix_le inside), lt_of_le_of_ne below fun same => ?_⟩
    subst same
    obtain ⟨within, short⟩ := proper_prefix_successor (tagged_successor tagged) inside proper
    have strictly := prefix_lt within fun same => absurd (congrArg List.length same) short.ne
    exact absurd above (not_le.mpr strictly)
  · simp only [KeyFilter.matchesKey, decide_eq_true_eq]
    exact ⟨above.trans (prefix_le inside), below⟩

theorem prefixRange_matches {pfx k : Bytes} :
    (prefixRange pfx).toQueryParams.1.matchesKey k = true ↔ pfx <+: k := by
  rw [prefixRange_params, KeyFilter.matchesKey, List.isPrefixOf_iff_prefix]

end FlowDb.KeySpace
