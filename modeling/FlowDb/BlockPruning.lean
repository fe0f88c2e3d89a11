import FlowDb.IndexAgreement
import FlowDb.KeySpace

/-! What the block index leaves out of a scan. A block is filed under the bucket of its
smallest timestamp and under its smallest key; a query visits the buckets from that of its
start on, and the keys up to the successor of its prefix or end. -/
namespace FlowDb.BlockPruning
open ByteString OrderedMap PrefixOrder Records Sstable BlockIndex BlockMetaIndex IndexAgreement KeySpace JsonValue

section
variable (timeBucketSecs : Nat) (ssts : List (Nat × List BlockInfo))

/-- The index that adding tables gives, and the blocks it is to know. -/
def built : BlockMetaIndex := ssts.foldl (fun idx sst => idx.addSst sst.1 sst.2) (.new timeBucketSecs)

def added : List BlockMeta := ssts.flatMap fun sst => sst.2.map (BlockMeta.fromBlockInfo sst.1)

def bucket (ts : Int) : Int := ts.tdiv (timeBucketSecs * 1000000)

/-- Tables of different ids, and in each the blocks of different numbers. -/
structure Numbered : Prop where
  ids : (ssts.map Prod.fst).Nodup
  blocks : ∀ sst ∈ ssts, (sst.2.map (·.blockIdx)).Nodup

/-- The query does not panic, and every unexpired block that meets the time range is in its result. -/
def TimeLossless (tsStart tsEnd nowUs : Int) : Prop :=
  ∃ found, (built timeBucketSecs ssts).query .all (some (tsStart, tsEnd)) nowUs = some found ∧
    ∀ m ∈ added ssts, m.isExpired nowUs = false →
      (∃ ts, m.minTs ≤ ts ∧ ts ≤ m.maxTs ∧ tsStart ≤ ts ∧ ts ≤ tsEnd) → m ∈ found

/-- Every unexpired block that a key of the filter lies in is in the result. -/
def KeyLossless (keyFilter : KeyFilter) (nowUs : Int) : Prop :=
  ∃ found, (built timeBucketSecs ssts).query keyFilter none nowUs = some found ∧
    ∀ m ∈ added ssts, m.isExpired nowUs = false →
      (∃ k, m.minKey ≤ k ∧ k ≤ m.maxKey ∧ keyFilter.matchesKey k = true) → m ∈ found

end

section
variable {timeBucketSecs : Nat} {ssts : List (Nat × List BlockInfo)}

theorem built_buckets (timeBucketSecs : Nat) (ssts : List (Nat × List BlockInfo)) :
    (built timeBucketSecs ssts).timeBucketUs = timeBucketSecs * 1000000 ∧
      Buckets (built timeBucketSecs ssts).byKey (·.minKey) (added ssts) ∧
      Buckets (built timeBucketSecs ssts).byTime (fun m => bucket timeBucketSecs m.minTs) (added ssts) := by
  induction ssts using List.reverseRecOn with
  | nil => exact ⟨rfl, .empty, .empty⟩
  | append_singleton ssts last ih =>
    obtain ⟨width, byKey, byTime⟩ := ih
    have filed : bucketOf (built timeBucketSecs ssts) = fun m => bucket timeBucketSecs m.minTs := by
      funext m
      rw [bucketOf, width, bucket]
    obtain ⟨width', byKey', byTime'⟩ :=
      addBlocks_buckets (last.2.map (BlockMeta.fromBlockInfo last.1)) _ _ byKey (filed ▸ byTime)
    have all : added (ssts ++ [last]) = added ssts ++ last.2.map (BlockMeta.fromBlockInfo last.1) := by simp [added]
    have next : built timeBucketSecs (ssts ++ [last]) = (built timeBucketSecs ssts).addSst last.1 last.2 := by
      rw [built, List.foldl_append]
      rfl
    rw [all, next]
    exact ⟨width'.trans width, byKey', filed ▸ byTime'⟩

theorem mem_bucket {κ : Type} [LinearOrder κ] {m : OMap κ (List BlockMeta)} {key : BlockMeta → κ} {all : List BlockMeta}
    (buckets : Buckets m key all) (keep : κ → Bool) (b : BlockMeta) :
    b ∈ (m.filter fun k _ => keep k).values.flatten ↔ b ∈ all ∧ keep (key b) = true := by
  rw [mem_values_flatten]
  constructor
  · rintro ⟨k, l, held, inside⟩
    rw [get?_filter, Option.filter_eq_some_iff] at held
    obtain ⟨there, rfl⟩ := (buckets.mem held.1).2 b inside
    exact ⟨there, held.2⟩
  · rintro ⟨there, kept⟩
    have inside : b ∈ all.filter fun x => key x = key b := List.mem_filter.mpr ⟨there, by simp⟩
    refine ⟨key b, _, ?_, inside⟩
    rw [get?_filter, buckets (key b), nonempty, if_neg (List.ne_nil_of_mem inside), Option.filter_some, if_pos kept]

theorem numbered_unique (numbered : Numbered ssts) {a b : BlockMeta} (first : a ∈ added ssts) (second : b ∈ added ssts)
    (table : a.sstId = b.sstId) (block : a.blockIdx = b.blockIdx) : a = b := by
  obtain ⟨sst, member, inside⟩ := List.mem_flatMap.mp first
  obtain ⟨sst', member', inside'⟩ := List.mem_flatMap.mp second
  obtain ⟨bi, there, rfl⟩ := List.mem_map.mp inside
  obtain ⟨bi', there', rfl⟩ := List.mem_map.mp inside'
  obtain rfl := List.inj_on_of_nodup_map numbered.ids member member' table
  rw [List.inj_on_of_nodup_map (numbered.blocks sst member) there there' block]

/-! ### Time ranges -/

theorem mem_timeSet (tsStart tsEnd nowUs : Int) :
    (bucket timeBucketSecs tsEnd < bucket timeBucketSecs tsStart →
      (built timeBucketSecs ssts).collectTimeSet tsStart tsEnd nowUs = none) ∧
    (bucket timeBucketSecs tsStart ≤ bucket timeBucketSecs tsEnd → ∃ found,
      (built timeBucketSecs ssts).collectTimeSet tsStart tsEnd nowUs = some found ∧
      ∀ id, id ∈ found ↔ ∃ m ∈ added ssts, (m.sstId, m.blockIdx) = id ∧ m.isExpired nowUs = false ∧
        m.overlapsTime tsStart tsEnd = true ∧ bucket timeBucketSecs tsStart ≤ bucket timeBucketSecs m.minTs ∧
        bucket timeBucketSecs m.minTs ≤ bucket timeBucketSecs tsEnd) := by
  obtain ⟨width, _, byTime⟩ := built_buckets timeBucketSecs ssts
  simp only [collectTimeSet, width]
  refine ⟨fun behind => if_pos behind, fun ordered => ⟨_, if_neg (not_lt.mpr ordered), fun id => ?_⟩⟩
  simp only [List.mem_map, List.mem_filter, Bool.and_eq_true, Bool.not_eq_true']
  constructor
  · rintro ⟨m, ⟨inside, unexpired, meets⟩, same⟩
    obtain ⟨there, within⟩ := (mem_bucket byTime _ m).mp inside
    obtain ⟨low, high⟩ := of_decide_eq_true within
    exact ⟨m, there, same, unexpired, meets, low, high⟩
  · rintro ⟨m, there, same, unexpired, meets, low, high⟩
    exact ⟨m, ⟨(mem_bucket byTime _ m).mpr ⟨there, decide_eq_true ⟨low, high⟩⟩, unexpired, meets⟩, same⟩

theorem mem_all (nowUs : Int) (m : BlockMeta) :
    m ∈ (built timeBucketSecs ssts).collectByKey .all nowUs ↔ m ∈ added ssts ∧ m.isExpired nowUs = false := by
  have whole := (built_buckets timeBucketSecs ssts).2.1.perm.mem_iff (a := m)
  simp only [collectByKey, List.mem_filter, Bool.not_eq_true']
  exact and_congr_left fun _ => whole

/-- The widths that `Config::validate` accepts. -/
def AcceptedBucket (timeBucketSecs : Nat) : Prop :=
  timeBucketSecs ≠ 0 ∧ (timeBucketSecs : Int) ≤ i64Max / 1000000

theorem bucket_mono (accepted : AcceptedBucket timeBucketSecs) {a b : Int} (order : a ≤ b) :
    bucket timeBucketSecs a ≤ bucket timeBucketSecs b := by
  have positive : (0 : Int) < timeBucketSecs * 1000000 := by
    have := Nat.pos_of_ne_zero accepted.1
    omega
  exact Int.tdiv_le_tdiv positive order

/-- A time range finds every block that meets it, exactly if its end does not lie in a bucket before that of its
start and no such block begins in one. -/
theorem time_pruning_lossless_iff (accepted : AcceptedBucket timeBucketSecs) (numbered : Numbered ssts)
    (tsStart tsEnd nowUs : Int) :
    TimeLossless timeBucketSecs ssts tsStart tsEnd nowUs ↔
      bucket timeBucketSecs tsStart ≤ bucket timeBucketSecs tsEnd ∧
      ∀ m ∈ added ssts, m.isExpired nowUs = false →
        (∃ ts, m.minTs ≤ ts ∧ ts ≤ m.maxTs ∧ tsStart ≤ ts ∧ ts ≤ tsEnd) →
        bucket timeBucketSecs tsStart ≤ bucket timeBucketSecs m.minTs := by
  obtain ⟨panics, answers⟩ := @mem_timeSet timeBucketSecs ssts tsStart tsEnd nowUs
  constructor
  · rintro ⟨found, asked, whole⟩
    obtain ⟨timeSet, set, shape⟩ := Option.bind_eq_some_iff.mp asked
    obtain rfl := Option.some.inj shape
    have ordered : bucket timeBucketSecs tsStart ≤ bucket timeBucketSecs tsEnd := by
      by_contra behind
      rw [panics (not_le.mp behind)] at set
      cases set
    refine ⟨ordered, fun m member unexpired meets => ?_⟩
    obtain ⟨known, set', listed⟩ := answers ordered
    obtain rfl := Option.some.inj (set.symm.trans set')
    have kept := of_decide_eq_true (List.mem_filter.mp (whole m member unexpired meets)).2
    obtain ⟨other, there, same, _, _, low, _⟩ := (listed _).mp kept
    obtain ⟨table, block⟩ := Prod.mk.inj same
    exact numbered_unique numbered there member table block ▸ low
  · rintro ⟨ordered, begins⟩
    obtain ⟨timeSet, set, listed⟩ := answers ordered
    refine ⟨_, Option.bind_eq_some_iff.mpr ⟨timeSet, set, rfl⟩, fun m member unexpired meets => ?_⟩
    have start := begins m member unexpired meets
    obtain ⟨ts, low, high, after, before⟩ := meets
    have overlaps : m.overlapsTime tsStart tsEnd = true := decide_eq_true ⟨low.trans before, after.trans high⟩
    refine List.mem_filter.mpr ⟨(mem_all nowUs m).mpr ⟨member, unexpired⟩, decide_eq_true ?_⟩
    exact (listed _).mpr ⟨m, member, rfl, unexpired, overlaps, start, bucket_mono accepted (low.trans before)⟩

/-- A table of one block, from the second hour into the fourth. -/
def threeHours : List (Nat × List BlockInfo) := [(1, [⟨0, [97], [98], 3600000000, 14400000000, i64Max, i64Max⟩])]

theorem time_pruning_lossless_iff_hours : TimeLossless 3600 threeHours 3600000000 10800000000 0 := by
  refine (time_pruning_lossless_iff ⟨by decide, by decide⟩ ⟨by decide, by decide⟩ _ _ _).mpr ⟨by decide, ?_⟩
  intro m member _ _
  obtain rfl := List.mem_singleton.mp member
  decide

/-- Asked from the third hour on the block is left out, and a range that ends a bucket before its start panics. -/
theorem spanning_block_missed :
    ¬ TimeLossless 3600 threeHours 7200000000 10800000000 0 ∧ ¬ TimeLossless 3600 threeHours 7200000000 3600000000 0 := by
  constructor
  · rintro ⟨found, asked, whole⟩
    have nothing : found = [] := Option.some.inj (asked.symm.trans (by decide))
    have missed := whole _ List.mem_cons_self (by decide) ⟨7200000000, by decide, by decide, by decide, by decide⟩
    rw [nothing] at missed
    cases missed
  · rintro ⟨found, asked, _⟩
    exact Option.some_ne_none found (asked.symm.trans (by decide))

/-! ### Keys -/

/-- What the block index takes for the successor of a prefix without one. -/
def sentinel : Bytes := [0xEF, 0xBF, 0xBF]

theorem increment_increasing {p : Bytes} {b : UInt8} (member : b ∈ p) (small : b ≠ 255) {k : Bytes} :
    p ≤ k ∧ k < incrementPrefix p ↔ p <+: k := by
  have grows : b < 255 := lt_of_le_of_ne (greatest_byte b) small
  obtain ⟨bumped, grown⟩ := Option.ne_none_iff_exists'.mp (bumpLast_grows (List.mem_reverse.mpr member) grows)
  have same : incrementPrefix p = incrementPrefixBytes p := by simp [incrementPrefix, incrementPrefixBytes, incrementOr, grown]
  exact same ▸ between_successor greatest_byte (increment_successor member grows)

theorem increment_top {p : Bytes} (top : ∀ b ∈ p, b = 255) : incrementPrefix p = sentinel := by
  simp [incrementPrefix, incrementOr, bumpLast_top top, sentinel]

theorem mem_byKey (limit : Bytes) (keep : BlockMeta → Bool) (m : BlockMeta) :
    m ∈ (((built timeBucketSecs ssts).byKey.filter fun k _ => decide (k < limit)).values.flatten).filter keep ↔
      m ∈ added ssts ∧ m.minKey < limit ∧ keep m = true := by
  rw [List.mem_filter, mem_bucket (built_buckets timeBucketSecs ssts).2.1, decide_eq_true_eq, and_assoc]

/-- A filter whose keys all lie below the successor of `p` finds every block that holds one of them, exactly if `p`
has a successor or all such blocks begin before the sentinel. -/
theorem key_lossless_iff {keyFilter : KeyFilter} {nowUs : Int} (p : Bytes) (keep : BlockMeta → Bool)
    (visited : (built timeBucketSecs ssts).collectByKey keyFilter nowUs =
      (((built timeBucketSecs ssts).byKey.filter fun k _ => decide (k < incrementPrefix p)).values.flatten).filter fun m =>
        !m.isExpired nowUs && keep m)
    (below : ∀ k, keyFilter.matchesKey k = true → (∃ b ∈ p, b ≠ 255) → k < incrementPrefix p)
    (overlaps : ∀ m k, m.minKey ≤ k → k ≤ m.maxKey → keyFilter.matchesKey k = true → m.minKey < incrementPrefix p →
      keep m = true) :
    KeyLossless timeBucketSecs ssts keyFilter nowUs ↔
      ((∀ b ∈ p, b = 255) → ∀ m ∈ added ssts, m.isExpired nowUs = false →
        (∃ k, m.minKey ≤ k ∧ k ≤ m.maxKey ∧ keyFilter.matchesKey k = true) → m.minKey < sentinel) := by
  rw [KeyLossless, query, visited]
  constructor
  · rintro ⟨found, asked, whole⟩ top m member unexpired within
    have inside := whole m member unexpired within
    rw [← Option.some.inj asked] at inside
    exact increment_top top ▸ ((mem_byKey _ _ m).mp inside).2.1
  · intro begins
    refine ⟨_, rfl, fun m member unexpired within => ?_⟩
    have before : m.minKey < incrementPrefix p := by
      by_cases top : ∀ b ∈ p, b = 255
      · exact increment_top top ▸ begins top m member unexpired within
      · obtain ⟨k, low, _, found⟩ := within
        exact low.trans_lt (below k found (by simpa using top))
    obtain ⟨k, low, high, found⟩ := within
    exact (mem_byKey _ _ m).mpr ⟨member, before, by rw [unexpired, overlaps m k low high found before]; rfl⟩

theorem prefix_lossless_iff (p : Bytes) (nowUs : Int) :
    KeyLossless timeBucketSecs ssts (.keyPrefix p) nowUs ↔
      ((∀ b ∈ p, b = 255) → ∀ m ∈ added ssts, m.isExpired nowUs = false →
        (∃ k, m.minKey ≤ k ∧ k ≤ m.maxKey ∧ p <+: k) → m.minKey < sentinel) := by
  have begins : ∀ k, (KeyFilter.keyPrefix p).matchesKey k = true ↔ p <+: k := fun k => List.isPrefixOf_iff_prefix
  simp only [← begins]
  refine key_lossless_iff p (·.overlapsKeyPrefix p) rfl ?_ ?_
  · rintro k found ⟨b, inside, small⟩
    exact ((increment_increasing inside small).mpr ((begins k).mp found)).2
  · intro m k _ high found before
    exact decide_eq_true ⟨before, (prefix_le ((begins k).mp found)).trans high⟩

theorem range_lossless_iff (start stop : Bytes) (nowUs : Int) :
    KeyLossless timeBucketSecs ssts (.range start stop) nowUs ↔
      ((∀ b ∈ stop, b = 255) → ∀ m ∈ added ssts, m.isExpired nowUs = false →
        (∃ k, m.minKey ≤ k ∧ k ≤ m.maxKey ∧ start ≤ k ∧ k ≤ stop) → m.minKey < sentinel) := by
  have within : ∀ k, (KeyFilter.range start stop).matchesKey k = true ↔ start ≤ k ∧ k ≤ stop := fun k => decide_eq_true_iff
  simp only [← within]
  refine key_lossless_iff stop (·.overlapsKeyRange start stop) rfl ?_ ?_
  · rintro k found ⟨b, inside, small⟩
    exact ((within k).mp found).2.trans_lt ((increment_increasing inside small).mpr (List.prefix_refl stop)).2
  · intro m k low high found _
    exact decide_eq_true ⟨low.trans ((within k).mp found).2, ((within k).mp found).1.trans high⟩

/-! A prefix is text. Only the empty one has no successor. -/

theorem small_ofNat {x : Nat} (bound : x < 255) : UInt8.ofNat x ≠ 255 := by
  refine UInt8.ne_of_lt (UInt8.lt_iff_toNat_lt.mpr ?_)
  rw [UInt8.toNat_ofNat']
  exact (Nat.mod_le _ _).trans_lt bound

theorem utf8EncodeChar_small (c : Char) {b : UInt8} (member : b ∈ String.utf8EncodeChar c) : b ≠ 255 := by
  unfold String.utf8EncodeChar at member
  simp only at member
  split_ifs at member with one two three
  all_goals simp only [List.mem_cons, List.not_mem_nil, or_false] at member
  · subst member
    exact small_ofNat (by omega)
  · rcases member with rfl | rfl <;> exact small_ofNat (by omega)
  · rcases member with rfl | rfl | rfl <;> exact small_ofNat (by omega)
  · rcases member with rfl | rfl | rfl | rfl <;> exact small_ofNat (by omega)

theorem text_top_iff (s : String) : (∀ b ∈ utf8 s, b = 255) ↔ s = "" := by
  constructor
  · intro top
    refine utf8_injective s "" (List.eq_nil_iff_forall_not_mem.mpr fun b member => ?_)
    have inside := member
    rw [utf8_toList] at inside
    obtain ⟨c, _, byte⟩ := List.mem_flatMap.mp inside
    exact utf8EncodeChar_small c byte (top b member)
  · rintro rfl b member
    cases member

/-- A text prefix finds every block with a key that begins with it, exactly if it is not empty or all blocks begin
before the sentinel; a range every block with a key in it, exactly if its end has a byte that can grow or all such blocks
begin before the sentinel. -/
theorem key_pruning_lossless_iff (proper : ∀ m ∈ added ssts, m.minKey ≤ m.maxKey) (nowUs : Int) :
    (∀ s : String, KeyLossless timeBucketSecs ssts (.keyPrefix (utf8 s)) nowUs ↔
      (s = "" → ∀ m ∈ added ssts, m.isExpired nowUs = false → m.minKey < sentinel)) ∧
    ∀ start stop : Bytes, KeyLossless timeBucketSecs ssts (.range start stop) nowUs ↔
      ((∀ b ∈ stop, b = 255) → ∀ m ∈ added ssts, m.isExpired nowUs = false →
        (∃ k, m.minKey ≤ k ∧ k ≤ m.maxKey ∧ start ≤ k ∧ k ≤ stop) → m.minKey < sentinel) := by
  refine ⟨fun s => ?_, fun start stop => range_lossless_iff start stop nowUs⟩
  rw [prefix_lossless_iff, text_top_iff]
  constructor
  · rintro begins rfl m member unexpired
    exact begins rfl m member unexpired ⟨m.minKey, le_refl _, proper m member, List.nil_prefix⟩
  · intro begins empty m member unexpired _
    exact begins empty m member unexpired

/-- A table of one block, of the key U+1F600. -/
def face : List (Nat × List BlockInfo) := [(1, [⟨0, utf8 "😀", utf8 "😀", 0, 0, i64Max, i64Max⟩])]

theorem key_pruning_lossless_iff_face : KeyLossless 3600 face (.keyPrefix (utf8 "😀")) 0 := by
  have proper : ∀ m ∈ added face, m.minKey ≤ m.maxKey := fun m member => by
    obtain rfl := List.mem_singleton.mp member
    exact le_refl _
  exact ((key_pruning_lossless_iff proper 0).1 "😀").mpr fun empty => absurd empty (by decide)

/-- The empty prefix leaves that block out. -/
theorem face_missed : ¬ KeyLossless 3600 face (.keyPrefix (utf8 "")) 0 := by
  rintro ⟨found, asked, whole⟩
  have nothing : found = [] := Option.some.inj (asked.symm.trans (by decide))
  have missed := whole _ List.mem_cons_self (by decide) ⟨utf8 "😀", by decide, by decide, by decide⟩
  rw [nothing] at missed
  cases missed

end
end FlowDb.BlockPruning
