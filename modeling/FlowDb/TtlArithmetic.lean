import FlowDb.EngineOps

/-! From a TTL to an expiry. `write_batch_ttl`, `convert_records` and `patch_record` each
cast the seconds to i64, multiply and add with saturation; `Config::validate` bounds the
default TTL only. -/
namespace FlowDb.TtlArithmetic
open ByteString Records WalLog EngineOps

-- `i64::MAX as u64 / 1_000_000`
def maxSecs : Nat := 9223372036854

example : maxSecs = (2 ^ 63 - 1) / 1000000 := by decide

/-- `Config::validate`, with the text of its error. The cache capacity is no field of `Config` here. -/
def validate (config : Config) (blockCacheCapacityMb : Nat) : Except String Unit :=
  if config.memtableSizeMb = 0 then .error "memtable_size_mb must be >= 1 (0 causes a flush storm)"
  else if config.maxFrozenMemtables = 0 then .error "max_frozen_memtables must be >= 1 (0 means unbounded growth)"
  else if config.blockSize = 0 then .error "block_size must be >= 1"
  else if config.timeBucketSecs = 0 then .error "time_bucket_secs must be >= 1 (0 causes division-by-zero panic)"
  else if config.bloomBitsPerKey = 0 then .error "bloom_bits_per_key must be >= 1 (0 produces a useless filter)"
  else if config.walSegmentSizeMb = 0 then
    .error "wal_segment_size_mb must be >= 1 (0 causes segment rollover on every write)"
  else if config.compactionThreshold = 0 then
    .error "compaction_threshold must be >= 1 (0 disables compaction entirely)"
  else if blockCacheCapacityMb = 0 then .error "block_cache_capacity_mb must be >= 1"
  else if config.defaultTtlSecs = some 0 then .error "default_ttl_secs must be > 0 if set (0 = instant expiry)"
  else if config.defaultTtlSecs.any fun ttl => decide (maxSecs < ttl) then
    .error "default_ttl_secs is too large (would overflow i64 when converted to microseconds)"
  else if maxSecs < config.timeBucketSecs then
    .error "time_bucket_secs is too large (product with 1_000_000 would overflow i64)"
  else .ok ()

structure Accepted (config : Config) : Prop where
  maxFrozen : 0 < config.maxFrozenMemtables
  defaultTtl : ∀ ttl, config.defaultTtlSecs = some ttl → 0 < ttl ∧ ttl ≤ maxSecs

theorem check_iff {p : Prop} [Decidable p] {msg : String} {rest : Except String Unit} :
    (if p then .error msg else rest) = .ok () ↔ ¬ p ∧ rest = .ok () := by
  split_ifs with failed
  · exact ⟨nofun, fun passed => absurd failed passed.1⟩
  · exact ⟨fun done => ⟨failed, done⟩, And.right⟩

theorem accepted_of_validate {config : Config} {blockCacheCapacityMb : Nat}
    (valid : validate config blockCacheCapacityMb = .ok ()) : Accepted config := by
  simp only [validate, check_iff] at valid
  obtain ⟨_, frozen, _, _, _, _, _, _, zero, large, _⟩ := valid
  refine ⟨Nat.pos_of_ne_zero frozen, fun ttl set => ⟨Nat.pos_of_ne_zero ?_, ?_⟩⟩
  · rintro rfl
    exact zero set
  · simpa [set] using large

/-! ### The three copies -/

-- `write_batch_ttl`, on one record of its batch.
def writeBatchTtlRecord (config : Config) (seq : Nat) (ttlSecs : Option Nat) (rec : Record) : InternalRecord :=
  { InternalRecord.fromRecord rec seq with expireAt := expireAtOf (ttlSecs.or config.defaultTtlSecs) rec }

theorem assignSeqs_putRecords (config : Config) (base : Nat) (batch : List Record) (ttlSecs : Option Nat) :
    assignSeqs base (putRecords config batch ttlSecs) =
      batch.mapIdx fun i rec => writeBatchTtlRecord config (base + i) ttlSecs rec := by
  induction batch generalizing base with
  | nil => rfl
  | cons rec rest ih =>
    rw [putRecords, List.map_cons, assignSeqs, List.mapIdx_cons]
    refine congrArg₂ List.cons rfl ((ih (base + 1)).trans ?_)
    simp only [Nat.add_assoc, Nat.add_comm 1]

def convertRecord (config : Config) (seq : Nat) (ttlSecs : Option Nat) (rec : Record) : InternalRecord :=
  let ttl := ttlSecs.or config.defaultTtlSecs
  { seq
    op := .put
    key := rec.key
    ts := rec.ts
    expireAt := match ttl with
      | some t => saturate (rec.ts + saturate (u64AsI64 t * 1000000))
      | none => rec.expireAt
    value := rec.value
    rangeEnd := none }

/-- `Engine::convert_records`, from the number it took for the batch. -/
def convertRecords (config : Config) (base : Nat) (batch : List Record) (ttlSecs : Option Nat) : List InternalRecord :=
  batch.mapIdx fun i rec => convertRecord config (base + i) ttlSecs rec

/-- What `patch_record` makes of the record that it read. -/
def patch (newValue : Option Bytes) (newTtlSecs : Option Nat) (rec : Record) : Record :=
  let patched := { rec with value := newValue.getD rec.value }
  match newTtlSecs with
  | some ttl => { patched with expireAt := saturate (rec.ts + saturate (u64AsI64 ttl * 1000000)) }
  | none => patched

inductive Path where
  | writeBatchTtl (seq : Nat)
  | convertRecords (seq : Nat)
  | patchRecord (newValue : Option Bytes)

/-- The TTL a path works with. -/
def Path.ttl (config : Config) (ttlSecs : Option Nat) : Path → Option Nat
  | .writeBatchTtl _ | .convertRecords _ => ttlSecs.or config.defaultTtlSecs
  | .patchRecord _ => ttlSecs

/-- The expiry a path computes for a record. -/
def Path.expireAt (config : Config) (ttlSecs : Option Nat) (rec : Record) : Path → Int
  | .writeBatchTtl seq => (writeBatchTtlRecord config seq ttlSecs rec).expireAt
  | .convertRecords seq => (convertRecord config seq ttlSecs rec).expireAt
  | .patchRecord newValue => (patch newValue ttlSecs rec).expireAt

def ttlExpireAt (ts : Int) (ttl : Nat) : Int := saturate (ts + saturate (u64AsI64 ttl * 1000000))

theorem path_expireAt (path : Path) (config : Config) (ttlSecs : Option Nat) (rec : Record) (ttl : Nat)
    (used : path.ttl config ttlSecs = some ttl) : path.expireAt config ttlSecs rec = ttlExpireAt rec.ts ttl := by
  cases path with
  | writeBatchTtl seq =>
    have used : ttlSecs.or config.defaultTtlSecs = some ttl := used
    simp only [Path.expireAt, writeBatchTtlRecord, used, expireAtOf, ttlExpireAt]
  | convertRecords seq =>
    have used : ttlSecs.or config.defaultTtlSecs = some ttl := used
    simp only [Path.expireAt, convertRecord, used, ttlExpireAt]
  | patchRecord newValue =>
    obtain rfl : ttlSecs = some ttl := used
    rfl

/-! ### The formula -/

/-- The product and the sum, each no greater than i64 goes. -/
def clampedExpireAt (ts : Int) (ttl : Nat) : Int := min i64Max (ts + min i64Max (ttl * 1000000))

/-- Two expiries of a record under a shorter and a longer TTL: in order, neither before the
record, neither the outcome of an overflow. -/
structure Sound (ts : Int) (ttl1 ttl2 : Nat) (expireAt1 expireAt2 : Int) : Prop where
  notBefore : ts ≤ expireAt1
  monotone : expireAt1 ≤ expireAt2
  clamped1 : expireAt1 = clampedExpireAt ts ttl1
  clamped2 : expireAt2 = clampedExpireAt ts ttl2

theorem saturate_of_le {n : Int} (low : -2 ^ 63 ≤ n) : saturate n = min i64Max n :=
  max_eq_right (le_min (by decide) low)

theorem ttlExpireAt_clamped {ts : Int} (range : InI64 ts) {ttl : Nat} (small : ttl < 2 ^ 63) :
    ttlExpireAt ts ttl = clampedExpireAt ts ttl := by
  have seconds : u64AsI64 ttl = ttl := if_pos small
  have product : saturate ((ttl : Int) * 1000000) = min i64Max (ttl * 1000000) := saturate_of_le (by omega)
  have positive : (0 : Int) ≤ min i64Max (ttl * 1000000) := le_min (by decide) (by omega)
  rw [ttlExpireAt, seconds, product, clampedExpireAt]
  exact saturate_of_le (range.1.trans (by omega))

/-- A TTL from 2^63 on is cast to a negative number of seconds. -/
theorem ttlExpireAt_wrapped {ts : Int} (range : InI64 ts) {ttl : Nat} (large : 2 ^ 63 ≤ ttl) (fits : ttl < 2 ^ 64) :
    ttlExpireAt ts ttl < clampedExpireAt ts ttl := by
  have seconds : u64AsI64 ttl = ttl - 2 ^ 64 := if_neg (not_lt.mpr large)
  have product : saturate (((ttl : Int) - 2 ^ 64) * 1000000) < 0 :=
    max_lt (by decide) (min_lt_of_right_lt (by omega))
  have clamped : min i64Max ((ttl : Int) * 1000000) = i64Max := min_eq_left (by unfold i64Max; omega)
  have top := range.2
  rw [ttlExpireAt, seconds, clampedExpireAt, clamped]
  refine lt_min (max_lt (by decide) (min_lt_of_right_lt (by unfold i64Max; omega))) ?_
  calc saturate (ts + saturate (((ttl : Int) - 2 ^ 64) * 1000000))
      ≤ ts := max_le range.1 (min_le_of_right_le (by omega))
    _ < ts + i64Max := by unfold i64Max; omega

theorem le_clampedExpireAt {ts : Int} (range : InI64 ts) (ttl : Nat) : ts ≤ clampedExpireAt ts ttl := by
  have positive : (0 : Int) ≤ min i64Max (ttl * 1000000) := le_min (by decide) (by omega)
  have top := range.2
  exact le_min (by unfold i64Max; omega) (by omega)

theorem clampedExpireAt_mono {ts : Int} {ttl1 ttl2 : Nat} (ordered : ttl1 ≤ ttl2) :
    clampedExpireAt ts ttl1 ≤ clampedExpireAt ts ttl2 :=
  min_le_min_left _ (Int.add_le_add_left (min_le_min_left _ (by omega)) ts)

theorem sound_iff {ts : Int} (range : InI64 ts) {ttl1 ttl2 : Nat} (ordered : ttl1 ≤ ttl2) (fits : ttl2 < 2 ^ 64) :
    Sound ts ttl1 ttl2 (ttlExpireAt ts ttl1) (ttlExpireAt ts ttl2) ↔ ttl2 < 2 ^ 63 := by
  constructor
  · intro sound
    by_contra large
    exact (ttlExpireAt_wrapped range (not_lt.mp large) fits).ne sound.clamped2
  · intro small
    have first := ttlExpireAt_clamped range (ordered.trans_lt small)
    have second := ttlExpireAt_clamped range small
    refine ⟨first ▸ le_clampedExpireAt range ttl1, ?_, first, second⟩
    rw [first, second]
    exact clampedExpireAt_mono ordered

/-- On every path two TTLs give ordered expiries, as far from the record as they say, exactly
where the longer one is below 2^63 seconds; a default TTL always is. -/
theorem ttl_sound_iff (path : Path) (config : Config) (blockCacheCapacityMb : Nat)
    (valid : validate config blockCacheCapacityMb = .ok ()) (rec : Record) (range : InI64 rec.ts)
    (request1 request2 : Option Nat) (ttl1 ttl2 : Nat) (used1 : path.ttl config request1 = some ttl1)
    (used2 : path.ttl config request2 = some ttl2) (ordered : ttl1 ≤ ttl2) (fits : ttl2 < 2 ^ 64) :
    (Sound rec.ts ttl1 ttl2 (path.expireAt config request1 rec) (path.expireAt config request2 rec) ↔
        ttl2 < 2 ^ 63) ∧
      (config.defaultTtlSecs = some ttl2 → ttl2 < 2 ^ 63) := by
  rw [path_expireAt path config request1 rec ttl1 used1, path_expireAt path config request2 rec ttl2 used2]
  refine ⟨sound_iff range ordered fits, fun set => ?_⟩
  have bound := ((accepted_of_validate valid).defaultTtl ttl2 set).2
  exact bound.trans_lt (by decide)

/-! A record that expires before it was written, and so earlier than with a shorter TTL. -/

def timed : Record := ⟨[107], 5000000, 6000000, [1]⟩

theorem ttl_sound_hour : Sound timed.ts 60 3600 ((Path.writeBatchTtl 1).expireAt {} (some 60) timed)
    ((Path.writeBatchTtl 1).expireAt {} (some 3600) timed) :=
  (ttl_sound_iff (.writeBatchTtl 1) {} 128 rfl timed (by decide) (some 60) (some 3600) 60 3600 rfl rfl (by decide)
    (by decide)).1.mpr (by decide)

theorem timed_expiries (path : Path) : path.expireAt {} (some 60) timed = 65000000 ∧
    path.expireAt {} (some (2 ^ 64 - 1)) timed = 4000000 := by
  cases path <;> exact ⟨rfl, rfl⟩

theorem ttl_expires_early :
    (Path.writeBatchTtl 1).expireAt {} (some (2 ^ 64 - 1)) timed < timed.ts ∧
      ¬ Sound timed.ts 60 (2 ^ 64 - 1) ((Path.writeBatchTtl 1).expireAt {} (some 60) timed)
        ((Path.writeBatchTtl 1).expireAt {} (some (2 ^ 64 - 1)) timed) := by
  obtain ⟨short, long⟩ := timed_expiries (.writeBatchTtl 1)
  refine ⟨by rw [long]; decide, fun sound => ?_⟩
  have ordered := sound.monotone
  rw [short, long] at ordered
  exact absurd ordered (by decide)

end FlowDb.TtlArithmetic
