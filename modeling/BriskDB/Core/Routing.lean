import Mathlib

/-! # Key routing

A hash is routed through one of 4096 virtual buckets. The buckets are dealt to the shards in
groups of neighbours that differ in size by one, the wider groups first, and the hash picks a
bucket of the group of its remainder. The owner of the bucket is then this remainder.
-/

namespace BriskDB.Routing

def virtualBucketCount : Nat := 4096

/-- `u16::try_from`. -/
def toU16 (value : Nat) : Option Nat := if value < 2 ^ 16 then some value else none

def bucketForHashV1 (initialShardCount : Nat) (hash : UInt64) : Option Nat :=
  let legacyShard := hash.toNat % initialShardCount
  let baseSize := virtualBucketCount / initialShardCount
  let widerShards := virtualBucketCount % initialShardCount
  let groupSize := baseSize + (decide (legacyShard < widerShards)).toNat
  let offset := legacyShard * baseSize + min legacyShard widerShards
  toU16 (offset + hash.toNat / initialShardCount % groupSize)

def initialPhysicalShard (bucketId shardCount : Nat) : Option Nat :=
  let baseSize := virtualBucketCount / shardCount
  let widerShards := virtualBucketCount % shardCount
  let widerSpan := (baseSize + 1) * widerShards
  toU16 (if bucketId < widerSpan then bucketId / (baseSize + 1)
    else widerShards + (bucketId - widerSpan) / baseSize)

theorem toU16_of_lt {value : Nat} (h : value < 2 ^ 16) : toU16 value = some value := if_pos h

section Groups

variable {base wider shards shard ordinal : Nat}

theorem bucket_of_lt (hshard : shard < wider) (hordinal : ordinal < base + 1) :
    shard * base + min shard wider + ordinal < (base + 1) * wider ∧
      (shard * base + min shard wider + ordinal) / (base + 1) = shard := by
  have hbucket : shard * base + min shard wider + ordinal = ordinal + (base + 1) * shard := by
    rw [min_eq_left hshard.le]
    ring
  have hspan : (base + 1) * (shard + 1) ≤ (base + 1) * wider := Nat.mul_le_mul_left _ hshard
  rw [hbucket, Nat.add_mul_div_left _ _ (by omega), Nat.div_eq_of_lt hordinal]
  exact ⟨by grind, by omega⟩

theorem bucket_of_le (hshard : wider ≤ shard) (hordinal : ordinal < base) :
    (base + 1) * wider ≤ shard * base + min shard wider + ordinal ∧
      wider + (shard * base + min shard wider + ordinal - (base + 1) * wider) / base = shard := by
  obtain ⟨rest, rfl⟩ := Nat.exists_eq_add_of_le hshard
  have hbucket : (wider + rest) * base + min (wider + rest) wider + ordinal =
      (base + 1) * wider + (ordinal + base * rest) := by
    rw [min_eq_right hshard]
    ring
  rw [hbucket, Nat.add_sub_cancel_left, Nat.add_mul_div_left _ _ (by omega),
    Nat.div_eq_of_lt hordinal]
  exact ⟨by omega, by omega⟩

/-- Groups end where the next one begins, and the last group ends with the buckets. -/
theorem bucket_lt (hshard : shard < shards)
    (hordinal : ordinal < base + (decide (shard < wider)).toNat) :
    shard * base + min shard wider + ordinal < shards * base + wider := by
  have hspan : (shard + 1) * base ≤ shards * base := Nat.mul_le_mul_right _ hshard
  rw [Nat.add_mul] at hspan
  by_cases hlt : shard < wider
  · grind
  · grind

theorem owner_lt {bucket : Nat} (hwider : wider ≤ shards)
    (hbucket : bucket < shards * base + wider) :
    (if bucket < (base + 1) * wider then bucket / (base + 1)
      else wider + (bucket - (base + 1) * wider) / base) < shards := by
  split
  next hspan => exact (Nat.div_lt_of_lt_mul hspan).trans_le hwider
  next hspan =>
    obtain ⟨rest, rfl⟩ := Nat.exists_eq_add_of_le hwider
    have hrest : bucket - (base + 1) * wider < base * rest := by
      have hsum : (wider + rest) * base + wider = (base + 1) * wider + base * rest := by ring
      omega
    have hdiv := Nat.div_lt_of_lt_mul hrest
    omega

end Groups

/-- Every hash has a bucket, every bucket has a shard, and the shard of the bucket of a hash is
the remainder of the hash. -/
theorem shard_of_bucket (shardCount : Nat) (hmin : 2 ≤ shardCount) (hmax : shardCount ≤ 64) :
    (∀ hash : UInt64, ∃ bucket, bucketForHashV1 shardCount hash = some bucket ∧
      bucket < virtualBucketCount ∧
      initialPhysicalShard bucket shardCount = some (hash.toNat % shardCount)) ∧
    ∀ bucket < virtualBucketCount, ∃ shard,
      initialPhysicalShard bucket shardCount = some shard ∧ shard < shardCount := by
  have hbase : 0 < virtualBucketCount / shardCount := Nat.div_pos (hmax.trans (by decide))
    (by omega)
  have hcount : shardCount * (virtualBucketCount / shardCount) + virtualBucketCount % shardCount =
    virtualBucketCount := Nat.div_add_mod _ _
  have hwider : virtualBucketCount % shardCount ≤ shardCount := (Nat.mod_lt _ (by omega)).le
  have howner : ∀ bucket < virtualBucketCount, _ := fun bucket hbucket =>
    owner_lt hwider (hcount.symm ▸ hbucket)
  refine ⟨fun hash => ?_, fun bucket hbucket => ⟨_, toU16_of_lt ?_, howner bucket hbucket⟩⟩
  · unfold bucketForHashV1
    have hshard : hash.toNat % shardCount < shardCount := Nat.mod_lt _ (by omega)
    have hordinal := Nat.mod_lt (hash.toNat / shardCount) (Nat.add_pos_left hbase
      (decide (hash.toNat % shardCount < virtualBucketCount % shardCount)).toNat)
    have hbucket := (bucket_lt hshard hordinal).trans_eq hcount
    refine ⟨_, toU16_of_lt (hbucket.trans (by decide)), hbucket, ?_⟩
    simp only [initialPhysicalShard]
    by_cases hlt : hash.toNat % shardCount < virtualBucketCount % shardCount
    · rw [decide_eq_true hlt, Bool.toNat_true] at hordinal ⊢
      obtain ⟨hspan, hdiv⟩ := bucket_of_lt hlt hordinal
      rw [if_pos hspan, hdiv, toU16_of_lt (hshard.trans_le (hmax.trans (by decide)))]
    · rw [decide_eq_false hlt, Bool.toNat_false, Nat.add_zero] at hordinal ⊢
      obtain ⟨hspan, hdiv⟩ := bucket_of_le (not_lt.mp hlt) hordinal
      rw [if_neg (not_lt.mpr hspan), hdiv, toU16_of_lt (hshard.trans_le (hmax.trans (by decide)))]
  · exact (howner bucket hbucket).trans_le (hmax.trans (by decide))

theorem shard_of_bucket_six :
    (2 ≤ 6 ∧ 6 ≤ 64) ∧ initialPhysicalShard 4095 6 = some 5 ∧
      ∃ bucket, bucketForHashV1 6 17 = some bucket ∧ bucket < virtualBucketCount ∧
        initialPhysicalShard bucket 6 = some ((17 : UInt64).toNat % 6) :=
  ⟨by decide, by decide, (shard_of_bucket 6 (by decide) (by decide)).1 17⟩

end BriskDB.Routing
