import DewDB.ClusterView
import DewDB.Tiling

/-!
# Ranges of hashes

In the older ownership model every shard names a range of hashes, which wraps when it ends before it
starts and is the whole ring when it ends where it starts. A map of such ranges is accepted just
when every hash has one owner.
-/
namespace DewDB.RangeMap

open Endpoint TokenRing ClusterView Tiling

def shardOwns (shard : ShardInfo) (hash : ℕ) : Bool :=
  if shard.startHash = shard.endHash then true
  else if shard.startHash < shard.endHash
    then decide (shard.startHash ≤ hash ∧ hash < shard.endHash)
  else decide (shard.startHash ≤ hash ∨ hash < shard.endHash)

inductive RangeError where
  | noShards
  | view (e : ViewError)
  deriving DecidableEq

def validateShardRing (shards : List ShardInfo) : Except RangeError Unit :=
  if shards.isEmpty then .error .noShards else (ClusterView.validateShardRing shards).mapError .view

def Bounded (shards : List ShardInfo) : Prop :=
  ∀ s ∈ shards, s.startHash < ringSize ∧ s.endHash < ringSize

instance (shards : List ShardInfo) : Decidable (Bounded shards) :=
  inferInstanceAs (Decidable (∀ s ∈ shards, _))

def owners (shards : List ShardInfo) (hash : ℕ) : List ShardInfo :=
  shards.filter fun s => shardOwns s hash

section Segments

variable {shard : ShardInfo} {shards : List ShardInfo} {hash : ℕ}

def segmentsOf (shard : ShardInfo) : List (ℕ × ℕ) :=
  (ringSegments shard).filter fun seg => seg.1 < seg.2

theorem mem_segmentsOf {seg : ℕ × ℕ} (hb : shard.endHash < ringSize) (h : seg ∈ segmentsOf shard) :
    seg.1 < seg.2 ∧ seg.2 ≤ ringSize := by
  obtain ⟨hmem, hlt⟩ := List.mem_filter.mp h
  refine ⟨of_decide_eq_true hlt, ?_⟩
  unfold ringSegments at hmem
  split_ifs at hmem
  · rw [List.mem_singleton.mp hmem]
  · rw [List.mem_singleton.mp hmem]
    exact hb.le
  · rcases List.mem_cons.mp hmem with rfl | hmem
    · exact le_refl _
    · rw [List.mem_singleton.mp hmem]
      exact hb.le

theorem coverCount_segmentsOf (hhash : hash < ringSize) :
    coverCount hash (segmentsOf shard) = if shardOwns shard hash then 1 else 0 := by
  have hfilter : ∀ segs : List (ℕ × ℕ),
      coverCount hash (segs.filter fun seg => seg.1 < seg.2) = coverCount hash segs := by
    intro segs
    rw [coverCount, coverCount, List.countP_filter]
    apply List.countP_congr
    intro seg _
    simp only [Bool.and_eq_true, decide_eq_true_eq]
    omega
  rw [segmentsOf, hfilter]
  unfold ringSegments shardOwns
  by_cases heq : shard.startHash = shard.endHash
  · simp [heq, coverCount, hhash]
  · by_cases hlt : shard.startHash < shard.endHash
    · simp [heq, hlt, coverCount, List.countP_cons]
    · rw [if_neg heq, if_neg hlt, if_neg heq, if_neg hlt, coverCount_cons, coverCount_cons,
        coverCount_nil]
      by_cases hlow : hash < shard.endHash
      · have hstart : ¬shard.startHash ≤ hash := by omega
        simp [hlow, hstart]
      · simp [hlow, hhash]

theorem coverCount_segments (shards : List ShardInfo) (hhash : hash < ringSize) :
    coverCount hash (shards.flatMap segmentsOf) = (owners shards hash).length := by
  induction shards with
  | nil => rfl
  | cons s shards ih =>
    rw [List.flatMap_cons, coverCount_append, ih, coverCount_segmentsOf hhash, owners, owners,
      List.filter_cons]
    split_ifs
    · rw [List.length_cons, Nat.add_comm]
    · rw [Nat.zero_add]

end Segments

section Validation

variable {shards : List ShardInfo}

/-- The walk over the segments succeeds when they tile the ring from the cursor on. -/
theorem checkSegments_iff (cursor : ℕ) (previous : Url) (segs : List (ℕ × ℕ × Url)) :
    checkSegments cursor previous segs = .ok () ↔
      Tiles cursor ringSize (segs.map fun s => (s.1, s.2.1)) := by
  induction segs generalizing cursor previous with
  | nil =>
    rw [checkSegments, List.map_nil, Tiles]
    split_ifs with h
    · simp [h]
    · simp [h]
  | cons s segs ih =>
    obtain ⟨lo, hi, owner⟩ := s
    rw [checkSegments, List.map_cons, Tiles, ← ih hi owner]
    split_ifs with h h'
    · simp only [false_iff]
      omega
    · simp only [false_iff]
      omega
    · simp only [iff_and_self]
      omega

def namedSegments (shards : List ShardInfo) : List (ℕ × ℕ × Url) :=
  (shards.map fun s => ((ringSegments s).filter fun seg => seg.1 < seg.2).map fun seg =>
    (seg.1, seg.2, s.nodeUrl)).flatten

theorem namedSegments_map (shards : List ShardInfo) :
    (namedSegments shards).map (fun s => (s.1, s.2.1)) = shards.flatMap segmentsOf := by
  induction shards with
  | nil => rfl
  | cons s shards ih =>
    rw [namedSegments, List.map_cons, List.flatten_cons, List.map_append, ← namedSegments, ih,
      List.flatMap_cons, List.map_map]
    simp [segmentsOf, Function.comp_def]

theorem checkAll_iff (hb : Bounded shards) :
    validateShardRing.checkAll shards = .ok () ↔
      ∀ hash < ringSize, (owners shards hash).length = 1 := by
  have hwalk : validateShardRing.checkAll shards =
      checkSegments 0 [] ((namedSegments shards).insertionSort fun a b => a.1 ≤ b.1) := rfl
  have hsorted := List.pairwise_insertionSort (fun a b : ℕ × ℕ × Url => a.1 ≤ b.1)
    (namedSegments shards)
  have hperm := (List.perm_insertionSort (fun a b : ℕ × ℕ × Url => a.1 ≤ b.1)
    (namedSegments shards)).map fun s => (s.1, s.2.1)
  rw [namedSegments_map] at hperm
  have hmem : ∀ seg ∈ ((namedSegments shards).insertionSort fun a b => a.1 ≤ b.1).map
    fun s => (s.1, s.2.1),
      seg.1 < seg.2 ∧ seg.2 ≤ ringSize := by
    intro seg hseg
    obtain ⟨s, hs, hseg⟩ := List.mem_flatMap.mp (hperm.mem_iff.mp hseg)
    exact mem_segmentsOf (hb s hs).2 hseg
  have htiles := tiles_iff (a := 0) (List.pairwise_map.mpr hsorted) (fun s hs => (hmem s hs).1)
    (fun s hs => (hmem s hs).2) (Nat.zero_le _)
  rw [hwalk, checkSegments_iff, htiles]
  constructor
  · intro h hash hhash
    have hcount := h hash hhash
    rwa [coverCount_perm hperm, coverCount_segments shards hhash, if_pos (Nat.zero_le _)] at hcount
  · intro h hash hhash
    rw [coverCount_perm hperm, coverCount_segments shards hhash, if_pos (Nat.zero_le _)]
    exact h hash hhash

theorem shardOwns_start (shard : ShardInfo) : shardOwns shard shard.startHash = true := by
  unfold shardOwns
  split_ifs with h hlt
  · rfl
  · exact decide_eq_true ⟨le_refl _, hlt⟩
  · exact decide_eq_true (.inl (le_refl _))

theorem length_owners_of_full {full : ShardInfo} (hmem : full ∈ shards)
    (hfull : full.startHash = full.endHash)
    (hlen : 1 < shards.length) : ∃ s ∈ shards, 1 < (owners shards s.startHash).length := by
  obtain ⟨pre, post, rfl⟩ := List.append_of_mem hmem
  have hall : ∀ hash, shardOwns full hash = true := fun hash => by rw [shardOwns, if_pos hfull]
  obtain ⟨s, hs⟩ : ∃ s, s ∈ pre ++ post := by
    apply List.exists_mem_of_length_pos
    rw [List.length_append, List.length_cons] at hlen
    rw [List.length_append]
    omega
  refine ⟨s, ?_, ?_⟩
  · rcases List.mem_append.mp hs with hs | hs
    · exact List.mem_append_left _ hs
    · exact List.mem_append_right _ (List.mem_cons_of_mem _ hs)
  · have hown : s ∈ owners (pre ++ post) s.startHash := List.mem_filter.mpr ⟨hs, shardOwns_start s⟩
    have hpos := List.length_pos_of_mem hown
    rw [owners, List.filter_append, List.length_append] at hpos
    rw [owners, List.filter_append, List.filter_cons_of_pos (by simp [hall]), List.length_append,
      List.length_cons]
    omega

/-- A map of ranges is accepted just when every hash has one owner. -/
theorem validateShardRing_iff (hb : Bounded shards) :
    validateShardRing shards = .ok () ↔ ∀ hash < ringSize, (owners shards hash).length = 1 := by
  have hmapped : ∀ r : Except ViewError Unit, r.mapError RangeError.view = .ok () ↔ r = .ok () := by
    intro r
    cases r <;> simp [Except.mapError]
  by_cases hnil : shards = []
  · subst hnil
    simp only [validateShardRing, List.isEmpty_nil, if_true, reduceCtorEq, false_iff]
    intro h
    have := h 0 (by decide)
    cases this
  rw [validateShardRing, if_neg (by simpa using hnil), hmapped]
  unfold ClusterView.validateShardRing
  split
  · next s rest hfull =>
    have hs : s ∈ shards.filter fun s => s.startHash == s.endHash := hfull ▸ List.mem_cons_self
    obtain ⟨hmem, heq⟩ := List.mem_filter.mp hs
    split_ifs with hlen
    · obtain ⟨r, hr, htwo⟩ := length_owners_of_full hmem (by simpa using heq) hlen
      simp only [false_iff]
      intro h
      have := h r.startHash (hb r hr).1
      omega
    · exact checkAll_iff hb
  · exact checkAll_iff hb

def halves : List ShardInfo := [⟨2 ^ 63, 0, ['b'], []⟩, ⟨0, 2 ^ 63, ['a'], []⟩]

theorem validateShardRing_halves :
    Bounded halves ∧ ∀ hash < ringSize, (owners halves hash).length = 1 :=
  ⟨by decide, (validateShardRing_iff (by decide)).mp (by decide)⟩

end Validation

end DewDB.RangeMap
