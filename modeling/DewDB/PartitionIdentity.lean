import DewDB.KeyOwnership
import DewDB.KeyedSort
import DewDB.Precondition
import DewDB.RangeMap
import DewDB.RingLaws
import DewDB.RingMovement

/-!
# The fingerprint of a partitioning

A cursor carries the fingerprint of the partitioning that it was issued for: a hash of texts, one
for each owner, that are joined with bars. The parts are written as they are. An endpoint with a bar
in it, or one that reads like another part, gives two partitionings one text.
-/
namespace DewDB.KeyOwnership

open Endpoint TokenRing ClusterMeta
open ClusterView (ShardInfo)
open RangeMap (Bounded owners)
open KeyedSort (perm_map_of_factors)

section Separators

variable {α : Type} {sep : α}

theorem append_sep_inj {a b c d : List α} (ha : sep ∉ a) (hc : sep ∉ c)
    (h : a ++ sep :: b = c ++ sep :: d) : a = c ∧ b = d := by
  induction a generalizing c with
  | nil =>
    cases c with
    | nil => exact ⟨rfl, (List.cons.inj h).2⟩
    | cons x c => exact absurd ((List.cons.inj h).1 ▸ List.mem_cons_self) hc
  | cons x a ih =>
    rw [List.mem_cons, not_or] at ha
    cases c with
    | nil => exact absurd (List.cons.inj h).1.symm ha.1
    | cons y c =>
      rw [List.mem_cons, not_or] at hc
      obtain ⟨rfl, hrest⟩ := List.cons.inj h
      obtain ⟨rfl, rfl⟩ := ih ha.2 hc.2 hrest
      exact ⟨rfl, rfl⟩

theorem intercalate_inj [DecidableEq α] {ls ms : List (List α)} (hl : ∀ l ∈ ls, sep ∉ l)
    (hm : ∀ m ∈ ms, sep ∉ m) (hls : ls ≠ []) (hms : ms ≠ [])
    (h : List.intercalate [sep] ls = List.intercalate [sep] ms) : ls = ms := by
  rw [← List.splitOn_intercalate sep hl hls, h, List.splitOn_intercalate sep hm hms]

end Separators

section Texts

def sortedParts (v : ClusterMetadata) : List (List Char) :=
  (partitionParts v).insertionSort fun a b => textLt b a = false

def partitionText (v : ClusterMetadata) : List Char := List.intercalate ['|'] (sortedParts v)

theorem partitionFingerprint_eq (xxh64 : Xxh64) (v : ClusterMetadata) :
    partitionFingerprint xxh64 v = xxh64 (partitionText v) % ringSize := rfl

theorem sortedParts_perm (v : ClusterMetadata) : (sortedParts v).Perm (partitionParts v) :=
  List.perm_insertionSort _ _

theorem sortedParts_eq_of_perm {v w : ClusterMetadata}
    (h : (partitionParts v).Perm (partitionParts w)) : sortedParts v = sortedParts w := by
  have hle : ∀ a b : List Char, textLt b a = false ↔ a ≤ b := fun a b => by
    rw [← not_iff_not, Bool.not_eq_false, textLt_iff, not_le]
  have : Std.Total fun a b : List Char => textLt b a = false := ⟨fun a b => by
    rw [hle, hle]
    exact le_total a b⟩
  have : IsTrans (List Char) fun a b => textLt b a = false := ⟨fun a b c hab hbc => by
    rw [hle] at *
    exact hab.trans hbc⟩
  have hsorted : ∀ u : ClusterMetadata, (sortedParts u).Pairwise (· ≤ ·) := fun u =>
    (List.pairwise_insertionSort (fun a b => textLt b a = false) _).imp fun h => (hle _ _).mp h
  exact (((sortedParts_perm v).trans h).trans (sortedParts_perm w).symm).eq_of_pairwise
    (fun a b _ _ => le_antisymm) (hsorted v) (hsorted w)

end Texts

section Identity

/-- The endpoints that own something, in the ownership model in force. -/
def ownerKeys (v : ClusterMetadata) : List Url :=
  match v.ring with
  | some ring => ring.keys
  | none => v.shards.map fun s => nodeKey s.nodeUrl

/-- No endpoint or migration has a bar in it, and in a ring no endpoint reads like the number of its
tokens or like a migration. -/
structure Plain (v : ClusterMetadata) : Prop where
  bar : ∀ key ∈ ownerKeys v, '|' ∉ key
  tokens : v.ring.isSome → ∀ key ∈ ownerKeys v, ∀ n, key ≠ "vnodes=".toList ++ Nat.toDigits 10 n
  arrow : v.ring.isSome → ∀ key ∈ ownerKeys v, ¬"->".toList <+: key
  migration : ∀ m ∈ v.migration, '|' ∉ m.id

def rangeOf (s : ShardInfo) : ℕ × ℕ × Url := (s.startHash, s.endHash, nodeKey s.nodeUrl)

/-- The owning sets are the same, in the same ownership model, and so is the migration in flight.
Orders, replicas and spellings of endpoints may differ. -/
def SamePartition (v w : ClusterMetadata) : Prop :=
  (match v.ring, w.ring with
    | some r, some r' => r.vnodes = r'.vnodes ∧ r.keys.Perm r'.keys
    | none, none => (v.shards.map rangeOf).Perm (w.shards.map rangeOf)
    | _, _ => False) ∧
  v.migration.map Migration.id = w.migration.map Migration.id

def ownerEndpoint (xxh64 : Xxh64) (v : ClusterMetadata) (hash : ℕ) : Option Url :=
  (configuredShard v (ringsOf xxh64 v) hash).map fun shard => nodeKey shard.1

variable {v w : ClusterMetadata}

theorem part_eq (s : ShardInfo) : ShardInfo.part s =
    Nat.toDigits 10 (rangeOf s).1 ++ '-' :: (Nat.toDigits 10
      (rangeOf s).2.1 ++ '@' :: (rangeOf s).2.2) := by
  simp [ShardInfo.part, rangeOf]

theorem notMem_toDigits {c : Char} (hc : c.isDigit = false) (n : ℕ) : c ∉ Nat.toDigits 10 n := by
  intro h
  have := Nat.isDigit_of_mem_toDigits (by decide) (by decide) h
  rw [hc] at this
  cases this

theorem rangeOf_eq_of_part {s t : ShardInfo} (h : ShardInfo.part s = ShardInfo.part t) :
    rangeOf s = rangeOf t := by
  rw [part_eq, part_eq] at h
  obtain ⟨hstart, hrest⟩ := append_sep_inj (notMem_toDigits rfl _) (notMem_toDigits rfl _) h
  obtain ⟨hend, hkey⟩ := append_sep_inj (notMem_toDigits rfl _) (notMem_toDigits rfl _) hrest
  exact Prod.ext (Precondition.toDigits_injective hstart)
    (Prod.ext (Precondition.toDigits_injective hend) hkey)

theorem part_eq_of_rangeOf {s t : ShardInfo} (h : rangeOf s = rangeOf t) :
    ShardInfo.part s = ShardInfo.part t := by
  rw [part_eq, part_eq, h]

theorem migrationParts_eq (h : v.migration.map Migration.id = w.migration.map Migration.id) :
    (v.migration.toList.map fun m => "->".toList ++ m.id) = w.migration.toList.map fun m =>
      "->".toList ++ m.id := by
  have hid : ∀ u : ClusterMetadata, (u.migration.toList.map fun m => "->".toList ++ m.id) =
      (u.migration.map Migration.id).toList.map fun id => "->".toList ++ id := by
    intro u
    cases u.migration <;> rfl
  rw [hid, hid, h]

theorem parts_perm (h : SamePartition v w) : (partitionParts v).Perm (partitionParts w) := by
  obtain ⟨howners, hmig⟩ := h
  unfold partitionParts
  rw [migrationParts_eq hmig]
  apply List.Perm.append_right
  cases hv : v.ring with
  | none =>
    cases hw : w.ring with
    | none =>
      rw [hv, hw] at howners
      exact perm_map_of_factors (fun _ _ => part_eq_of_rangeOf) howners
    | some r' => simp [hv, hw] at howners
  | some r =>
    cases hw : w.ring with
    | none => simp [hv, hw] at howners
    | some r' =>
      rw [hv, hw] at howners
      dsimp only at howners ⊢
      rw [howners.1]
      exact howners.2.cons _

theorem ring_of_migration (h : v.TopologyOk) (hring : v.ring = none) : v.migration = none := by
  have hmig := h.2.2.1
  unfold ClusterMetadata.validateMigration at hmig
  cases hm : v.migration with
  | none => rfl
  | some m =>
    rw [hm, hring] at hmig
    dsimp only at hmig
    cases ht : m.target.validate with
    | error e => simp [ht] at hmig
    | ok u => simp [ht] at hmig

theorem bar_notMem_parts (h : Plain v) : ∀ part ∈ partitionParts v, '|' ∉ part := by
  intro part hpart
  rcases List.mem_append.mp hpart with hpart | hpart
  · have hbar := h.bar
    unfold ownerKeys at hbar
    cases hv : v.ring with
    | none =>
      rw [hv] at hpart hbar
      obtain ⟨s, hs, rfl⟩ := List.mem_map.mp hpart
      have hkey := hbar _ (List.mem_map_of_mem hs)
      rw [part_eq]
      simp only [List.mem_append, List.mem_cons, not_or]
      exact ⟨notMem_toDigits rfl _, by decide, notMem_toDigits rfl _, by decide, hkey⟩
    | some ring =>
      rw [hv] at hpart hbar
      rcases List.mem_cons.mp hpart with rfl | hpart
      · exact fun hmem => (List.mem_append.mp hmem).elim (by decide) (notMem_toDigits rfl _)
      · exact hbar _ hpart
  · obtain ⟨m, hm, rfl⟩ := List.mem_map.mp hpart
    exact fun hmem => (List.mem_append.mp hmem).elim (by decide)
      (h.migration m (Option.mem_toList.mp hm))

theorem part_ne_nil (s : ShardInfo) : ShardInfo.part s ≠ [] := by simp [ShardInfo.part]

theorem parts_ne_singleton_nil (v : ClusterMetadata) : partitionParts v ≠ [[]] := by
  intro h
  have hall : ∀ part ∈ partitionParts v, part = [] := by
    rw [h]
    exact fun _ => List.mem_singleton.mp
  have hne : partitionParts v ≠ [] := by simp [h]
  obtain ⟨part, hpart⟩ := List.exists_mem_of_ne_nil _ hne
  cases hv : v.ring with
  | some ring =>
    have hmem : "vnodes=".toList ++ Nat.toDigits 10 ring.vnodes ∈ partitionParts v := by
      simp [partitionParts, hv]
    simpa using hall _ hmem
  | none =>
    have hnil := hall part hpart
    simp only [partitionParts, hv] at hpart
    rcases List.mem_append.mp hpart with hpart | hpart
    · obtain ⟨s, -, rfl⟩ := List.mem_map.mp hpart
      exact part_ne_nil s hnil
    · obtain ⟨m, -, rfl⟩ := List.mem_map.mp hpart
      simp at hnil

theorem sortedParts_ne_singleton_nil (v : ClusterMetadata) : sortedParts v ≠ [[]] := fun h =>
  parts_ne_singleton_nil v (List.perm_singleton.mp (h ▸ (sortedParts_perm v).symm))

theorem sortedParts_eq_nil (hbar : ∀ part ∈ sortedParts v, '|' ∉ part) (h : partitionText v = []) :
    sortedParts v = [] := by
  by_contra hne
  have hsplit := List.splitOn_intercalate '|' hbar hne
  rw [show List.intercalate ['|'] (sortedParts v) = [] from h] at hsplit
  exact sortedParts_ne_singleton_nil v hsplit.symm

theorem parts_perm_of_text (hv : Plain v) (hw : Plain w) (h : partitionText v = partitionText w) :
    (partitionParts v).Perm (partitionParts w) := by
  have hbar : ∀ {u : ClusterMetadata}, Plain u → ∀ part ∈ sortedParts u, '|' ∉ part :=
    fun {u} hu part hpart =>
    bar_notMem_parts hu part ((sortedParts_perm u).mem_iff.mp hpart)
  have hsorted : sortedParts v = sortedParts w := by
    by_cases hnv : sortedParts v = []
    · have hw0 := sortedParts_eq_nil (hbar hw) (by rw [← h, partitionText, hnv]; rfl)
      rw [hnv, hw0]
    · by_cases hnw : sortedParts w = []
      · exact absurd (sortedParts_eq_nil (hbar hv) (by rw [h, partitionText, hnw]; rfl)) hnv
      · exact intercalate_inj (hbar hv) (hbar hw) hnv hnw h
  exact (sortedParts_perm v).symm.trans (hsorted ▸ sortedParts_perm w)

/-- The parts of a ring, but for the number of its tokens: the endpoints and the migration. -/
theorem mem_ring_parts {ring : HashRing} (hring : v.ring = some ring) {part : List Char} :
    part ∈ partitionParts v ↔ part = "vnodes=".toList ++ Nat.toDigits 10 ring.vnodes ∨
      part ∈ ring.keys ∨ ∃ m ∈ v.migration, part = "->".toList ++ m.id := by
  simp only [partitionParts, hring, List.mem_append, List.mem_cons, HashRing.keys, List.mem_map,
    Option.mem_toList, Option.mem_def, or_assoc, eq_comm (a := part)]

theorem vnodesPart_notMem (hv : v.TopologyOk) (hring : v.ring = none) (n : ℕ) :
    "vnodes=".toList ++ Nat.toDigits 10 n ∉ partitionParts v := by
  intro hmem
  simp only [partitionParts, hring, ring_of_migration hv hring, Option.toList_none, List.map_nil,
    List.append_nil] at hmem
  obtain ⟨s, -, heq⟩ := List.mem_map.mp hmem
  rw [part_eq] at heq
  have hv0 : 'v' ∉ Nat.toDigits 10 (rangeOf s).1 := notMem_toDigits rfl _
  cases hd : Nat.toDigits 10 (rangeOf s).1 with
  | nil =>
    rw [hd, List.nil_append] at heq
    exact absurd (List.cons.inj heq).1 (by decide)
  | cons c cs =>
    rw [hd] at heq hv0
    exact hv0 (List.mem_cons.mpr (.inl (List.cons.inj heq).1.symm))

/-- A list that ends in what has a property and has nothing else with it. -/
theorem perm_of_append_perm {α : Type} {p : α → Bool} {as bs cs ds : List α}
    (ha : ∀ a ∈ as, p a = false)
    (hb : ∀ b ∈ bs, p b = true) (hc : ∀ c ∈ cs, p c = false) (hd : ∀ d ∈ ds, p d = true)
    (h : (as ++ bs).Perm (cs ++ ds)) : as.Perm cs ∧ bs.Perm ds := by
  have hpos := h.filter p
  have hneg := h.filter fun a => !p a
  have hnone : ∀ (ls : List α) {q : α → Bool}, (∀ a ∈ ls, q a = false) → ls.filter q = [] :=
    fun ls _ hls =>
    List.filter_eq_nil_iff.mpr (by simpa using hls)
  rw [List.filter_append, List.filter_append, hnone as ha, hnone cs hc, List.filter_eq_self.mpr hb,
    List.filter_eq_self.mpr hd] at hpos
  rw [List.filter_append, List.filter_append, hnone bs (by simpa using hb),
    hnone ds (by simpa using hd), List.filter_eq_self.mpr (by simpa using ha),
    List.filter_eq_self.mpr (by simpa using hc), List.append_nil, List.append_nil] at hneg
  exact ⟨hneg, hpos⟩

theorem migration_of_parts
    (h : (v.migration.toList.map fun m => "->".toList ++ m.id).Perm
      (w.migration.toList.map fun m => "->".toList ++ m.id)) :
    v.migration.map Migration.id = w.migration.map Migration.id := by
  cases hv : v.migration with
  | none =>
    rw [hv] at h
    have hlen := h.length_eq
    cases hw : w.migration with
    | none => rfl
    | some m => simp [hw] at hlen
  | some m =>
    rw [hv] at h
    have hlen := h.length_eq
    cases hw : w.migration with
    | none => simp [hw] at hlen
    | some m' =>
      rw [hw] at h
      have heq := List.singleton_inj.mp (List.perm_singleton.mp h)
      rw [Option.map_some, Option.map_some, List.append_cancel_left heq]

theorem same_of_rings {r r' : HashRing} (hv : Plain v) (hw : Plain w) (hr : v.ring = some r)
    (hr' : w.ring = some r')
    (h : (partitionParts v).Perm (partitionParts w)) : SamePartition v w := by
  have htokens := hw.tokens (by simp [hr'])
  have harrow := hv.arrow (by simp [hr])
  have harrow' := hw.arrow (by simp [hr'])
  simp only [ownerKeys, hr, hr'] at htokens harrow harrow'
  have hn : r.vnodes = r'.vnodes := by
    have hmem := h.mem_iff.mp ((mem_ring_parts hr).mpr (.inl rfl))
    rcases (mem_ring_parts hr').mp hmem with heq | hkey | ⟨m, -, heq⟩
    · exact Precondition.toDigits_injective (List.append_cancel_left heq)
    · exact absurd rfl (htokens _ hkey r.vnodes)
    · exact absurd (List.cons.inj heq).1 (by decide)
  simp only [partitionParts, hr, hr', List.cons_append, hn] at h
  have hmigs : ∀ u : ClusterMetadata, ∀ part ∈ u.migration.toList.map fun m => "->".toList ++ m.id,
      decide ("->".toList <+: part) = true := by
    intro u part hpart
    obtain ⟨m, -, rfl⟩ := List.mem_map.mp hpart
    exact decide_eq_true (List.prefix_append _ _)
  obtain ⟨hkeys, hmig⟩ :=
    perm_of_append_perm (fun key hkey => decide_eq_false (harrow key hkey)) (hmigs v)
    (fun key hkey => decide_eq_false (harrow' key hkey)) (hmigs w) (List.Perm.cons_inv h)
  refine ⟨?_, migration_of_parts hmig⟩
  rw [hr, hr']
  exact ⟨hn, hkeys⟩

theorem same_of_parts_perm (hv : v.TopologyOk) (hw : w.TopologyOk) (hpv : Plain v) (hpw : Plain w)
    (h : (partitionParts v).Perm (partitionParts w)) : SamePartition v w := by
  cases hr : v.ring with
  | some r =>
    cases hr' : w.ring with
    | some r' => exact same_of_rings hpv hpw hr hr' h
    | none =>
      have hmem := h.mem_iff.mp ((mem_ring_parts hr).mpr (.inl rfl))
      exact absurd hmem (vnodesPart_notMem hw hr' _)
  | none =>
    cases hr' : w.ring with
    | some r' =>
      have hmem := h.mem_iff.mpr ((mem_ring_parts hr').mpr (.inl rfl))
      exact absurd hmem (vnodesPart_notMem hv hr _)
    | none =>
      have hmig := ring_of_migration hv hr
      have hmig' := ring_of_migration hw hr'
      simp only [partitionParts, hr, hr', hmig, hmig', Option.toList_none, List.map_nil,
        List.append_nil] at h
      refine ⟨?_, by rw [hmig, hmig']⟩
      rw [hr, hr']
      exact perm_map_of_factors (fun _ _ => rangeOf_eq_of_part) h

end Identity

section Owners

variable {xxh64 : Xxh64} {v w : ClusterMetadata} {hash : ℕ}

theorem shardOwns_eq (shard : ShardInfo) (hash : ℕ) :
    shardOwns shard hash = RangeMap.shardOwns shard hash := by
  simp [shardOwns, RangeMap.shardOwns]

theorem ownerEndpoint_ring {ring : HashRing} (hring : v.ring = some ring) :
    ownerEndpoint xxh64 v hash = ring.ownerKey xxh64 hash := by
  simp only [ownerEndpoint, configuredShard, ringsOf, hring, Option.map_some, Option.map_map,
    HashRing.ownerKey]
  rfl

theorem ownerEndpoint_ranges (hring : v.ring = none) :
    ownerEndpoint xxh64 v hash = ((owners v.shards hash).map fun s => nodeKey s.nodeUrl).head? := by
  have hfind : (v.shards.find? fun s => shardOwns s hash) = (owners v.shards hash).head? := by
    rw [owners, List.head?_filter]
    exact congrArg (List.find? · v.shards) (funext fun s => shardOwns_eq s hash)
  simp only [ownerEndpoint, configuredShard, ringsOf, hring, Option.map_none, Option.map_map, hfind,
    List.head?_map]
  rfl

/-- The owners of a hash in a map of ranges are told by the ranges and their endpoints. -/
theorem owners_keys_perm (h : (v.shards.map rangeOf).Perm (w.shards.map rangeOf)) (hash : ℕ) :
    ((owners v.shards hash).map fun s => nodeKey s.nodeUrl).Perm
      ((owners w.shards hash).map fun s => nodeKey s.nodeUrl) := by
  have hkeys : ∀ shards : List ShardInfo, ((owners shards hash).map fun s => nodeKey s.nodeUrl) =
      ((shards.map rangeOf).filter fun r => RangeMap.shardOwns ⟨r.1, r.2.1, r.2.2, []⟩ hash).map
        fun r => r.2.2 := by
    intro shards
    rw [List.filter_map, List.map_map]
    rfl
  rw [hkeys, hkeys]
  exact (h.filter _).map _

theorem length_owners (hv : v.TopologyOk) (hb : Bounded v.shards) (hne : v.shards ≠ [])
    (hhash : hash < ringSize) : (owners v.shards hash).length = 1 := by
  apply (RangeMap.validateShardRing_iff hb).mp _ hash hhash
  rw [RangeMap.validateShardRing, if_neg (by simpa using hne), hv.2.2.2.1 hne]
  rfl

theorem ownerEndpoint_of_same (hv : v.TopologyOk) (hb : Bounded v.shards) (h : SamePartition v w)
    (hhash : hash < ringSize) : ownerEndpoint xxh64 v hash = ownerEndpoint xxh64 w hash := by
  obtain ⟨howners, -⟩ := h
  cases hr : v.ring with
  | some r =>
    cases hr' : w.ring with
    | none => simp [hr, hr'] at howners
    | some r' =>
      rw [hr, hr'] at howners
      rw [ownerEndpoint_ring hr, ownerEndpoint_ring hr']
      exact ownerKey_of_perm howners.1 howners.2 hash
  | none =>
    cases hr' : w.ring with
    | some r' => simp [hr, hr'] at howners
    | none =>
      rw [hr, hr'] at howners
      have hperm := owners_keys_perm howners hash
      rw [ownerEndpoint_ranges hr, ownerEndpoint_ranges hr']
      by_cases hne : v.shards = []
      · have hnil : (owners v.shards hash).map (fun s => nodeKey s.nodeUrl) = [] := by rw [hne]; rfl
        rw [hnil] at hperm ⊢
        rw [hperm.symm.eq_nil]
      · obtain ⟨s, hs⟩ := List.length_eq_one_iff.mp (length_owners hv hb hne hhash)
        rw [hs, List.map_singleton] at hperm ⊢
        rw [List.singleton_perm.mp hperm]

/-- The fingerprint sees the partitioning alone: not the order of the owners, their replicas or
their spelling. And where no part has a bar in it or reads like another, views with one fingerprint
are partitioned alike, so a cursor goes on over what it was issued for. -/
theorem fingerprint_sound (hv : v.validate = .ok ()) (hw : w.validate = .ok ())
    (hb : Bounded v.shards)
    (hfree : xxh64 (partitionText v) % ringSize = xxh64 (partitionText w) % ringSize →
      partitionText v = partitionText w) :
    (SamePartition v w → partitionFingerprint xxh64 v = partitionFingerprint xxh64 w) ∧
      (Plain v → Plain w → partitionFingerprint xxh64 v = partitionFingerprint xxh64 w →
        SamePartition v w ∧
          ∀ hash < ringSize, ownerEndpoint xxh64 v hash = ownerEndpoint xxh64 w hash) := by
  have htv := (validate_iff.mp hv).1
  have htw := (validate_iff.mp hw).1
  refine ⟨fun hsame => ?_, fun hpv hpw heq => ?_⟩
  · rw [partitionFingerprint_eq, partitionFingerprint_eq, partitionText, partitionText,
      sortedParts_eq_of_perm (parts_perm hsame)]
  · have hsame := same_of_parts_perm htv htw hpv hpw (parts_perm_of_text hpv hpw (hfree heq))
    exact ⟨hsame, fun hash hhash => ownerEndpoint_of_same htv hb hsame hhash⟩

theorem ownerEndpoint_singleton {ring : HashRing} {s : RingShard} (hring : v.ring = some ring)
    (hs : ring.shards = [s]) (hn : ring.vnodes ≠ 0) :
    ownerEndpoint xxh64 v hash = some (nodeKey s.nodeUrl) := by
  obtain ⟨t, hmem, ht⟩ := exists_owner_build (by simp [hs]) hn hash
  rw [hs, List.mem_singleton] at hmem
  rw [ownerEndpoint_ring hring, HashRing.ownerKey, ht, Option.map_some, hmem]

end Owners

section Examples

def ringView (ring : HashRing) : ClusterMetadata := ⟨1, ['n'], false, [], [], some ring, none, ∅⟩

def twoOwners : HashRing := ⟨1, [⟨"http://a".toList, []⟩, ⟨"http://b".toList, []⟩]⟩

/-- The owners in the other order, one spelled differently and one with a replica. -/
def respelled : HashRing := ⟨1, [⟨"http://B/".toList, []⟩, ⟨"http://a".toList, [['r']]⟩]⟩

theorem plain_ringView {ring : HashRing}
    (h : ∀ key ∈ ring.keys, '|' ∉ key ∧ key.head? ≠ some 'v' ∧ key.head? ≠ some '-') :
    Plain (ringView ring) where
  bar key hkey := (h key hkey).1
  tokens _ key hkey n heq := (h key hkey).2.1 (by rw [heq]; rfl)
  arrow _ key hkey := fun ⟨rest, heq⟩ => (h key hkey).2.2 (by rw [← heq]; rfl)
  migration m hm := nomatch hm

theorem fingerprint_sound_respelled :
    let xxh64 : Xxh64 := fun text => (text.map Char.toNat).sum
    partitionFingerprint xxh64 (ringView twoOwners) = partitionFingerprint xxh64
      (ringView respelled) ∧
      ∀ hash < ringSize,
        ownerEndpoint xxh64 (ringView twoOwners) hash = ownerEndpoint xxh64
          (ringView respelled) hash := by
  have htext : partitionText (ringView twoOwners) = partitionText (ringView respelled) := by decide
  have h := @fingerprint_sound (fun text => (text.map Char.toNat).sum) (ringView twoOwners)
    (ringView respelled) (by decide) (by decide) (by decide) fun _ => htext
  have heq := h.1 ⟨⟨rfl, by decide⟩, rfl⟩
  exact ⟨heq, (h.2 (plain_ringView (by decide)) (plain_ringView (by decide)) heq).2⟩

/-- An endpoint that reads like the number of tokens of the other ring. -/
def threeTokens : HashRing := ⟨3, [⟨"http://vnodes=2".toList, []⟩]⟩

def twoTokens : HashRing := ⟨2, [⟨"http://vnodes=3".toList, []⟩]⟩

theorem fingerprint_collides :
    (ringView threeTokens).validate = .ok () ∧ (ringView twoTokens).validate = .ok () ∧
      ∀ xxh64 : Xxh64, partitionFingerprint xxh64 (ringView threeTokens) =
          partitionFingerprint xxh64 (ringView twoTokens) ∧
        ∀ hash, ownerEndpoint xxh64 (ringView threeTokens) hash ≠ ownerEndpoint xxh64
          (ringView twoTokens) hash := by
  have htext : partitionText (ringView threeTokens) = partitionText (ringView twoTokens) := by
    decide
  refine ⟨by decide, by decide, fun xxh64 => ⟨?_, fun hash => ?_⟩⟩
  · rw [partitionFingerprint_eq, partitionFingerprint_eq, htext]
  · rw [ownerEndpoint_singleton rfl rfl (by decide), ownerEndpoint_singleton rfl rfl (by decide)]
    decide

end Examples

end DewDB.KeyOwnership
