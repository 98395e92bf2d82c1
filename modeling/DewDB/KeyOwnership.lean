import DewDB.ClusterMeta
import Mathlib.Data.List.Pairwise

/-!
# Who holds a key

Three answers to one question, all from the rings that a view is laid out as: the shard's own
verdict on a key, the filter of a scan, and the shard that a router sends to. A group is named by
its primary; all its nodes get the answer of the ring entry that lists them.
-/
namespace DewDB.KeyOwnership

open Endpoint TokenRing Vote ClusterMeta
open HandoverPlan (holds)
open ClusterView (ShardInfo)

inductive Ownership where
  | ours
  | elsewhere (owner : Url)
  | moving (next : Url)
  deriving DecidableEq

/-- The ring of a view and that of its migration, in lookup form. -/
abbrev Rings := Option BuiltRing × Option BuiltRing

/-- The entry that lists the node, as its primary or as a replica. -/
def entryFor (shards : List RingShard) (nodeUrl : Url) : Option RingShard :=
  shards.find? fun s => holds s nodeUrl

def groupOwner (built : BuiltRing) (ownUrl : Url) : Option Url :=
  (entryFor built.shards ownUrl).map RingShard.nodeUrl

def ShardInfo.part (s : ShardInfo) : List Char :=
  Nat.toDigits 10 s.startHash ++ '-' :: Nat.toDigits 10 s.endHash ++ '@' :: nodeKey s.nodeUrl

def partitionParts (v : ClusterMetadata) : List (List Char) :=
  (match v.ring with
    | some ring => ("vnodes=".toList ++ Nat.toDigits 10 ring.vnodes) ::
        ring.shards.map fun s => nodeKey s.nodeUrl
    | none => v.shards.map ShardInfo.part) ++
  v.migration.toList.map fun m => "->".toList ++ m.id

/-- Whether a range holds a hash; one that ends where it starts is the whole. -/
def shardOwns (shard : ShardInfo) (hash : ℕ) : Bool :=
  if shard.startHash = shard.endHash then true
  else if shard.startHash < shard.endHash then shard.startHash ≤ hash && hash < shard.endHash
  else shard.startHash ≤ hash || hash < shard.endHash

structure PrimaryOverride where
  url : Url
  age : ℕ

def overrideTtlSecs : ℕ := 30

def Ownership.Held : Ownership → Prop
  | .ours | .moving _ => True
  | .elsewhere _ => False

instance (o : Ownership) : Decidable o.Held := by
  cases o <;> unfold Ownership.Held <;> infer_instance

def withOverride (overrides : Url → Option PrimaryOverride) (owner : Url) (replicas : List Url) :
    Url × Url × List Url :=
  match overrides owner with
  | some ov => if ov.age < overrideTtlSecs then (ov.url, owner, replicas)
      else (owner, owner, replicas)
  | none => (owner, owner, replicas)

section Verdicts

variable (xxh64 : Xxh64)

def groupOwns (built : BuiltRing) (group : Url) (collection : CollectionName)
    (key : List Char) : Bool :=
  (built.owner (hashKey xxh64 collection key)).any fun owner => sameEndpoint owner.nodeUrl group

def partitionFingerprint (v : ClusterMetadata) : ℕ :=
  xxh64 (List.intercalate ['|'] ((partitionParts v).insertionSort fun a b =>
    textLt b a = false)) % ringSize

/-- A node's verdict on a key; `none` where there is no ring. -/
def classify (v : ClusterMetadata) (built : BuiltRing) (target : Option BuiltRing) (ownUrl : Url)
    (collection : CollectionName) (key : List Char) : Option Ownership :=
  let hash := hashKey xxh64 collection key
  match built.owner hash with
  | none => none
  | some owner =>
    match entryFor built.shards ownUrl with
    | none => some (.elsewhere owner.nodeUrl)
    | some mine =>
      if !sameEndpoint owner.nodeUrl mine.nodeUrl then some (.elsewhere owner.nodeUrl)
      else if v.migration.any fun m => m.phase == .finalizing then
        match target.bind fun t => t.owner hash with
        | some next =>
          if !sameEndpoint next.nodeUrl mine.nodeUrl then some (.moving next.nodeUrl)
            else some .ours
        | none => some .ours
      else some .ours

structure ScanOwnership where
  ring : Option BuiltRing
  group : Option Url
  collection : CollectionName
  fingerprint : ℕ

def ScanOwnership.includes (s : ScanOwnership) (key : List Char) : Bool :=
  match s.ring with
  | none => true
  | some ring => s.group.any fun group => groupOwns xxh64 ring group s.collection key

variable (v : ClusterMetadata) (rings : Rings)

/-- `AppState::ownership` of a node with this view and these rings. -/
def ownership (ownUrl : Url) (collection : CollectionName) (key : List Char) : Option Ownership :=
  rings.1.bind fun built => classify xxh64 v built rings.2 ownUrl collection key

/-- `AppState::scan_ownership`. -/
def scanOwnership (ownUrl : Url) (collection : CollectionName) : ScanOwnership :=
  ⟨rings.1, rings.1.bind fun ring => groupOwner ring ownUrl, collection,
    partitionFingerprint xxh64 v⟩

/-- `AppState::get_effective_shard_url`. -/
def getEffectiveShardUrl (overrides : Url → Option PrimaryOverride) (hash : ℕ) :
    Option (Url × Url × List Url) :=
  match rings.1 with
  | some ring => (ring.owner hash).map fun owner =>
      withOverride overrides owner.nodeUrl owner.replicaUrls
  | none => (v.shards.find? fun shard => shardOwns shard hash).map fun shard =>
      withOverride overrides shard.nodeUrl shard.replicaUrls

/-- The shard that `get_effective_shard_url` takes a hash to, before a failover. -/
def configuredShard (hash : ℕ) : Option (Url × List Url) :=
  match rings.1 with
  | some ring => (ring.owner hash).map fun owner => (owner.nodeUrl, owner.replicaUrls)
  | none => (v.shards.find? fun shard => shardOwns shard hash).map fun shard =>
      (shard.nodeUrl, shard.replicaUrls)

def ringsOf : Rings := (v.ring.map fun r => r.build xxh64, v.migration.map fun m =>
  m.target.build xxh64)

theorem getEffectiveShardUrl_eq (v : ClusterMetadata) (rings : Rings)
    (overrides : Url → Option PrimaryOverride)
    (hash : ℕ) : getEffectiveShardUrl v rings overrides hash =
      (configuredShard v rings hash).map fun shard => withOverride overrides shard.1 shard.2 := by
  unfold getEffectiveShardUrl configuredShard
  split <;> simp [Option.map_map, Function.comp_def]

end Verdicts

section ValidRing

variable {ring : HashRing} {s t : RingShard} {n : Url}

/-- The replicas of a shard are not placed before, and are placed afterwards. -/
theorem placed_of_checkReplicas {primaries mine placed placed' urls : List Url} {nodeUrl : Url}
    (h : checkReplicas primaries nodeUrl mine placed urls = .ok placed') :
    (∀ k ∈ placed, k ∈ placed') ∧ ∀ r ∈ urls, nodeKey r ∉ placed ∧ nodeKey r ∈ placed' := by
  induction urls generalizing mine placed with
  | nil =>
    cases h
    exact ⟨fun _ hk => hk, by simp⟩
  | cons r urls ih =>
    simp only [checkReplicas] at h
    repeat (split at h; · cases h)
    next hplaced =>
      obtain ⟨hkeep, hurls⟩ := ih h
      refine ⟨fun k hk => hkeep k (List.mem_cons_of_mem _ hk), fun q hq => ?_⟩
      rcases List.mem_cons.mp hq with rfl | hq
      · exact ⟨hplaced, hkeep _ List.mem_cons_self⟩
      · exact ⟨fun hk => (hurls q hq).1 (List.mem_cons_of_mem _ hk), (hurls q hq).2⟩

def Apart (s t : RingShard) : Prop := ∀ r ∈ s.replicaUrls, ∀ q ∈ t.replicaUrls,
  nodeKey r ≠ nodeKey q

instance : Std.Symm Apart where
  symm _ _ hst r hr q hq heq := hst q hq r hr heq.symm

theorem disjoint_of_checkPlacement {primaries placed : List Url} {shards : List RingShard}
    (h : checkPlacement primaries placed shards = .ok ()) :
    (∀ s ∈ shards, ∀ r ∈ s.replicaUrls, nodeKey r ∉ placed) ∧
      shards.Pairwise Apart := by
  induction shards generalizing placed with
  | nil => exact ⟨by simp, List.Pairwise.nil⟩
  | cons s shards ih =>
    simp only [checkPlacement] at h
    split at h
    · cases h
    · next placed' hs =>
      obtain ⟨hkeep, hurls⟩ := placed_of_checkReplicas hs
      obtain ⟨hrest, hpair⟩ := ih h
      refine ⟨fun t ht r hr => ?_, List.pairwise_cons.mpr ⟨fun t ht r hr q hq heq => ?_, hpair⟩⟩
      · rcases List.mem_cons.mp ht with rfl | ht
        · exact (hurls r hr).1
        · exact fun hk => hrest t ht r hr (hkeep _ hk)
      · exact hrest t ht q hq (heq ▸ (hurls r hr).2)

theorem eq_of_primary (h : ring.validate = .ok ()) (hs : s ∈ ring.shards) (ht : t ∈ ring.shards)
    (hkey : nodeKey s.nodeUrl = nodeKey t.nodeUrl) : s = t := by
  obtain ⟨primaries, hp, -⟩ := checked_of_validate h
  exact List.inj_on_of_nodup_map (nodup_of_checkPrimaries hp).1 hs ht hkey

theorem eq_of_replica (h : ring.validate = .ok ()) (hs : s ∈ ring.shards)
    (ht : t ∈ ring.shards) {r q : Url}
    (hr : r ∈ s.replicaUrls) (hq : q ∈ t.replicaUrls) (hkey : nodeKey r = nodeKey q) : s = t := by
  obtain ⟨primaries, -, hplace⟩ := checked_of_validate h
  by_contra hne
  exact (disjoint_of_checkPlacement hplace).2.forall hs ht hne r hr q hq hkey

theorem holds_iff : holds s n = true ↔
    nodeKey s.nodeUrl = nodeKey n ∨ ∃ r ∈ s.replicaUrls, nodeKey r = nodeKey n := by
  simp [holds, sameEndpoint_iff]

theorem eq_of_holds (h : ring.validate = .ok ()) (hs : s ∈ ring.shards) (ht : t ∈ ring.shards)
    (hsn : holds s n = true) (htn : holds t n = true) : s = t := by
  rcases holds_iff.mp hsn with hsk | ⟨r, hr, hrk⟩ <;>
    rcases holds_iff.mp htn with htk | ⟨q, hq, hqk⟩
  · exact eq_of_primary h hs ht (hsk.trans htk.symm)
  · exact absurd (hqk.trans hsk.symm) (replica_ne_primary h hs ht hq)
  · exact absurd (hrk.trans htk.symm) (replica_ne_primary h ht hs hr)
  · exact eq_of_replica h hs ht hr hq (hrk.trans hqk.symm)

theorem entryFor_eq (h : ring.validate = .ok ()) (hs : s ∈ ring.shards) (hsn : holds s n = true) :
    entryFor ring.shards n = some s := by
  cases he : entryFor ring.shards n with
  | none => exact absurd hsn (by simpa using List.find?_eq_none.mp he s hs)
  | some t =>
    have htn : holds t n = true := by simpa using List.find?_some he
    rw [eq_of_holds h (List.mem_of_find?_eq_some he) hs htn hsn]

theorem exists_owner {xxh64 : Xxh64} (h : ring.validate = .ok ()) (hash : ℕ) :
    ∃ s ∈ ring.shards, (ring.build xxh64).owner hash = some s :=
  exists_owner_build (nonempty_of_validate h).1 (nonempty_of_validate h).2 hash

end ValidRing

section ValidView

variable {xxh64 : Xxh64} {v : ClusterMetadata} {ring : HashRing} {owner s : RingShard} {n : Url}
  {collection : CollectionName} {key : List Char}

/-- The phase and the target that make a key wait for its next owner. -/
def HandsOver (xxh64 : Xxh64) (v : ClusterMetadata) (owner next : RingShard) (hash : ℕ) : Prop :=
  ∃ m, v.migration = some m ∧ m.phase = .finalizing ∧
    (m.target.build xxh64).owner hash = some next ∧ sameEndpoint next.nodeUrl owner.nodeUrl = false

theorem ownership_elsewhere (hring : v.ring = some ring) (hr : ring.validate = .ok ())
    (ho : (ring.build xxh64).owner (hashKey xxh64 collection key) = some owner)
    (hos : owner ∈ ring.shards) (hs : s ∈ ring.shards) (hn : holds s n = true) (hne : s ≠ owner) :
    ownership xxh64 v (ringsOf xxh64 v) n collection key = some (.elsewhere owner.nodeUrl) := by
  have hmine : entryFor (ring.build xxh64).shards n = some s := entryFor_eq hr hs hn
  have hkey : sameEndpoint owner.nodeUrl s.nodeUrl = false := by
    rw [Bool.eq_false_iff, ne_eq, sameEndpoint_iff]
    exact fun heq => hne (eq_of_primary hr hs hos heq.symm)
  simp [ownership, ringsOf, hring, classify, ho, hmine, hkey]

theorem ownership_held (hring : v.ring = some ring) (hr : ring.validate = .ok ())
    (ho : (ring.build xxh64).owner (hashKey xxh64 collection key) = some owner)
    (hos : owner ∈ ring.shards) (hn : holds owner n = true) :
    (∃ next, HandsOver xxh64 v owner next (hashKey xxh64 collection key) ∧
        ownership xxh64 v (ringsOf xxh64 v) n collection key = some (.moving next.nodeUrl)) ∨
      (∀ next, ¬ HandsOver xxh64 v owner next (hashKey xxh64 collection key)) ∧
        ownership xxh64 v (ringsOf xxh64 v) n collection key = some .ours := by
  have hmine : entryFor (ring.build xxh64).shards n = some owner := entryFor_eq hr hos hn
  cases hm : v.migration with
  | none =>
    right
    exact ⟨by simp [HandsOver, hm], by simp [ownership, ringsOf, hring, classify, ho, hmine, hm]⟩
  | some m =>
    by_cases hphase : m.phase = .finalizing
    · cases ht : (m.target.build xxh64).owner (hashKey xxh64 collection key) with
      | none =>
        right
        exact ⟨by simp [HandsOver, hm, ht],
          by simp [ownership, ringsOf, hring, classify, ho, hmine, hm, ht]⟩
      | some next =>
        by_cases hsame : sameEndpoint next.nodeUrl owner.nodeUrl = true
        · right
          exact ⟨by simp [HandsOver, hm, ht, hsame],
            by simp [ownership, ringsOf, hring, classify, ho, hmine, hm, ht, hsame]⟩
        · left
          exact ⟨next, ⟨m, hm, hphase, ht, by simpa using hsame⟩,
            by simp [ownership, ringsOf, hring, classify, ho, hmine, hm, ht, hsame, hphase]⟩
    · right
      exact ⟨by simp [HandsOver, hm, hphase],
        by simp [ownership, ringsOf, hring, classify, ho, hmine, hm, hphase]⟩

theorem scanOwnership_includes (hring : v.ring = some ring) (hr : ring.validate = .ok ())
    (ho : (ring.build xxh64).owner (hashKey xxh64 collection key) = some owner)
    (hos : owner ∈ ring.shards) (hs : s ∈ ring.shards) (hn : holds s n = true) :
    (scanOwnership xxh64 v (ringsOf xxh64 v) n collection).includes xxh64 key = true ↔
      s = owner := by
  have hmine : entryFor (ring.build xxh64).shards n = some s := entryFor_eq hr hs hn
  have hincludes : (scanOwnership xxh64 v (ringsOf xxh64 v) n collection).includes xxh64 key =
      sameEndpoint owner.nodeUrl s.nodeUrl := by
    simp [ScanOwnership.includes, scanOwnership, ringsOf, hring, groupOwner, hmine, groupOwns, ho]
  rw [hincludes, sameEndpoint_iff]
  exact ⟨fun heq => eq_of_primary hr hs hos heq.symm, fun heq => heq ▸ rfl⟩

/-- The router sends to the owner, or to the node last found to lead the owner's group. -/
theorem getEffectiveShardUrl_owner (overrides : Url → Option PrimaryOverride)
    (hring : v.ring = some ring) {hash : ℕ} (ho : (ring.build xxh64).owner hash = some owner) :
    ∃ dest, getEffectiveShardUrl v (ringsOf xxh64 v) overrides hash =
        some (dest, owner.nodeUrl, owner.replicaUrls) ∧
      (dest = owner.nodeUrl ∨ ∃ ov, overrides owner.nodeUrl = some ov ∧ dest = ov.url) := by
  have hroute : getEffectiveShardUrl v (ringsOf xxh64 v) overrides hash =
      some (withOverride overrides owner.nodeUrl owner.replicaUrls) := by
    simp [getEffectiveShardUrl, ringsOf, hring, ho]
  rw [hroute, withOverride]
  cases hov : overrides owner.nodeUrl with
  | none => exact ⟨_, rfl, .inl rfl⟩
  | some ov =>
    by_cases hfresh : ov.age < overrideTtlSecs
    · exact ⟨ov.url, by simp [hfresh], .inr ⟨ov, rfl, rfl⟩⟩
    · exact ⟨owner.nodeUrl, by simp [hfresh], .inl rfl⟩

/-- One group of a valid view holds a key: every node of it says so, every other node of the ring
names it, its scans alone take the key and the router sends there. The group hands the key over
exactly when the migration is finalizing towards another owner. -/
theorem ownership_agrees (xxh64 : Xxh64) (hv : v.validate = .ok ()) (hring : v.ring = some ring)
    (overrides : Url → Option PrimaryOverride) (collection : CollectionName) (key : List Char) :
    ∃ owner ∈ ring.shards,
      (∀ s ∈ ring.shards, ∀ n, holds s n = true →
        ((∃ o, ownership xxh64 v (ringsOf xxh64 v) n collection key = some o ∧ o.Held) ↔
          s = owner) ∧
        (s ≠ owner →
          ownership xxh64 v (ringsOf xxh64 v) n collection key = some (.elsewhere owner.nodeUrl)) ∧
        ((scanOwnership xxh64 v (ringsOf xxh64 v) n collection).includes xxh64 key = true ↔
          s = owner)) ∧
      (∃ dest, getEffectiveShardUrl v (ringsOf xxh64 v) overrides (hashKey xxh64 collection key) =
          some (dest, owner.nodeUrl, owner.replicaUrls) ∧
        (dest = owner.nodeUrl ∨ ∃ ov, overrides owner.nodeUrl = some ov ∧ dest = ov.url)) ∧
      ∀ n, holds owner n = true → ∀ url,
        ownership xxh64 v (ringsOf xxh64 v) n collection key = some (.moving url) ↔
          ∃ m next, v.migration = some m ∧ m.phase = .finalizing ∧ next ∈ m.target.shards ∧
            (m.target.build xxh64).owner (hashKey xxh64 collection key) = some next ∧
            sameEndpoint next.nodeUrl owner.nodeUrl = false ∧ url = next.nodeUrl := by
  have hr : ring.validate = .ok () := (validate_iff.mp hv).1.2.1 ring hring
  obtain ⟨owner, hos, ho⟩ := @exists_owner _ xxh64 hr (hashKey xxh64 collection key)
  refine ⟨owner, hos, fun s hs n hn => ⟨⟨?_, ?_⟩, ?_, ?_⟩, ?_, fun n hn url => ⟨?_, ?_⟩⟩
  · rintro ⟨o, hverdict, hheld⟩
    by_contra hne
    rw [ownership_elsewhere hring hr ho hos hs hn hne] at hverdict
    cases hverdict
    exact hheld
  · rintro rfl
    rcases ownership_held hring hr ho hs hn with ⟨next, -, hverdict⟩ | ⟨-, hverdict⟩
    · exact ⟨_, hverdict, trivial⟩
    · exact ⟨_, hverdict, trivial⟩
  · exact ownership_elsewhere hring hr ho hos hs hn
  · exact scanOwnership_includes hring hr ho hos hs hn
  · exact getEffectiveShardUrl_owner overrides hring ho
  · intro hverdict
    rcases ownership_held hring hr ho hos hn with ⟨next, ⟨m, hm, hphase, ht, hkey⟩,
      hmoving⟩ | ⟨-, hours⟩
    · obtain rfl : next.nodeUrl = url := by simpa using hmoving.symm.trans hverdict
      exact ⟨m, next, hm, hphase, BuiltRing.mem_of_owner ht, ht, hkey, rfl⟩
    · exact absurd (hours.symm.trans hverdict) (by simp)
  · rintro ⟨m, next, hm, hphase, -, ht, hkey, rfl⟩
    rcases ownership_held hring hr ho hos hn
      with ⟨next', ⟨m', hm', -, ht', -⟩, hmoving⟩ | ⟨hnone, -⟩
    · obtain rfl : m = m' := by simpa using hm.symm.trans hm'
      obtain rfl : next = next' := by simpa using ht.symm.trans ht'
      exact hmoving
    · exact absurd ⟨m, hm, hphase, ht, hkey⟩ (hnone next)

/-- A primary with a replica and a primary alone; `slash` is another spelling of the latter. -/
def twoGroups (slash : Url) : List RingShard :=
  [⟨"http://alpha:1234".toList, ["http://alpha:5678".toList]⟩,
    ⟨"http://beta.example:1".toList ++ slash, []⟩]

def growing : ClusterMetadata where
  version := 5
  updatedBy := ['a']
  seeded := false
  members := []
  shards := []
  ring := some ⟨1, twoGroups ['/']⟩
  migration := some ⟨['m'], ⟨1, twoGroups [] ++ [⟨"http://gamma:1".toList, []⟩]⟩,
    ['a'], .finalizing⟩
  indexCatalog := ∅

theorem ownership_agrees_growing : ∃ owner ∈ twoGroups ['/'], ∀ n, holds owner n = true →
    (scanOwnership List.length growing (ringsOf List.length growing) n ['u']).includes
      List.length ['k'] = true := by
  have hv : growing.validate = .ok () := by decide
  obtain ⟨owner, hos, hgroups, -⟩ := ownership_agrees List.length hv rfl (fun _ => none) ['u'] ['k']
  exact ⟨owner, hos, fun n hn => (hgroups owner hos n hn).2.2.mpr rfl⟩

end ValidView

end DewDB.KeyOwnership
