import DewDB.KeyOwnership
import DewDB.KeyedSort
import DewDB.RingLaws
import DewDB.SortedMap

/-!
# The ring that the members ask for

The rebalancer derives a ring from the members of a view and from where the ring in force places the
replicas, and starts a migration while the two rings differ.
-/
namespace DewDB.Rebalance

open Endpoint TokenRing ClusterMeta KeyOwnership KeyedSort
open ClusterView (Role ShardRole)

/-- `None` only for a router. -/
def effectiveShardRole (m : Member) : Option ShardRole :=
  if m.role ≠ .shard then none else some (if m.shardRole = some .primary then .primary
    else .replica)

def isPrimary (m : Member) : Bool := m.role = .shard && m.shardRole = some .primary

/-- `sort_by` with `cmp_endpoint`. -/
def sortUrls (urls : List Url) : List Url := sortBy (fun a b => (cmpEndpoint a b).isLE) urls

abbrev Placements := SortedMap Url (List Url)

/-- `get_mut(primary).unwrap().push(url)`; every primary has an entry from the start. -/
def push (placements : Placements) (primary url : Url) : Placements :=
  match placements.get? primary with
  | some urls => placements.insert primary (urls ++ [url])
  | none => placements

def replicaMembers (v : ClusterMetadata) : SortedMap Url Member :=
  (v.members.filter fun m => effectiveShardRole m = some .replica).foldl
    (fun replicas m => replicas.insert (nodeKey m.url) m) .empty

/-- A replica of the ring in force stays with its shard if it is a member and follows nobody else.
-/
def keepReplica (replicas : SortedMap Url Member) (shard : RingShard) (placements : Placements)
    (replicaUrl : Url) : Placements :=
  match replicas.get? (nodeKey replicaUrl) with
  | none => placements
  | some replica =>
    if replica.follows.any fun follows => !sameEndpoint follows shard.nodeUrl then placements
    else push placements (nodeKey shard.nodeUrl) replica.url

def keepShard (endpoints : List Url) (replicas : SortedMap Url Member) (placements : Placements)
    (shard : RingShard) : Placements :=
  if nodeKey shard.nodeUrl ∉ endpoints then placements
  else shard.replicaUrls.foldl (keepReplica replicas shard) placements

def follow (endpoints : List Url) (placements : Placements) (replica : Member) : Placements :=
  match replica.follows with
  | some primary =>
    if nodeKey primary ∈ endpoints then push placements (nodeKey primary) replica.url
      else placements
  | none => placements

def replicaPlacements (v : ClusterMetadata) (current : HashRing)
    (primaries : List Url) : Placements :=
  let endpoints := primaries.map nodeKey
  let replicas := replicaMembers v
  let start := primaries.foldl (fun placements primary =>
    placements.insert (nodeKey primary) []) .empty
  let kept := current.shards.foldl (keepShard endpoints replicas) start
  (replicas.values.foldl (follow endpoints) kept).mapValues fun urls =>
    dedupBy sameEndpoint (sortUrls urls)

def distinctUrls (seen : List Url) : List Url → List Url
  | [] => []
  | url :: rest =>
    if nodeKey url ∈ seen then distinctUrls seen rest
      else url :: distinctUrls (nodeKey url :: seen) rest

inductive RebalanceError where
  | noPrimaries
  | ring (e : RingError)
  deriving DecidableEq

def desiredRing (v : ClusterMetadata) : Except RebalanceError (Option HashRing) :=
  match v.ring with
  | none => .ok none
  | some current =>
    let primaries := distinctUrls [] ((v.members.filter isPrimary).map fun m => m.url)
    if primaries.isEmpty then .error .noPrimaries
    else
      let primaries := sortUrls primaries
      let replicas := replicaPlacements v current primaries
      let target : HashRing :=
        ⟨current.vnodes, primaries.map fun url => ⟨url, (replicas.get? (nodeKey url)).getD []⟩⟩
      match target.validate with
      | .error e => .error (.ring e)
      | .ok () => .ok (some target)

def targetSignature (target : HashRing) : List (Url × List Url) :=
  target.shards.map fun shard => (nodeKey shard.nodeUrl, shard.replicaUrls.map nodeKey)

/-- The ring that a round of the rebalancer sets out to migrate to. -/
def pendingTarget (v : ClusterMetadata) : Option HashRing :=
  if v.migration.isSome then none
  else
    match desiredRing v with
    | .ok (some target) => if v.ring = some target then none else some target
    | _ => none

section Members

variable {v : ClusterMetadata}

theorem of_checkMembers {seen : List Url} {ms : List ClusterView.Member}
    (h : ClusterView.checkMembers seen ms = .ok ()) :
    (ms.map fun m => nodeKey m.url).Nodup ∧ ∀ m ∈ ms, blank m.url = false ∧
      nodeKey m.url ∉ seen := by
  induction ms generalizing seen with
  | nil => exact ⟨List.nodup_nil, fun _ hm => nomatch hm⟩
  | cons m ms ih =>
    rw [ClusterView.checkMembers] at h
    split_ifs at h with hblank hseen
    have hrest : ClusterView.checkMembers (nodeKey m.url :: seen) ms = .ok () := by
      split at h
      · cases h
      · exact h
    obtain ⟨hnodup, hms⟩ := ih hrest
    refine ⟨List.nodup_cons.mpr ⟨fun hmem => ?_, hnodup⟩,
      List.forall_mem_cons.mpr ⟨?_, fun a ha => ?_⟩⟩
    · obtain ⟨a, ha, hkey⟩ := List.mem_map.mp hmem
      exact (hms a ha).2 (hkey ▸ List.mem_cons_self)
    · exact ⟨by simpa using hblank, hseen⟩
    · exact ⟨(hms a ha).1, fun hmem => (hms a ha).2 (List.mem_cons_of_mem _ hmem)⟩

structure Distinct (v : ClusterMetadata) : Prop where
  nodup : (v.members.map fun m => nodeKey m.url).Nodup
  nonblank : ∀ m ∈ v.members, blank m.url = false

theorem distinct_of_valid (h : v.TopologyOk) : Distinct v := by
  obtain ⟨hnodup, hms⟩ := of_checkMembers h.2.2.2.2
  rw [List.map_map] at hnodup
  exact ⟨hnodup, fun m hm => (hms _ (List.mem_map_of_mem hm)).1⟩

theorem Distinct.eq_of_key (h : Distinct v) {m n : Member} (hm : m ∈ v.members) (hn : n ∈ v.members)
    (hkey : nodeKey m.url = nodeKey n.url) : m = n := List.inj_on_of_nodup_map h.nodup hm hn hkey

theorem Distinct.nodup_filter (h : Distinct v) (p : Member → Bool) :
    (((v.members.filter p).map fun m => m.url).map nodeKey).Nodup := by
  rw [List.map_map]
  exact h.nodup.sublist (List.filter_sublist.map _)

theorem distinctUrls_eq {seen urls : List Url} (hnodup : (urls.map nodeKey).Nodup)
    (hseen : ∀ url ∈ urls, nodeKey url ∉ seen) : distinctUrls seen urls = urls := by
  induction urls generalizing seen with
  | nil => rfl
  | cons url urls ih =>
    rw [List.map_cons, List.nodup_cons] at hnodup
    rw [List.forall_mem_cons] at hseen
    rw [distinctUrls, if_neg hseen.1, ih hnodup.2]
    intro u hu hmem
    rcases List.mem_cons.mp hmem with heq | hmem
    · exact hnodup.1 (heq ▸ List.mem_map_of_mem hu)
    · exact hseen.2 u hu hmem

theorem getLast?_eq_some_iff {α : Type} {as : List α} (h : ∀ a ∈ as, ∀ b ∈ as, a = b) {a : α} :
    as.getLast? = some a ↔ a ∈ as := by
  refine ⟨List.mem_of_getLast?, fun ha => ?_⟩
  obtain ⟨b, hb⟩ := Option.isSome_iff_exists.mp (List.getLast?_isSome.mpr (List.ne_nil_of_mem ha))
  rw [hb, h b (List.mem_of_getLast? hb) a ha]

theorem get?_replicaMembers (h : Distinct v) {k : Url} {m : Member} :
    (replicaMembers v).get? k = some m ↔
      m ∈ v.members ∧ effectiveShardRole m = some .replica ∧ nodeKey m.url = k := by
  rw [replicaMembers, SortedMap.get?_foldl_insert (fun m : Member => nodeKey m.url) (fun m => m),
    SortedMap.get?_empty, Option.or_none, Option.map_id', getLast?_eq_some_iff]
  · simp only [List.mem_filter, decide_eq_true_eq, and_assoc]
  · intro a ha b hb
    simp only [List.mem_filter, decide_eq_true_eq] at ha hb
    exact h.eq_of_key ha.1.1 hb.1.1 (ha.2.trans hb.2.symm)

theorem mem_values_replicaMembers (h : Distinct v) {m : Member} :
    m ∈ (replicaMembers v).values ↔ m ∈ v.members ∧ effectiveShardRole m = some .replica := by
  rw [SortedMap.values, List.mem_map]
  constructor
  · rintro ⟨e, he, rfl⟩
    obtain ⟨hmem, hrole, -⟩ := (get?_replicaMembers h).mp (SortedMap.mem_entries_iff.mp he)
    exact ⟨hmem, hrole⟩
  · rintro ⟨hmem, hrole⟩
    exact ⟨(nodeKey m.url, m), SortedMap.mem_entries_iff.mpr
      ((get?_replicaMembers h).mpr ⟨hmem, hrole, rfl⟩), rfl⟩

end Members

section Placing

def Holds (placements : Placements) (primary url : Url) : Prop :=
  ∃ urls, placements.get? primary = some urls ∧ url ∈ urls

/-- A step adds the replicas that a relation names, where the endpoints have entries. -/
structure Adds {β : Type} (endpoints : List Url) (step : Placements → β → Placements)
    (adds : β → Url → Url → Prop) : Prop where
  keys : ∀ placements b primary, ((step placements b).get? primary).isSome =
    (placements.get? primary).isSome
  holds : ∀ placements b, (∀ k ∈ endpoints, (placements.get? k).isSome = true) → ∀ primary url,
    Holds (step placements b) primary url ↔ Holds placements primary url ∨ adds b primary url

variable {endpoints : List Url}

theorem Adds.foldl {β : Type} {step : Placements → β → Placements} {adds : β → Url → Url → Prop}
    (h : Adds endpoints step adds) :
    Adds endpoints (fun placements (bs : List β) => bs.foldl step placements) fun bs primary url =>
      ∃ b ∈ bs, adds b primary url where
  keys placements bs primary := by
    induction bs generalizing placements with
    | nil => rfl
    | cons b bs ih => rw [List.foldl_cons, ih, h.keys]
  holds placements bs hkeys primary url := by
    induction bs generalizing placements with
    | nil => simp
    | cons b bs ih =>
      rw [List.foldl_cons, ih _ fun k hk => (h.keys _ _ _).trans (hkeys k hk),
        h.holds _ _ hkeys, or_assoc, List.exists_mem_cons_iff]

theorem keys_push (placements : Placements) (primary url k : Url) :
    ((push placements primary url).get? k).isSome = (placements.get? k).isSome := by
  unfold push
  split
  · rename_i urls hurls
    rw [SortedMap.get?_insert]
    split_ifs with hk
    · rw [hk, hurls]
      rfl
    · rfl
  · rfl

theorem holds_push {placements : Placements} {primary : Url}
    (h : (placements.get? primary).isSome = true)
    (url k u : Url) : Holds (push placements primary url) k u ↔
      Holds placements k u ∨ k = primary ∧ u = url := by
  obtain ⟨urls, hurls⟩ := Option.isSome_iff_exists.mp h
  rw [push, hurls]
  dsimp only
  unfold Holds
  rw [SortedMap.get?_insert]
  by_cases hk : k = primary
  · rw [if_pos hk, hk, hurls]
    simp
  · rw [if_neg hk]
    simp [hk]

theorem adds_keepReplica {replicas : SortedMap Url Member} {shard : RingShard}
    (hs : nodeKey shard.nodeUrl ∈ endpoints) :
    Adds endpoints (keepReplica replicas shard) fun replicaUrl primary url =>
      primary = nodeKey shard.nodeUrl ∧ ∃ m, replicas.get? (nodeKey replicaUrl) = some m ∧
        (∀ f ∈ m.follows, nodeKey f = primary) ∧ url = m.url where
  keys placements replicaUrl primary := by
    unfold keepReplica
    split
    · rfl
    · split_ifs
      · rfl
      · exact keys_push _ _ _ _
  holds placements replicaUrl hkeys primary url := by
    unfold keepReplica
    cases hm : replicas.get? (nodeKey replicaUrl) with
    | none => simp
    | some m =>
      have hfollows : (m.follows.any fun f => !sameEndpoint f shard.nodeUrl) = true ↔
          ¬∀ f ∈ m.follows, nodeKey f = nodeKey shard.nodeUrl := by
        cases m.follows with
        | none => simp
        | some f => simp [← sameEndpoint_iff]
      dsimp only
      by_cases hother : ∀ f ∈ m.follows, nodeKey f = nodeKey shard.nodeUrl
      · rw [if_neg fun h => hfollows.mp h hother, holds_push (hkeys _ hs)]
        constructor
        · rintro (h | ⟨rfl, rfl⟩)
          · exact .inl h
          · exact .inr ⟨rfl, m, rfl, hother, rfl⟩
        · rintro (h | ⟨rfl, n, hn, -, rfl⟩)
          · exact .inl h
          · exact .inr ⟨rfl, by rw [Option.some.inj hn]⟩
      · rw [if_pos (hfollows.mpr hother)]
        constructor
        · exact .inl
        · rintro (h | ⟨rfl, n, hn, hn', -⟩)
          · exact h
          · exact absurd (Option.some.inj hn ▸ hn') hother

theorem adds_keepShard (endpoints : List Url) (replicas : SortedMap Url Member) :
    Adds endpoints (keepShard endpoints replicas) fun shard primary url =>
      primary ∈ endpoints ∧ primary = nodeKey shard.nodeUrl ∧ ∃ replicaUrl ∈ shard.replicaUrls, ∃ m,
        replicas.get? (nodeKey replicaUrl) = some m ∧ (∀ f ∈ m.follows, nodeKey f = primary) ∧
          url = m.url where
  keys placements shard primary := by
    unfold keepShard
    by_cases hs : nodeKey shard.nodeUrl ∈ endpoints
    · rw [if_neg (not_not.mpr hs)]
      exact (adds_keepReplica hs).foldl.keys _ _ _
    · rw [if_pos hs]
  holds placements shard hkeys primary url := by
    unfold keepShard
    by_cases hs : nodeKey shard.nodeUrl ∈ endpoints
    · rw [if_neg (not_not.mpr hs), (adds_keepReplica hs).foldl.holds _ _ hkeys]
      apply or_congr_right
      constructor
      · rintro ⟨replicaUrl, hr, rfl, hm⟩
        exact ⟨hs, rfl, replicaUrl, hr, hm⟩
      · rintro ⟨-, heq, replicaUrl, hr, hm⟩
        exact ⟨replicaUrl, hr, heq, hm⟩
    · rw [if_pos hs]
      constructor
      · exact .inl
      · rintro (h | ⟨hmem, rfl, -⟩)
        · exact h
        · exact absurd hmem hs

theorem adds_follow (endpoints : List Url) :
    Adds endpoints (follow endpoints) fun m primary url =>
      primary ∈ endpoints ∧ (∃ f ∈ m.follows, nodeKey f = primary) ∧ url = m.url where
  keys placements m primary := by
    unfold follow
    split
    · split_ifs
      · exact keys_push _ _ _ _
      · rfl
    · rfl
  holds placements m hkeys primary url := by
    unfold follow
    cases hf : m.follows with
    | none => simp
    | some f =>
      dsimp only
      by_cases hmem : nodeKey f ∈ endpoints
      · rw [if_pos hmem, holds_push (hkeys _ hmem)]
        constructor
        · rintro (h | ⟨rfl, rfl⟩)
          · exact .inl h
          · exact .inr ⟨hmem, ⟨f, rfl, rfl⟩, rfl⟩
        · rintro (h | ⟨-, ⟨g, hg, rfl⟩, rfl⟩)
          · exact .inl h
          · exact .inr ⟨by rw [Option.some.inj hg], rfl⟩
      · rw [if_neg hmem]
        constructor
        · exact .inl
        · rintro (h | ⟨hp, ⟨g, hg, rfl⟩, -⟩)
          · exact h
          · exact absurd (Option.some.inj hg ▸ hp) hmem

end Placing

section Target

variable {v : ClusterMetadata} {current : HashRing}

/-- The member is a replica of the primary: the one that it follows, or else the one that has it in
the ring. -/
def placedAt (current : HashRing) (primary : Url) (m : Member) : Bool :=
  effectiveShardRole m = some .replica &&
    match m.follows with
    | some f => nodeKey f == primary
    | none => current.shards.any fun s =>
        nodeKey s.nodeUrl == primary && s.replicaUrls.any fun url => nodeKey url == nodeKey m.url

def primariesOf (v : ClusterMetadata) : List Url :=
  sortUrls ((v.members.filter isPrimary).map fun m => m.url)

def replicasOf (v : ClusterMetadata) (current : HashRing) (primary : Url) : List Url :=
  sortUrls ((v.members.filter (placedAt current primary)).map fun m => m.url)

def targetOf (v : ClusterMetadata) (current : HashRing) : HashRing :=
  ⟨current.vnodes, (primariesOf v).map fun url => ⟨url, replicasOf v current (nodeKey url)⟩⟩

theorem placedAt_iff {primary : Url} {m : Member} : placedAt current primary m = true ↔
    effectiveShardRole m = some .replica ∧
      ((∃ f ∈ m.follows, nodeKey f = primary) ∨ m.follows = none ∧ ∃ s ∈ current.shards,
        nodeKey s.nodeUrl = primary ∧ ∃ url ∈ s.replicaUrls, nodeKey url = nodeKey m.url) := by
  rw [placedAt, Bool.and_eq_true, decide_eq_true_eq]
  cases m.follows with
  | none => simp
  | some f => simp

def startPlacements (primaries : List Url) : Placements :=
  primaries.foldl (fun placements primary => placements.insert (nodeKey primary) []) .empty

theorem isSome_start {primaries : List Url} {k : Url} (hk : k ∈ primaries.map nodeKey) :
    ((startPlacements primaries).get? k).isSome = true := by
  obtain ⟨url, hurl, rfl⟩ := List.mem_map.mp hk
  rw [startPlacements, SortedMap.get?_foldl_insert nodeKey (fun _ => []), SortedMap.get?_empty,
    Option.or_none, Option.isSome_map, List.getLast?_isSome]
  exact List.ne_nil_of_mem (List.mem_filter.mpr ⟨hurl, by simp⟩)

theorem not_holds_start (primaries : List Url) (k url : Url) : ¬Holds
    (startPlacements primaries) k url := by
  rintro ⟨urls, hurls, hmem⟩
  rw [startPlacements, SortedMap.get?_foldl_insert nodeKey (fun _ => []), SortedMap.get?_empty,
    Option.or_none, Option.map_eq_some_iff] at hurls
  obtain ⟨-, -, rfl⟩ := hurls
  cases hmem

theorem holds_placed (h : Distinct v) (current : HashRing) {primaries : List Url} {primary : Url}
    (hp : primary ∈ primaries.map nodeKey) (url : Url) :
    Holds ((replicaMembers v).values.foldl (follow (primaries.map nodeKey))
      (current.shards.foldl (keepShard (primaries.map nodeKey) (replicaMembers v))
        (startPlacements primaries)))
        primary url ↔ ∃ m ∈ v.members, placedAt current primary m = true ∧ url = m.url := by
  have hkept := (adds_keepShard (primaries.map nodeKey) (replicaMembers v)).foldl
  rw [(adds_follow (primaries.map nodeKey)).foldl.holds _ _ fun k hk =>
    (hkept.keys _ _ _).trans (isSome_start hk), hkept.holds _ _ fun k hk => isSome_start hk]
  constructor
  · rintro ((hstart | ⟨s, hs, -, rfl, replicaUrl, hr, m, hm, hfollows, rfl⟩) | ⟨m, hm, -,
      hfollows, rfl⟩)
    · exact absurd hstart (not_holds_start _ _ _)
    · obtain ⟨hmem, hrole, hkey⟩ := (get?_replicaMembers h).mp hm
      refine ⟨m, hmem, placedAt_iff.mpr ⟨hrole, ?_⟩, rfl⟩
      cases hf : m.follows with
      | none => exact .inr ⟨rfl, s, hs, rfl, replicaUrl, hr, hkey.symm⟩
      | some f => exact .inl ⟨f, rfl, hfollows f hf⟩
    · obtain ⟨hmem, hrole⟩ := (mem_values_replicaMembers h).mp hm
      exact ⟨m, hmem, placedAt_iff.mpr ⟨hrole, .inl hfollows⟩, rfl⟩
  · rintro ⟨m, hmem, hplaced, rfl⟩
    obtain ⟨hrole, hfollows | ⟨hnone, s, hs, rfl, replicaUrl, hr, hkey⟩⟩ := placedAt_iff.mp hplaced
    · exact .inr ⟨m, (mem_values_replicaMembers h).mpr ⟨hmem, hrole⟩, hp, hfollows, rfl⟩
    · refine .inl (.inr ⟨s, hs, hp, rfl, replicaUrl, hr, m, ?_, ?_, rfl⟩)
      · exact (get?_replicaMembers h).mpr ⟨hmem, hrole, hkey.symm⟩
      · rw [hnone]
        exact fun f hf => nomatch hf

theorem get?_replicaPlacements (h : Distinct v) (current : HashRing) {primaries : List Url}
    {primary : Url} (hp : primary ∈ primaries.map nodeKey) :
    (replicaPlacements v current primaries).get? primary = some (replicasOf v current primary) := by
  have hkept := (adds_keepShard (primaries.map nodeKey) (replicaMembers v)).foldl
  have hsome := (adds_follow (primaries.map nodeKey)).foldl.keys
    (current.shards.foldl (keepShard (primaries.map nodeKey) (replicaMembers v))
      (startPlacements primaries))
    (replicaMembers v).values primary
  rw [hkept.keys, isSome_start hp] at hsome
  obtain ⟨urls, hurls⟩ := Option.isSome_iff_exists.mp hsome
  have hplaced := holds_placed h current hp
  unfold Holds at hplaced
  rw [hurls] at hplaced
  rw [replicaPlacements, SortedMap.get?_mapValues, replicasOf]
  change Option.map _ ((List.foldl _ (List.foldl _ (startPlacements primaries) _) _).get? primary) =
    _
  rw [hurls, Option.map_some]
  congr 1
  apply dedupBy_sortBy cmpEndpoint_isLE_iff (fun a b => sameEndpoint_iff) (h.nodup_filter _)
  intro url
  rw [List.mem_map]
  constructor
  · intro hmem
    obtain ⟨m, hm, hat, heq⟩ := (hplaced url).mp ⟨urls, rfl, hmem⟩
    exact ⟨m, List.mem_filter.mpr ⟨hm, hat⟩, heq.symm⟩
  · rintro ⟨m, hm, rfl⟩
    obtain ⟨hm, hat⟩ := List.mem_filter.mp hm
    obtain ⟨urls', heq, hmem⟩ := (hplaced m.url).mpr ⟨m, hm, hat, rfl⟩
    rwa [Option.some.inj heq]

theorem desiredRing_eq (h : Distinct v) (hring : v.ring = some current) :
    desiredRing v =
      if primariesOf v = [] then .error .noPrimaries
      else
        match (targetOf v current).validate with
        | .error e => .error (.ring e)
        | .ok () => .ok (some (targetOf v current)) := by
  have hdistinct : distinctUrls [] ((v.members.filter isPrimary).map fun m => m.url) =
      (v.members.filter isPrimary).map fun m => m.url :=
    distinctUrls_eq (h.nodup_filter _) fun url _ hmem => nomatch hmem
  have htarget : (⟨current.vnodes, (primariesOf v).map fun url =>
      ⟨url, ((replicaPlacements v current (primariesOf v)).get? (nodeKey url)).getD []⟩⟩ :
        HashRing) = targetOf v current := by
    rw [targetOf]
    congr 1
    apply List.map_congr_left
    intro url hurl
    rw [get?_replicaPlacements h current (List.mem_map_of_mem hurl), Option.getD_some]
  unfold desiredRing
  rw [hring]
  dsimp only
  rw [hdistinct]
  by_cases hnil : (v.members.filter isPrimary).map (fun m => m.url) = []
  · rw [if_pos (by simp [hnil]), if_pos (by rw [primariesOf, hnil]; rfl)]
  · have hsort : primariesOf v ≠ [] := by
      intro heq
      have hperm : (primariesOf v).Perm _ := perm_sortBy _ _
      rw [heq] at hperm
      exact hnil hperm.symm.eq_nil
    rw [if_neg (by simpa using hnil), if_neg hsort, ← htarget]
    rfl

end Target

section Validity

theorem checkPrimaries_ok (seen : List Url) {shards : List RingShard}
    (hblank : ∀ s ∈ shards, blank s.nodeUrl = false)
    (hnodup : (shards.map fun s => nodeKey s.nodeUrl).Nodup)
    (hseen : ∀ s ∈ shards, nodeKey s.nodeUrl ∉ seen) :
    ∃ primaries, checkPrimaries seen shards = .ok primaries ∧
      ∀ k ∈ primaries, k ∈ seen ∨ ∃ s ∈ shards, nodeKey s.nodeUrl = k := by
  induction shards generalizing seen with
  | nil => exact ⟨seen, rfl, fun _ hk => .inl hk⟩
  | cons s shards ih =>
    rw [List.forall_mem_cons] at hblank hseen
    rw [List.map_cons, List.nodup_cons] at hnodup
    have hrest : ∀ t ∈ shards, nodeKey t.nodeUrl ∉ nodeKey s.nodeUrl :: seen := by
      intro t ht hmem
      rcases List.mem_cons.mp hmem with heq | hmem
      · exact hnodup.1 (heq ▸ List.mem_map_of_mem ht)
      · exact hseen.2 t ht hmem
    obtain ⟨primaries, hok, hmem⟩ := ih _ hblank.2 hnodup.2 hrest
    refine ⟨primaries, ?_, fun k hk => ?_⟩
    · rw [checkPrimaries, if_neg (by simp [hblank.1]), if_neg hseen.1, hok]
    · rcases hmem k hk with hk | ⟨t, ht, rfl⟩
      · rcases List.mem_cons.mp hk with rfl | hk
        · exact .inr ⟨s, List.mem_cons_self, rfl⟩
        · exact .inl hk
      · exact .inr ⟨t, List.mem_cons_of_mem _ ht, rfl⟩

/-- A replica that a shard may list, beside its primary and those of the ring. -/
structure Listable (primaries : List Url) (nodeUrl replica : Url) : Prop where
  nonblank : blank replica = false
  other : nodeKey replica ≠ nodeKey nodeUrl
  notPrimary : nodeKey replica ∉ primaries

theorem checkReplicas_ok {primaries placed urls : List Url} {nodeUrl : Url} (mine : List Url)
    (hlist : ∀ r ∈ urls, Listable primaries nodeUrl r) (hnodup : (urls.map nodeKey).Nodup)
    (hmine : ∀ r ∈ urls, nodeKey r ∉ mine) (hplaced : ∀ r ∈ urls, nodeKey r ∉ placed) :
    ∃ placed', checkReplicas primaries nodeUrl mine placed urls = .ok placed' ∧
      ∀ k ∈ placed', k ∈ placed ∨ ∃ r ∈ urls, nodeKey r = k := by
  induction urls generalizing mine placed with
  | nil => exact ⟨placed, rfl, fun _ hk => .inl hk⟩
  | cons r urls ih =>
    rw [List.forall_mem_cons] at hlist hmine hplaced
    rw [List.map_cons, List.nodup_cons] at hnodup
    have hrest : ∀ {seen : List Url}, (∀ q ∈ urls, nodeKey q ∉ seen) →
      ∀ q ∈ urls, nodeKey q ∉ nodeKey r :: seen := by
      intro seen hseen q hq hmem
      rcases List.mem_cons.mp hmem with heq | hmem
      · exact hnodup.1 (heq ▸ List.mem_map_of_mem hq)
      · exact hseen q hq hmem
    obtain ⟨placed', hok, hmem⟩ := ih _ hlist.2 hnodup.2 (hrest hmine.2) (hrest hplaced.2)
    refine ⟨placed', ?_, fun k hk => ?_⟩
    · rw [checkReplicas, if_neg (by simp [hlist.1.nonblank]), if_neg hlist.1.other,
        if_neg hlist.1.notPrimary, if_neg hmine.1, if_neg hplaced.1, hok]
    · rcases hmem k hk with hk | ⟨q, hq, rfl⟩
      · rcases List.mem_cons.mp hk with rfl | hk
        · exact .inr ⟨r, List.mem_cons_self, rfl⟩
        · exact .inl hk
      · exact .inr ⟨q, List.mem_cons_of_mem _ hq, rfl⟩

theorem checkPlacement_ok {primaries placed : List Url} {shards : List RingShard}
    (hlist : ∀ s ∈ shards, ∀ r ∈ s.replicaUrls, Listable primaries s.nodeUrl r)
    (hnodup : ∀ s ∈ shards, (s.replicaUrls.map nodeKey).Nodup) (hpair : shards.Pairwise Apart)
    (hplaced : ∀ s ∈ shards, ∀ r ∈ s.replicaUrls, nodeKey r ∉ placed) :
    checkPlacement primaries placed shards = .ok () := by
  induction shards generalizing placed with
  | nil => rfl
  | cons s shards ih =>
    rw [List.forall_mem_cons] at hlist hnodup hplaced
    rw [List.pairwise_cons] at hpair
    obtain ⟨placed', hok, hmem⟩ :=
      checkReplicas_ok [] hlist.1 hnodup.1 (fun _ _ h => nomatch h) hplaced.1
    rw [checkPlacement, hok]
    refine ih hlist.2 hnodup.2 hpair.2 fun t ht r hr hk => ?_
    rcases hmem _ hk with hk | ⟨q, hq, heq⟩
    · exact hplaced.2 t ht r hr hk
    · exact hpair.1 t ht q hq r hr heq

def checkSize (ring : HashRing) : Except RingError Unit :=
  if maxRingShards < ring.shards.length then .error (.tooManyShards ring.shards.length)
  else if maxRingTokens < ring.shards.length * ring.vnodes then
    .error (.tooManyTokens (ring.shards.length * ring.vnodes) ring.shards.length ring.vnodes)
  else .ok ()

structure OnePlace (ring : HashRing) : Prop where
  nonblank : ∀ s ∈ ring.shards, blank s.nodeUrl = false ∧ ∀ r ∈ s.replicaUrls, blank r = false
  primaries : (ring.shards.map fun s => nodeKey s.nodeUrl).Nodup
  apart : ∀ s ∈ ring.shards, ∀ t ∈ ring.shards, ∀ r ∈ s.replicaUrls, nodeKey r ≠ nodeKey t.nodeUrl
  replicas : ∀ s ∈ ring.shards, (s.replicaUrls.map nodeKey).Nodup
  once : ring.shards.Pairwise Apart

theorem validate_of_onePlace {ring : HashRing} (h : OnePlace ring) (hne : ring.shards ≠ [])
    (hn : ring.vnodes ≠ 0) (hmax : ring.vnodes ≤ maxVnodes) : ring.validate = checkSize ring := by
  obtain ⟨primaries, hprimaries, hmem⟩ :=
    checkPrimaries_ok [] (fun s hs => (h.nonblank s hs).1) h.primaries fun _ _ h => nomatch h
  have hlist : ∀ s ∈ ring.shards, ∀ r ∈ s.replicaUrls, Listable primaries s.nodeUrl r := by
    intro s hs r hr
    refine ⟨(h.nonblank s hs).2 r hr, h.apart s hs s hs r hr, fun hk => ?_⟩
    rcases hmem _ hk with hk | ⟨t, ht, heq⟩
    · cases hk
    · exact h.apart s hs t ht r hr heq.symm
  have hplacement : checkPlacement primaries [] ring.shards = .ok () :=
    checkPlacement_ok hlist h.replicas h.once fun _ _ _ _ h => nomatch h
  rw [HashRing.validate, checkSize, if_neg (by simpa using hne), if_neg hn,
    if_neg (by omega), hprimaries]
  dsimp only
  rw [hplacement]

end Validity

section Results

variable {v w : ClusterMetadata} {current target : HashRing} {by' : ReplicationMeta.NodeId}

theorem eq_of_placedAt (h : current.validate = .ok ()) {p q : Url} {m : Member}
    (hp : placedAt current p m = true) (hq : placedAt current q m = true) : p = q := by
  obtain ⟨-, ⟨f, hf, rfl⟩ | ⟨hnone, s, hs, rfl, r, hr, hrm⟩⟩ := placedAt_iff.mp hp
  · obtain ⟨-, ⟨g, hg, rfl⟩ | ⟨hnone, -⟩⟩ := placedAt_iff.mp hq
    · rw [Option.some.inj (hf.symm.trans hg)]
    · rw [hnone] at hf
      cases hf
  · obtain ⟨-, ⟨g, hg, -⟩ | ⟨-, t, ht, rfl, r', hr', hrm'⟩⟩ := placedAt_iff.mp hq
    · rw [hnone] at hg
      cases hg
    · rw [eq_of_replica h hs ht hr hr' (hrm.trans hrm'.symm)]

theorem mem_primariesOf {url : Url} :
    url ∈ primariesOf v ↔ ∃ m ∈ v.members, isPrimary m = true ∧ m.url = url := by
  simp only [primariesOf, sortUrls, mem_sortBy, List.mem_map, List.mem_filter, and_assoc]

theorem mem_replicasOf {primary url : Url} :
    url ∈ replicasOf v current primary ↔ ∃ m ∈ v.members, placedAt current primary m = true ∧
      m.url = url := by
  simp only [replicasOf, sortUrls, mem_sortBy, List.mem_map, List.mem_filter, and_assoc]

theorem not_isPrimary_of_placedAt {primary : Url} {m : Member}
    (h : placedAt current primary m = true) : isPrimary m = false := by
  obtain ⟨hrole, -⟩ := placedAt_iff.mp h
  by_contra hp
  rw [Bool.not_eq_false, isPrimary, Bool.and_eq_true, decide_eq_true_eq, decide_eq_true_eq] at hp
  simp [effectiveShardRole, hp.1, hp.2] at hrole

theorem nodup_sortUrls {urls : List Url} (h : (urls.map nodeKey).Nodup) :
    ((sortUrls urls).map nodeKey).Nodup :=
  ((perm_sortBy _ urls).map nodeKey).nodup_iff.mpr h

theorem onePlace_targetOf (h : Distinct v) (hcur : current.validate = .ok ()) : OnePlace
    (targetOf v current) := by
  have hprimaries : ((primariesOf v).map nodeKey).Nodup := nodup_sortUrls (h.nodup_filter _)
  refine ⟨?_, ?_, ?_, ?_, ?_⟩
  · intro s hs
    obtain ⟨url, hurl, rfl⟩ := List.mem_map.mp hs
    obtain ⟨m, hm, -, rfl⟩ := mem_primariesOf.mp hurl
    refine ⟨h.nonblank m hm, fun r hr => ?_⟩
    obtain ⟨n, hn, -, rfl⟩ := mem_replicasOf.mp hr
    exact h.nonblank n hn
  · rw [targetOf, List.map_map]
    exact hprimaries
  · intro s hs t ht r hr heq
    obtain ⟨url, -, rfl⟩ := List.mem_map.mp hs
    obtain ⟨p, hp, rfl⟩ := List.mem_map.mp ht
    obtain ⟨m, hm, hplaced, rfl⟩ := mem_replicasOf.mp hr
    obtain ⟨n, hn, hprimary, rfl⟩ := mem_primariesOf.mp hp
    rw [← h.eq_of_key hm hn heq, not_isPrimary_of_placedAt hplaced] at hprimary
    cases hprimary
  · intro s hs
    obtain ⟨url, -, rfl⟩ := List.mem_map.mp hs
    exact nodup_sortUrls (h.nodup_filter _)
  · refine List.pairwise_map.mpr ((List.pairwise_map.mp hprimaries).imp fun hne r hr q hq heq => ?_)
    obtain ⟨m, hm, hmp, rfl⟩ := mem_replicasOf.mp hr
    obtain ⟨n, hn, hnq, rfl⟩ := mem_replicasOf.mp hq
    rw [← h.eq_of_key hm hn heq] at hnq
    exact hne (eq_of_placedAt hcur hmp hnq)

theorem bounds_of_validate (h : current.validate = .ok ()) :
    current.vnodes ≠ 0 ∧ current.vnodes ≤ maxVnodes := by
  refine ⟨(nonempty_of_validate h).2, ?_⟩
  unfold HashRing.validate at h
  split_ifs at h
  omega

/-- The placement passes every check. Only the size of the ring may be refused. -/
theorem desiredRing_of_valid (hv : v.TopologyOk) (hring : v.ring = some current) :
    desiredRing v =
      if primariesOf v = [] then .error .noPrimaries
      else
        match checkSize (targetOf v current) with
        | .error e => .error (.ring e)
        | .ok () => .ok (some (targetOf v current)) := by
  have h := distinct_of_valid hv
  have hcur : current.validate = .ok () := hv.2.1 current hring
  rw [desiredRing_eq h hring]
  by_cases hnil : primariesOf v = []
  · rw [if_pos hnil, if_pos hnil]
  · obtain ⟨hn, hmax⟩ := bounds_of_validate hcur
    have hshards : (targetOf v current).shards ≠ [] := by simpa [targetOf] using hnil
    rw [if_neg hnil, if_neg hnil, validate_of_onePlace (onePlace_targetOf h hcur) hshards hn hmax]

theorem eq_targetOf (h : Distinct v) (htarget : desiredRing v = .ok (some target)) :
    ∃ current, v.ring = some current ∧ target = targetOf v current ∧ primariesOf v ≠ [] ∧
      target.validate = .ok () := by
  cases hring : v.ring with
  | none => simp [desiredRing, hring] at htarget
  | some current =>
    rw [desiredRing_eq h hring] at htarget
    split_ifs at htarget with hnil
    cases hvalid : (targetOf v current).validate with
    | error e => simp [hvalid] at htarget
    | ok u =>
      rw [hvalid] at htarget
      obtain rfl := Option.some.inj (Except.ok.inj htarget)
      exact ⟨current, rfl, rfl, hnil, hvalid⟩

/-- Every node stands in the ring as its own member entry spells it. -/
def AsMembers (v : ClusterMetadata) (ring : HashRing) : Prop :=
  ∀ s ∈ ring.shards, (∃ m ∈ v.members, m.url = s.nodeUrl) ∧
    ∀ r ∈ s.replicaUrls, ∃ m ∈ v.members, m.url = r

theorem asMembers_targetOf (v : ClusterMetadata) (current : HashRing) :
    AsMembers v (targetOf v current) := by
  intro s hs
  obtain ⟨url, hurl, rfl⟩ := List.mem_map.mp hs
  constructor
  · obtain ⟨m, hm, -, heq⟩ := mem_primariesOf.mp hurl
    exact ⟨m, hm, heq⟩
  · intro r hr
    obtain ⟨m, hm, -, heq⟩ := mem_replicasOf.mp hr
    exact ⟨m, hm, heq⟩

/-- The ring that was asked for places the members as the ring before it did. -/
theorem placedAt_targetOf (h : Distinct v) {primary : Url}
    (hp : primary ∈ (primariesOf v).map nodeKey) {m : Member}
    (hm : m ∈ v.members) :
    placedAt (targetOf v current) primary m = placedAt current primary m := by
  rw [Bool.eq_iff_iff]
  constructor
  · intro hplaced
    obtain ⟨hrole, hfollows | ⟨hnone, s, hs, hkey, r, hr, hrm⟩⟩ := placedAt_iff.mp hplaced
    · exact placedAt_iff.mpr ⟨hrole, .inl hfollows⟩
    · obtain ⟨url, -, rfl⟩ := List.mem_map.mp hs
      obtain ⟨n, hn, hnplaced, rfl⟩ := mem_replicasOf.mp hr
      rw [← hkey, ← h.eq_of_key hn hm hrm]
      exact hnplaced
  · intro hplaced
    obtain ⟨hrole, hfollows | ⟨hnone, -⟩⟩ := placedAt_iff.mp hplaced
    · exact placedAt_iff.mpr ⟨hrole, .inl hfollows⟩
    · obtain ⟨url, hurl, rfl⟩ := List.mem_map.mp hp
      refine placedAt_iff.mpr ⟨hrole, .inr ⟨hnone, _, List.mem_map_of_mem hurl, rfl,
        m.url, ?_, rfl⟩⟩
      exact mem_replicasOf.mpr ⟨m, hm, hplaced, rfl⟩

theorem targetOf_targetOf (h : Distinct v) : targetOf v
    (targetOf v current) = targetOf v current := by
  have hshards : ∀ url ∈ primariesOf v,
      replicasOf v (targetOf v current) (nodeKey url) = replicasOf v current (nodeKey url) := by
    intro url hurl
    have hfilter : v.members.filter (placedAt (targetOf v current) (nodeKey url)) =
        v.members.filter (placedAt current (nodeKey url)) :=
      List.filter_congr fun m hm => placedAt_targetOf h (List.mem_map_of_mem hurl) hm
    rw [replicasOf, hfilter]
    rfl
  rw [targetOf, targetOf]
  congr 1
  apply List.map_congr_left
  intro url hurl
  rw [← hshards url hurl]
  rfl

theorem desiredRing_withRing (h : Distinct v) (htarget : desiredRing v = .ok (some target)) :
    desiredRing (v.withRing by' target) = .ok (some target) := by
  obtain ⟨current, -, rfl, hnil, hvalid⟩ := eq_targetOf h htarget
  -- Publishing a ring leaves the members as they are.
  have hprimaries : primariesOf (v.withRing by' (targetOf v current)) = primariesOf v := rfl
  have hnext : targetOf (v.withRing by' (targetOf v current)) (targetOf v current) =
    targetOf v current := by
    change targetOf v (targetOf v current) = targetOf v current
    exact targetOf_targetOf h
  have h' : Distinct (v.withRing by' (targetOf v current)) := ⟨h.nodup, h.nonblank⟩
  rw [desiredRing_eq h' rfl, hprimaries, if_neg hnil, hnext, hvalid]

theorem pendingTarget_withRing (h : Distinct v) (htarget : desiredRing v = .ok (some target)) :
    pendingTarget (v.withRing by' target) = none := by
  have hmigration : (v.withRing by' target).migration = none := rfl
  have hring : (v.withRing by' target).ring = some target := rfl
  rw [pendingTarget, hmigration, if_neg (by simp), desiredRing_withRing h htarget]
  dsimp only
  rw [if_pos hring]

end Results

section Spelling

variable {v w : ClusterMetadata} {current : HashRing}

def memberKeys (m : Member) : Url × Role × Option ShardRole × Option Url :=
  (nodeKey m.url, m.role, m.shardRole, m.follows.map nodeKey)

def ringKeys (ring : HashRing) : ℕ × List (Url × List Url) := (ring.vnodes, targetSignature ring)

/-- The views have the same members, in any order, and the same ring, but for the spelling of their
URLs. -/
def Respelled (v w : ClusterMetadata) : Prop :=
  (w.members.map memberKeys).Perm (v.members.map memberKeys) ∧
    w.ring.map ringKeys = v.ring.map ringKeys

theorem filter_keys_perm (hperm : (w.members.map memberKeys).Perm (v.members.map memberKeys))
    {p : Member → Bool} (hp : ∀ m n, memberKeys m = memberKeys n → p m = p n) :
    (((w.members.filter p).map fun m => m.url).map nodeKey).Perm
      (((v.members.filter p).map fun m => m.url).map nodeKey) := by
  rw [List.map_map, List.map_map]
  exact perm_filter_map_of_factors hp (fun _ _ h => (Prod.mk.inj h).1) hperm

theorem isPrimary_congr {m n : Member} (h : memberKeys m = memberKeys n) :
    isPrimary m = isPrimary n := by
  simp only [memberKeys, Prod.mk.injEq] at h
  rw [isPrimary, isPrimary, h.2.1, h.2.2.1]

theorem placedAt_congr {current' : HashRing}
    (hring : targetSignature current' = targetSignature current)
    (primary : Url) {m n : Member} (h : memberKeys m = memberKeys n) :
    placedAt current' primary m = placedAt current primary n := by
  simp only [memberKeys, Prod.mk.injEq] at h
  obtain ⟨hkey, hrole, hshard, hfollows⟩ := h
  have hany : ∀ (ring : HashRing) (key : Url), (ring.shards.any fun s =>
      nodeKey s.nodeUrl == primary && s.replicaUrls.any fun url => nodeKey url == key) =
        (targetSignature ring).any fun s => s.1 == primary && s.2.any (· == key) := by
    intro ring key
    simp only [targetSignature, List.any_map, Function.comp_def]
  rw [placedAt, placedAt, effectiveShardRole, effectiveShardRole, hrole, hshard, hkey,
    hany, hany, hring]
  cases hm : m.follows with
  | none =>
    cases hn : n.follows with
    | none => rfl
    | some g => simp [hm, hn] at hfollows
  | some f =>
    cases hn : n.follows with
    | none => simp [hm, hn] at hfollows
    | some g =>
      rw [hm, hn, Option.map_some, Option.map_some, Option.some.injEq] at hfollows
      dsimp only
      rw [hfollows]

theorem sortUrls_keys_of_perm {urls urls' : List Url}
    (h : (urls'.map nodeKey).Perm (urls.map nodeKey)) :
    (sortUrls urls').map nodeKey = (sortUrls urls).map nodeKey := by
  rw [sortUrls, sortUrls, map_sortBy cmpEndpoint_isLE_iff, map_sortBy cmpEndpoint_isLE_iff,
    insertionSort_eq_of_perm h]

theorem primariesOf_keys (hperm : (w.members.map memberKeys).Perm (v.members.map memberKeys)) :
    (primariesOf w).map nodeKey = (primariesOf v).map nodeKey :=
  sortUrls_keys_of_perm (filter_keys_perm hperm fun _ _ => isPrimary_congr)

theorem replicasOf_keys {current' : HashRing}
    (hperm : (w.members.map memberKeys).Perm (v.members.map memberKeys))
    (hring : targetSignature current' = targetSignature current) (primary : Url) :
    (replicasOf w current' primary).map nodeKey = (replicasOf v current primary).map nodeKey := by
  have hsame : placedAt current' primary = placedAt current primary :=
    funext fun m => placedAt_congr hring primary rfl
  rw [replicasOf, hsame]
  exact sortUrls_keys_of_perm (filter_keys_perm hperm fun _ _ => placedAt_congr rfl primary)

/-- The endpoints of the ring that is asked for depend on endpoints alone. -/
theorem ringKeys_targetOf {current' : HashRing}
    (hperm : (w.members.map memberKeys).Perm (v.members.map memberKeys))
    (hring : ringKeys current' = ringKeys current) :
    ringKeys (targetOf w current') = ringKeys (targetOf v current) := by
  obtain ⟨hn, hsig⟩ := Prod.mk.inj hring
  have hkeys : ∀ (u : ClusterMetadata) (ring : HashRing), targetSignature (targetOf u ring) =
      ((primariesOf u).map nodeKey).map fun primary =>
        (primary, (replicasOf u ring primary).map nodeKey) := by
    intro u ring
    rw [targetSignature, targetOf, List.map_map, List.map_map]
    rfl
  rw [ringKeys, ringKeys, hkeys, hkeys, primariesOf_keys hperm]
  refine Prod.ext hn (List.map_congr_left fun primary _ => ?_)
  rw [replicasOf_keys hperm hsig]

theorem checkSize_congr {ring ring' : HashRing} (h : ringKeys ring' = ringKeys ring) :
    checkSize ring' = checkSize ring := by
  obtain ⟨hn, hsig⟩ := Prod.mk.inj h
  have hlen := congrArg List.length hsig
  rw [targetSignature, targetSignature, List.length_map, List.length_map] at hlen
  rw [checkSize, checkSize, hlen, hn]

theorem desiredRing_respelled (hv : v.TopologyOk) (hw : w.TopologyOk) (h : Respelled v w) :
    (desiredRing w).map (Option.map ringKeys) = (desiredRing v).map (Option.map ringKeys) := by
  obtain ⟨hperm, hring⟩ := h
  cases hr : v.ring with
  | none =>
    rw [hr, Option.map_none, Option.map_eq_none_iff] at hring
    simp [desiredRing, hr, hring]
  | some current =>
    rw [hr, Option.map_some, Option.map_eq_some_iff] at hring
    obtain ⟨current', hr', hkeys⟩ := hring
    have hnil : primariesOf w = [] ↔ primariesOf v = [] := by
      have hlen := congrArg List.length (primariesOf_keys hperm)
      rw [List.length_map, List.length_map] at hlen
      rw [← List.length_eq_zero_iff, hlen, List.length_eq_zero_iff]
    have htarget := ringKeys_targetOf hperm hkeys
    rw [desiredRing_of_valid hv hr, desiredRing_of_valid hw hr']
    by_cases hempty : primariesOf v = []
    · rw [if_pos hempty, if_pos (hnil.mpr hempty)]
    · rw [if_neg hempty, if_neg (mt hnil.mp hempty), checkSize_congr htarget]
      cases checkSize (targetOf v current) with
      | error e => rfl
      | ok u =>
        simp only [Except.map, Option.map_some, htarget]

theorem desiredRing_perm (h : Distinct v) {members : List Member} (hperm : members.Perm v.members) :
    desiredRing { v with members } = desiredRing v := by
  have h' : Distinct { v with members } := ⟨(hperm.map _).nodup_iff.mpr h.nodup, fun m hm =>
    h.nonblank m (hperm.mem_iff.mp hm)⟩
  have hsort : ∀ p : Member → Bool, sortUrls ((members.filter p).map fun m => m.url) =
      sortUrls ((v.members.filter p).map fun m => m.url) := fun p =>
    sortBy_eq_of_perm cmpEndpoint_isLE_iff (h'.nodup_filter p) ((hperm.filter p).map _)
  rcases Option.eq_none_or_eq_some v.ring with hr | ⟨current, hr⟩
  · simp [desiredRing, hr]
  · have hprimaries : primariesOf { v with members } = primariesOf v := hsort isPrimary
    have htarget : targetOf { v with members } current = targetOf v current := by
      rw [targetOf, targetOf, hprimaries]
      congr 1
      apply List.map_congr_left
      intro url _
      exact congrArg _ (hsort _)
    rw [desiredRing_eq h hr, desiredRing_eq h' hr, hprimaries, htarget]

/-- The ring that a valid view asks for carries the members' own spellings and is else told by
endpoints alone. It does not see the order of the members. It is valid and has one place for each
endpoint, and when it is published the view asks for it again, so nothing more is pending. No ring
is refused for its placement, but for its size alone. -/
theorem desired_ring_stable (hv : v.validate = .ok ()) :
    (∀ members, members.Perm v.members → desiredRing { v with members } = desiredRing v) ∧
      (∀ w : ClusterMetadata, w.validate = .ok () → Respelled v w →
        (desiredRing w).map (Option.map ringKeys) = (desiredRing v).map (Option.map ringKeys)) ∧
      (∀ target, desiredRing v = .ok (some target) →
        target.validate = .ok () ∧ OnePlace target ∧ AsMembers v target ∧
          ∀ by', desiredRing (v.withRing by' target) = .ok (some target) ∧
            pendingTarget (v.withRing by' target) = none) ∧
      ∀ e, desiredRing v = .error (.ring e) →
        ∃ current, v.ring = some current ∧ checkSize (targetOf v current) = .error e := by
  have htop := (validate_iff.mp hv).1
  have h := distinct_of_valid htop
  refine ⟨fun members => desiredRing_perm h, fun w hw =>
    desiredRing_respelled htop (validate_iff.mp hw).1, fun target htarget => ?_, fun e herror => ?_⟩
  · obtain ⟨current, hring, rfl, -, hvalid⟩ := eq_targetOf h htarget
    exact ⟨hvalid, onePlace_targetOf h (htop.2.1 current hring),
      asMembers_targetOf v current, fun by' =>
      ⟨desiredRing_withRing h htarget, pendingTarget_withRing h htarget⟩⟩
  · rcases Option.eq_none_or_eq_some v.ring with hr | ⟨current, hr⟩
    · simp [desiredRing, hr] at herror
    · rw [desiredRing_of_valid htop hr] at herror
      split_ifs at herror
      · cases herror
      · refine ⟨current, hr, ?_⟩
        cases hsize : checkSize (targetOf v current) with
        | error e' =>
          rw [hsize] at herror
          rw [RebalanceError.ring.inj (Except.error.inj herror)]
        | ok u => simp [hsize] at herror

end Spelling

section Examples

def primaryMember (url : Url) : Member := ⟨⟨url, .shard, some .primary, true, none⟩, none⟩

/-- A ring of one shard with a replica, and a second primary that has joined. -/
def grownView (first : Url) : ClusterMetadata :=
  ⟨1, ['n'], false,
    [primaryMember "http://b".toList, ⟨⟨"http://r".toList, .shard, none, true, none⟩, none⟩,
      primaryMember first], [],
    some ⟨1, [⟨"http://a".toList, ["http://R/".toList]⟩]⟩, none, ∅⟩

def grownTarget : HashRing :=
  ⟨1, [⟨"http://a".toList, ["http://r".toList]⟩, ⟨"http://b".toList, []⟩]⟩

theorem desired_ring_stable_grown :
    desiredRing ((grownView "http://a".toList).withRing ['n'] grownTarget) = .ok
      (some grownTarget) ∧
      pendingTarget ((grownView "http://a".toList).withRing ['n'] grownTarget) = none :=
  ((desired_ring_stable (by decide)).2.2.1 grownTarget (by decide)).2.2.2 ['n']

/-- The ring is spelled as its members are. -/
theorem desiredRing_spelling : (grownView "http://a".toList).validate = .ok () ∧
    (grownView "http://A/".toList).validate = .ok () ∧
      Respelled (grownView "http://a".toList) (grownView "http://A/".toList) ∧
        desiredRing (grownView "http://A/".toList) ≠ desiredRing (grownView "http://a".toList) :=
  ⟨by decide, by decide, ⟨by decide, by decide⟩, by decide⟩

end Examples

end DewDB.Rebalance
