import DewDB.TokenRing

/-!
# The cluster view

The versioned topology that nodes pass around: the members, the shards that share a group, and which
of two views wins. The index definitions that travel with it do not touch either and are left out.
-/
namespace DewDB.ClusterView

open Endpoint TokenRing

inductive Role where
  | shard
  | router
  | other (name : List Char)
  deriving DecidableEq

inductive ShardRole where
  | primary
  | replica
  deriving DecidableEq

structure Member where
  url : Url
  role : Role
  shardRole : Option ShardRole
  voting : Bool
  follows : Option Url
  deriving DecidableEq

structure ShardInfo where
  startHash : ℕ
  endHash : ℕ
  nodeUrl : Url
  replicaUrls : List Url
  deriving DecidableEq

structure Migration where
  target : HashRing

structure ClusterMetadata where
  version : ℕ
  updatedBy : List Char
  seeded : Bool
  members : List Member
  shards : List ShardInfo
  ring : Option HashRing
  migration : Option Migration

structure NodeConfig where
  nodeId : List Char
  ownUrl : Url
  role : Role
  shardRole : Option ShardRole
  learner : Bool
  primaryAddr : Option Url
  replicas : List Url
  peers : List Url
  shardMap : List ShardInfo
  ring : Option HashRing

def NodeConfig.runsAsPrimary (cfg : NodeConfig) : Bool :=
  !cfg.learner && cfg.shardRole == some .primary

def NodeConfig.effectiveShardRole (cfg : NodeConfig) : Option ShardRole :=
  if cfg.role ≠ .shard then none
  else some (if cfg.runsAsPrimary then .primary else .replica)

section Order

structure ViewId where
  version : ℕ
  updatedBy : Option (List Char)
  seeded : Bool

def ViewId.supersedes (mine theirs : ViewId) : Bool :=
  if mine.seeded then false
  else if theirs.seeded then decide (theirs.version ≤ mine.version)
  else
    match mine.updatedBy, theirs.updatedBy with
    | some by₁, some by₂ => decide
        (theirs.version < mine.version ∨ theirs.version = mine.version ∧ by₂ < by₁)
    | _, _ => decide (theirs.version < mine.version)

def ClusterMetadata.viewId (v : ClusterMetadata) : ViewId := ⟨v.version, some v.updatedBy, v.seeded⟩

def ClusterMetadata.supersedes (v other : ClusterMetadata) : Bool :=
  v.viewId.supersedes other.viewId

end Order

section Validate

inductive ViewError where
  | zeroVersion
  | badRing (e : RingError)
  | badTarget (e : RingError)
  | migrationWithoutRing
  | wholeRing (nodeUrl : Url)
  | overlap (owner : Url) (lo hi : ℕ) (previous : Url)
  | uncovered (lo hi : ℕ)
  | emptyMember
  | duplicateMember (url : Url)
  | unknownRole (url : Url) (name : List Char)
  deriving DecidableEq

def ringSegments (shard : ShardInfo) : List (ℕ × ℕ) :=
  if shard.startHash = shard.endHash then [(0, ringSize)]
  else if shard.startHash < shard.endHash then [(shard.startHash, shard.endHash)]
  else [(shard.startHash, ringSize), (0, shard.endHash)]

/-- Walks the segments in order; `cursor` is where the last one ended. -/
def checkSegments (cursor : ℕ) (previous : Url) : List (ℕ × ℕ × Url) → Except ViewError Unit
  | [] => if cursor = ringSize then .ok () else .error (.uncovered cursor ringSize)
  | (lo, hi, owner) :: rest =>
    if lo < cursor then .error (.overlap owner lo hi previous)
    else if cursor < lo then .error (.uncovered cursor lo)
    else checkSegments hi owner rest

def validateShardRing (shards : List ShardInfo) : Except ViewError Unit :=
  match shards.filter fun s => s.startHash == s.endHash with
  | s :: _ => if 1 < shards.length then .error (.wholeRing s.nodeUrl) else checkAll
  | [] => checkAll
where
  checkAll : Except ViewError Unit :=
    let segments := (shards.map fun s =>
      ((ringSegments s).filter fun seg => seg.1 < seg.2).map fun seg =>
        (seg.1, seg.2, s.nodeUrl)).flatten
    checkSegments 0 [] (segments.insertionSort fun a b => a.1 ≤ b.1)

def checkMembers (seen : List Url) : List Member → Except ViewError Unit
  | [] => .ok ()
  | m :: rest =>
    if blank m.url then .error .emptyMember
    else if nodeKey m.url ∈ seen then .error (.duplicateMember m.url)
    else
      match m.role with
      | .other name => .error (.unknownRole m.url name)
      | _ => checkMembers (nodeKey m.url :: seen) rest

def ClusterMetadata.validateMigration (v : ClusterMetadata) : Except ViewError Unit :=
  match v.migration with
  | none => .ok ()
  | some m =>
    match m.target.validate with
    | .error e => .error (.badTarget e)
    | .ok _ => if v.ring.isNone then .error .migrationWithoutRing else .ok ()

def ClusterMetadata.validate (v : ClusterMetadata) : Except ViewError Unit :=
  if v.version = 0 then .error .zeroVersion
  else
    match v.ring.elim (.ok ()) HashRing.validate with
    | .error e => .error (.badRing e)
    | .ok _ => do
      v.validateMigration
      if v.shards.isEmpty then pure () else validateShardRing v.shards
      checkMembers [] v.members

end Validate

section Lookup

def ClusterMetadata.member (v : ClusterMetadata) (url : Url) : Option Member :=
  v.members.find? fun m => sameEndpoint m.url url

def ClusterMetadata.votingShards (v : ClusterMetadata) : List Url :=
  (v.members.filter fun m => m.voting && m.role == .shard).map Member.url

def ClusterMetadata.isLearner (v : ClusterMetadata) (url : Url) : Bool :=
  (v.member url).elim false fun m => !m.voting && m.role == .shard

def ownersAfter (seen : List Url) : List (Url × List Url) → List (Url × List Url)
  | [] => []
  | o :: rest =>
    if o.1 ∈ seen then ownersAfter seen rest else o :: ownersAfter (o.1 :: seen) rest

def ClusterMetadata.shardOwners (v : ClusterMetadata) : List (Url × List Url) :=
  match v.ring with
  | some ring => ownersAfter [] (ring.shards.map fun s => (s.nodeUrl, s.replicaUrls))
  | none => ownersAfter [] (v.shards.map fun s => (s.nodeUrl, s.replicaUrls))

def ClusterMetadata.groupsKnown (v : ClusterMetadata) : Bool := v.ring.isSome || !v.shards.isEmpty

/-- The group is one that lists the node, as its primary or as a replica. -/
def names (group : Url × List Url) (who : Url) : Bool :=
  sameEndpoint group.1 who || group.2.any fun replica => sameEndpoint replica who

/-- A node outside the ring is placed by the primary it follows. -/
def ClusterMetadata.anchor (v : ClusterMetadata) (url : Url) : Url :=
  match (v.member url).bind Member.follows with
  | some follows => if v.shardOwners.any (names · url) then url else follows
  | none => url

def ClusterMetadata.shardGroup (v : ClusterMetadata) (url : Url) : Option (List Url) :=
  (v.shardOwners.find? (names · (v.anchor url))).map fun group => group.1 :: group.2

end Lookup

section Change

def ClusterMetadata.bump (v : ClusterMetadata) (by' : List Char) : ClusterMetadata :=
  { v with
    version := v.version + 1
    updatedBy := by'
    seeded := false }

/-- The next version with the ring in force, which ends any migration. -/
def ClusterMetadata.withRing (v : ClusterMetadata) (by' : List Char) (ring : HashRing) :
    ClusterMetadata :=
  { v with
    ring := some ring
    migration := none }.bump by'

/-- One more member of a seed, unless it has no address or is listed already. -/
def pushMember (members : List Member) (url : Url) (role : Role) (shardRole : Option ShardRole) :
    List Member :=
  if url.isEmpty || members.any fun m => sameEndpoint m.url url then members
  else members ++ [⟨url, role, shardRole, role == .shard, none⟩]

def pushGroup (members : List Member) (nodeUrl : Url) (replicaUrls : List Url) : List Member :=
  replicaUrls.foldl (fun out r => pushMember out r .shard (some .replica))
    (pushMember members nodeUrl .shard (some .primary))

def seedMembers (cfg : NodeConfig) : List Member :=
  let own := pushMember [] cfg.ownUrl cfg.role cfg.effectiveShardRole
  let withPrimary := cfg.primaryAddr.elim own fun p => pushMember own p .shard (some .primary)
  let withReplicas := cfg.replicas.foldl
    (fun out r => pushMember out r .shard (some .replica)) withPrimary
  let withPeers := cfg.peers.foldl (fun out p => pushMember out p .shard none) withReplicas
  let withMap := cfg.shardMap.foldl (fun out s => pushGroup out s.nodeUrl s.replicaUrls) withPeers
  (cfg.ring.elim [] HashRing.shards).foldl (fun out s =>
    pushGroup out s.nodeUrl s.replicaUrls) withMap

def seedFromConfig (cfg : NodeConfig) : ClusterMetadata where
  version := 1
  updatedBy := cfg.nodeId
  seeded := true
  members := seedMembers cfg
  shards := cfg.shardMap
  ring := cfg.ring
  migration := none

def adopts (current incoming : ClusterMetadata) : Bool :=
  incoming.validate.isOk && incoming.supersedes current

def adopt (current incoming : ClusterMetadata) : ClusterMetadata :=
  if adopts current incoming then incoming else current

/-- What `cluster.meta` holds after a save: the durable view moves the way the one in memory does.
-/
def save (stored : Option ClusterMetadata) (v : ClusterMetadata) : ClusterMetadata :=
  match stored with
  | some existing =>
    if existing.validate.isOk && !v.supersedes existing then existing else v
  | none => v

end Change

theorem supersedes_iff {v w : ClusterMetadata} : v.supersedes w = true ↔
    v.seeded = false ∧ (w.seeded = true ∧ w.version ≤ v.version ∨
      w.seeded = false ∧ (w.version < v.version ∨ w.version = v.version ∧
        w.updatedBy < v.updatedBy)) := by
  cases hv : v.seeded with
  | true => simp [ClusterMetadata.supersedes, ViewId.supersedes, ClusterMetadata.viewId, hv]
  | false =>
    cases hw : w.seeded with
    | true => simp [ClusterMetadata.supersedes, ViewId.supersedes, ClusterMetadata.viewId, hv, hw]
    | false => simp [ClusterMetadata.supersedes, ViewId.supersedes, ClusterMetadata.viewId, hv, hw]

theorem supersedes_asymm {v w : ClusterMetadata} (h : v.supersedes w = true) :
    w.supersedes v = false := by
  obtain ⟨hv, hw⟩ := supersedes_iff.mp h
  rw [Bool.eq_false_iff]
  intro h'
  obtain ⟨hw', hv'⟩ := supersedes_iff.mp h'
  rcases hw with ⟨hseed, -⟩ | ⟨-, hlt⟩
  · simp [hw'] at hseed
  · rcases hv' with ⟨hseed, -⟩ | ⟨-, hlt'⟩
    · simp [hv] at hseed
    · rcases hlt with hlt | ⟨heq, hlt⟩
      · omega
      · rcases hlt' with hlt' | ⟨-, hlt'⟩
        · omega
        · exact List.lt_asymm hlt hlt'

end DewDB.ClusterView
