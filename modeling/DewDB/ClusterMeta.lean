import DewDB.CatalogMerge
import DewDB.ClusterView
import DewDB.HandoverPlan

/-!
# The cluster view with its catalogue

The view as nodes store it and hand it on: the topology, which is replaced as a whole, and the index
catalogue, which is merged. Beside `adopt` there are the changes that one node makes to its own view
and the next versions that an operator's requests ask for.
-/
namespace DewDB.ClusterMeta

open Std (ExtTreeMap)
open Endpoint TokenRing ReplicationMeta Vote StorageEntry CatalogMerge
open ClusterView (Role ShardRole ShardInfo ViewId ViewError NodeConfig)
open HandoverPlan (MigrationPhase)

structure Member extends ClusterView.Member where
  nodeId : Option NodeId
  deriving DecidableEq

structure Migration where
  id : List Char
  target : HashRing
  startedBy : NodeId
  phase : MigrationPhase
  deriving DecidableEq

structure ClusterMetadata where
  version : ℕ
  updatedBy : NodeId
  seeded : Bool
  members : List Member
  shards : List ShardInfo
  ring : Option HashRing
  migration : Option Migration
  indexCatalog : IndexCatalog
  deriving DecidableEq

namespace ClusterMetadata

variable (v : ClusterMetadata)

def topology : ClusterMetadata := { v with indexCatalog := ∅ }

def forget : ClusterView.ClusterMetadata where
  version := v.version
  updatedBy := v.updatedBy
  seeded := v.seeded
  members := v.members.map Member.toMember
  shards := v.shards
  ring := v.ring
  migration := v.migration.map fun m => ⟨m.target⟩

def viewId : ViewId := ⟨v.version, some v.updatedBy, v.seeded⟩

def supersedes (other : ClusterMetadata) : Bool := v.viewId.supersedes other.viewId

end ClusterMetadata

section Validate

inductive MetaError where
  | view (e : ViewError)
  | tooManyCollections
  deriving DecidableEq

namespace ClusterMetadata

variable (v : ClusterMetadata)

def validateMigration : Except ViewError Unit :=
  match v.migration with
  | none => .ok ()
  | some m =>
    match m.target.validate with
    | .error e => .error (.badTarget e)
    | .ok _ => if v.ring.isNone then .error .migrationWithoutRing else .ok ()

/-- The number of collections alone; the entries have their own checks. -/
def validateCatalog : Except MetaError Unit :=
  if maxCatalogCollections < v.indexCatalog.size then .error .tooManyCollections else .ok ()

def validate : Except MetaError Unit :=
  if v.version = 0 then .error (.view .zeroVersion)
  else do
    (v.ring.elim (.ok ()) HashRing.validate).mapError fun e => .view (.badRing e)
    v.validateMigration.mapError .view
    (if v.shards.isEmpty then .ok () else ClusterView.validateShardRing v.shards).mapError .view
    v.validateCatalog
    (ClusterView.checkMembers [] (v.members.map Member.toMember)).mapError .view

/-- Everything that the checks ask of a view but the size of its catalogue. -/
def TopologyOk : Prop :=
  v.version ≠ 0 ∧ (∀ r ∈ v.ring, r.validate = .ok ()) ∧ v.validateMigration = .ok () ∧
    (v.shards ≠ [] → ClusterView.validateShardRing v.shards = .ok ()) ∧
    ClusterView.checkMembers [] (v.members.map Member.toMember) = .ok ()

end ClusterMetadata

end Validate

section Change

/-- The version after this one; a release build wraps at the top. -/
def nextVersion (version : ℕ) : ℕ := (version + 1) % 2 ^ 64

namespace ClusterMetadata

variable (v : ClusterMetadata)

def bump (by' : NodeId) : ClusterMetadata :=
  { v with
    version := nextVersion v.version
    updatedBy := by'
    seeded := false }

def withMember (by' : NodeId) (member : Member) : ClusterMetadata :=
  { v with members := (v.members.filter fun m : Member => !sameEndpoint m.url member.url) ++
    [member] }.bump by'

def withoutMember (by' : NodeId) (url : Url) : ClusterMetadata :=
  { v with members := v.members.filter fun m : Member => !sameEndpoint m.url url }.bump by'

def withRing (by' : NodeId) (ring : HashRing) : ClusterMetadata :=
  { v with
    ring := some ring
    migration := none }.bump by'

def withMigration (by' : NodeId) (migration : Option Migration) : ClusterMetadata :=
  { v with migration }.bump by'

def member (url : Url) : Option Member := v.members.find? fun m => sameEndpoint m.url url

/-- Records a change of an index against the collection's entry; the flag says whether anything
moved. -/
def recordIndexChange (by' : NodeId) (collection : CollectionName) (change : IndexChange) :
    ClusterMetadata × Bool :=
  let current := v.indexCatalog[collection]?
  let indexes := change.applyTo ((current.map CollectionIndexes.indexes).getD [])
  let ttlSecs := current.bind CollectionIndexes.ttlSecs
  if current.any fun e => e.indexes == indexes then (v, false)
  else if current.isNone && indexes.isEmpty then (v, false)
  else if current.isNone && maxCatalogCollections ≤ v.indexCatalog.size then (v, false)
  else
    let version := nextVersion ((current.map CollectionIndexes.version).getD 0)
    ({ v with indexCatalog := v.indexCatalog.insert collection ⟨version, by', indexes, ttlSecs⟩ },
      true)

def recordTtlChange (by' : NodeId) (collection : CollectionName) (ttlSecs : Option ℕ) :
    ClusterMetadata × Bool :=
  let current := v.indexCatalog[collection]?
  if (current.map fun e => e.ttlSecs == ttlSecs).getD ttlSecs.isNone then (v, false)
  else if current.isNone && maxCatalogCollections ≤ v.indexCatalog.size then (v, false)
  else
    let indexes := (current.map CollectionIndexes.indexes).getD []
    let version := nextVersion ((current.map CollectionIndexes.version).getD 0)
    ({ v with indexCatalog := v.indexCatalog.insert collection ⟨version, by', indexes, ttlSecs⟩ },
      true)

def forgetCollectionIndexes (by' : NodeId) (collection : CollectionName) : ClusterMetadata × Bool :=
  match v.indexCatalog[collection]? with
  | some entry =>
    if entry.indexes.isEmpty && entry.ttlSecs.isNone then (v, false)
    else
      ({ v with indexCatalog :=
        v.indexCatalog.insert collection ⟨nextVersion entry.version, by', [], none⟩ }, true)
  | none => (v, false)

/-- The view with the entries dropped that no node could act on. -/
def sanitized : ClusterMetadata := { v with indexCatalog := sanitizeCatalog v.indexCatalog }

def mergeFrom (incoming : IndexCatalog) : ClusterMetadata × Bool :=
  ({ v with indexCatalog := (mergeCatalog v.indexCatalog incoming).1 },
    (mergeCatalog v.indexCatalog incoming).2)

end ClusterMetadata

def seedMembers (cfg : NodeConfig) : List Member :=
  (ClusterView.seedMembers cfg).map fun m =>
    ⟨m, if m.url = cfg.ownUrl then some cfg.nodeId else none⟩

def seedFromConfig (cfg : NodeConfig) : ClusterMetadata where
  version := 1
  updatedBy := cfg.nodeId
  seeded := true
  members := seedMembers cfg
  shards := cfg.shardMap
  ring := cfg.ring
  migration := none
  indexCatalog := ∅

inductive Adoption where
  | adopted (source target : ℕ)
  | stale (current : ℕ)
  | rejected (why : MetaError)

/-- Offers a view: its topology is taken if it wins, its catalogue is merged in either way. -/
def adopt (current incoming : ClusterMetadata) : ClusterMetadata × Adoption :=
  let incoming := incoming.sanitized
  match incoming.validate with
  | .error why => (current, .rejected why)
  | .ok _ =>
    let catalog := (mergeCatalog current.indexCatalog incoming.indexCatalog).1
    if !incoming.supersedes current then
      ({ current with indexCatalog := catalog }, .stale current.version)
    else ({ incoming with indexCatalog := catalog }, .adopted current.version incoming.version)

end Change

section Facts

variable {v w current incoming : ClusterMetadata}

theorem supersedes_iff : v.supersedes w = true ↔
    v.seeded = false ∧ (w.seeded = true ∧ w.version ≤ v.version ∨
      w.seeded = false ∧ (w.version < v.version ∨ w.version = v.version ∧
        w.updatedBy < v.updatedBy)) :=
  ClusterView.supersedes_iff (v := v.forget) (w := w.forget)

theorem not_supersedes_self (v : ClusterMetadata) : v.supersedes v = false := by
  rw [Bool.eq_false_iff, ne_eq, supersedes_iff]
  rintro ⟨hv, ⟨hv', -⟩ | ⟨-, h | ⟨-, h⟩⟩⟩
  · simp [hv] at hv'
  · exact lt_irrefl _ h
  · exact lt_irrefl _ h

@[simp] theorem sanitized_topology (v : ClusterMetadata) : v.sanitized.topology = v.topology := rfl

@[simp] theorem sanitized_supersedes (v w : ClusterMetadata) :
    v.sanitized.supersedes w = v.supersedes w := rfl

@[simp] theorem topology_supersedes (v w : ClusterMetadata) :
    v.topology.supersedes w.topology = v.supersedes w := rfl

theorem eq_of_topology_of_indexCatalog (ht : v.topology = w.topology)
    (hc : v.indexCatalog = w.indexCatalog) : v = w := by
  obtain ⟨_, _, _, _, _, _, _, _⟩ := v
  obtain ⟨_, _, _, _, _, _, _, _⟩ := w
  simp only [ClusterMetadata.topology, ClusterMetadata.mk.injEq] at ht
  simp_all

theorem validateCatalog_iff :
    v.validateCatalog = .ok () ↔ v.indexCatalog.size ≤ maxCatalogCollections := by
  unfold ClusterMetadata.validateCatalog
  split <;> simp <;> omega

theorem mapError_eq_ok {ε ε' : Type} {f : ε → ε'} {r : Except ε Unit} : r.mapError f = .ok
    () ↔ r = .ok () := by
  cases r <;> simp [Except.mapError]

theorem bind_eq_ok {ε : Type} {r : Except ε Unit} {k : Unit → Except ε Unit} :
    (r >>= k) = .ok () ↔ r = .ok () ∧ k () = .ok () := by
  cases r with
  | error e => simp [bind, Except.bind]
  | ok u => simp [bind, Except.bind]

/-- A view is valid when its topology is and its catalogue is within the bound. -/
theorem validate_iff :
    v.validate = .ok () ↔ v.TopologyOk ∧ v.indexCatalog.size ≤ maxCatalogCollections := by
  unfold ClusterMetadata.validate ClusterMetadata.TopologyOk
  by_cases hv : v.version = 0
  · simp [hv]
  · rw [if_neg hv]
    simp only [bind_eq_ok, mapError_eq_ok, validateCatalog_iff]
    have hring : v.ring.elim (.ok ()) HashRing.validate = .ok () ↔
      ∀ r ∈ v.ring, r.validate = .ok () := by
      cases v.ring <;> simp
    have hshards : (if v.shards.isEmpty then .ok ()
      else ClusterView.validateShardRing v.shards) = .ok () ↔
        (v.shards ≠ [] → ClusterView.validateShardRing v.shards = .ok ()) := by
      by_cases hs : v.shards = [] <;> simp [hs]
    rw [hring, hshards]
    constructor
    · rintro ⟨h1, h2, h3, h4, h5⟩
      exact ⟨⟨hv, h1, h2, h3, h5⟩, h4⟩
    · rintro ⟨⟨-, h1, h2, h3, h5⟩, h4⟩
      exact ⟨h1, h2, h3, h4, h5⟩

theorem topologyOk_congr (h : v.topology = w.topology) : v.TopologyOk ↔ w.TopologyOk := by
  obtain ⟨_, _, _, _, _, _, _, _⟩ := v
  obtain ⟨_, _, _, _, _, _, _, _⟩ := w
  simp only [ClusterMetadata.topology, ClusterMetadata.mk.injEq] at h
  obtain ⟨rfl, rfl, rfl, rfl, rfl, rfl, rfl, -⟩ := h
  rfl

theorem supersedes_congr {v' w' : ClusterMetadata} (hv : v.topology = v'.topology)
    (hw : w.topology = w'.topology) : v.supersedes w = v'.supersedes w' := by
  rw [← topology_supersedes, hv, hw, topology_supersedes]

theorem sanitized_valid (h : v.validate = .ok ()) : v.sanitized.validate = .ok () := by
  obtain ⟨htop, hsize⟩ := validate_iff.mp h
  exact validate_iff.mpr ⟨(topologyOk_congr (sanitized_topology v)).mpr htop,
    (size_sanitizeCatalog_le _).trans hsize⟩

theorem adopt_invalid (h : incoming.sanitized.validate ≠ .ok ()) :
    (adopt current incoming).1 = current := by
  unfold adopt
  dsimp only
  split
  · rfl
  · next hok => exact absurd hok h

theorem adopt_ne_rejected (h : incoming.sanitized.validate = .ok ()) (why : MetaError) :
    (adopt current incoming).2 ≠ .rejected why := by
  unfold adopt
  dsimp only
  rw [h, sanitized_supersedes]
  cases incoming.supersedes current <;> simp

theorem adopt_topology (h : incoming.sanitized.validate = .ok ()) :
    (adopt current incoming).1.topology =
    if incoming.supersedes current then incoming.topology else current.topology := by
  unfold adopt
  dsimp only
  rw [h, sanitized_supersedes]
  cases incoming.supersedes current <;> rfl

theorem adopt_indexCatalog (h : incoming.sanitized.validate = .ok ()) :
    (adopt current incoming).1.indexCatalog =
      (mergeCatalog current.indexCatalog (sanitizeCatalog incoming.indexCatalog)).1 := by
  unfold adopt
  dsimp only
  rw [h, sanitized_supersedes]
  cases incoming.supersedes current <;> rfl

end Facts

end DewDB.ClusterMeta
