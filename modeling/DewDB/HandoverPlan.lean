import DewDB.TokenRing

/-!
# What a handover moves and what it resets

The source of a handover plans the keys whose owner changes, asks every destination to delete what
an earlier pass left there, and copies its keys. Three places decide what moves: the plan and the
reset compare endpoints, the list of transfers compares the URLs as they are written.
-/
namespace DewDB.HandoverPlan

open Endpoint TokenRing

structure DocKey where
  collection : List Char
  key : List Char
  deriving DecidableEq

inductive MigrationPhase where
  | copy
  | finalizing
  deriving DecidableEq

structure Migration where
  id : Nat
  target : HashRing
  phase : MigrationPhase

structure MigrateReset where
  migrationId : Nat
  phase : MigrationPhase
  source : Url

/-- A ring entry belongs to a whole group, the primary and its replicas. -/
def holds (shard : RingShard) (own : Url) : Bool :=
  sameEndpoint shard.nodeUrl own || shard.replicaUrls.any fun r => sameEndpoint r own

def entryFor (ring : HashRing) (own : Url) : Option RingShard :=
  ring.shards.find? fun shard => holds shard own

def sourceGroup (ring : HashRing) (own : Url) : Option Url :=
  (entryFor ring own).map RingShard.nodeUrl

/-- `n` is in the group that `group` names. -/
def inGroup (ring : HashRing) (group n : Url) : Bool :=
  ring.shards.any fun shard => sameEndpoint shard.nodeUrl group && holds shard n

section Keys

variable (xxh64 : Xxh64) (current target : HashRing)

def ownerOf (ring : HashRing) (k : DocKey) : Option RingShard :=
  (ring.build xxh64).owner (hashKey xxh64 k.collection k.key)

/-- The key's owner in `ring` is `url`, as an endpoint. -/
def ownedBy (ring : HashRing) (url : Url) (k : DocKey) : Bool :=
  (ownerOf xxh64 ring k).any fun shard => sameEndpoint shard.nodeUrl url

/-- Where a key of the group `mine` goes. -/
def destinationOf (mine : Url) (k : DocKey) : Option Url :=
  if ownedBy xxh64 current mine k then
    ((ownerOf xxh64 target k).filter fun s => !sameEndpoint s.nodeUrl mine).map RingShard.nodeUrl
  else none

def planOutgoing (mine : Url) (keys : List DocKey) (destination : Url) : List DocKey :=
  keys.filter fun k => destinationOf xxh64 current target mine k = some destination

def transfers : List Transfer :=
  (keyspaceMovement (current.build xxh64) (target.build xxh64)).transfers

def distinctEndpoints (seen : List Url) : List Url → List Url
  | [] => []
  | url :: rest =>
    if nodeKey url ∈ seen then distinctEndpoints seen rest
    else url :: distinctEndpoints (nodeKey url :: seen) rest

/-- The destinations of the group `mine`, the ones a reset is sent to. -/
def destinations (mine : Url) : List Url :=
  distinctEndpoints [] (((transfers xxh64 current target).filter fun t =>
    sameEndpoint t.source mine).map Transfer.target)

end Keys

structure ResetNode where
  own : Url
  isLeader : Bool
  ring : Option HashRing
  migration : Option Migration
  completedResets : List (Nat × Url)
  keys : List DocKey

inductive ResetOutcome where
  | notLeader
  | notFinalizing
  | repeated
  | noRing
  | notDestination
  | nothingMoves
  /-- The keys it tombstones, in order; the writes can stop short of the last one. -/
  | reset (stale : List DocKey)

def migrateResetHandler (xxh64 : Xxh64) (node : ResetNode) (req : MigrateReset) : ResetOutcome :=
  if !node.isLeader then .notLeader
  else
    match node.migration with
    | none => .notFinalizing
    | some m =>
      if m.id = req.migrationId ∧ m.phase = req.phase ∧ m.phase = .finalizing then
        if (req.migrationId, req.source) ∈ node.completedResets then .repeated
        else
          match node.ring with
          | none => .noRing
          | some current =>
            match sourceGroup m.target node.own with
            | none => .notDestination
            | some destination =>
              if (transfers xxh64 current m.target).any fun t =>
                  sameEndpoint t.source req.source && sameEndpoint t.target destination then
                .reset (node.keys.filter fun k =>
                  ownedBy xxh64 current req.source k && ownedBy xxh64 m.target destination k)
              else .nothingMoves
      else .notFinalizing

def ResetOutcome.tombstones : ResetOutcome → List DocKey
  | .reset stale => stale
  | _ => []

section Pass

variable (xxh64 : Xxh64) (current target : HashRing)

/-- What names the data of a node: its group in the current ring, or the node itself if it is in
none. -/
def home (n : Url) : Url := nodeKey ((sourceGroup current n).getD n)

/-- The keys of every group, and the keys the source planned to move. -/
structure Pass where
  stores : Url → List DocKey
  planned : List DocKey

/-- A source's steps, in any number and order, so that passes that fail or start over are covered.
-/
inductive PassStep where
  | plan
  /-- The node at `destination` handles the reset and gets as far as `done` tombstones. -/
  | reset (destination : Url) (node : ResetNode) (id done : Nat)
  /-- The first `sent` planned keys that are still there are copied. -/
  | copy (destination : Url) (sent : Nat)

def passStep (mine : Url) (p : Pass) : PassStep → Pass
  | .plan => { p with planned := p.stores (home current mine) }
  | .reset destination node id done =>
    let stale := (migrateResetHandler xxh64
      { node with
        own := destination, ring := some current, migration := some ⟨id, target, .finalizing⟩,
        keys := p.stores (home current destination) }
      ⟨id, .finalizing, mine⟩).tombstones
    { p with
      stores := Function.update p.stores (home current destination)
        ((p.stores (home current destination)).filter fun k => k ∉ stale.take done) }
  | .copy destination sent =>
    let docs := ((planOutgoing xxh64 current target mine p.planned destination).filter fun k =>
      k ∈ p.stores (home current mine)).take sent
    { p with
      stores := Function.update p.stores (home current destination)
        (p.stores (home current destination) ++ docs) }

def runPass (mine : Url) (p : Pass) (steps : List PassStep) : Pass :=
  steps.foldl (passStep xxh64 current target mine) p

/-- The resets of a pass go to the destinations of its transfers. -/
def PassStep.Sends (mine : Url) : PassStep → Prop
  | .reset destination _ _ _ => destination ∈ destinations xxh64 current target mine
  | _ => True

end Pass

end DewDB.HandoverPlan
