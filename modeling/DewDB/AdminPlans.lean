import DewDB.ClusterMeta

/-!
# The next view of an administrative request

What the handlers of a leader plan from their copy of the view: joining and leaving, the voters that
the log has settled on, a ring, and a handover with its phases. Each plan has the version after the
copy's and names the node that made it. The measurements that a handler takes beforehand are not
repeated here: a handover says whether its target moves any key, where this node has a ring to
compare it with.
-/
namespace DewDB.AdminPlans

open Endpoint TokenRing ReplicationMeta Vote ClusterMeta
open ClusterView (Role ShardRole)
open HandoverPlan (MigrationPhase)

structure JoinRequest where
  url : Url
  nodeId : Option NodeId
  role : Option Role
  shardRole : Option ShardRole
  follows : Option Url
  voting : Option Bool

/-- The branches in which a request is refused before it has a view to publish. -/
inductive PlanError where
  | urlRequired
  | joinsAsLearner
  | unknownRole (role : Role)
  | onlyReplicaFollows
  | addsItself
  | followsItself (url : Url)
  | votesAlready (url : Url)
  | notAMember (url : Url)
  | votingMember (url : Url)
  | badRing (why : RingError)
  | handoverInProgress
  | noHandover
  | noRing
  | invalid (why : MetaError)

/-- White space as `str::trim` has it. -/
def isWhitespace (c : Char) : Bool :=
  9 ≤ c.toNat && c.toNat ≤ 13 || 0x2000 ≤ c.toNat && c.toNat ≤ 0x200a ||
    [0x20, 0x85, 0xa0, 0x1680, 0x2028, 0x2029, 0x202f, 0x205f, 0x3000].contains c.toNat

def validated (next : ClusterMetadata) : Except PlanError ClusterMetadata :=
  match next.validate with
  | .error why => .error (.invalid why)
  | .ok _ => .ok next

section Members

variable (current : ClusterMetadata) (by' : NodeId) (leaderUrl : Url)

def planJoin (req : JoinRequest) : Except PlanError ClusterMetadata :=
  let role := req.role.getD .shard
  let shardRole := req.shardRole.or (if role = .shard then some .replica else none)
  if req.url.all isWhitespace then .error .urlRequired
  else if req.voting = some true then .error .joinsAsLearner
  else if role ≠ .shard ∧ role ≠ .router then .error (.unknownRole role)
  else if shardRole ≠ some .replica ∧ req.follows.isSome then .error .onlyReplicaFollows
  else if sameEndpoint req.url leaderUrl then .error .addsItself
  else if req.follows.any fun f => sameEndpoint req.url f then .error (.followsItself req.url)
  else if (current.member req.url).any fun m => m.voting then .error (.votesAlready req.url)
  else
    let follows := if shardRole = some .replica then some (req.follows.getD leaderUrl) else none
    validated (current.withMember by' ⟨⟨req.url, role, shardRole, false, follows⟩, req.nodeId⟩)

/-- A shard's vote as the voters have it; a node that loses its vote follows the leader. -/
def recordVote (voters : List Url) (m : Member) : Member :=
  let voting := voters.any fun v => sameEndpoint v m.url
  if m.role ≠ .shard ∨ voting = m.voting then m
  else { m with
    voting
    follows := if !voting && !sameEndpoint m.url leaderUrl then some leaderUrl else none }

def addVoter (v : ClusterMetadata) (voter : Url) : ClusterMetadata :=
  if (v.member voter).isSome then v
  else
    let shardRole := if sameEndpoint voter leaderUrl then ShardRole.primary else .replica
    { v with members := v.members ++ [⟨⟨voter, .shard, some shardRole, true, none⟩, none⟩] }

def planConfiguration (voters : List Url) : Except PlanError ClusterMetadata :=
  let next := { current with members := current.members.map (recordVote leaderUrl voters) }
  validated ((voters.foldl (addVoter leaderUrl) next).bump by')

def planLeave (url : Url) : Except PlanError ClusterMetadata :=
  match current.member url with
  | none => .error (.notAMember url)
  | some m => if m.voting then .error (.votingMember url)
      else validated (current.withoutMember by' url)

end Members

section Rings

variable (current : ClusterMetadata) (by' : NodeId)

def planRing (proposed : HashRing) : Except PlanError ClusterMetadata :=
  match proposed.validate with
  | .error why => .error (.badRing why)
  | .ok _ => .ok (current.withRing by' proposed)

/-- `begin_migration` up to its broadcast. `moves` is none when the node has no ring to migrate
from. -/
def planMigration (target : HashRing) (id : List Char) (moves : Option Bool) :
    Except PlanError ClusterMetadata :=
  if current.migration.isSome then .error .handoverInProgress
  else
    match target.validate, moves with
    | .error why, _ => .error (.badRing why)
    | .ok _, none => .error .noRing
    | .ok _, some false => .ok (current.withRing by' target)
    | .ok _, some true => .ok (current.withMigration by' (some ⟨id, target, by', .copy⟩))

def planAbort : Except PlanError ClusterMetadata :=
  if current.migration.isNone then .error .noHandover else .ok (current.withMigration by' none)

end Rings

/-- What a handler has been asked for; `finalize` and `complete` are the coordinator's own. -/
inductive Request where
  | join (req : JoinRequest)
  | leave (url : Url)
  | configure (voters : List Url)
  | setRing (proposed : HashRing)
  | migrate (target : HashRing) (id : List Char) (moves : Option Bool)
  | finalize (migration : Migration)
  | complete (target : HashRing)
  | abort

def Request.plan (current : ClusterMetadata) (by' : NodeId) (ownUrl : Url) :
    Request → Except PlanError ClusterMetadata
  | .join req => planJoin current by' ownUrl req
  | .leave url => planLeave current by' url
  | .configure voters => planConfiguration current by' ownUrl voters
  | .setRing proposed => planRing current by' proposed
  | .migrate target id moves => planMigration current by' target id moves
  | .finalize migration =>
      .ok (current.withMigration by' (some { migration with phase := .finalizing }))
  | .complete target => .ok (current.withRing by' target)
  | .abort => planAbort current by'

def Request.announced : Request → Bool
  | .migrate .. => true
  | _ => false

section Facts

variable {current next : ClusterMetadata} {by' : NodeId} {ownUrl : Url}

theorem validated_eq_ok {v : ClusterMetadata} (h : validated v = .ok next) : next = v := by
  unfold validated at h
  split at h
  · cases h
  · exact (Except.ok.inj h).symm

/-- The id of a plan, whatever is asked for: the next version, from this node. -/
structure NextOf (current : ClusterMetadata) (by' : NodeId) (next : ClusterMetadata) : Prop where
  version : next.version = nextVersion current.version
  updatedBy : next.updatedBy = by'
  seeded : next.seeded = false

theorem nextOf_bump {v : ClusterMetadata} (h : v.version = current.version) : NextOf current by'
    (v.bump by') :=
  ⟨congrArg nextVersion h, rfl, rfl⟩

theorem addVoter_version (leaderUrl : Url) (v : ClusterMetadata) (voter : Url) :
    (addVoter leaderUrl v voter).version = v.version := by
  unfold addVoter
  split
  · rfl
  · rfl

theorem foldl_addVoter_version (leaderUrl : Url) (voters : List Url) (v : ClusterMetadata) :
    (voters.foldl (addVoter leaderUrl) v).version = v.version := by
  induction voters generalizing v with
  | nil => rfl
  | cons voter voters ih => rw [List.foldl_cons, ih, addVoter_version]

theorem planJoin_next {req : JoinRequest} (h : planJoin current by' ownUrl req = .ok next) :
    NextOf current by' next := by
  unfold planJoin at h
  dsimp only at h
  generalize req.shardRole.or _ = shardRole at h
  generalize (if shardRole = some .replica then some (req.follows.getD ownUrl)
    else none) = follows at h
  split_ifs at h
  rw [validated_eq_ok h]
  exact nextOf_bump rfl

theorem planConfiguration_next {voters : List Url}
    (h : planConfiguration current by' ownUrl voters = .ok next) : NextOf current by' next := by
  rw [validated_eq_ok h]
  exact nextOf_bump (foldl_addVoter_version ownUrl voters _)

theorem planLeave_next {url : Url} (h : planLeave current by' url = .ok next) :
    NextOf current by' next := by
  unfold planLeave at h
  split at h
  · cases h
  · split at h
    · cases h
    · rw [validated_eq_ok h]
      exact nextOf_bump rfl

theorem planRing_next {proposed : HashRing} (h : planRing current by' proposed = .ok next) :
    NextOf current by' next := by
  unfold planRing at h
  split at h
  · cases h
  · cases h
    exact nextOf_bump rfl

theorem planMigration_next {target : HashRing} {id : List Char} {moves : Option Bool}
    (h : planMigration current by' target id moves = .ok next) : NextOf current by' next := by
  unfold planMigration at h
  split at h
  · cases h
  · split at h
    · cases h
    · cases h
    · cases h
      exact nextOf_bump rfl
    · cases h
      exact nextOf_bump rfl

theorem planAbort_next (h : planAbort current by' = .ok next) : NextOf current by' next := by
  unfold planAbort at h
  split at h
  · cases h
  · cases h
    exact nextOf_bump rfl

theorem plan_next {r : Request} (h : r.plan current by' ownUrl = .ok next) :
    NextOf current by' next := by
  cases r with
  | join req => exact planJoin_next h
  | leave url => exact planLeave_next h
  | configure voters => exact planConfiguration_next h
  | setRing proposed => exact planRing_next h
  | migrate target id moves => exact planMigration_next h
  | finalize migration =>
    cases h
    exact nextOf_bump rfl
  | complete target =>
    cases h
    exact nextOf_bump rfl
  | abort => exact planAbort_next h

end Facts

end DewDB.AdminPlans
