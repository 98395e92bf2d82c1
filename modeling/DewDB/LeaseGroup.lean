import DewDB.Lease

/-!
# A group of nodes with leases

The elections of `Election` with a clock, the lease part of each node's replication state, the
probes of a leader and the leadership transfers. A vote request is tested under one lock and decided
under a later one. Requests stay in the mail and may be handled late, or never.
-/
namespace DewDB.Lease

open Endpoint QuorumConfig ReplicationMeta Vote Election

structure LeaseGroup (ι : Type) extends NodeGroup ι where
  heartbeatTimeout : ι → ℕ
  primaryAddr : ι → Option Url

/-- A probe of `probe_replica`; the answer is the voter's term and `novote_ms`. -/
structure Probe where
  replica : Url
  term : ℕ
  sent : ℕ
  sentWall : ℕ
  answer : Option (ℕ × ℕ)

/-- A vote request that `vote_handler` has tested. `bypassed` says that the vote would be withheld
but for `transfer_from`. -/
structure TestedRequest where
  req : VoteRequest
  mustWithhold : Bool
  bypassed : Bool

/-- What `run_election` was called with and when it began. -/
structure CampaignStart where
  forcedBy : Option Url
  began : ℕ

/-- `transfer_leadership` under the write gate; `told` once the handover is marked. -/
structure Transfer where
  target : Url
  term : ℕ
  told : Bool

/-- The lease part of the memory of a running node, with the tasks that use it. -/
structure LeaseState where
  lastHeartbeat : Option ℕ
  lastReplication : Option ℕ
  primaryAddr : Option Url
  leases : Leases
  handingOver : Bool
  bootedAt : ℕ
  novoteUntil : Option ℕ
  probes : List Probe
  requests : List TestedRequest
  campaign : CampaignStart
  spawned : List Url
  transfer : Option Transfer

inductive Mail where
  | timeoutNow (target : Url) (term : ℕ) (leader : Url)
  | vote (req : VoteRequest) (transferFrom : Option Url)

structure LeaseWorld (ι : Type) where
  world : World ι
  lease : ι → LeaseState
  now : ℕ
  mail : List Mail

inductive Op (ι : Type) where
  | boot (fault : Option Fault)
  | crash
  | follow (leader : Url) (stamp : Bool)
  | pollAnswer (theirTerm : ℕ) (leading : Bool)
  | replicate (term : ℕ)
  | task (k : ℕ) (fault : Option Fault)
  | resynced
  | demote (newTerm : ℕ)
  | stepDown
  | probe (replica : Url) (sentWall : ℕ)
  | heartbeat (askerTerm leaseMs : ℕ)
  | answer (asker : ι) (k : ℕ)
  | receive (k : ℕ)
  | openTransfer (target : Url)
  | tellTarget
  | endTransfer
  | timeoutNow (k : ℕ)
  | runForced (k : ℕ)
  | poll (taskStarted : ℕ)
  | stand (logs : List (CollectionName × LogTail)) (tail : LogTail) (fault : Option Fault)
  | giveUp
  | test (k : ℕ)
  | decide (k : ℕ) (myLogs : List (CollectionName × LogTail)) (mySummary : LogTail)
      (fault : Option Fault)
  | voteReply (voter : ι) (peer : Url)
  | becomeLeader

inductive Label (ι : Type) where
  | tick (d : ℕ)
  | node (i : ι) (op : Op ι)

variable {ι : Type}

def LeaseState.booted (now : ℕ) (primaryAddr : Option Url) : LeaseState :=
  ⟨none, none, primaryAddr, [], false, now, none, [], [], ⟨none, now⟩, [], none⟩

/-- What `apply_demotion` does to the lease part. -/
def LeaseState.demoted (l : LeaseState) (now : ℕ) : LeaseState :=
  { l with
    leases := []
    handingOver := false
    lastHeartbeat := some now
    lastReplication := none }

/-- What `relinquish_leadership` does to the lease part. -/
def LeaseState.relinquished (l : LeaseState) : LeaseState :=
  { l with
    leases := []
    handingOver := false
    lastHeartbeat := none
    lastReplication := none }

def LeaseState.contact (l : LeaseState) (now : ℕ) : Option ℕ :=
  contactAge l.lastHeartbeat l.lastReplication now

def LeaseState.withholds (l : LeaseState) (heartbeatTimeout : ℕ) (now : ℕ) : Bool :=
  withholdsVote (l.contact now) l.novoteUntil (now - l.bootedAt) heartbeatTimeout now

/-- A voter answers for the leader it follows, a leader for itself. -/
def honoursTransfer (own : Url) (isLeader : Bool) (primaryAddr : Option Url) :
    Option Url → Bool
  | none => false
  | some leader =>
    if isLeader then sameEndpoint leader own
    else primaryAddr.any fun p => sameEndpoint p leader

/-- The grant and what it leaves; a leader of a term this node has left is promised nothing. -/
def grantNovote (l : LeaseState) (term : ℕ) (heartbeatTimeout : ℕ) (now : ℕ)
    (askerTerm : ℕ) (asked : ℕ) : ℕ × LeaseState :=
  if askerTerm < term then (0, l)
  else
    let granted := min asked (grantable (l.contact now) heartbeatTimeout)
    if granted = 0 then (0, l)
    else
      (granted, { l with
        novoteUntil := some (match l.novoteUntil with
          | some heldUntil => max heldUntil (now + granted)
          | none => now + granted) })

/-- `heartbeat_handler` asks for a grant only when a lease is asked for. -/
def heartbeatGrant (l : LeaseState) (term : ℕ) (heartbeatTimeout : ℕ) (now : ℕ)
    (askerTerm leaseMs : ℕ) : ℕ × LeaseState :=
  if 0 < leaseMs then grantNovote l term heartbeatTimeout now askerTerm
    (fromMillis leaseMs) else (0, l)

def noteLeaseGrant (config : Configuration) (heartbeatTimeout : ℕ) (m : Memory)
    (l : LeaseState) (pr : Probe) (granted : ℕ) : LeaseState :=
  if granted = 0 ∨ config.contains pr.replica = false then l
  else if m.isLeader = true ∧ m.term = pr.term ∧ l.handingOver = false then
    { l with
      leases := notePromise l.leases pr.replica pr.sent pr.sentWall
        (acceptPromise granted heartbeatTimeout) }
  else l

def holdsReadLease (g : LeaseGroup ι) (s : LeaseWorld ι) (i : ι) (wallNow : ℕ) : Bool :=
  !(s.lease i).handingOver && held (s.lease i).leases g.config (g.url i) s.now wallNow

def eligibleTargets (config : Configuration) (own : Url) : List Url :=
  config.members.filter fun m => !sameEndpoint m own && config.voters.any (sameEndpoint · m) &&
    match config.outgoing with
    | some old => old.any (sameEndpoint · m)
    | none => true

def contactLost (lastHeartbeat lastReplication : Option ℕ) (sinceStart timeout : ℕ)
    (now : ℕ) : Bool :=
  match newest lastHeartbeat lastReplication with
  | some latest => decide (timeout ≤ now - latest)
  | none => decide (timeout ≤ sinceStart)

def heardFromLeaderSince (l : LeaseState) (since : ℕ) : Bool :=
  [l.lastHeartbeat, l.lastReplication].any fun stamp => stamp.any fun time => decide (since < time)

def voteRequest (term : ℕ) (candidateId : NodeId) (logs : List (CollectionName × LogTail))
    (tail : LogTail) (own : Url) : VoteRequest :=
  ⟨term, candidateId, tail.lastLsn, tail.lastTerm, logs, some own⟩

/-- The lease part after `vote_handler` decided: a leader that stood down drops its promises. -/
def afterVote (now : ℕ) (m : Memory) (o : Outcome) (l : LeaseState) : LeaseState :=
  { l with
    leases := if m.isLeader && o.node.mem.any (fun m' => !m'.isLeader) then [] else l.leases
    lastHeartbeat := if o.granted.isSome then some now else l.lastHeartbeat }

def LeaseWorld.setLease [DecidableEq ι] (s : LeaseWorld ι) (i : ι) (l : LeaseState) :
    LeaseWorld ι :=
  { s with lease := Function.update s.lease i l }

/-- An action of the election layer, with what it does to the lease part of the node and the
requests it sends. -/
def LeaseWorld.actPosting [DecidableEq ι] (g : LeaseGroup ι) (s : LeaseWorld ι) (i : ι)
    (a : Action ι) (effect : Outcome → LeaseState → LeaseState) (post : Outcome → List Mail) :
    Option (LeaseWorld ι) :=
  (Election.act g.toNodeGroup s.world.granted i (s.world.nodes i) a).map fun o =>
    { s with
      world := s.world.record i o
      lease := Function.update s.lease i (effect o (s.lease i))
      mail := s.mail ++ post o }

def LeaseWorld.act [DecidableEq ι] (g : LeaseGroup ι) (s : LeaseWorld ι) (i : ι) (a : Action ι)
    (effect : Outcome → LeaseState → LeaseState) : Option (LeaseWorld ι) :=
  s.actPosting g i a effect fun _ => []

/-- The node answers the `k`-th probe of `asker`. -/
def answerProbe [DecidableEq ι] (g : LeaseGroup ι) (s : LeaseWorld ι) (i : ι) (m : Memory)
    (asker : ι) (k : ℕ) : Option (LeaseWorld ι) :=
  ((s.lease asker).probes[k]?).bind fun pr =>
    if (s.world.nodes asker).mem.isSome ∧ sameEndpoint pr.replica (g.url i) ∧ pr.answer = none then
      let window := refusalWindow (g.heartbeatTimeout asker)
      let given := heartbeatGrant (s.lease i) m.term (g.heartbeatTimeout i) s.now pr.term
        (asMillis window)
      let s' := s.setLease i given.2
      some (s'.setLease asker { s'.lease asker with
        probes := (s'.lease asker).probes.set k
          { pr with answer := some (m.term, asMillis given.1) } })
    else none

/-- A higher term in the answer demotes; otherwise the grant is noted. -/
def receiveAnswer [DecidableEq ι] (g : LeaseGroup ι) (s : LeaseWorld ι) (i : ι)
    (m : Memory) (k : ℕ) : Option (LeaseWorld ι) :=
  ((s.lease i).probes[k]?).bind fun pr =>
    pr.answer.bind fun (theirTerm, novoteMs) =>
      if m.term < theirTerm then
        s.act g i (.demote theirTerm) fun _ l =>
          { l.demoted s.now with probes := l.probes.eraseIdx k }
      else
        let l := { s.lease i with probes := (s.lease i).probes.eraseIdx k }
        some (s.setLease i
          (noteLeaseGrant g.config (g.heartbeatTimeout i) m l pr (fromMillis novoteMs)))

/-- The transfer marks itself in flight, then asks the target to stand. -/
def tellTarget [DecidableEq ι] (g : LeaseGroup ι) (s : LeaseWorld ι) (i : ι) : Option
    (LeaseWorld ι) :=
  match (s.lease i).transfer with
  | some ⟨target, term, false⟩ =>
    some { s.setLease i { s.lease i with
        handingOver := true
        transfer := some ⟨target, term, true⟩ } with
      mail := s.mail ++ [.timeoutNow target term (g.url i)] }
  | _ => none

/-- Every way out of a transfer; the mark goes with the guard that set it. -/
def endTransfer [DecidableEq ι] (s : LeaseWorld ι) (i : ι) : Option (LeaseWorld ι) :=
  (s.lease i).transfer.map fun transfer =>
    s.setLease i { s.lease i with
      handingOver := if transfer.told then false else (s.lease i).handingOver
      transfer := none }

def timeoutNow [DecidableEq ι] (g : LeaseGroup ι) (s : LeaseWorld ι) (i : ι) (m : Memory) (k : ℕ) :
    Option (LeaseWorld ι) :=
  match s.mail[k]? with
  | some (.timeoutNow target term leader) =>
    let l := s.lease i
    if sameEndpoint target (g.url i) ∧ g.config.contains (g.url i) ∧ m.term ≤ term ∧
        honoursTransfer (g.url i) m.isLeader l.primaryAddr (some leader) then
      some (s.setLease i { l with spawned := l.spawned ++ [leader] })
    else none
  | _ => none

/-- The self-vote, and the requests that go out with it. The pre-vote only keeps an election from
standing, so a timed-out campaign that stands is one whose pre-vote carried. What the code reads
under two locks is read in one step. -/
def standForElection [DecidableEq ι] (g : LeaseGroup ι) (s : LeaseWorld ι) (i : ι) (m : Memory)
    (logs : List (CollectionName × LogTail)) (tail : LogTail) (fault : Option Fault) :
    Option (LeaseWorld ι) :=
  let start := (s.lease i).campaign
  if start.forcedBy = none ∧ heardFromLeaderSince (s.lease i) start.began then none
  else
    s.actPosting g i (.stand fault) (fun _ l => l) fun o =>
      if o.granted.isSome then
        [.vote (voteRequest (m.term + 1) (g.nodeId i) logs tail (g.url i)) start.forcedBy]
      else []

/-- `vote_handler` up to its decision. The lease and the replication state, which have a lock each,
are read in one step. -/
def testRequest [DecidableEq ι] (g : LeaseGroup ι) (s : LeaseWorld ι) (i : ι) (m : Memory) (k : ℕ) :
    Option (LeaseWorld ι) :=
  match s.mail[k]? with
  | some (.vote req transferFrom) =>
    let l := s.lease i
    let withholds := l.withholds (g.heartbeatTimeout i) s.now
    let honours := honoursTransfer (g.url i) m.isLeader l.primaryAddr transferFrom
    if g.config.contains (g.url i) then
      some (s.setLease i { l with
        requests := l.requests ++ [⟨req, withholds && !honours, withholds && honours⟩] })
    else none
  | _ => none

/-- `vote_handler` from its decision on. -/
def decideRequest [DecidableEq ι] (g : LeaseGroup ι) (s : LeaseWorld ι) (i : ι) (m : Memory) (k : ℕ)
    (myLogs : List (CollectionName × LogTail)) (mySummary : LogTail) (fault : Option Fault) :
    Option (LeaseWorld ι) :=
  ((s.lease i).requests[k]?).bind fun r =>
    s.act g i (.voteRequest r.req myLogs mySummary r.mustWithhold fault) fun o l =>
      { afterVote s.now m o l with requests := l.requests.eraseIdx k }

def pollAnswer [DecidableEq ι] (g : LeaseGroup ι) (s : LeaseWorld ι) (i : ι) (m : Memory)
    (theirTerm : ℕ) (leading : Bool) : Option (LeaseWorld ι) :=
  let stamp (trusted : Bool) (l : LeaseState) :=
    if trusted then { l with lastHeartbeat := some s.now } else l
  if m.term < theirTerm then s.act g i (.heartbeat theirTerm) fun _ l => stamp leading l
  else some (s.setLease i (stamp (leading && decide (m.term ≤ theirTerm)) (s.lease i)))

def runningStep [DecidableEq ι] (g : LeaseGroup ι) (s : LeaseWorld ι) (i : ι) (m : Memory) :
    Op ι → Option (LeaseWorld ι)
  | .boot _ => none
  | .crash => s.act g i .crash fun _ l => l
  | .follow leader stamp =>
    some (s.setLease i { s.lease i with
      primaryAddr := some leader
      lastHeartbeat := if stamp then some s.now else (s.lease i).lastHeartbeat })
  | .pollAnswer theirTerm leading => pollAnswer g s i m theirTerm leading
  | .replicate term => s.act g i (.replicate term) fun _ l => l
  | .task k fault => s.act g i (.task k fault) fun o l =>
      { l with lastReplication := if o.applied.isSome then some s.now else l.lastReplication }
  | .resynced => some (s.setLease i { s.lease i with lastReplication := some s.now })
  | .demote newTerm => s.act g i (.demote newTerm) fun _ l => l.demoted s.now
  | .stepDown => s.act g i .stepDown fun _ l => l.relinquished
  | .probe replica sentWall =>
    if m.isLeader then
      some (s.setLease i { s.lease i with
        probes := (s.lease i).probes ++ [⟨replica, m.term, s.now, sentWall, none⟩] })
    else none
  | .heartbeat askerTerm leaseMs =>
    some (s.setLease i
      (heartbeatGrant (s.lease i) m.term (g.heartbeatTimeout i) s.now askerTerm leaseMs).2)
  | .answer asker k => answerProbe g s i m asker k
  | .receive k => receiveAnswer g s i m k
  | .openTransfer target =>
    if m.isLeader = true ∧ (s.lease i).transfer = none ∧
        target ∈ eligibleTargets g.config (g.url i) then
      some (s.setLease i { s.lease i with transfer := some ⟨target, m.term, false⟩ })
    else none
  | .tellTarget => tellTarget g s i
  | .endTransfer => endTransfer s i
  | .timeoutNow k => timeoutNow g s i m k
  | .runForced k => ((s.lease i).spawned[k]?).bind fun leader =>
      s.act g i .beginCampaign fun _ l =>
        { l with
          campaign := ⟨some leader, s.now⟩
          spawned := l.spawned.eraseIdx k }
  | .poll taskStarted =>
    if contactLost (s.lease i).lastHeartbeat (s.lease i).lastReplication (s.now - taskStarted)
        (g.heartbeatTimeout i) s.now then
      s.act g i .beginCampaign fun _ l => { l with campaign := ⟨none, s.now⟩ }
    else none
  | .stand logs tail fault => standForElection g s i m logs tail fault
  | .giveUp => s.act g i .giveUp fun _ l => l
  | .test k => testRequest g s i m k
  | .decide k myLogs mySummary fault => decideRequest g s i m k myLogs mySummary fault
  | .voteReply voter peer => s.act g i (.voteReply voter peer) fun _ l => l
  | .becomeLeader => s.act g i .becomeLeader fun o l =>
      if o.won.isSome then
        { l with
          leases := []
          primaryAddr := none }
      else l

def step [DecidableEq ι] (g : LeaseGroup ι) (s : LeaseWorld ι) : Label ι → Option (LeaseWorld ι)
  | .tick d => some { s with now := s.now + d }
  | .node i op =>
    match (s.world.nodes i).mem, op with
    | none, .boot fault =>
      s.act g i (.boot fault) fun _ _ => .booted s.now (g.primaryAddr i)
    | none, _ => none
    | some m, op => runningStep g s i m op

def Initial (s : LeaseWorld ι) : Prop := Election.Initial s.world ∧ s.mail = []

end DewDB.Lease
