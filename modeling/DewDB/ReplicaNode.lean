import DewDB.CollectionLog
import DewDB.LeaderProgress
import DewDB.Election

/-!
# A replicating node

The state of one node of a group with all its collections, and what its handlers do to it: the vote,
the leader's append and its bookkeeping, the replicate handler, and the two ways a watermark moves.
-/
namespace DewDB.ReplicaNode

open Endpoint QuorumConfig ReplicationMeta Vote Election CollectionLog LeaderProgress

variable {ι β : Type}

/-- `run_election` of a node: the request it will send, then the votes it has. -/
inductive Campaign where
  | sampled (logs : List (CollectionName × LogTail)) (summary : LogTail)
  | standing (term : ℕ) (granted : List Url)

structure Node (β : Type) where
  term : ℕ
  votedFor : Option NodeId
  isLeader : Bool
  names : List CollectionName
  cols : CollectionName → Collection β
  nextLsn : ℕ
  lastLogTerm : ℕ
  progress : Progress
  /-- By collection, the term and the LSN through which the log matches that term's leader. -/
  leaderMatched : CollectionName → ℕ × ℕ
  campaign : Option Campaign

def Node.fresh : Node β :=
  ⟨0, none, false, [], fun _ => .empty, 0, 0, .new, fun _ => (0, 0), none⟩

/-- The database-wide counters, which a node without collections advertises. -/
def Node.counters (n : Node β) : LogTail := ⟨n.lastLogTerm, n.nextLsn⟩

def Node.localLogTails (n : Node β) : List (CollectionName × LogTail) :=
  n.names.map fun c => (c, ⟨(n.cols c).lastAppendedTerm, (n.cols c).lastAppendedLsn⟩)

def Node.summary (n : Node β) : LogTail := logSummary n.counters n.localLogTails

/-- A durable position of a collection: nothing, or one of its frames. -/
def Node.Durable (n : Node β) (c : CollectionName) (lsn : ℕ) : Prop :=
  lsn = 0 ∨ ∃ f ∈ (n.cols c).frames, f.lsn = lsn

instance (n : Node β) (c : CollectionName) (lsn : ℕ) : Decidable (n.Durable c lsn) :=
  inferInstanceAs (Decidable (_ ∨ _))

def Node.setCol (n : Node β) (c : CollectionName) (col : Collection β) : Node β :=
  { n with
    names := if c ∈ n.names then n.names else n.names ++ [c]
    cols := Function.update n.cols c col }

/-- `apply_demotion`. -/
def Node.demote (n : Node β) (newTerm : ℕ) : Node β :=
  { n with term := newTerm, votedFor := none, isLeader := false, progress := n.progress.reset }

/-- A follower adopts a higher term from a frame or a heartbeat. -/
def Node.adopt (n : Node β) (newTerm : ℕ) : Node β :=
  { n with term := newTerm, votedFor := none }

/-- `relinquish_leadership`. -/
def Node.relinquish (n : Node β) : Node β :=
  { n with isLeader := false, progress := n.progress.reset }

/-- The self-vote of `run_election`. -/
def Node.stand (g : NodeGroup ι) (i : ι) (n : Node β) : Node β :=
  { n with
    term := n.term + 1
    votedFor := some (g.nodeId i)
    campaign := some (.standing (n.term + 1) [g.url i]) }

/-- The role and the progress that `become_leader` gives the winner. -/
def Node.promote (n : Node β) : Node β :=
  { n with
    isLeader := true
    campaign := none
    progress := n.progress.reinitAsLeader fun c => (n.cols c).applied }

def Node.voteDecision (g : NodeGroup ι) (n : Node β) (req : VoteRequest) (mustWithhold : Bool) :
    VoteDecision :=
  decideVote n.term n.votedFor n.localLogTails n.summary (some g.config) req mustWithhold

/-- The state change of `vote_handler`, its save taken to succeed. -/
def Node.applyVote (n : Node β) (d : VoteDecision) : Node β :=
  let standsDown := decide (n.term < d.term) && n.isLeader
  { n with
    term := d.term
    votedFor := d.votedFor
    isLeader := n.isLeader && !standsDown
    progress := if standsDown then n.progress.reset else n.progress }

/-- `Collection::append` under `term`, at the next LSN of the node. -/
def Node.append (n : Node β) (c : CollectionName) (term : ℕ) (entry : β) : Node β :=
  { n.setCol c ((n.cols c).append (n.nextLsn + 1) term entry) with
    nextLsn := n.nextLsn + 1
    lastLogTerm := term }

def Node.noteLeaderAppend (n : Node β) (c : CollectionName) (lsn : ℕ) : Node β :=
  if n.isLeader then { n with progress := n.progress.noteLeaderAppend c lsn } else n

def Node.applyCommitted (n : Node β) (c : CollectionName) (committed : ℕ) : Node β :=
  if committed = 0 then n else n.setCol c ((n.cols c).applyCommitted committed)

/-- `AppState::note_leader_committed`. -/
def Node.noteLeaderCommitted (n : Node β) (c : CollectionName) (term lsn : ℕ) (matched : Option ℕ)
    (durable : ℕ) : Node β :=
  if n.isLeader ∨ n.term ≠ term then n
  else
    let known := if (n.leaderMatched c).1 = term then (n.leaderMatched c).2 else 0
    let through :=
      match matched with
      | some m => max known (min m durable)
      | none => known
    Node.applyCommitted
      { n with leaderMatched := Function.update n.leaderMatched c (term, through) } c
      (min (min lsn through) durable)

structure ReplicateRequest (β : Type) where
  term : ℕ
  collection : CollectionName
  frames : List (Frame β)
  commitIndex : ℕ
  deriving DecidableEq

inductive Reply where
  | notAReplica (term : ℕ)
  | staleTerm (term : ℕ)
  | applied (lsn : ℕ)
  | duplicate (lastLsn : ℕ)
  | gap (lastLsn lastTerm : ℕ)
  | divergent (lastLsn lastTerm applied : ℕ)
  | failed
  deriving DecidableEq

def appliedThrough : Reply → Option ℕ
  | .applied lsn => some lsn
  | .duplicate lastLsn => some lastLsn
  | _ => none

/-- The answer of `replicate_handler` after its append loop. -/
def replyOf (r : BatchResult β) : Reply :=
  match r.refusal with
  | none => if r.highest = 0 then .duplicate r.col.lastAppendedLsn else .applied r.highest
  | some (some (.gap lastLsn lastTerm)) => .gap lastLsn lastTerm
  | some (some (.divergent lastLsn lastTerm)) => .divergent lastLsn lastTerm r.col.applied
  | some _ => .failed

/-- Takes a batch into a collection, with the counters that an applied frame moves. -/
def Node.takeBatch (n : Node β) (c : CollectionName) (r : BatchResult β) : Node β :=
  { n.setCol c r.col with
    nextLsn := max n.nextLsn r.highest
    lastLogTerm := if r.highest = 0 then n.lastLogTerm else r.col.lastAppendedTerm }

/-- `replicate_handler` once it is past its role and term checks. -/
def Node.takeFrames (n : Node β) (req : ReplicateRequest β) (durable : ℕ) : Node β × Reply :=
  let r := appendBatch (n.cols req.collection) 0 none none req.frames
  let taken := n.takeBatch req.collection r
  match r.matched with
  | some m =>
    (taken.noteLeaderCommitted req.collection req.term req.commitIndex (some m) durable, replyOf r)
  | none => (taken, replyOf r)

/-- A higher term deposes a leader before anything else; a leader of this term or later refuses, and
so does a node that has seen a later term. -/
def Node.replicateHandler (n : Node β) (req : ReplicateRequest β) (durable : ℕ) : Node β × Reply :=
  let n := if n.isLeader ∧ n.term < req.term then n.demote req.term else n
  if n.isLeader then (n, .notAReplica n.term)
  else if req.term < n.term then (n, .staleTerm n.term)
  else
    let n := if n.term < req.term then n.adopt req.term else n
    n.takeFrames req durable

/-- `AppState::note_ack`: an acknowledgement of an older term is recorded but moves nothing. -/
def Node.noteAck (g : NodeGroup ι) (i : ι) (n : Node β) (replica : Url) (c : CollectionName)
    (lsn ackTerm durable : ℕ) : Node β :=
  let observed := n.progress.observeAck replica c lsn
  let progress :=
    if n.isLeader = false ∨ ackTerm ≠ n.term then observed
    else observed.advance c (g.url i) durable g.config
  Node.applyCommitted { n with progress := progress } c (progress.committed c)

/-- `AppState::advance_own_commit`. -/
def Node.advanceOwnCommit (g : NodeGroup ι) (i : ι) (n : Node β) (c : CollectionName)
    (durable : ℕ) : Node β :=
  let progress := if n.isLeader then n.progress.advance c (g.url i) durable g.config else n.progress
  Node.applyCommitted { n with progress := progress } c (progress.committed c)

/-- The LSN and term counters that opening every collection restores. -/
def bootCounters (cols : CollectionName → Collection β) : List CollectionName → ℕ × ℕ
  | [] => (0, 0)
  | c :: cs =>
    let rest := bootCounters cols cs
    if rest.1 < (cols c).lastAppendedLsn then
      ((cols c).lastAppendedLsn, (cols c).lastAppendedTerm)
    else rest

/-- A crash and restart: the logs, the term and the vote are durable, a watermark may come back
lower, and everything else starts over as a follower. -/
def Node.restart (n : Node β) (watermark : CollectionName → ℕ) : Node β :=
  let cols := fun c => { n.cols c with applied := min (n.cols c).applied (watermark c) }
  { n with
    isLeader := false
    cols := cols
    nextLsn := (bootCounters cols n.names).1
    lastLogTerm := (bootCounters cols n.names).2
    progress := .new
    leaderMatched := fun _ => (0, 0)
    campaign := none }

end DewDB.ReplicaNode
