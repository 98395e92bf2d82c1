import DewDB.ReplicaNode

/-!
# The replication protocol of a group

Elections, appends, replication and commits of a group of nodes over all their collections. A
handler is one step; a leader's append and the note that makes it the term's floor are two. Requests
stay in flight for good, so they may be delivered late, out of order, repeatedly or never.
Acknowledgements are sound: a leader counts one through an LSN only if the replica answered it, in
this term, with a log that agrees with the leader's through that LSN.
-/
namespace DewDB.Replication

open Endpoint QuorumConfig ReplicationMeta Vote Election CollectionLog LeaderProgress ReplicaNode

/-- A group of nodes, at most one of which boots as primary of term 0. -/
structure Cluster (ι : Type) extends NodeGroup ι where
  primary : Option ι
  member : ι
  member_voter : config.contains (url member) = true

structure Beat where
  term : ℕ
  collection : CollectionName
  committed : ℕ

/-- A replica's log of a collection when it answered a request of `term`. -/
structure Answer (ι β : Type) where
  node : ι
  term : ℕ
  collection : CollectionName
  frames : List (Frame β)

/-- A node that won `term`, with its logs then. -/
structure Won (ι β : Type) where
  term : ℕ
  node : ι
  logs : CollectionName → List (Frame β)

/-- What a leader of `term` reported as committed. -/
structure Report (β : Type) where
  term : ℕ
  collection : CollectionName
  frames : List (Frame β)

/-- The nodes, the requests in flight, and the history of what happened. -/
structure World (ι β : Type) where
  nodes : ι → Node β
  requests : List VoteRequest
  granted : List (Grant ι)
  messages : List (ReplicateRequest β)
  beats : List Beat
  noted : List (ι × ℕ × CollectionName × ℕ)
  answers : List (Answer ι β)
  won : List (Won ι β)
  reports : List (Report β)
  published : List (CollectionName × Frame β)

inductive Label (ι β : Type) where
  | sample (i : ι)
  | stand (i : ι)
  | vote (i : ι) (request : ℕ) (mustWithhold : Bool)
  | countVote (i voter : ι) (peer : Url)
  | becomeLeader (i : ι)
  | giveUp (i : ι)
  | demote (i : ι) (newTerm : ℕ)
  | adopt (i : ι) (newTerm : ℕ)
  | stepDown (i : ι)
  | append (i : ι) (c : CollectionName) (entry : β)
  | appendFails (i : ι) (c : CollectionName)
  | noteAppend (i : ι) (c : CollectionName) (lsn : ℕ)
  | send (i : ι) (c : CollectionName) (skip count : ℕ)
  | beat (i : ι) (c : CollectionName)
  | deliver (i : ι) (message durable : ℕ)
  | hear (i : ι) (beat durable : ℕ)
  | ack (i voter : ι) (peer : Url) (c : CollectionName) (lsn durable : ℕ)
  | advanceOwn (i : ι) (c : CollectionName) (durable : ℕ)
  | crash (i : ι) (watermark : CollectionName → ℕ)

variable {ι β : Type} [DecidableEq ι]

def World.setNode (w : World ι β) (i : ι) (n : Node β) : World ι β :=
  { w with nodes := Function.update w.nodes i n }

/-- Records what node `i` has published of a collection. -/
def World.publish (w : World ι β) (i : ι) (c : CollectionName) : World ι β :=
  { w with
    published := (cut ((w.nodes i).cols c).applied ((w.nodes i).cols c).frames).map
      (fun f => (c, f)) ++ w.published }

/-- Records what the leader `i` reports as committed of a collection. -/
def World.report (w : World ι β) (i : ι) (c : CollectionName) : World ι β :=
  { w with
    reports := ⟨(w.nodes i).term, c,
      cut ((w.nodes i).progress.committed c) ((w.nodes i).cols c).frames⟩ :: w.reports }

/-- The request `run_election` sends for the term it stands in. -/
def voteRequest (g : Cluster ι) (i : ι) (term : ℕ) (logs : List (CollectionName × LogTail))
    (tail : LogTail) : VoteRequest :=
  ⟨term, g.nodeId i, tail.lastLsn, tail.lastTerm, logs, some (g.url i)⟩

def stepSample (g : Cluster ι) (w : World ι β) (i : ι) : Option (World ι β) :=
  let n := w.nodes i
  if n.campaign = none ∧ n.isLeader = false ∧ g.config.contains (g.url i) then
    some (w.setNode i { n with campaign := some (.sampled n.localLogTails n.summary) })
  else none

def stepStand (g : Cluster ι) (w : World ι β) (i : ι) : Option (World ι β) :=
  let n := w.nodes i
  match n.campaign with
  | some (.sampled logs tail) =>
    some { w.setNode i (n.stand g.toNodeGroup i) with
      requests := voteRequest g i (n.term + 1) logs tail :: w.requests
      granted := ⟨i, g.nodeId i, n.term + 1⟩ :: w.granted }
  | _ => none

/-- The tail sample and the decision are one step, also at a node that leads: `append_order` keeps
the replicated appends out between the two, and a leader's own append does not take it. -/
def stepVote (g : Cluster ι) (w : World ι β) (i : ι) (request : ℕ) (mustWithhold : Bool) :
    Option (World ι β) :=
  let n := w.nodes i
  match w.requests[request]? with
  | some req =>
    if g.config.contains (g.url i) then
      let d := n.voteDecision g.toNodeGroup req mustWithhold
      some { w.setNode i (n.applyVote d) with
        granted := if d.granted then ⟨i, req.candidateId, d.term⟩ :: w.granted else w.granted }
    else none
  | none => none

def stepCountVote (g : Cluster ι) (w : World ι β) (i voter : ι) (peer : Url) : Option (World ι β) :=
  let n := w.nodes i
  match n.campaign with
  | some (.standing term votes) =>
    if ⟨voter, g.nodeId i, term⟩ ∈ w.granted ∧ peer ∈ g.config.members ∧
        sameEndpoint peer (g.url voter) then
      some (w.setNode i { n with campaign := some (.standing term (votes ++ [peer])) })
    else none
  | _ => none

def stepBecomeLeader (g : Cluster ι) (w : World ι β) (i : ι) : Option (World ι β) :=
  let n := w.nodes i
  match n.campaign with
  | some (.standing term votes) =>
    if g.config.hasQuorum votes then
      if g.config.contains (g.url i) ∧ n.term = term ∧ n.votedFor = some (g.nodeId i) then
        some { w.setNode i n.promote with
          won := ⟨term, i, fun c => (n.cols c).frames⟩ :: w.won }
      else some (w.setNode i { n with campaign := none })
    else none
  | _ => none

def stepAppend (w : World ι β) (i : ι) (c : CollectionName) (entry : β) : Option (World ι β) :=
  let n := w.nodes i
  if n.isLeader then
    some { w.setNode i (n.append c n.term entry) with
      noted := (i, n.term, c, n.nextLsn + 1) :: w.noted }
  else none

def stepAppendFails (w : World ι β) (i : ι) (c : CollectionName) : Option (World ι β) :=
  let n := w.nodes i
  if n.isLeader then some (w.setNode i { n.setCol c (n.cols c) with nextLsn := n.nextLsn + 1 })
  else none

/-- The floor follows an append of this node in the term that it still leads. -/
def stepNoteAppend (w : World ι β) (i : ι) (c : CollectionName) (lsn : ℕ) : Option (World ι β) :=
  let n := w.nodes i
  if n.isLeader ∧ (i, n.term, c, lsn) ∈ w.noted then some (w.setNode i (n.noteLeaderAppend c lsn))
  else none

def stepSend (w : World ι β) (i : ι) (c : CollectionName) (skip count : ℕ) : Option (World ι β) :=
  let n := w.nodes i
  if n.isLeader then
    some { w with
      messages := ⟨n.term, c, ((n.cols c).frames.drop skip).take count, n.progress.committed c⟩
        :: w.messages }
  else none

def stepDeliver (w : World ι β) (i : ι) (message durable : ℕ) : Option (World ι β) :=
  match w.messages[message]? with
  | some req =>
    let handled := (w.nodes i).replicateHandler req durable
    if handled.1.Durable req.collection durable then
      let w' := (w.setNode i handled.1).publish i req.collection
      match handled.2 with
      | .notAReplica _ => some w'
      | .staleTerm _ => some w'
      | _ => some { w' with
          answers := ⟨i, req.term, req.collection, (handled.1.cols req.collection).frames⟩
            :: w'.answers }
    else none
  | none => none

/-- A heartbeat of a leader: the term first, then its commit index for what is known to match. -/
def stepHear (w : World ι β) (i : ι) (beat durable : ℕ) : Option (World ι β) :=
  match w.beats[beat]? with
  | some b =>
    let n := w.nodes i
    if n.isLeader = false ∧ n.term ≤ b.term ∧ n.Durable b.collection durable then
      let n := if n.term < b.term then n.adopt b.term else n
      some ((w.setNode i (n.noteLeaderCommitted b.collection b.term b.committed none
        durable)).publish i b.collection)
    else none
  | none => none

/-- The replica answered a request of this leader's term with a log that agrees with the leader's
through `lsn`. -/
def SoundAck [DecidableEq β] (w : World ι β) (i voter : ι) (c : CollectionName) (lsn : ℕ) : Prop :=
  ∃ a ∈ w.answers, a.node = voter ∧ a.term = (w.nodes i).term ∧ a.collection = c ∧
    (∃ f ∈ a.frames, f.lsn = lsn) ∧ cut lsn a.frames = cut lsn ((w.nodes i).cols c).frames

instance [DecidableEq β] (w : World ι β) (i voter : ι) (c : CollectionName) (lsn : ℕ) :
    Decidable (SoundAck w i voter c lsn) := inferInstanceAs (Decidable (∃ a ∈ w.answers, _))

def stepAck [DecidableEq β] (g : Cluster ι) (w : World ι β) (i voter : ι) (peer : Url)
    (c : CollectionName) (lsn durable : ℕ) : Option (World ι β) :=
  let n := w.nodes i
  if n.isLeader ∧ sameEndpoint peer (g.url voter) ∧ SoundAck w i voter c lsn ∧
      n.Durable c durable then
    some (((w.setNode i (n.noteAck g.toNodeGroup i peer c lsn n.term durable)).report i c).publish i
      c)
  else none

def stepAdvanceOwn (g : Cluster ι) (w : World ι β) (i : ι) (c : CollectionName) (durable : ℕ) :
    Option (World ι β) :=
  let n := w.nodes i
  if n.isLeader ∧ n.Durable c durable then
    some (((w.setNode i (n.advanceOwnCommit g.toNodeGroup i c durable)).report i c).publish i c)
  else none

def stepCrash (w : World ι β) (i : ι) (watermark : CollectionName → ℕ) : Option (World ι β) :=
  let n := w.nodes i
  if ∀ c ∈ n.names, n.Durable c (watermark c) then some (w.setNode i (n.restart watermark))
  else none

def step [DecidableEq β] (g : Cluster ι) (w : World ι β) : Label ι β → Option (World ι β)
  | .sample i => stepSample g w i
  | .stand i => stepStand g w i
  | .vote i request mustWithhold => stepVote g w i request mustWithhold
  | .countVote i voter peer => stepCountVote g w i voter peer
  | .becomeLeader i => stepBecomeLeader g w i
  | .giveUp i => some (w.setNode i { w.nodes i with campaign := none })
  | .demote i newTerm =>
    if newTerm ≤ (w.nodes i).term then none else some (w.setNode i ((w.nodes i).demote newTerm))
  | .adopt i newTerm =>
    if (w.nodes i).isLeader = false ∧ (w.nodes i).term < newTerm then
      some (w.setNode i ((w.nodes i).adopt newTerm))
    else none
  | .stepDown i =>
    if (w.nodes i).isLeader then some (w.setNode i (w.nodes i).relinquish) else none
  | .append i c entry => stepAppend w i c entry
  | .appendFails i c => stepAppendFails w i c
  | .noteAppend i c lsn => stepNoteAppend w i c lsn
  | .send i c skip count => stepSend w i c skip count
  | .beat i c =>
    if (w.nodes i).isLeader then
      some { w with beats := ⟨(w.nodes i).term, c, (w.nodes i).progress.committed c⟩ :: w.beats }
    else none
  | .deliver i message durable => stepDeliver w i message durable
  | .hear i beat durable => stepHear w i beat durable
  | .ack i voter peer c lsn durable => stepAck g w i voter peer c lsn durable
  | .advanceOwn i c durable => stepAdvanceOwn g w i c durable
  | .crash i watermark => stepCrash w i watermark

/-- Empty logs everywhere; the primary, if there is one, leads term 0. -/
def initialWorld (g : Cluster ι) : World ι β :=
  ⟨fun i => { Node.fresh with isLeader := decide (g.primary = some i) },
    [], [], [], [], [], [], [], [], []⟩

end DewDB.Replication
