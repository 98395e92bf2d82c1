import DewDB.Replication

/-!
# Writes and senders in their own steps

The protocol with the tasks that the leader's code runs outside its locks. A write samples the term,
appends under it, notes the append and ships the frame, each in a step of its own. A sender reads
frames, samples the term and the commit index later, sends batches, and turns the replies into an
acknowledgement; `stream_chain_once`, `confirm_tail` and the send of one frame differ in what they
take from a reply. Snapshots are left out: an install acknowledges nothing.
-/
namespace DewDB.Streaming

open Endpoint QuorumConfig Vote CollectionLog LeaderProgress ReplicaNode Replication

variable {ι β : Type}

/-- `AppState::leader_term`. -/
def leaderTerm (n : Node β) : Option ℕ := if n.isLeader then some n.term else none

inductive Stage (β : Type) where
  | sampled
  | appended (frame : Frame β)
  | noted (frame : Frame β)

/-- A client write, drop, index or TTL change or promotion barrier, from its sample of the term on.
-/
structure LocalWrite (ι β : Type) where
  node : ι
  collection : CollectionName
  entry : β
  term : ℕ
  stage : Stage β

inductive SenderKind where
  | frame
  | stream
  | confirm
  deriving DecidableEq

inductive Sending (β : Type) where
  | read (frames : List (Frame β))
  | ready (term commitIndex : ℕ) (rest : List (Frame β))
  | waiting (term commitIndex : ℕ) (batch rest : List (Frame β))

/-- A sender to one replica; `prev` is how far it got, to begin with what the replica reported. -/
structure Sender (ι β : Type) where
  node : ι
  peer : Url
  collection : CollectionName
  kind : SenderKind
  prev : ℕ
  sending : Sending β

structure Replied (ι β : Type) where
  node : ι
  request : ReplicateRequest β
  reply : Reply

structure LocalAppend (ι β : Type) where
  node : ι
  leading : Option ℕ
  frame : Frame β

structure State (ι β : Type) where
  world : World ι β
  writers : List (LocalWrite ι β)
  senders : List (Sender ι β)
  replies : List (Replied ι β)
  appended : List (LocalAppend ι β)

inductive Task (ι β : Type) where
  /-- An election, a change of term or role, a heartbeat, a commit of the leader's own or a crash.
  -/
  | base (label : Label ι β)
  | beginWrite (i : ι) (c : CollectionName) (entry : β)
  | appendWrite (k : ℕ)
  | noteWrite (k : ℕ)
  | ship (k : ℕ) (peer : Url)
  | finishWrite (k : ℕ)
  | readStream (i : ι) (peer : Url) (c : CollectionName) (reported : ℕ) (reportedTerm : Option ℕ)
  | readTail (i : ι) (peer : Url) (c : CollectionName)
  | sampleTerm (k : ℕ)
  | sendBatch (k count : ℕ)
  | deliver (i : ι) (message durable : ℕ)
  | reply (k r durable : ℕ)
  | dropSender (k : ℕ)

/-- The frames that follow each other from `(afterTerm, afterLsn)` on. -/
def chainPrefix (afterLsn afterTerm : ℕ) : List (Frame β) → List (Frame β)
  | [] => []
  | f :: fs =>
    if f.prevLsn = afterLsn ∧ f.prevTerm = afterTerm then f :: chainPrefix f.lsn f.term fs else []

/-- What `stream_chain_once` reads for a replica at `reported`; nothing when it has the tail, or
when the chain does not reach the tail and a snapshot is due. -/
def streamFrames (col : Collection β) (reported : ℕ) (reportedTerm : Option ℕ) :
    Option (List (Frame β)) :=
  let target := col.lastAppendedLsn
  if target ≤ reported then none
  else
    let frames := col.frames.filter fun f => decide (reported < f.lsn ∧ f.lsn ≤ target)
    let afterTerm := reportedTerm.getD ((frames.head?.map Frame.prevTerm).getD 0)
    let chained := chainPrefix reported afterTerm frames
    if chained ≠ [] ∧ target ≤ lsnOf chained then some chained else none

/-- The one frame at the tail that `confirm_tail` sends. -/
def tailFrame (col : Collection β) : Option (Frame β) :=
  if col.lastAppendedLsn = 0 then none else col.frames.getLast?

/-- What a sender counts of a success: only `stream_chain_once` takes the replica's word. -/
def SenderKind.counted (kind : SenderKind) (lsn last : ℕ) : ℕ :=
  match kind with
  | .frame => last
  | .stream => lsn
  | .confirm => min lsn last

variable [DecidableEq ι]

def isBase : Label ι β → Bool
  | .append .. => false
  | .noteAppend .. => false
  | .send .. => false
  | .deliver .. => false
  | .ack .. => false
  | _ => true

def survives (label : Label ι β) (i : ι) : Bool :=
  match label with
  | .crash j _ => i != j
  | _ => true

def stepBase [DecidableEq β] (g : Cluster ι) (s : State ι β) (label : Label ι β) :
    Option (State ι β) :=
  if isBase label then
    (Replication.step g s.world label).map fun w =>
      { s with
        world := w
        writers := s.writers.filter fun wr => survives label wr.node
        senders := s.senders.filter fun sd => survives label sd.node }
  else none

/-- `append_term`. -/
def stepBeginWrite (s : State ι β) (i : ι) (c : CollectionName) (entry : β) : Option (State ι β) :=
  (leaderTerm (s.world.nodes i)).map fun t =>
    { s with writers := ⟨i, c, entry, t, .sampled⟩ :: s.writers }

def stepAppendWrite (s : State ι β) (k : ℕ) : Option (State ι β) :=
  match s.writers[k]? with
  | some wr =>
    match wr.stage with
    | .sampled =>
      let n := s.world.nodes wr.node
      let col := n.cols wr.collection
      let frame : Frame β :=
        ⟨wr.term, n.nextLsn + 1, col.lastAppendedTerm, col.lastAppendedLsn, wr.entry⟩
      some { s with
        world := s.world.setNode wr.node (n.append wr.collection wr.term wr.entry)
        writers := s.writers.set k { wr with stage := .appended frame }
        appended := ⟨wr.node, leaderTerm n, frame⟩ :: s.appended }
    | _ => none
  | none => none

/-- `note_leader_append`, whichever term the node leads by now. -/
def stepNoteWrite (s : State ι β) (k : ℕ) : Option (State ι β) :=
  match s.writers[k]? with
  | some wr =>
    match wr.stage with
    | .appended frame =>
      let n := s.world.nodes wr.node
      some { s with
        world := s.world.setNode wr.node (n.noteLeaderAppend wr.collection frame.lsn)
        writers := s.writers.set k { wr with stage := .noted frame } }
    | _ => none
  | none => none

/-- `finish_write` hands the frame to a sender, under the sampled term. -/
def stepShip (s : State ι β) (k : ℕ) (peer : Url) : Option (State ι β) :=
  match s.writers[k]? with
  | some wr =>
    match wr.stage with
    | .noted frame =>
      let commitIndex := (s.world.nodes wr.node).progress.committed wr.collection
      some { s with
        senders := ⟨wr.node, peer, wr.collection, .frame, 0, .ready wr.term commitIndex [frame]⟩
          :: s.senders }
    | _ => none
  | none => none

def stepReadStream (s : State ι β) (i : ι) (peer : Url) (c : CollectionName) (reported : ℕ)
    (reportedTerm : Option ℕ) : Option (State ι β) :=
  (streamFrames ((s.world.nodes i).cols c) reported reportedTerm).map fun frames =>
    { s with senders := ⟨i, peer, c, .stream, reported, .read frames⟩ :: s.senders }

def stepReadTail (s : State ι β) (i : ι) (peer : Url) (c : CollectionName) : Option (State ι β) :=
  (tailFrame ((s.world.nodes i).cols c)).map fun frame =>
    { s with senders := ⟨i, peer, c, .confirm, 0, .read [frame]⟩ :: s.senders }

/-- `current_term` and `committed_lsn`, whoever leads by now. -/
def stepSampleTerm (s : State ι β) (k : ℕ) : Option (State ι β) :=
  match s.senders[k]? with
  | some sd =>
    match sd.sending with
    | .read frames =>
      let n := s.world.nodes sd.node
      some { s with
        senders := s.senders.set k
          { sd with sending := .ready n.term (n.progress.committed sd.collection) frames } }
    | _ => none
  | none => none

def stepSendBatch (s : State ι β) (k count : ℕ) : Option (State ι β) :=
  match s.senders[k]? with
  | some sd =>
    match sd.sending with
    | .ready term commitIndex rest =>
      if 0 < count ∧ rest ≠ [] then
        some { s with
          world := { s.world with
            messages := ⟨term, sd.collection, rest.take count, commitIndex⟩ :: s.world.messages }
          senders := s.senders.set k
            { sd with sending := .waiting term commitIndex (rest.take count) (rest.drop count) } }
      else none
    | _ => none
  | none => none

def stepDeliver (s : State ι β) (i : ι) (message durable : ℕ) : Option (State ι β) :=
  match s.world.messages[message]? with
  | some req =>
    (Replication.stepDeliver s.world i message durable).map fun w =>
      { s with
        world := w
        replies := ⟨i, req, ((s.world.nodes i).replicateHandler req durable).2⟩ :: s.replies }
  | none => none

/-- `note_ack`; a node that no longer leads reports nothing. -/
def noteAck (g : Cluster ι) (w : World ι β) (i : ι) (peer : Url) (c : CollectionName)
    (lsn term durable : ℕ) : World ι β :=
  let w' := w.setNode i ((w.nodes i).noteAck g.toNodeGroup i peer c lsn term durable)
  (if (w.nodes i).isLeader then w'.report i c else w').publish i c

/-- A reply to the batch in flight. A refusal ends the pass, a success that covers the batch goes on
with the next one, and the last one is acknowledged. -/
def stepReply [DecidableEq β] (g : Cluster ι) (s : State ι β) (k r durable : ℕ) :
    Option (State ι β) :=
  match s.senders[k]?, s.replies[r]? with
  | some sd, some rp =>
    match sd.sending with
    | .waiting term commitIndex batch rest =>
      if rp.request = ⟨term, sd.collection, batch, commitIndex⟩ ∧
          sameEndpoint sd.peer (g.url rp.node) ∧
          (s.world.nodes sd.node).Durable sd.collection durable then
        match appliedThrough rp.reply with
        | none => some { s with senders := s.senders.eraseIdx k }
        | some lsn =>
          let acked := sd.kind.counted lsn (lsnOf batch)
          let prev := max sd.prev acked
          if rest = [] ∨ acked < lsnOf batch then
            some { s with
              world := noteAck g s.world sd.node sd.peer sd.collection prev term durable
              senders := s.senders.eraseIdx k }
          else
            some { s with
              senders := s.senders.set k
                { sd with prev := prev, sending := .ready term commitIndex rest } }
      else none
    | _ => none
  | _, _ => none

def step [DecidableEq β] (g : Cluster ι) (s : State ι β) : Task ι β → Option (State ι β)
  | .base label => stepBase g s label
  | .beginWrite i c entry => stepBeginWrite s i c entry
  | .appendWrite k => stepAppendWrite s k
  | .noteWrite k => stepNoteWrite s k
  | .ship k peer => stepShip s k peer
  | .finishWrite k => some { s with writers := s.writers.eraseIdx k }
  | .readStream i peer c reported reportedTerm => stepReadStream s i peer c reported reportedTerm
  | .readTail i peer c => stepReadTail s i peer c
  | .sampleTerm k => stepSampleTerm s k
  | .sendBatch k count => stepSendBatch s k count
  | .deliver i message durable => stepDeliver s i message durable
  | .reply k r durable => stepReply g s k r durable
  | .dropSender k => some { s with senders := s.senders.eraseIdx k }

def initial (g : Cluster ι) : State ι β := ⟨initialWorld g, [], [], [], []⟩

section Orderly

def Sending.unsent : Sending β → Option (List (Frame β))
  | .read frames => some frames
  | _ => none

def Sending.inFlight : Sending β → Option (ℕ × List (Frame β))
  | .waiting term _ batch _ => some (term, batch)
  | _ => none

def Task.sampled : Task ι β → Option ℕ
  | .sampleTerm k => some k
  | _ => none

def Task.replied : Task ι β → Option (ℕ × ℕ)
  | .reply k r _ => some (k, r)
  | _ => none

def Undisturbed [DecidableEq β] (g : Cluster ι) (s : State ι β) (task : Task ι β) : Prop :=
  ∀ s' ∈ step g s task, ∀ wr ∈ s'.writers,
    leaderTerm (s'.world.nodes wr.node) = leaderTerm (s.world.nodes wr.node)

/-- What a sender has read is a run of the log of a node that leads. -/
def LeadsRun (s : State ι β) (sd : Sender ι β) : Prop :=
  ∀ frames ∈ sd.sending.unsent, (s.world.nodes sd.node).isLeader = true ∧
    frames <:+: ((s.world.nodes sd.node).cols sd.collection).frames

/-- A success names no LSN past the batch to a streaming sender, and does not reach a node that
leads another term by now. -/
def InBatch (s : State ι β) (sd : Sender ι β) (rp : Replied ι β) : Prop :=
  ∀ x ∈ sd.sending.inFlight,
    (sd.kind = .stream → ∀ lsn ∈ appliedThrough rp.reply, lsn ≤ lsnOf x.2) ∧
      ∀ t ∈ leaderTerm (s.world.nodes sd.node), t = x.1

/-- The steps that keep to one leadership: writes are not overtaken by a change of it, senders
sample the term of the leadership their frames are from, and acknowledgements count within the batch
and the term they answer. -/
structure Orderly [DecidableEq β] (g : Cluster ι) (s : State ι β) (task : Task ι β) : Prop where
  undisturbed : Undisturbed g s task
  leadsRun : ∀ k ∈ task.sampled, ∀ sd ∈ s.senders[k]?, LeadsRun s sd
  inBatch : ∀ x ∈ task.replied, ∀ sd ∈ s.senders[x.1]?, ∀ rp ∈ s.replies[x.2]?, InBatch s sd rp

instance [DecidableEq β] (g : Cluster ι) (s : State ι β) (task : Task ι β) :
    Decidable (Undisturbed g s task) := inferInstanceAs (Decidable (∀ s' ∈ step g s task, _))

instance [DecidableEq β] (s : State ι β) (sd : Sender ι β) : Decidable (LeadsRun s sd) :=
  inferInstanceAs (Decidable (∀ frames ∈ sd.sending.unsent, _))

instance (s : State ι β) (sd : Sender ι β) (rp : Replied ι β) : Decidable (InBatch s sd rp) :=
  inferInstanceAs (Decidable (∀ x ∈ sd.sending.inFlight, _))

instance [DecidableEq β] (g : Cluster ι) (s : State ι β) (task : Task ι β) :
    Decidable (Orderly g s task) :=
  decidable_of_iff (Undisturbed g s task ∧
      (∀ k ∈ task.sampled, ∀ sd ∈ s.senders[k]?, LeadsRun s sd) ∧
      ∀ x ∈ task.replied, ∀ sd ∈ s.senders[x.1]?, ∀ rp ∈ s.replies[x.2]?, InBatch s sd rp)
    ⟨fun h => ⟨h.1, h.2.1, h.2.2⟩, fun h => ⟨h.undisturbed, h.leadsRun, h.inBatch⟩⟩

end Orderly

/-- Five nodes `a` to `e`, of which `a` boots as primary. -/
def fiveMembers : Cluster (Fin 5) where
  nodeId := ![['a'], ['b'], ['c'], ['d'], ['e']]
  url := ![['a'], ['b'], ['c'], ['d'], ['e']]
  config := simple [['a'], ['b'], ['c'], ['d'], ['e']]
  runsAsPrimary := fun i => i == 0
  soloPrimary := fun _ => false
  nodeId_injective := by
    unfold Function.Injective
    decide
  url_injective := by decide
  primary := some 0
  member := 0
  member_voter := by decide

/-- A write of node `i` up to a sender for each peer. -/
def writeTo (i : Fin 5) (entry : ℕ) (peers : List Url) : List (Task (Fin 5) ℕ) :=
  [Task.beginWrite i ['k'] entry, .appendWrite 0, .noteWrite 0] ++ peers.map
    (.ship 0) ++ [Task.finishWrite 0]

/-- An election of node `i` with the votes of two others. -/
def electedBy (i j l : Fin 5) : List (Task (Fin 5) ℕ) :=
  [.base (.sample i), .base (.stand i), .base (.vote j 0 false), .base (.vote l 0 false),
    .base (.countVote i j (fiveMembers.url j)), .base (.countVote i l (fiveMembers.url l)),
    .base (.becomeLeader i)]

end DewDB.Streaming
