import DewDB.LeaseSafety
import DewDB.Replication
import DewDB.WriteConcern

/-!
# Reads at a read index

`read_index` beside the replication and the leases of a group: the leader samples its commit index,
confirms that it still leads by a lease or by a round of heartbeats, and waits until the index is
applied. Beside it `finish_write`, which tells a client of its write once enough nodes were counted.
Each of their steps may be separated from the next by steps of any node.
-/
namespace DewDB.ReadIndex

open Endpoint QuorumConfig Vote CollectionLog LeaderProgress ReplicaNode Replication Concern
open Lease (LeaseGroup LeaseWorld holdsReadLease PromisesKept)

structure ReadGroup (ι : Type) extends Cluster ι where
  heartbeatTimeout : ι → ℕ
  primaryAddr : ι → Option Url

def ReadGroup.leaseGroup {ι : Type} (g : ReadGroup ι) : LeaseGroup ι :=
  ⟨g.toNodeGroup, g.heartbeatTimeout, g.primaryAddr⟩

/-- A write whose append has been noted and that waits for its concern. -/
structure PendingWrite (ι : Type) where
  node : ι
  term : ℕ
  collection : CollectionName
  lsn : ℕ

/-- A write of the leader of `term` with the nodes that were counted for it. -/
structure Ack where
  concern : WriteConcern
  holders : List Url
  term : ℕ
  collection : CollectionName
  lsn : ℕ

/-- How far a read has come. `missing` is a collection that does not exist; `term` and `highest` are
those of the round of heartbeats. -/
inductive Stage where
  | opened
  | complete
  | sampled (index : ℕ) (missing : Bool)
  | asking (index : ℕ) (missing : Bool) (term highest : ℕ) (granted : List Url)
  | confirmed (index : ℕ) (missing : Bool)
  | waited (index : ℕ)
  | served (index : ℕ)
  deriving DecidableEq

/-- A call of `read_index`, with the term its node led then and the writes acknowledged before. -/
structure Read (ι : Type) where
  node : ι
  collection : CollectionName
  term : ℕ
  before : List Ack
  stage : Stage

/-- The group and its leases, the winners that have not set up their progress yet, the writes under
way, those that kept their authority, those that clients know of, and the reads. -/
structure ReadWorld (ι β : Type) where
  group : World ι β
  leases : LeaseWorld ι
  unseeded : List ι
  writes : List (PendingWrite ι)
  settled : List (ι × Ack)
  acked : List Ack
  reads : List (Read ι)

inductive Op (ι β : Type) where
  | group (label : Label ι β)
  | leases (label : Lease.Label ι)
  | seed (i : ι)
  | note (i : ι) (c : CollectionName) (lsn : ℕ)
  | settle (k : ℕ) (concern : WriteConcern) (replicas : List Url) (durable : ℕ)
  | tell (k durable : ℕ)
  | begin (i : ι) (c : CollectionName)
  | check (r : ℕ) (opens : Bool)
  | sample (r : ℕ)
  | lease (r wallNow : ℕ)
  | round (r : ℕ)
  | probe (r : ℕ) (voter : ι) (peer : Url)
  | conclude (r : ℕ)
  | wait (r : ℕ)
  | finish (r : ℕ)

variable {ι β : Type} [DecidableEq ι]

def pendingLen (col : Collection β) : ℕ :=
  (col.frames.filter fun f => decide (col.applied < f.lsn)).length

def hasCurrentTermCommit (p : Progress) (c : CollectionName) : Bool :=
  (p.termFloor c).any fun floor => decide (floor ≤ p.committed c)

/-- The progress that a read finds: between the role and `seed_leader_progress` it is still empty.
-/
def ReadWorld.progress (w : ReadWorld ι β) (i : ι) : Progress :=
  if i ∈ w.unseeded then .new else (w.group.nodes i).progress

def indexIsComplete (w : ReadWorld ι β) (i : ι) (c : CollectionName) : Bool :=
  pendingLen ((w.group.nodes i).cols c) == 0 || hasCurrentTermCommit (w.progress i) c

def ReadWorld.toStage (w : ReadWorld ι β) (r : ℕ) (stage : Stage) : ReadWorld ι β :=
  { w with reads := w.reads.modify r fun x => { x with stage := stage } }

def ReadWorld.refuse (w : ReadWorld ι β) (r : ℕ) : ReadWorld ι β :=
  { w with reads := w.reads.eraseIdx r }

/-- What a step of the group does beside it: a crash takes the node's writes and reads along, and a
promotion leaves the progress to be seeded. -/
def ReadWorld.beside (w : ReadWorld ι β) (group : World ι β) : Label ι β → ReadWorld ι β
  | .crash i _ =>
    { w with
      group := group
      writes := w.writes.filter fun p => decide (p.node ≠ i)
      settled := w.settled.filter fun p => decide (p.1 ≠ i)
      reads := w.reads.filter fun x => decide (x.node ≠ i) }
  | .becomeLeader i =>
    { w with
      group := group
      unseeded := if (group.nodes i).isLeader then i :: w.unseeded else w.unseeded }
  | _ => { w with group := group }

/-- The end of `local_write_inner`: the leader notes its append, and the write goes on. -/
def noteWrite [DecidableEq β] (g : Cluster ι) (w : ReadWorld ι β) (i : ι)
    (c : CollectionName) (lsn : ℕ) : Option (ReadWorld ι β) :=
  (Replication.step g w.group (.noteAppend i c lsn)).map fun group =>
    { w with
      group := group
      writes := w.writes ++ [⟨i, (w.group.nodes i).term, c, lsn⟩] }

/-- `finish_write` up to `kept_authority`: the frame is durable here, and every other node that is
counted is one whose acknowledgement this leader has recorded through the frame. -/
def settleWrite (g : Cluster ι) (w : ReadWorld ι β) (k : ℕ) (concern : WriteConcern)
    (replicas : List Url) (durable : ℕ) : Option (ReadWorld ι β) :=
  w.writes[k]?.bind fun p =>
    let n := w.group.nodes p.node
    let holders := g.url p.node :: replicas
    if n.isLeader ∧ n.term = p.term ∧ n.Durable p.collection durable ∧ p.lsn ≤ durable ∧
        (holders.map nodeKey).Nodup ∧
        (∀ u ∈ replicas, u ∈ g.config.members ∧ p.lsn ≤ n.progress.matched u p.collection) then
      some { w with
        writes := w.writes.eraseIdx k
        settled := w.settled ++ [(p.node, ⟨concern, holders, p.term, p.collection, p.lsn⟩)] }
    else none

def ReadWorld.toClient (w : ReadWorld ι β) (config : Configuration) (k : ℕ) (ack : Ack) :
    ReadWorld ι β :=
  { w with
    settled := w.settled.eraseIdx k
    acked := if (writeQuorum ack.concern config).met ack.holders then ack :: w.acked else w.acked }

/-- The end of `finish_write`: a node that still leads advances its commit index, and the client is
answered. The commit index is not compared. -/
def tellWrite [DecidableEq β] (g : Cluster ι) (w : ReadWorld ι β) (k durable : ℕ) : Option
    (ReadWorld ι β) :=
  w.settled[k]?.bind fun p =>
    let n := w.group.nodes p.1
    if n.isLeader then
      if n.term = p.2.term → p.2.lsn ≤ durable then
        (Replication.step g w.group (.advanceOwn p.1 p.2.collection durable)).map fun group =>
          { w with group := group }.toClient g.config k p.2
      else none
    else some (w.toClient g.config k p.2)

def begin (w : ReadWorld ι β) (i : ι) (c : CollectionName) : Option (ReadWorld ι β) :=
  if (w.group.nodes i).isLeader then
    some { w with reads := w.reads ++ [⟨i, c, (w.group.nodes i).term, w.acked, .opened⟩] }
  else none

/-- A collection that does not exist has nothing that a read could be behind on; one that does not
open is taken for such a one. -/
def checkRead (w : ReadWorld ι β) (r : ℕ) (x : Read ι) (opens : Bool) : Option (ReadWorld ι β) :=
  if x.stage = .opened then
    if x.collection ∉ (w.group.nodes x.node).names ∨ opens = false
      then some (w.toStage r (.sampled 0 true))
    else if indexIsComplete w x.node x.collection then some (w.toStage r .complete)
    else some (w.refuse r)
  else none

def sampleRead (w : ReadWorld ι β) (r : ℕ) (x : Read ι) : Option (ReadWorld ι β) :=
  if x.stage = .complete then
    some (w.toStage r (.sampled ((w.progress x.node).committed x.collection) false))
  else none

/-- The leases are those of the same nodes: they say of node `i` what the group says of its office,
and know of every winner. -/
def ReadWorld.SameOffices (w : ReadWorld ι β) (i : ι) : Prop :=
  ((w.leases.world.nodes i).mem.any fun m => decide (m.term = (w.group.nodes i).term) &&
      decide (m.isLeader = (w.group.nodes i).isLeader)) = true ∧
    ∀ v ∈ w.group.won, (v.node, v.term) ∈ w.leases.world.won

instance (w : ReadWorld ι β) (i : ι) : Decidable (w.SameOffices i) :=
  inferInstanceAs (Decidable (_ ∧ _))

def leaseRead (g : ReadGroup ι) (w : ReadWorld ι β) (r : ℕ) (x : Read ι) (wallNow : ℕ) :
    Option (ReadWorld ι β) :=
  match x.stage with
  | .sampled index missing =>
    if w.SameOffices x.node ∧ holdsReadLease g.leaseGroup w.leases x.node wallNow then
      some (w.toStage r (.confirmed index missing))
    else none
  | _ => none

def roundRead (g : Cluster ι) (w : ReadWorld ι β) (r : ℕ) (x : Read ι) : Option (ReadWorld ι β) :=
  match x.stage with
  | .sampled index missing =>
    let term := (w.group.nodes x.node).term
    some (w.toStage r (.asking index missing term term [g.url x.node]))
  | _ => none

/-- An answer with the voter's term and role; one that does not come is no step. -/
def probeRead (g : Cluster ι) (w : ReadWorld ι β) (r : ℕ) (x : Read ι) (voter : ι) (peer : Url) :
    Option (ReadWorld ι β) :=
  match x.stage with
  | .asking index missing term highest granted =>
    if peer ∈ g.config.members ∧ sameEndpoint peer (g.url voter) then
      let theirs := w.group.nodes voter
      let grants := theirs.term ≤ term ∧ ¬ (theirs.term = term ∧ theirs.isLeader)
      some (w.toStage r (.asking index missing term (max highest theirs.term)
        (if grants then granted ++ [peer] else granted)))
    else none
  | _ => none

/-- A higher term deposes the node; otherwise a quorum of answers confirms it while it leads. -/
def concludeRead [DecidableEq β] (g : Cluster ι) (w : ReadWorld ι β) (r : ℕ) (x : Read ι) : Option
    (ReadWorld ι β) :=
  match x.stage with
  | .asking index missing term highest granted =>
    if term < highest then
      let group := (Replication.step g w.group (.demote x.node highest)).getD w.group
      some ({ w with group := group }.refuse r)
    else if g.config.hasQuorum granted ∧ (w.group.nodes x.node).isLeader then
      some (w.toStage r (.confirmed index missing))
    else some (w.refuse r)
  | _ => none

def waitRead (w : ReadWorld ι β) (r : ℕ) (x : Read ι) : Option (ReadWorld ι β) :=
  match x.stage with
  | .confirmed index missing =>
    if missing ∨ index ≤ ((w.group.nodes x.node).cols x.collection).applied then
      some (w.toStage r (.waited index))
    else none
  | _ => none

def finishRead (w : ReadWorld ι β) (r : ℕ) (x : Read ι) : Option (ReadWorld ι β) :=
  match x.stage with
  | .waited index =>
    if (w.group.nodes x.node).isLeader then some (w.toStage r (.served index))
      else some (w.refuse r)
  | _ => none

def step [DecidableEq β] (g : ReadGroup ι) (w : ReadWorld ι β) : Op ι β → Option (ReadWorld ι β)
  | .group label => (Replication.step g.toCluster w.group label).map fun group =>
      w.beside group label
  | .leases label => (Lease.step g.leaseGroup w.leases label).map fun leases =>
      { w with leases := leases }
  | .seed i => some { w with unseeded := w.unseeded.filter fun j => decide (j ≠ i) }
  | .note i c lsn => noteWrite g.toCluster w i c lsn
  | .settle k concern replicas durable => settleWrite g.toCluster w k concern replicas durable
  | .tell k durable => tellWrite g.toCluster w k durable
  | .begin i c => begin w i c
  | .check r opens => w.reads[r]?.bind fun x => checkRead w r x opens
  | .sample r => w.reads[r]?.bind (sampleRead w r)
  | .lease r wallNow => w.reads[r]?.bind fun x => leaseRead g w r x wallNow
  | .round r => w.reads[r]?.bind (roundRead g.toCluster w r)
  | .probe r voter peer => w.reads[r]?.bind fun x => probeRead g.toCluster w r x voter peer
  | .conclude r => w.reads[r]?.bind (concludeRead g.toCluster w r)
  | .wait r => w.reads[r]?.bind (waitRead w r)
  | .finish r => w.reads[r]?.bind (finishRead w r)

def initialReads (g : Cluster ι) (leases : LeaseWorld ι) : ReadWorld ι β :=
  ⟨initialWorld g, leases, [], [], [], [], []⟩

def LeadsIn (w : World ι β) (i : ι) (term : ℕ) : Prop :=
  (w.nodes i).isLeader = true ∧ (w.nodes i).term = term

instance (w : World ι β) (i : ι) (term : ℕ) : Decidable (LeadsIn w i term) :=
  inferInstanceAs (Decidable (_ ∧ _))

abbrev Led (w : World ι β) (x : Read ι) : Prop := LeadsIn w x.node x.term

/-- A new leader counts nothing and answers no read before its progress is seeded. A read finds a
collection that exists open, and is confirmed in the term in which it began. Votes keep the promises
of the leases. -/
def Steady (g : ReadGroup ι) (w : ReadWorld ι β) : Op ι β → Prop
  | .group (.noteAppend i _ _) | .group (.ack i _ _ _ _ _) | .group
      (.advanceOwn i _ _) | .note i _ _ =>
    i ∉ w.unseeded
  | .leases label => PromisesKept g.leaseGroup w.leases label
  | .check r opens => ∀ x ∈ w.reads[r]?, x.node ∉ w.unseeded ∧
      (x.collection ∈ (w.group.nodes x.node).names → opens = true)
  | .sample r => ∀ x ∈ w.reads[r]?, x.node ∉ w.unseeded
  | .lease r _ => ∀ x ∈ w.reads[r]?, Led w.group x
  | .conclude r => ∀ x ∈ w.reads[r]?, (w.group.nodes x.node).isLeader = true →
      (w.group.nodes x.node).term = x.term
  | _ => True

instance [Fintype ι] (g : ReadGroup ι) (w : ReadWorld ι β) (op : Op ι β) : Decidable
    (Steady g w op) := by
  unfold Steady
  split <;> infer_instance

/-- A write that a quorum of the configuration has: the majority concern asks for one, and so does
the concern of all where none but members are counted. -/
def Ack.OfQuorum (config : Configuration) (k : Ack) : Prop :=
  k.concern = .majority ∨ (k.concern = .all ∧ ∀ u ∈ k.holders, config.contains u = true) ∨
    config.hasQuorum k.holders = true

/-- The configuration spells a node in one way, and has no empty half. -/
structure Plain (config : Configuration) : Prop where
  filled : ∀ half ∈ config.halves, half ≠ []
  spelled : ∀ half ∈ config.halves, ∀ v ∈ half, ∀ u ∈ config.members,
    sameEndpoint u v = true → u = v

end DewDB.ReadIndex
