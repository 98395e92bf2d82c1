import DewDB.ClusterView
import DewDB.QuorumKeys
import DewDB.TransitionSystem
import DewDB.Vote

/-!
# Quorums that a view names

Where the config log has no entry, a node counts the voters of its shard group in the view it holds,
or the ones in its own file, and a leader goes on counting those it found at its promotion. The
nodes adopt views one by one, so the sets that are in use at one time may differ.
-/
namespace DewDB.ViewQuorums

open Endpoint TokenRing ClusterView QuorumConfig MajorityOverlap TransitionSystem Vote

section Voters

/-- Both the replicas and the peers of the file, this node first. -/
def configuredVoters (cfg : NodeConfig) : List Url :=
  canonicalOnto [cfg.ownUrl] (cfg.replicas ++ cfg.peers)

/-- The voters of this node's group, as far as the view knows groups. -/
def groupVoters (v : ClusterMetadata) (own : Url) : List Url :=
  match v.shardGroup own, v.groupsKnown with
  | some group, _ => v.votingShards.filter fun u => group.any fun m => sameEndpoint m u
  | none, false => v.votingShards
  | none, true => []

def viewVotingSet (cfg : NodeConfig) (v : ClusterMetadata) : List Url :=
  if v.seeded then configuredVoters cfg
  else
    let voters := groupVoters v cfg.ownUrl
    if voters.any fun u => sameEndpoint u cfg.ownUrl then voters else configuredVoters cfg

def quorumConfig (cfg : NodeConfig) (v : ClusterMetadata) : Configuration :=
  simple (viewVotingSet cfg v)

def votingPeers (cfg : NodeConfig) (v : ClusterMetadata) : List Url :=
  (quorumConfig cfg v).members.filter fun u => !sameEndpoint u cfg.ownUrl

def inQuorum (cfg : NodeConfig) (v : ClusterMetadata) : Bool :=
  !(cfg.learner || v.isLearner cfg.ownUrl)

/-- What a leader commits by: itself and the replicas it counts. -/
def replicationQuorum (own : Url) (replicas : List Url) : Configuration :=
  simple (canonicalOnto [own] replicas)

end Voters

/-- `campaign` is the view whose voters a running campaign asks, `replicas` what a leader counts. -/
structure Node where
  up : Bool
  view : ClusterMetadata
  stored : Option ClusterMetadata
  hasMeta : Bool
  isLeader : Bool
  replicas : List Url
  campaign : Option ClusterMetadata

inductive Op where
  | boot (viewSaved metaSaved : Bool)
  | crash
  | offer (incoming : ClusterMetadata) (saved : Bool)
  | stand
  | giveUp
  | promote
  | stepDown

section Steps

def loadClusterView (cfg : NodeConfig) (stored : Option ClusterMetadata) : Option ClusterMetadata :=
  match stored with
  | some v => if v.validate.isOk then some v else none
  | none => some (seedFromConfig cfg)

/-- A node without a record of its term starts as its file says; with one only a lone primary leads.
-/
def leadsAtBoot (cfg : NodeConfig) (hasMeta : Bool) : Bool :=
  cfg.runsAsPrimary && (!hasMeta || cfg.peers.isEmpty)

def boot (cfg : NodeConfig) (n : Node) (viewSaved metaSaved : Bool) : Option Node :=
  if n.up || cfg.role ≠ .shard then none
  else (loadClusterView cfg n.stored).map fun v =>
    { up := true
      view := v
      stored := if n.stored.isNone && viewSaved then some v else n.stored
      hasMeta := n.hasMeta || metaSaved
      isLeader := leadsAtBoot cfg n.hasMeta
      replicas := cfg.replicas
      campaign := none }

def offer (n : Node) (incoming : ClusterMetadata) (saved : Bool) : Option Node :=
  if n.up then some
    { n with
      view := adopt n.view incoming
      stored := if saved && adopts n.view incoming then some (save n.stored incoming)
        else n.stored }
  else none

def stand (cfg : NodeConfig) (n : Node) : Option Node :=
  if n.up && !n.isLeader && inQuorum cfg n.view
    then some { n with campaign := some n.view } else none

def becomeLeader (cfg : NodeConfig) (n : Node) : Option Node :=
  if n.up && !n.isLeader && n.campaign.isSome && inQuorum cfg n.view then some
    { n with
      isLeader := true
      replicas := votingPeers cfg n.view
      campaign := none }
  else none

def stepNode (cfg : NodeConfig) (n : Node) : Op → Option Node
  | .boot viewSaved metaSaved => boot cfg n viewSaved metaSaved
  | .crash => some { n with up := false }
  | .offer incoming saved => offer n incoming saved
  | .stand => stand cfg n
  | .giveUp => some { n with campaign := none }
  | .promote => becomeLeader cfg n
  | .stepDown => some { n with isLeader := false }

variable {ι : Type} [DecidableEq ι]

def step (g : ι → NodeConfig) (w : ι → Node) : ι × Op → Option (ι → Node)
  | (i, op) => (stepNode (g i) (w i) op).map fun n => Function.update w i n

end Steps

section Property

variable {ι : Type}

/-- The configurations that a node stands by: its campaign's, and the one it would stand with. -/
def electionQuorums (cfg : NodeConfig) (n : Node) : List Configuration :=
  if n.up then
    n.campaign.toList.map (quorumConfig cfg) ++
      if !n.isLeader && inQuorum cfg n.view then [quorumConfig cfg n.view] else []
  else []

def commitQuorums (cfg : NodeConfig) (n : Node) : List Configuration :=
  if n.up && n.isLeader then [replicationQuorum cfg.ownUrl n.replicas] else []

/-- Majorities that two nodes use at this time, the first for an election, have a node in common. -/
def QuorumsMeet (g : ι → NodeConfig) (w : ι → Node) : Prop :=
  ∀ i j, i ≠ j → ∀ c ∈ electionQuorums (g i) (w i),
    ∀ c' ∈ electionQuorums (g j) (w j) ++ commitQuorums (g j) (w j), c.Meets c'

/-- Where voters vote once in a term, no two candidates of one term are granted by quorums. -/
def OneLeader (g : ι → NodeConfig) (w : ι → Node) : Prop :=
  ∀ vote : Url → ι, (∀ a b, sameEndpoint a b = true → vote a = vote b) →
    ∀ i j, ∀ c ∈ electionQuorums (g i) (w i), ∀ c' ∈ electionQuorums (g j) (w j),
      ∀ A B, c.hasQuorum A = true → c'.hasQuorum B = true →
        (∀ a ∈ A, vote a = i) → (∀ b ∈ B, vote b = j) → i = j

/-- Where voters grant no candidate whose log is behind their own, one that a quorum grants has
every entry that a quorum of another leader holds. -/
def CommitsKept (g : ι → NodeConfig) (w : ι → Node) : Prop :=
  ∀ tail : Url → LogTail, (∀ a b, sameEndpoint a b = true → tail a = tail b) →
    ∀ i j, i ≠ j → ∀ c ∈ electionQuorums (g i) (w i), ∀ c' ∈ commitQuorums (g j) (w j),
      ∀ A B, c.hasQuorum A = true → c'.hasQuorum B = true → ∀ mine entry : LogTail,
        (∀ a ∈ A, (tail a).le mine = true) → (∀ b ∈ B, entry.le (tail b) = true) →
          entry.le mine = true

def Overlapping (c c' : Configuration) : Prop := Overlap (keys c.voters) (keys c'.voters)

/-- Node `i` may stand by `c`. -/
def MayElect (g : ι → NodeConfig) (w : ι → Node) (i : ι) (c : Configuration) : Prop :=
  ∀ j, j ≠ i → ∀ c' ∈ electionQuorums (g j) (w j) ++ commitQuorums (g j) (w j), Overlapping c c'

/-- Node `i` may commit by `c`. -/
def MayCommit (g : ι → NodeConfig) (w : ι → Node) (i : ι) (c : Configuration) : Prop :=
  ∀ j, j ≠ i → ∀ c' ∈ electionQuorums (g j) (w j), Overlapping c' c

/-- What a node starts to count, at a boot, by a new view or as it stands down, overlaps what every
other node counts. -/
def Careful (g : ι → NodeConfig) (w : ι → Node) : ι × Op → Prop
  | (i, .boot _ _) => ∀ v ∈ loadClusterView (g i) (w i).stored,
      if leadsAtBoot (g i) (w i).hasMeta then
        MayCommit g w i (replicationQuorum (g i).ownUrl (g i).replicas)
      else inQuorum (g i) v = true → MayElect g w i (quorumConfig (g i) v)
  | (i, .offer incoming _) => adopts (w i).view incoming = true → (w i).isLeader = false →
      inQuorum (g i) incoming = true → MayElect g w i (quorumConfig (g i) incoming)
  | (i, .stepDown) => (w i).up = true → (w i).isLeader = true → inQuorum (g i) (w i).view = true →
      MayElect g w i (quorumConfig (g i) (w i).view)
  | (_, .crash) | (_, .stand) | (_, .giveUp) | (_, .promote) => True

end Property

section Gradual

variable {ι : Type}

/-- The two nodes share a shard group of the view, or the view knows no groups. -/
def sharesGroup (v : ClusterMetadata) (own u : Url) : Bool :=
  (v.shardGroup own).elim (!v.groupsKnown) fun group => group.any fun m => sameEndpoint m u

def groupNodes (v : ClusterMetadata) (own : Url) : Finset Url :=
  keys ((v.members.filter fun m => m.voting && m.role == .shard &&
    sharesGroup v own m.url).map Member.url)

def fileNodes (cfg : NodeConfig) : Finset Url := keys (cfg.ownUrl :: (cfg.replicas ++ cfg.peers))

/-- The nodes that decide by the view where it was decided on and has the node among its group's
voters, by the file of the node where not. -/
def deciding (cfg : NodeConfig) (v : ClusterMetadata) : Finset Url :=
  if v.seeded = false ∧ nodeKey cfg.ownUrl ∈ groupNodes v cfg.ownUrl then groupNodes v cfg.ownUrl
  else fileNodes cfg

def electors (cfg : NodeConfig) (n : Node) : List (Finset Url) :=
  if n.up then
    n.campaign.toList.map (deciding cfg) ++
      if !n.isLeader && inQuorum cfg n.view then [deciding cfg n.view] else []
  else []

def committers (cfg : NodeConfig) (n : Node) : List (Finset Url) :=
  if n.up && n.isLeader then [keys (cfg.ownUrl :: n.replicas)] else []

def Near (V W : Finset Url) : Prop := (V \ W).card + (W \ V).card ≤ 1

instance (V W : Finset Url) : Decidable (Near V W) := inferInstanceAs (Decidable (_ ≤ _))

/-- The nodes by which node `i` would stand are near all that others stand or commit by. -/
def NearAll (g : ι → NodeConfig) (w : ι → Node) (i : ι) (V : Finset Url) : Prop :=
  ∀ j, j ≠ i → ∀ W ∈ electors (g j) (w j) ++ committers (g j) (w j), Near V W

/-- The nodes by which node `i` would commit are near all that others stand by. -/
def NearElectors (g : ι → NodeConfig) (w : ι → Node) (i : ι) (V : Finset Url) : Prop :=
  ∀ j, j ≠ i → ∀ W ∈ electors (g j) (w j), Near W V

/-- A node that boots, adopts a view or stands down changes the nodes it counts by one node at most
against those that any other node counts. -/
def Gradual (g : ι → NodeConfig) (w : ι → Node) : ι × Op → Prop
  | (i, .boot _ _) => ∀ v ∈ loadClusterView (g i) (w i).stored,
      if leadsAtBoot (g i) (w i).hasMeta then NearElectors g w i
        (keys ((g i).ownUrl :: (g i).replicas))
      else inQuorum (g i) v = true → NearAll g w i (deciding (g i) v)
  | (i, .offer incoming _) => adopts (w i).view incoming = true → (w i).isLeader = false →
      inQuorum (g i) incoming = true → NearAll g w i (deciding (g i) incoming)
  | (i, .stepDown) => (w i).up = true → (w i).isLeader = true → inQuorum (g i) (w i).view = true →
      NearAll g w i (deciding (g i) (w i).view)
  | (_, .crash) | (_, .stand) | (_, .giveUp) | (_, .promote) => True

end Gradual

end DewDB.ViewQuorums
