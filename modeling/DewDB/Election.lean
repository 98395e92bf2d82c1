import Mathlib.Data.Fin.VecNotation
import DewDB.TransitionSystem
import DewDB.Vote

/-!
# Elections over a group of nodes

Each node has its metadata files and, while it runs, the replication state in memory. The steps are
those of the handlers: a step ends where the code releases the replication lock or starts another
access to disk. A save decided under the lock but made after it is a task of its own, which a crash
forgets. Requests and replies may arrive late, repeatedly or never.
-/
namespace DewDB.Election

open Endpoint QuorumConfig ReplicationMeta Vote

structure NodeGroup (ι : Type) where
  nodeId : ι → NodeId
  url : ι → Url
  config : Configuration
  runsAsPrimary : ι → Bool
  soloPrimary : ι → Bool
  nodeId_injective : Function.Injective nodeId
  url_injective : ∀ i j, sameEndpoint (url i) (url j) = true → i = j

/-- `run_election`, which holds the campaign lock: before and after the self-vote. -/
inductive Campaign where
  | preparing
  | standing (term : ℕ) (granted : List Url)
  deriving DecidableEq

/-- What a handler still has to do after it released the replication lock. -/
inductive Task where
  /-- `replicate_handler` has passed its term check for a request of this term. -/
  | checked (term : ℕ)
  /-- A save; with `answering` it is the adoption save of `replicate_handler`. -/
  | persist (m : Meta) (answering : Bool)
  /-- `replicate_handler` appends the frames of a request of this term, then answers. -/
  | append (term : ℕ)
  /-- `step_down_without_quorum` between its two locks. -/
  | recordStepDown

structure Memory where
  term : ℕ
  isLeader : Bool
  votedFor : Option NodeId
  campaign : Option Campaign
  tasks : List Task

/-- `mem` is `none` while the node is down. -/
structure Node where
  disk : Disk
  mem : Option Memory

structure Grant (ι : Type) where
  voter : ι
  candidate : NodeId
  term : ℕ
  deriving DecidableEq

instance (priority := 2000) instLawfulBEqGrant {ι : Type} [DecidableEq ι] : LawfulBEq
    (Grant ι) := inferInstance

/-- The nodes, with the history of granted votes, won elections and `applied` answers. -/
structure World (ι : Type) where
  nodes : ι → Node
  granted : List (Grant ι)
  won : List (ι × ℕ)
  applied : List (ι × ℕ)

inductive Action (ι : Type) where
  | boot (fault : Option Fault)
  | crash
  | beginCampaign
  | stand (fault : Option Fault)
  | voteRequest (req : VoteRequest) (myLogs : List (CollectionName × LogTail)) (mySummary : LogTail)
      (mustWithhold : Bool) (fault : Option Fault)
  | voteReply (voter : ι) (peer : Url)
  | becomeLeader
  | giveUp
  | demote (newTerm : ℕ)
  | heartbeat (theirTerm : ℕ)
  | stepDown
  | replicate (term : ℕ)
  | task (k : ℕ) (fault : Option Fault)

structure Outcome where
  node : Node
  granted : Option (NodeId × ℕ)
  won : Option ℕ
  applied : Option ℕ

def Outcome.quiet (n : Node) : Outcome := ⟨n, none, none, none⟩

variable {ι : Type}

/-- The record a node boots with: a former leader rejoins as a follower unless solo. -/
def bootRecord (g : NodeGroup ι) (i : ι) : Option Meta → Meta
  | some m => ⟨m.term, g.soloPrimary i, m.votedFor⟩
  | none => ⟨0, g.runsAsPrimary i, none⟩

/-- An unreadable record keeps the node down; the save at boot is best effort. -/
def boot (g : NodeGroup ι) (i : ι) (n : Node) (fault : Option Fault) : Option Outcome :=
  match n.mem, load n.disk with
  | none, .ok record =>
    let m := bootRecord g i record
    some (.quiet ⟨(save m fault n.disk).1, some ⟨m.term, m.isLeader, m.votedFor, none, []⟩⟩)
  | _, _ => none

def beginCampaign (g : NodeGroup ι) (i : ι) (disk : Disk) (m : Memory) : Option Outcome :=
  if m.campaign = none ∧ m.isLeader = false ∧ g.config.contains (g.url i) then
    some (.quiet ⟨disk, some { m with campaign := some .preparing }⟩)
  else none

/-- The self-vote of `run_election`, saved before memory holds it. -/
def stand (g : NodeGroup ι) (i : ι) (disk : Disk) (m : Memory) (fault : Option Fault) :
    Option Outcome :=
  if m.campaign = some .preparing then
    let newTerm := m.term + 1
    let saved := save ⟨newTerm, false, some (g.nodeId i)⟩ fault disk
    if saved.2 then
      some ⟨⟨saved.1, some { m with
        term := newTerm, votedFor := some (g.nodeId i),
        campaign := some (.standing newTerm [g.url i]) }⟩, some (g.nodeId i, newTerm), none, none⟩
    else some (.quiet ⟨saved.1, some { m with campaign := none }⟩)
  else none

def voteHandler (g : NodeGroup ι) (i : ι) (disk : Disk) (m : Memory) (req : VoteRequest)
    (myLogs : List (CollectionName × LogTail)) (mySummary : LogTail) (mustWithhold : Bool)
    (fault : Option Fault) : Option Outcome :=
  if g.config.contains (g.url i) then
    let d := decideVote m.term m.votedFor myLogs mySummary (some g.config) req mustWithhold
    let standsDown := decide (m.term < d.term) && m.isLeader
    let saved :=
      if d.term ≠ m.term ∨ d.votedFor ≠ m.votedFor then
        save ⟨d.term, m.isLeader && !standsDown, d.votedFor⟩ fault disk
      else (disk, true)
    if saved.2 then
      some ⟨⟨saved.1, some { m with
        term := d.term, votedFor := d.votedFor, isLeader := m.isLeader && !standsDown }⟩,
        if d.granted then some (req.candidateId, d.term) else none, none, none⟩
    else some (.quiet ⟨saved.1, some m⟩)
  else none

/-- A granted reply reaches the candidate, which counts the peer it asked. -/
def voteReply [DecidableEq ι] (g : NodeGroup ι) (granted : List (Grant ι)) (i : ι) (disk : Disk)
    (m : Memory) (voter : ι) (peer : Url) : Option Outcome :=
  match m.campaign with
  | some (.standing term votes) =>
    if ⟨voter, g.nodeId i, term⟩ ∈ granted ∧ peer ∈ g.config.members ∧
        sameEndpoint peer (g.url voter) then
      some (.quiet ⟨disk, some { m with campaign := some (.standing term (votes ++ [peer])) }⟩)
    else none
  | _ => none

def becomeLeader (g : NodeGroup ι) (i : ι) (disk : Disk) (m : Memory) : Option Outcome :=
  match m.campaign with
  | some (.standing term votes) =>
    if g.config.hasQuorum votes then
      if g.config.contains (g.url i) ∧ m.term = term ∧ m.votedFor = some (g.nodeId i) then
        some ⟨⟨disk, some { m with
          isLeader := true, campaign := none,
          tasks := m.tasks ++ [.persist ⟨term, true, some (g.nodeId i)⟩ false] }⟩,
          none, some term, none⟩
      else some (.quiet ⟨disk, some { m with campaign := none }⟩)
    else none
  | _ => none

def giveUp (disk : Disk) (m : Memory) : Option Outcome :=
  if m.campaign = none then none
  else some (.quiet ⟨disk, some { m with campaign := none }⟩)

/-- `demote`: memory first, then the save. -/
def demote (disk : Disk) (m : Memory) (newTerm : ℕ) : Option Outcome :=
  if newTerm ≤ m.term then none
  else some (.quiet ⟨disk, some { m with
    term := newTerm, votedFor := none, isLeader := false,
    tasks := m.tasks ++ [.persist ⟨newTerm, false, none⟩ false] }⟩)

/-- A heartbeat answer that raises the term: memory first, then the save. -/
def heartbeat (disk : Disk) (m : Memory) (theirTerm : ℕ) : Option Outcome :=
  if m.term < theirTerm then
    some (.quiet ⟨disk, some { m with
      term := theirTerm, votedFor := none,
      tasks := m.tasks ++ [.persist ⟨theirTerm, false, none⟩ false] }⟩)
  else none

def stepDown (disk : Disk) (m : Memory) : Option Outcome :=
  if m.isLeader then
    some (.quiet ⟨disk, some { m with isLeader := false, tasks := m.tasks ++ [.recordStepDown] }⟩)
  else none

/-- The term check of `replicate_handler`. -/
def replicate (disk : Disk) (m : Memory) (term : ℕ) : Option Outcome :=
  if m.isLeader = false ∧ m.term ≤ term then
    some (.quiet ⟨disk, some { m with tasks := m.tasks ++ [.checked term] }⟩)
  else none

/-- One outstanding task runs; `rest` are the others. -/
def runTask (disk : Disk) (m : Memory) (t : Task) (rest : List Task) (fault : Option Fault) :
    Outcome :=
  match t with
  | .checked term =>
    if m.term < term then
      .quiet ⟨disk, some { m with
        term := term, votedFor := none, tasks := rest ++ [.persist ⟨term, false, none⟩ true] }⟩
    else .quiet ⟨disk, some { m with tasks := rest ++ [.append term] }⟩
  | .persist record answering =>
    .quiet ⟨(save record fault disk).1,
      some { m with tasks := if answering then rest ++ [.append record.term] else rest }⟩
  | .append term => ⟨⟨disk, some { m with tasks := rest }⟩, none, none, some term⟩
  | .recordStepDown =>
    .quiet ⟨disk, some { m with tasks := rest ++ [.persist ⟨m.term, false, m.votedFor⟩ false] }⟩

/-- What a node does with an action; `none` when the action cannot happen. -/
def act [DecidableEq ι] (g : NodeGroup ι) (granted : List (Grant ι)) (i : ι) (n : Node) :
    Action ι → Option Outcome
  | .boot fault => boot g i n fault
  | .crash => n.mem.map fun _ => .quiet ⟨n.disk, none⟩
  | .beginCampaign => n.mem.bind (beginCampaign g i n.disk)
  | .stand fault => n.mem.bind fun m => stand g i n.disk m fault
  | .voteRequest req myLogs mySummary mustWithhold fault =>
    n.mem.bind fun m => voteHandler g i n.disk m req myLogs mySummary mustWithhold fault
  | .voteReply voter peer => n.mem.bind fun m => voteReply g granted i n.disk m voter peer
  | .becomeLeader => n.mem.bind (becomeLeader g i n.disk)
  | .giveUp => n.mem.bind (giveUp n.disk)
  | .demote newTerm => n.mem.bind fun m => demote n.disk m newTerm
  | .heartbeat theirTerm => n.mem.bind fun m => heartbeat n.disk m theirTerm
  | .stepDown => n.mem.bind (stepDown n.disk)
  | .replicate term => n.mem.bind fun m => replicate n.disk m term
  | .task k fault => n.mem.bind fun m =>
      m.tasks[k]?.map fun t => runTask n.disk m t (m.tasks.eraseIdx k) fault

/-- Puts an outcome of node `i` into the world. -/
def World.record [DecidableEq ι] (w : World ι) (i : ι) (o : Outcome) : World ι where
  nodes := Function.update w.nodes i o.node
  granted := (o.granted.map fun (c, t) => ⟨i, c, t⟩).toList ++ w.granted
  won := (o.won.map fun t => (i, t)).toList ++ w.won
  applied := (o.applied.map fun t => (i, t)).toList ++ w.applied

def step [DecidableEq ι] (g : NodeGroup ι) (w : World ι) (label : ι × Action ι) :
    Option (World ι) :=
  (act g w.granted label.1 (w.nodes label.1) label.2).map (w.record label.1)

/-- Every node is down, with whatever its disk holds; nothing has been answered. -/
def Initial (w : World ι) : Prop :=
  (∀ i, (w.nodes i).mem = none) ∧ w.granted = [] ∧ w.won = [] ∧ w.applied = []

theorem step_eq_some [DecidableEq ι] {g : NodeGroup ι} {w w' : World ι} {label : ι × Action ι} :
    step g w label = some w' ↔
      ∃ o, act g w.granted label.1 (w.nodes label.1) label.2 = some o ∧
        w.record label.1 o = w' := by
  simp [step, Option.map_eq_some_iff]

/-- Three nodes `a`, `b` and `c`, each of its own name. -/
def threeNodes : NodeGroup (Fin 3) where
  nodeId := ![['a'], ['b'], ['c']]
  url := ![['a'], ['b'], ['c']]
  config := simple [['a'], ['b'], ['c']]
  runsAsPrimary := fun _ => false
  soloPrimary := fun _ => false
  nodeId_injective := by
    unfold Function.Injective
    decide
  url_injective := by decide

def freshWorld : World (Fin 3) := ⟨fun _ => ⟨⟨none, none⟩, none⟩, [], [], []⟩

end DewDB.Election
