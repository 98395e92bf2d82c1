import DewDB.QuorumKeys
import DewDB.TransitionSystem

/-!
# Membership changes

`change_membership` and `resume_change` over the config logs of a group. A change is two entries,
the joint configuration and then the target. The check of the leadership, the append after it, and
the refresh that puts an entry in force are steps of their own: the append looks at no term any
more.
-/
namespace DewDB.Reconfigure

open Endpoint Majority QuorumConfig

structure ConfigEntry where
  term : ℕ
  config : Configuration
  deriving DecidableEq

abbrev ConfigLog := List ConfigEntry

/-- A shard group with the voters its nodes count before the first configuration entry. -/
structure ShardGroup (ι : Type) where
  url : ι → Url
  voters : List Url
  voters_ne : voters ≠ []

inductive Stage where
  | joining (joint target : Configuration)
  | awaiting (joint target : Configuration) (len : ℕ)
  | leaving (target : Configuration)
  | settled

def Stage.entry : Stage → Option Configuration
  | .joining joint _ => some joint
  | .leaving target => some target
  | _ => none

/-- `appending` once the leadership has been checked and the append is under way. -/
structure Change where
  term : ℕ
  stage : Stage
  appending : Bool

/-- `committed` counts the entries the node knows to be committed; `installed` is the log whose
newest entry `install_configuration` last put in force. -/
structure ConfigNode where
  term : ℕ
  isLeader : Bool
  log : ConfigLog
  committed : ℕ
  installed : ConfigLog
  change : Option Change

/-- The nodes, with every log a node has held and every prefix a leader has committed. -/
structure World (ι : Type) where
  nodes : ι → ConfigNode
  logs : List ConfigLog
  committed : List ConfigLog

inductive Op (ι : Type) where
  | lead (term : ℕ)
  | depose (term : ℕ)
  | restart
  | propose (next : List Url)
  | check
  | append
  | refresh
  | advance
  | endChange
  | receive (k len : ℕ)
  | commit (len : ℕ) (holders : List ι)
  | learn (len : ℕ)

variable {ι : Type}

/-- The newest configuration of a log, the voters of the group before there is one. -/
def configOf (g : ShardGroup ι) (log : ConfigLog) : Configuration :=
  match log.getLast? with
  | some e => e.config
  | none => simple g.voters

def quorumConfig (g : ShardGroup ι) (n : ConfigNode) : Configuration := configOf g n.installed

def latestConfig (n : ConfigNode) : Option Configuration := n.log.getLast?.map ConfigEntry.config

def committedConfig (n : ConfigNode) : Option Configuration :=
  (n.log.take n.committed).getLast?.map ConfigEntry.config

/-- The newest configuration when it is not the committed one; the two are compared by value. -/
def pendingChange (n : ConfigNode) : Option Configuration :=
  match latestConfig n with
  | some latest => if committedConfig n = some latest then none else some latest
  | none => none

def refreshed (n : ConfigNode) : ConfigNode :=
  if n.log = [] then n else { n with installed := n.log }

/-- Whether `next` is the change already in flight. -/
def resumes (current : Configuration) (next : List Url) : Bool :=
  current.outgoing.isSome && decide (current.voters.length = next.length) &&
    next.all fun v => current.voters.any fun w => sameEndpoint w v

def requireLeader (g : ShardGroup ι) (i : ι) (n : ConfigNode) (term : ℕ) : Prop :=
  n.isLeader = true ∧ n.term = term ∧ (quorumConfig g n).contains (g.url i) = true

instance (g : ShardGroup ι) (i : ι) (n : ConfigNode) (term : ℕ) :
    Decidable (requireLeader g i n term) := inferInstanceAs (Decidable (_ ∧ _ ∧ _))

/-- What `validate` asks of the voters; that a new one is a shard member is up to the view. -/
def validNext (current : Configuration) (next : List Url) : Prop :=
  next ≠ [] ∧ (next.map nodeKey).Nodup ∧ (current.outgoing.isSome = true →
    resumes current next = true)

instance (current : Configuration) (next : List Url) : Decidable (validNext current next) :=
  inferInstanceAs (Decidable (_ ∧ _ ∧ _))

/-- A simple configuration that already has the voters asked for. -/
def unchanged (current target : Configuration) : Bool :=
  current.outgoing.isNone && decide (target.voters.length = current.voters.length) &&
    target.voters.all current.contains

/-- `change_membership_locked` up to its first append; a resumed change goes straight to its target.
-/
def propose (g : ShardGroup ι) (i : ι) (n : ConfigNode) (next : List Url) : Option ConfigNode :=
  let current := quorumConfig g n
  let target := simple next
  if n.change = none ∧ requireLeader g i n n.term ∧ validNext current next ∧
      pendingChange n = none ∧ next.any (fun v => sameEndpoint v (g.url i)) = true ∧
      unchanged current target = false then
    some { n with
      change := some ⟨n.term,
        if resumes current target.voters then .leaving target
        else .joining (joint current.voters target.voters) target, false⟩ }
  else none

/-- The last thing that `append_and_commit` checks before its append. -/
def check (g : ShardGroup ι) (i : ι) (n : ConfigNode) : Option ConfigNode :=
  n.change.bind fun ch =>
    if ch.stage.entry.isSome ∧ requireLeader g i n ch.term then
      some { n with change := some { ch with appending := true } }
    else none

def appended (n : ConfigNode) (term : ℕ) (config : Configuration) (stage : Stage) : ConfigNode :=
  { n with
    log := n.log ++ [⟨term, config⟩]
    change := some ⟨term, stage, false⟩ }

/-- `configure` on a blocking thread: it appends in the term of the change, whatever has happened
since. -/
def append (n : ConfigNode) : Option ConfigNode :=
  match n.change with
  | some ⟨term, .joining joint target, true⟩ =>
    some (appended n term joint (.awaiting joint target (n.log.length + 1)))
  | some ⟨term, .leaving target, true⟩ => some (appended n term target .settled)
  | _ => none

def advance (g : ShardGroup ι) (i : ι) (n : ConfigNode) : Option ConfigNode :=
  match n.change with
  | some ⟨term, .awaiting _ target len, _⟩ =>
    if len ≤ n.committed ∧ requireLeader g i n term then
      some { n with change := some ⟨term, .leaving target, false⟩ }
    else none
  | _ => none

def endChange (n : ConfigNode) : Option ConfigNode :=
  if n.change.any Change.appending then none else some { n with change := none }

/-- A follower takes a run of entries that some node sent, above what it knows to be committed. -/
def receive (n : ConfigNode) (log : ConfigLog) : Option ConfigNode :=
  if n.isLeader = false ∧ n.log.take n.committed <+: log then some { n with log := log } else none

def restarted (n : ConfigNode) : ConfigNode :=
  { n with
    isLeader := false
    installed := n.log
    change := none }

def World.setNode [DecidableEq ι] (w : World ι) (i : ι) (n : ConfigNode) : World ι :=
  { w with
    nodes := Function.update w.nodes i n
    logs := n.log :: w.logs }

/-- A leader advances its commit index to what a quorum of the configuration in force holds. -/
def commit [DecidableEq ι] (g : ShardGroup ι) (w : World ι) (i : ι) (len : ℕ) (holders : List ι) :
    Option (World ι) :=
  let n := w.nodes i
  if n.isLeader = true ∧ n.committed < len ∧ len ≤ n.log.length ∧
      (quorumConfig g n).hasQuorum (holders.map g.url) = true ∧
      ∀ j ∈ holders, n.log.take len <+: (w.nodes j).log then
    some { w.setNode i { n with committed := len } with committed := n.log.take len :: w.committed }
  else none

/-- A follower learns from its leader how far its log is committed. -/
def learn [DecidableEq ι] (w : World ι) (i : ι) (len : ℕ) : Option (World ι) :=
  let n := w.nodes i
  if n.committed < len ∧ len ≤ n.log.length ∧ ∃ q ∈ w.committed, n.log.take len <+: q then
    some (w.setNode i { n with committed := len })
  else none

def step [DecidableEq ι] (g : ShardGroup ι) (w : World ι) (label : ι × Op ι) : Option (World ι) :=
  let i := label.1
  let n := w.nodes i
  match label.2 with
  | .lead term =>
    if n.term < term then
      some (w.setNode i { n with
        term := term
        isLeader := true })
    else none
  | .depose term =>
    if n.term ≤ term then
      some (w.setNode i { n with
        term := term
        isLeader := false })
    else none
  | .restart => some (w.setNode i (restarted n))
  | .propose next => (propose g i n next).map (w.setNode i)
  | .check => (check g i n).map (w.setNode i)
  | .append => (append n).map (w.setNode i)
  | .refresh => some (w.setNode i (refreshed n))
  | .advance => (advance g i n).map (w.setNode i)
  | .endChange => (endChange n).map (w.setNode i)
  | .receive k len => (w.logs[k]?).bind fun log => (receive n (log.take len)).map (w.setNode i)
  | .commit len holders => commit g w i len holders
  | .learn len => learn w i len

def Initial (w : World ι) : Prop :=
  (∀ i, (w.nodes i).log = [] ∧ (w.nodes i).installed = [] ∧ (w.nodes i).committed = 0 ∧
    (w.nodes i).change = none) ∧ w.logs = [] ∧ w.committed = []

end DewDB.Reconfigure
