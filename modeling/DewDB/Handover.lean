import DewDB.GroupLog
import DewDB.HandoverPlan
import DewDB.TransitionSystem

/-!
# A handover between two groups

The keys are those of one collection that the source group owns before the handover; `moves` are the
ones that the target ring gives to the destination group. A moved key has one source and one
destination, so other groups of the same plan only delay what happens here. Nodes adopt the views of
the plan one by one, leaders change on both sides, and every request and answer can be late, doubled
or lost.
-/
namespace DewDB.Handover

open GroupLog HandoverPlan

variable {K V : Type}

/-- What a node knows of the plan; `flipped` counts the rings after the target ring. -/
inductive View where
  | owner
  | copying
  | finalizing
  | flipped (later : Nat)
  deriving DecidableEq

namespace View

def rank : View → Nat
  | owner => 0
  | copying => 1
  | finalizing => 2
  | flipped n => 3 + n

def isOver : View → Bool
  | flipped _ => true
  | _ => false

def phase : View → Option MigrationPhase
  | copying => some .copy
  | finalizing => some .finalizing
  | _ => none

end View

inductive Side where
  | source
  | destination
  deriving DecidableEq

/-- `target` is the node of the destination group that the target ring names, the one that batches
and resets are sent to. -/
structure Layout (K : Type) where
  moves : K → Bool
  members : List Nat
  target : Nat

/-- Whether a node of that side, with that view, has the key for its own. -/
def owns (c : Layout K) (side : Side) (view : View) (k : K) : Bool :=
  match side with
  | .source => !(c.moves k && view.isOver)
  | .destination => c.moves k && view.isOver

/-- A client write is refused for a key that is elsewhere or moving. -/
def accepts (c : Layout K) (side : Side) (view : View) (k : K) : Bool :=
  owns c side view k && !(c.moves k && view = .finalizing)

/-- A client write past the ownership check. It holds the write gate until its handler ends, which a
lost connection can bring about before the append. -/
structure Write (K V : Type) where
  side : Side
  node : Nat
  key : K
  value : Option V
  gated : Bool
  appended : Bool

inductive Stage where
  | starting
  | gated
  | planned
  | resetting
  | copying
  | finished
  deriving DecidableEq

/-- One source node's task for one phase; `docs` were read and not yet sent, `waiting` is the batch
that is out. -/
structure Push (K V : Type) where
  node : Nat
  phase : MigrationPhase
  stage : Stage
  left : List K
  docs : List (K × V)
  waiting : Option Nat

structure MigrateBatch (K V : Type) where
  phase : MigrationPhase
  docs : List (K × V)

/-- The destination's appends of a batch, up to a position of the log of that epoch. -/
structure Written where
  batch : Nat
  epoch : Nat
  upTo : Nat
  met : Bool

/-- A reset under way; `waiting` is where the tombstone of the first key in `left` was appended. -/
structure Reset (K : Type) where
  left : List K
  waiting : Option (Nat × Nat)

/-- `frozen` is how far the node had applied that planned the first final pass, and `scanned` that a
reset has listed its keys; no step depends on either. -/
structure State (K V : Type) where
  src : ShardGroup K V View
  dst : ShardGroup K V View
  plan : View
  writes : List (Write K V)
  pushes : List (Push K V)
  batches : List (MigrateBatch K V)
  admitted : List Nat
  written : List Written
  resetSent : Bool
  reset : Option (Reset K)
  orphans : List K
  completed : Bool
  frozen : Option Nat
  scanned : Bool

def State.group (s : State K V) : Side → ShardGroup K V View
  | .source => s.src
  | .destination => s.dst

def State.setGroup (s : State K V) (side : Side) (g : ShardGroup K V View) : State K V :=
  match side with
  | .source => { s with src := g }
  | .destination => { s with dst := g }

inductive GroupAct (K V : Type) where
  | commit (c : Nat)
  | learn (n c : Nat)
  | elect (n keep : Nat) (tail : List (Entry K V))

inductive WriteAct (K V : Type) where
  | accept (side : Side) (n : Nat) (k : K) (v : Option V)
  | release (i : Nat)
  | append (i : Nat)

inductive PushAct (K : Type) where
  | begin (n : Nat) (phase : MigrationPhase)
  | gate (j : Nat)
  | plan (j : Nat) (keys : List K)
  | sendReset (j : Nat)
  | resetDone (j : Nat)
  | copy (j : Nat)
  | read (j m : Nat)
  | send (j m : Nat)
  | received (j i : Nat)
  | retry (j : Nat)
  | finish (j : Nat)

inductive BatchAct where
  | check (b : Nat)
  | append (i : Nat)
  | met (i : Nat)

inductive ResetAct (K : Type) where
  | scan (keys : List K)
  | tombstone
  | met
  | complete
  | drop
  | orphan (i : Nat)

inductive PlanAct where
  | finalize (j : Nat)
  | publish (j : Nat)
  | nextRing

inductive Label (K V : Type) where
  | group (side : Side) (a : GroupAct K V)
  | adopt (side : Side) (n : Nat) (v : View)
  | write (a : WriteAct K V)
  | push (a : PushAct K)
  | batch (a : BatchAct)
  | reset (a : ResetAct K)
  | plan (a : PlanAct)
  | cleanup (n : Nat) (k : K)

section Step

variable [DecidableEq K] [DecidableEq V] (c : Layout K)

def groupStep (g : ShardGroup K V View) : GroupAct K V → Option (ShardGroup K V View)
  | .commit u => g.commit u
  | .learn n u => g.learn n u
  | .elect n keep tail => g.elect n keep tail

/-- Views go forward, and no further than the plan that was published. -/
def adoptStep (plan : View) (g : ShardGroup K V View) (n : Nat) (v : View) : Option
    (ShardGroup K V View) :=
  if (g.view n).rank ≤ v.rank ∧ v.rank ≤ plan.rank then
    some { g with view := Function.update g.view n v }
  else none

def writeStep (s : State K V) : WriteAct K V → Option (State K V)
  | .accept side n k v =>
    if n ∈ (s.group side).led ∧ accepts c side ((s.group side).view n) k then
      some { s with writes := s.writes ++ [⟨side, n, k, v, true, false⟩] }
    else none
  | .release i =>
    s.writes[i]?.bind fun w => some { s with writes := s.writes.set i { w with gated := false } }
  | .append i =>
    s.writes[i]?.bind fun w =>
      if w.appended = false then
        some ({ s with writes := s.writes.set i { w with appended := true } }.setGroup w.side
          ((s.group w.side).appendAt w.node [⟨w.key, w.value, .client⟩]))
      else none

def movedKeys (g : ShardGroup K V View) (n : Nat) : List K :=
  (((g.log.take (g.applied n)).map Entry.key).dedup).filter fun k =>
    c.moves k && (g.read n k).isSome

/-- The documents of a chunk, as the pushing node has applied them. -/
def readDocs (g : ShardGroup K V View) (n : Nat) (keys : List K) : List (K × V) :=
  keys.filterMap fun k => (g.read n k).map fun v => (k, v)

/-- The state in which a push went on to `p`. -/
def State.setPush (s : State K V) (j : Nat) (p : Push K V) : State K V :=
  { s with pushes := s.pushes.set j p }

/-- `push_until_done`, with the loop of `push_all` inside. -/
def pushStep (s : State K V) : PushAct K → Option (State K V)
  | .begin n phase =>
    if n ∈ s.src.led ∧ (s.src.view n).phase = some phase then
      some { s with pushes := s.pushes ++ [⟨n, phase, .starting, [], [], none⟩] }
    else none
  | .gate j =>
    s.pushes[j]?.bind fun p =>
      if p.stage = .starting ∧ (s.src.view p.node).phase = some p.phase ∧
          (p.phase = .finalizing →
            ∀ w ∈ s.writes, w.side = .source → w.node = p.node → w.gated = false) then
        some (s.setPush j { p with stage := .gated })
      else none
  | .plan j keys =>
    s.pushes[j]?.bind fun p =>
      if p.stage = .gated ∧ (s.src.view p.node).phase = some p.phase ∧
          keys.Perm (movedKeys c s.src p.node) then
        some { s.setPush j ⟨p.node, p.phase, .planned, keys, [], none⟩ with
          frozen :=
            if p.phase = .finalizing then some (s.frozen.getD (s.src.applied p.node))
            else s.frozen }
      else none
  | .sendReset j =>
    s.pushes[j]?.bind fun p =>
      if p.stage = .planned ∧ p.phase = .finalizing then
        some { s.setPush j { p with stage := .resetting } with resetSent := true }
      else none
  | .resetDone j =>
    s.pushes[j]?.bind fun p =>
      if p.stage = .resetting ∧ s.completed then some (s.setPush j { p with stage := .copying })
      else none
  | .copy j =>
    s.pushes[j]?.bind fun p =>
      if p.stage = .planned ∧ p.phase = .copy then some (s.setPush j { p with stage := .copying })
      else none
  | .read j m =>
    s.pushes[j]?.bind fun p =>
      if p.stage = .copying ∧ p.docs = [] ∧ p.waiting = none then
        some (s.setPush j
          { p with left := p.left.drop m, docs := readDocs s.src p.node (p.left.take m) })
      else none
  | .send j m =>
    s.pushes[j]?.bind fun p =>
      if p.stage = .copying ∧ p.docs ≠ [] ∧ p.waiting = none then
        some { s.setPush j
          { p with docs := p.docs.drop (m + 1), waiting := some s.batches.length } with
          batches := s.batches ++ [⟨p.phase, p.docs.take (m + 1)⟩] }
      else none
  | .received j i =>
    s.pushes[j]?.bind fun p => s.written[i]?.bind fun w =>
      if p.stage = .copying ∧ p.waiting = some w.batch ∧ w.met then
        some (s.setPush j { p with waiting := none })
      else none
  | .retry j =>
    s.pushes[j]?.bind fun p =>
      if p.stage ≠ .finished then some (s.setPush j { p with stage := .starting })
      else none
  | .finish j =>
    s.pushes[j]?.bind fun p =>
      if p.stage = .copying ∧ p.left = [] ∧ p.docs = [] ∧ p.waiting = none ∧ p.node ∈ s.src.led then
        some (s.setPush j { p with stage := .finished })
      else none

/-- `migrate_handler`: the phase is checked once, before the append. -/
def batchStep (s : State K V) : BatchAct → Option (State K V)
  | .check b =>
    s.batches[b]?.bind fun batch =>
      if c.target ∈ s.dst.led ∧ (s.dst.view c.target).phase = some batch.phase then
        some { s with admitted := s.admitted ++ [b] }
      else none
  | .append i =>
    s.admitted[i]?.bind fun b => s.batches[b]?.bind fun batch =>
      let dst := s.dst.appendAt c.target (batch.docs.map fun d => ⟨d.1, some d.2, .handover⟩)
      some { s with
        dst := dst
        admitted := s.admitted.eraseIdx i
        written :=
          if c.target = s.dst.leader then s.written ++ [⟨b, s.dst.epoch, dst.log.length, false⟩]
          else s.written }
  | .met i =>
    s.written[i]?.bind fun w =>
      if w.epoch = s.dst.epoch ∧ w.upTo ≤ s.dst.committed then
        some { s with written := s.written.set i { w with met := true } }
      else none

/-- `migrate_reset_handler`: one reset at a time, and none after the first that completed. -/
def resetStep (s : State K V) : ResetAct K → Option (State K V)
  | .scan keys =>
    if s.resetSent ∧ s.reset.isNone ∧ s.completed = false ∧ c.target ∈ s.dst.led ∧
        (s.dst.view c.target).phase = some .finalizing ∧
        keys.Perm (movedKeys c s.dst c.target) then
      some { s with reset := some ⟨keys, none⟩, scanned := true }
    else none
  | .tombstone =>
    s.reset.bind fun r => r.left.head?.bind fun k =>
      if r.waiting = none then
        let dst := s.dst.appendAt c.target [⟨k, none, .handover⟩]
        some { s with
          dst := dst
          reset :=
            if c.target = s.dst.leader
              then some { r with waiting := some (s.dst.epoch, dst.log.length) }
            else none }
      else none
  | .met =>
    s.reset.bind fun r => r.waiting.bind fun w =>
      if w.1 = s.dst.epoch ∧ w.2 ≤ s.dst.committed then
        some { s with reset := some ⟨r.left.tail, none⟩ }
      else none
  | .complete =>
    s.reset.bind fun r =>
      if r.left = [] then some { s with reset := none, completed := true } else none
  | .drop =>
    s.reset.bind fun r => some { s with reset := none, orphans := s.orphans ++ r.left.head?.toList }
  | .orphan i =>
    s.orphans[i]?.bind fun k =>
      some { s with
        dst := s.dst.appendAt c.target [⟨k, none, .handover⟩]
        orphans := s.orphans.eraseIdx i }

/-- `coordinate`: a phase ends once the source reports it done. -/
def planStep (s : State K V) : PlanAct → Option (State K V)
  | .finalize j =>
    s.pushes[j]?.bind fun p =>
      if s.plan = .copying ∧ p.phase = .copy ∧ p.stage = .finished then
        some { s with plan := .finalizing }
      else none
  | .publish j =>
    s.pushes[j]?.bind fun p =>
      if s.plan = .finalizing ∧ p.phase = .finalizing ∧ p.stage = .finished then
        some { s with plan := .flipped 0 }
      else none
  | .nextRing =>
    match s.plan with
    | .flipped n => some { s with plan := .flipped (n + 1) }
    | _ => none

def step (s : State K V) : Label K V → Option (State K V)
  | .group side a => (groupStep (s.group side) a).map (s.setGroup side)
  | .adopt side n v => (adoptStep s.plan (s.group side) n v).map (s.setGroup side)
  | .write a => writeStep c s a
  | .push a => pushStep c s a
  | .batch a => batchStep c s a
  | .reset a => resetStep c s a
  | .plan a => planStep s a
  -- a source node that has adopted the flip deletes what it holds of the moved keys
  | .cleanup n k =>
    if n ∈ s.src.led ∧ (s.src.view n).isOver ∧ c.moves k then
      some { s with src := s.src.appendAt n [⟨k, none, .cleanup⟩] }
    else none

end Step

end DewDB.Handover
