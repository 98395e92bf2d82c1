import Mathlib.Data.Set.Insert
import Mathlib.Data.List.Infix
import Mathlib.Logic.Function.Basic

/-!
# Replicated logs under elected leaders

Nodes keep one log for each key of `κ` and share one term and one vote over all of them. The log of
the leader of a term is kept for good, so a replica that takes entries in term `t` takes a prefix of
`leaderLog t`. Records of what a node held, of candidacies, of votes and of commits are never
forgotten. Nothing is said here about messages: a step of a protocol is one or more of these steps.
-/
namespace DewDB.LogReplication

/-- Log entries carry the term they were made in and a position. -/
class Stamped (E : Type*) where
  term : E → ℕ
  pos : E → ℕ

open Stamped

structure Snapshot (V κ E : Type*) where
  node : V
  term : ℕ
  logs : κ → List E

/-- A node stands in `term` on logs that it sampled before. -/
structure Candidacy (V κ E : Type*) where
  node : V
  term : ℕ
  sample : Snapshot V κ E

/-- A vote with the voter's logs at that moment; `early` when the term had no leader yet. -/
structure Ballot (V κ E : Type*) where
  voter : V
  term : ℕ
  candidate : V
  logs : κ → List E
  early : Prop

/-- A prefix of the leader's log of `term` that a quorum held in that term. -/
structure Commit (κ E : Type*) where
  term : ℕ
  key : κ
  entries : List E

structure State (V κ E : Type*) where
  term : V → ℕ
  log : V → κ → List E
  leader : ℕ → Option V
  leaderLog : ℕ → κ → List E
  held : Set (Snapshot V κ E)
  candidacies : Set (Candidacy V κ E)
  votes : Set (Ballot V κ E)
  commits : Set (Commit κ E)

variable {V κ E : Type*} [Stamped E]

def WellFormed (lg : List E) : Prop := lg.Pairwise fun a b => pos a < pos b ∧ term a ≤ term b

/-- The freshness test of a vote: the last entry of `b` is no older than that of `a`. -/
def TailLe (a b : List E) : Prop :=
  ∀ x ∈ a.getLast?, ∃ y ∈ b.getLast?, term x < term y ∨ (term x = term y ∧ pos x ≤ pos y)

namespace State

variable (s : State V κ E)

/-- The nodes that voted for `c` in term `t`, itself included. -/
def supporters (c : V) (t : ℕ) : Set V :=
  {v | v = c ∨ ∃ b ∈ s.votes, b.voter = v ∧ b.term = t ∧ b.candidate = c}

/-- The nodes known to have held `p` in term `t`. -/
def holders (t : ℕ) (k : κ) (p : List E) : Set V :=
  {v | ∃ h ∈ s.held, h.node = v ∧ h.term = t ∧ p <+: h.logs k}

def snapshot (v : V) : Snapshot V κ E := ⟨v, s.term v, s.log v⟩

variable [DecidableEq V] [DecidableEq κ]

def raise (v : V) (t : ℕ) : State V κ E := { s with term := Function.update s.term v t }

def hold (v : V) : State V κ E := { s with held := insert (s.snapshot v) s.held }

def stand (v : V) (t : ℕ) (sample : Snapshot V κ E) : State V κ E :=
  { s with
    term := Function.update s.term v t
    candidacies := insert ⟨v, t, sample⟩ s.candidacies }

def vote (v : V) (t : ℕ) (c : V) : State V κ E :=
  { s with
    term := Function.update s.term v t
    votes := insert ⟨v, t, c, s.log v, s.leader t = none⟩ s.votes }

def win (c : V) : State V κ E :=
  { s with
    leader := Function.update s.leader (s.term c) (some c)
    leaderLog := Function.update s.leaderLog (s.term c) (s.log c) }

def setLog (v : V) (k : κ) (lg : List E) : V → κ → List E :=
  Function.update s.log v (Function.update (s.log v) k lg)

def append (v : V) (k : κ) (e : E) : State V κ E :=
  { s with
    log := s.setLog v k (s.log v k ++ [e])
    leaderLog := Function.update s.leaderLog (s.term v)
      (Function.update (s.leaderLog (s.term v)) k (s.leaderLog (s.term v) k ++ [e])) }

def receive (v : V) (t : ℕ) (k : κ) (lg : List E) : State V κ E :=
  { s with term := Function.update s.term v t, log := s.setLog v k lg }

def commit (c : Commit κ E) : State V κ E := { s with commits := insert c s.commits }

end State

inductive Step [DecidableEq V] [DecidableEq κ] (Quorum : Set V → Prop) (s : State V κ E) :
    State V κ E → Prop where
  | raise (v : V) (t : ℕ) (h : s.term v ≤ t) : Step Quorum s (s.raise v t)
  | hold (v : V) : Step Quorum s (s.hold v)
  | stand (v : V) (t : ℕ) (sample : Snapshot V κ E) (hlt : s.term v < t) (hheld : sample ∈ s.held)
      (hnode : sample.node = v) : Step Quorum s (s.stand v t sample)
  | vote (v : V) (t : ℕ) (c : V) (cd : Candidacy V κ E) (hle : s.term v ≤ t)
      (hcd : cd ∈ s.candidacies) (hc : cd.node = c) (ht : cd.term = t)
      (honce : ∀ b ∈ s.votes, b.voter = v → b.term = t → b.candidate = c)
      (hstood : ∀ d ∈ s.candidacies, d.node = v → d.term = t → c = v)
      (hfresh : ∀ k, TailLe (s.log v k) (cd.sample.logs k)) : Step Quorum s (s.vote v t c)
  | win (c : V) (cd : Candidacy V κ E) (hcd : cd ∈ s.candidacies) (hc : cd.node = c)
      (ht : cd.term = s.term c) (hnone : s.leader (s.term c) = none)
      (hquorum : Quorum (s.supporters c (s.term c))) : Step Quorum s (s.win c)
  | append (v : V) (k : κ) (e : E) (hlead : s.leader (s.term v) = some v)
      (hterm : term e = s.term v) (hpos : ∀ x ∈ s.log v k, pos x < pos e) :
      Step Quorum s (s.append v k e)
  | receive (v : V) (t : ℕ) (k : κ) (lg : List E) (hle : s.term v ≤ t)
      (hlead : (s.leader t).isSome) (hpfx : lg <+: s.leaderLog t k)
      (hkeep : ∀ p, p <+: s.log v k → p <+: s.leaderLog t k → p <+: lg) :
      Step Quorum s (s.receive v t k lg)
  | commit (c : Commit κ E) (hpfx : c.entries <+: s.leaderLog c.term c.key)
      (hterm : ∃ e ∈ c.entries.getLast?, term e = c.term)
      (hquorum : Quorum (s.holders c.term c.key c.entries)) : Step Quorum s (s.commit c)

structure Initial (s : State V κ E) : Prop where
  term : ∀ v, s.term v = 0
  log : ∀ v k, s.log v k = []
  leader : ∀ t, 0 < t → s.leader t = none
  leaderLog : ∀ t k, s.leaderLog t k = []
  held : s.held = ∅
  candidacies : s.candidacies = ∅
  votes : s.votes = ∅
  commits : s.commits = ∅

end DewDB.LogReplication
