import Mathlib.Data.Fintype.Basic
import DewDB.LeaseSteps

/-!
# Lease exclusivity

While a leader holds a read lease no election of a higher term has been won: a majority owes it
silence, and a vote quorum would contain one of them. An abandoned transfer breaks this, since its
vote requests pass the withholding test of voters whose promises the leader counts again.
-/
namespace DewDB.Lease

open Endpoint QuorumConfig ReplicationMeta Vote Election ElectionSafety TransitionSystem

variable {ι : Type} {g : LeaseGroup ι} {s : LeaseWorld ι}

/-- Whatever the wall clock reads, a leader that holds a read lease has no winner above its term. -/
def LeaseExclusive (g : LeaseGroup ι) (s : LeaseWorld ι) : Prop :=
  ∀ a, ∀ m ∈ (s.world.nodes a).mem, m.isLeader = true → ∀ wallNow,
    holdsReadLease g s a wallNow = true → ∀ b term, (b, term) ∈ s.world.won → term ≤ m.term

/-- A node that owes silence has not voted above the term of the leader that counts on it. -/
theorem LeaseInv.promised_silent (h : LeaseInv g s) {a v : ι} {m : Memory} {wallNow : ℕ} {url : Url}
    (hm : (s.world.nodes a).mem = some m) (hover : (s.lease a).handingOver = false)
    (hurl : url ∈ Lease.promised (s.lease a).leases (g.url a) s.now wallNow)
    (hv : sameEndpoint url (g.url v) = true) : Silent s v m.term := by
  unfold Lease.promised at hurl
  rcases List.mem_cons.mp hurl with rfl | hurl
  · obtain rfl : a = v := g.url_injective a v hv
    exact h.silent hm
  · obtain ⟨held, hheld, rfl⟩ := List.mem_map.mp hurl
    obtain ⟨hheld, hlive⟩ := List.mem_filter.mp hheld
    simp only [Promise.live, Bool.and_eq_true, decide_eq_true_eq] at hlive
    exact (h.promised a m hm held hheld hlive.1.1 v hv).2.resolve_right (by simp [hover])

theorem LeaseInv.exclusive (h : LeaseInv g s) : LeaseExclusive g s := by
  intro a m hm _ wallNow hlease b term hwon
  unfold holdsReadLease at hlease
  obtain ⟨hover, hheld⟩ : (s.lease a).handingOver = false ∧
      held (s.lease a).leases g.config (g.url a) s.now wallNow = true := by simpa using hlease
  obtain ⟨hmember, votes, hquorum, hback⟩ := h.base.elected b term hwon
  obtain ⟨u, -, hu, hu'⟩ := (hasQuorum_iff.mp hquorum).inter hmember (hasQuorum_iff.mp hheld)
  obtain ⟨x, hx, hxu⟩ := List.any_eq_true.mp hu
  obtain ⟨y, hy, hyu⟩ := List.any_eq_true.mp hu'
  obtain ⟨v, hxv, hv⟩ := hback x hx
  have hyv : sameEndpoint y (g.url v) = true := by
    rw [sameEndpoint_iff] at *
    rw [hyu, ← hxu, hxv]
  exact h.promised_silent hm hover hy hyv _ hv rfl

/-- In every run whose votes keep the promises, a leader with a read lease has no rival above it. -/
theorem lease_exclusive [DecidableEq ι] (g : LeaseGroup ι) {s₀ s : LeaseWorld ι}
    {labels : List (Label ι)} (h₀ : Initial s₀) (hrun : run (step g) s₀ labels = some s)
    (hkept : Meets (step g) (PromisesKept g) s₀ labels) : LeaseExclusive g s := by
  have hinv : LeaseInv g s :=
    run_invariant_of_meets (fun _ _ _ => step_inv) hrun hkept (initial_inv h₀)
  exact hinv.exclusive

section Decidable

variable [Fintype ι] [DecidableEq ι]

instance (g : LeaseGroup ι) (s : LeaseWorld ι) (a v : ι) (term : ℕ) :
    Decidable (CountsOn g s a v term) := inferInstanceAs (Decidable (_ ∨ _))

instance (g : LeaseGroup ι) (s : LeaseWorld ι) (v : ι) (term : ℕ) : Decidable
    (Released g s v term) :=
  inferInstanceAs (Decidable (∀ a, ∀ m ∈ (s.world.nodes a).mem, m.isLeader = true → m.term < term →
    CountsOn g s a v m.term → (s.lease a).handingOver = true))

instance (l : LeaseState) : Decidable (NoneOpen l) :=
  inferInstanceAs (Decidable (∀ r ∈ l.requests, r.mustWithhold = true ∨ r.bypassed = true))

instance (g : LeaseGroup ι) (s : LeaseWorld ι) (v : ι) (m : Memory) :
    ∀ op, Decidable (StepKeeps g s v m op)
  | .stand _ _ _ => inferInstanceAs (Decidable
      ((s.lease v).withholds (g.heartbeatTimeout v) s.now = true → Released g s v (m.term + 1)))
  | .decide k myLogs mySummary _ => inferInstanceAs (Decidable
      (∀ r ∈ (s.lease v).requests[k]?, r.bypassed = true →
        (s.lease v).withholds (g.heartbeatTimeout v) s.now = true →
        (decideVote m.term m.votedFor myLogs mySummary (some g.config) r.req
          r.mustWithhold).granted = true → Released g s v r.req.term))
  | .heartbeat askerTerm leaseMs => inferInstanceAs (Decidable
      ((heartbeatGrant (s.lease v) m.term (g.heartbeatTimeout v) s.now askerTerm leaseMs).1 ≠ 0 →
        NoneOpen (s.lease v)))
  | .answer asker k => inferInstanceAs (Decidable
      (∀ pr ∈ (s.lease asker).probes[k]?,
        (heartbeatGrant (s.lease v) m.term (g.heartbeatTimeout v) s.now pr.term
          (asMillis (window g asker))).1 ≠ 0 → NoneOpen (s.lease v)))
  | .endTransfer => inferInstanceAs (Decidable
      (m.isLeader = true → (s.lease v).handingOver = true → ∀ gr ∈ s.world.granted,
        gr.term ≤ m.term))
  | .boot _ | .crash | .follow _ _ | .pollAnswer _ _ | .replicate _ | .task _ _ | .resynced
  | .demote _ | .stepDown | .probe _ _ | .receive _ | .openTransfer _ | .tellTarget | .timeoutNow _
  | .runForced _ | .poll _ | .giveUp | .test _ | .voteReply _ _ | .becomeLeader => isTrue trivial

instance (g : LeaseGroup ι) (s : LeaseWorld ι) : ∀ label, Decidable (PromisesKept g s label)
  | .tick _ => isTrue trivial
  | .node v op => inferInstanceAs (Decidable (∀ m ∈ (s.world.nodes v).mem, StepKeeps g s v m op))

end Decidable

def threeVoters : LeaseGroup (Fin 3) where
  toNodeGroup := threeNodes
  heartbeatTimeout := fun _ => fromMillis 10000
  primaryAddr := fun _ => none

def freshGroup : LeaseWorld (Fin 3) := ⟨freshWorld, fun _ => .booted 0 none, 0, []⟩

/-- Node `a` is elected at term 1 and takes the promises of `b` and `c`. -/
def leaseTaken : List (Label (Fin 3)) :=
  [.node 0 (.boot none), .node 1 (.boot none), .node 2 (.boot none), .tick (fromMillis 60000),
    .node 0 (.poll 0), .node 0 (.stand [] ⟨0, 0⟩ none), .node 1 (.test 0),
    .node 1 (.decide 0 [] ⟨0, 0⟩ none), .node 0 (.voteReply 1 ['b']), .node 0 .becomeLeader,
    .node 1 (.follow ['a'] true), .node 2 (.follow ['a'] true),
    .node 0 (.probe ['b'] 0), .node 0 (.probe ['c'] 0), .node 1 (.answer 0 0),
    .node 2 (.answer 0 1), .node 0 (.receive 0), .node 0 (.receive 0)]

/-- Node `a` hands over to `b`, which wins term 2 and takes the promise of `c`. -/
def handedOver : List (Label (Fin 3)) :=
  [.node 0 (.openTransfer ['b']), .node 0 .tellTarget, .node 1 (.timeoutNow 1),
    .node 1 (.runForced 0),
    .node 1 (.stand [] ⟨0, 0⟩ none), .node 2 (.test 2), .node 2 (.decide 0 [] ⟨0, 0⟩ none),
    .node 1 (.voteReply 2 ['c']), .node 1 .becomeLeader, .node 0 (.test 2),
    .node 0 (.decide 0 [] ⟨0, 0⟩ none), .node 0 .endTransfer, .node 2 (.follow ['b'] true),
    .node 1 (.probe ['c'] 0), .node 2 (.answer 1 0), .node 1 (.receive 0)]

theorem lease_exclusive_handedOver :
    ∃ s, run (step threeVoters) freshGroup (leaseTaken ++ handedOver) = some s ∧
      holdsReadLease threeVoters s 1 0 = true ∧ ((1 : Fin 3), 2) ∈ s.world.won ∧
      LeaseExclusive threeVoters s := by
  have hends : (run (step threeVoters) freshGroup (leaseTaken ++ handedOver)).map
      (fun s => (holdsReadLease threeVoters s 1 0, s.world.won)) = some
        (true, [(1, 2), (0, 1)]) := by
    decide
  obtain ⟨s, hrun, hs⟩ := Option.map_eq_some_iff.mp hends
  obtain ⟨hlease, hwon⟩ := Prod.mk.inj hs
  have hkept : Meets (step threeVoters) (PromisesKept threeVoters) freshGroup
      (leaseTaken ++ handedOver) := by
    decide
  exact ⟨s, hrun, hlease, by simp [hwon],
    lease_exclusive threeVoters ⟨⟨fun _ => rfl, rfl, rfl, rfl⟩, rfl⟩ hrun hkept⟩

/-- The same transfer given up once `b` was told: `c` still grants on the name of `a`. -/
def abandoned : List (Label (Fin 3)) :=
  [.node 0 (.openTransfer ['b']), .node 0 .tellTarget, .node 1 (.timeoutNow 1),
    .node 0 .endTransfer,
    .node 1 (.runForced 0), .node 1 (.stand [] ⟨0, 0⟩ none), .node 2 (.test 2),
    .node 2 (.decide 0 [] ⟨0, 0⟩ none), .node 1 (.voteReply 2 ['c']), .node 1 .becomeLeader]

/-- Node `a` still holds its lease of term 1 when `b` has won term 2. -/
theorem lease_outlives_abandoned_transfer :
    ∃ s, run (step threeVoters) freshGroup (leaseTaken ++ abandoned) = some s ∧
      ¬ LeaseExclusive threeVoters s := by
  have hends : (run (step threeVoters) freshGroup (leaseTaken ++ abandoned)).map
      (fun s => ((s.world.nodes 0).mem.map fun m => (m.isLeader, m.term),
        holdsReadLease threeVoters s 0 0, s.world.won)) =
      some (some (true, 1), true, [(1, 2), (0, 1)]) := by
    decide
  obtain ⟨s, hrun, hs⟩ := Option.map_eq_some_iff.mp hends
  obtain ⟨hmem, hs⟩ := Prod.mk.inj hs
  obtain ⟨hlease, hwon⟩ := Prod.mk.inj hs
  obtain ⟨m, hm, hlead⟩ := Option.map_eq_some_iff.mp hmem
  obtain ⟨hlead, hterm⟩ := Prod.mk.inj hlead
  refine ⟨s, hrun, fun hexclusive => ?_⟩
  have hle := hexclusive 0 m hm hlead 0 hlease 1 2 (by simp [hwon])
  omega

end DewDB.Lease
