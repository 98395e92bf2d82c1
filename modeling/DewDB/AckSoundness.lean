import DewDB.StreamingInv

/-!
# Acknowledgement soundness

In orderly runs, what a leader counts for a replica is a position of the leader's own log, and the
replica's log agrees with the leader's through it for as long as the replica stays in that term. A
newer leader may truncate the replica while the older one still counts it.
-/
namespace DewDB.AckSoundness

open TransitionSystem Endpoint Vote CollectionLog ReplicaNode Replication
  ReplicationSim StreamingInv
open Streaming hiding State step
open LogReplication hiding Initial State Step

variable {ι β : Type} {g : Cluster ι} {a : Machine ι β} {w : World ι β}

/-- A prefix that a node held in a term, and that the term's leader has, is one it still has while
it is in that term. -/
theorem held_isPrefix (hsim : Sim g a w) {h : Snapshot ι CollectionName (Frame β)} (hh : h ∈ a.held)
    (hterm : (w.nodes h.node).term = h.term) {c : CollectionName} {p : List (Frame β)}
    (hp : p <+: h.logs c) (hpl : p <+: a.leaderLog h.term c) :
    p <+: ((w.nodes h.node).cols c).frames := by
  have hk := hsim.nodes h.node
  rw [← hk.log c]
  refine (hsim.inv.held h hh).retained c p hp fun u hle hlt _ => ?_
  obtain rfl : u = h.term := by rw [hk.term, hterm] at hlt; omega
  exact hpl

/-- In every orderly run a leader counts a replica through a position of its own log, and while the
replica is in the leader's term their logs have the same frames through that position. -/
theorem matched_agrees [DecidableEq ι] [DecidableEq β] (g : Cluster ι) {s : Streaming.State ι β}
    {tasks : List (Task ι β)}
    (hrun : run (Streaming.step g) (Streaming.initial g) tasks = some s)
    (hok : Meets (Streaming.step g) (Orderly g) (Streaming.initial g) tasks) {i : ι}
    (hl : (s.world.nodes i).isLeader = true) (peer : Url) (c : CollectionName) :
    (s.world.nodes i).progress.matched peer c ≤ ((s.world.nodes i).cols c).lastAppendedLsn ∧
    ∀ v, sameEndpoint peer (g.url v) = true →
      (s.world.nodes v).term = (s.world.nodes i).term →
      ∀ f, f.lsn ≤ (s.world.nodes i).progress.matched peer c →
        (f ∈ ((s.world.nodes v).cols c).frames ↔ f ∈ ((s.world.nodes i).cols c).frames) := by
  obtain ⟨a, hstream⟩ := streamSim_run hrun hok
  have hsim := hstream.sim
  have hwf : ∀ j, WellFormed ((s.world.nodes j).cols c).frames := fun j =>
    (hsim.nodes j).log c ▸ (hsim.inv.logOk j c).wellFormed
  rcases Nat.eq_zero_or_pos ((s.world.nodes i).progress.matched peer c) with h0 | hpos
  · rw [h0]
    refine ⟨Nat.zero_le _, fun v _ _ f hf => ⟨fun hv => ?_, fun hi => ?_⟩⟩
    · have := ((hsim.nodes v).colOk c).chained.lsn_pos hv
      omega
    · have := ((hsim.nodes i).colOk c).chained.lsn_pos hi
      omega
  · obtain ⟨v', hv', h, hh, rfl, hterm, q, f, hq, hql, hf⟩ :=
      ((hsim.nodes i).progress hl).matched peer c hpos
    have hown : q ++ [f] <+: ((s.world.nodes i).cols c).frames := hsim.leaderLog_eq hl c ▸ hql
    refine ⟨?_, fun v hv ht e he => ?_⟩
    · rw [← hf]
      exact FrameAppend.lsn_le_last (hwf i) ((hsim.nodes i).colOk c) (hown.subset (by simp))
    · obtain rfl : v = h.node := by
        apply g.url_injective
        rw [sameEndpoint_iff] at *
        rw [← hv, hv']
      have hheld := held_isPrefix hsim hh (ht.trans hterm.symm) hq (hterm ▸ hql)
      exact Shared.mem_iff (hwf _) (hwf _) ⟨q, f, hheld, hown, hf⟩ he

/-- Node `a` appends a frame, and `b` acknowledges it. -/
def acknowledged : List (Task (Fin 5) ℕ) :=
  writeTo 0 7 [['b']] ++ [Task.sendBatch 0 1, .deliver 1 0 1, .reply 0 0 1]

/-- Nodes `b` and `c` acknowledge a frame of `a`. Then `c` wins term 1 with `d` and `e` and appends
a second one; it streams both to `e`, a batch each, the second one to `b`, and confirms `b`'s tail,
which answers a duplicate. -/
def resumed : List (Task (Fin 5) ℕ) :=
  writeTo 0 7 [['b'], ['c']] ++ [Task.sendBatch 0 1, .deliver 2 0 1, .reply 0 0 1, .sendBatch 0 1,
    .deliver 1 0 1,
    .reply 0 0 1] ++ electedBy 2 3 4 ++ writeTo 2 8 [] ++ [Task.readStream 2 ['e'] ['k'] 0 none,
      .sampleTerm 0,
    .sendBatch 0 1, .deliver 4 0 1, .reply 0 0 1, .sendBatch 0 1, .deliver 4 0 1, .reply 0 0 1,
    .readStream 2 ['b'] ['k'] 1 (some 0), .sampleTerm 0, .sendBatch 0 1,
    .deliver 1 0 1, .reply 0 0 1,
    .readTail 2 ['b'] ['k'], .sampleTerm 0, .sendBatch 0 1, .deliver 1 0 1, .reply 0 0 1]

theorem matched_agrees_one :
    ∃ s, run (Streaming.step fiveMembers) (Streaming.initial fiveMembers) resumed = some s ∧
      (s.world.nodes 2).progress.matched ['b'] ['k'] = 2 ∧
      ∀ f : Frame ℕ, f.lsn ≤ 2 → (f ∈ ((s.world.nodes 1).cols ['k']).frames ↔
        f ∈ ((s.world.nodes 2).cols ['k']).frames) := by
  have hout : (run (Streaming.step fiveMembers) (Streaming.initial fiveMembers) resumed).any
      (fun s => (s.world.nodes 2).isLeader &&
        decide ((s.world.nodes 2).progress.matched ['b'] ['k'] = 2)
        && decide ((s.world.nodes 1).term = (s.world.nodes 2).term)) = true := by
    decide
  obtain ⟨s, hrun, hs⟩ := (Option.any_eq_true _ _).mp hout
  simp only [Bool.and_eq_true, decide_eq_true_eq] at hs
  obtain ⟨⟨hl, hm⟩, ht⟩ := hs
  have := (matched_agrees fiveMembers hrun (by decide) hl ['b'] ['k']).2 1 (by decide) ht
  rw [hm] at this
  exact ⟨s, hrun, hm, this⟩

/-- After that acknowledgement `c` wins term 1 with `d` and `e`, and its first frame replaces the
one that `b` acknowledged. -/
def acknowledgedThenTruncated : List (Task (Fin 5) ℕ) :=
  acknowledged ++ electedBy 2 3 4 ++ writeTo 2 9 [['b']] ++ [Task.sendBatch 0 1, .deliver 1 0 1]

/-- Node `b` has a second frame of `a` when `c`, which has the first one only, wins term 1 and
streams that one to it. -/
def longerTail : List (Task (Fin 5) ℕ) :=
  writeTo 0 7 [['b'], ['c']] ++ [Task.sendBatch 0 1, .deliver 2 0 1, .sendBatch 1 1,
    .deliver 1 0 1] ++
    writeTo 0 8 [['b']] ++ [Task.sendBatch 0 1, .deliver 1 0 2] ++ electedBy 2 3 4 ++
    [Task.readStream 2 ['b'] ['k'] 0 none, .sampleTerm 0, .sendBatch 0 1,
      .deliver 1 0 2, .reply 0 0 1]

/-- An orderly run leaves a leader of term 0 counting a frame that its replica no longer has, and a
duplicate's tail is counted past the leader's own log. -/
theorem matched_disagrees :
    (∃ s, run (Streaming.step fiveMembers) (Streaming.initial fiveMembers)
      acknowledgedThenTruncated =
        some s ∧
      Meets (Streaming.step fiveMembers) (Orderly fiveMembers) (Streaming.initial fiveMembers)
        acknowledgedThenTruncated ∧
      (s.world.nodes 0).isLeader = true ∧ (s.world.nodes 0).progress.matched ['b'] ['k'] = 1 ∧
      ((s.world.nodes 0).cols ['k']).frames = [⟨0, 1, 0, 0, 7⟩] ∧
      ((s.world.nodes 1).cols ['k']).frames = [⟨1, 1, 0, 0, 9⟩]) ∧
    ∃ s, run (Streaming.step fiveMembers) (Streaming.initial fiveMembers) longerTail = some s ∧
      (s.world.nodes 2).isLeader = true ∧ (s.world.nodes 2).progress.matched ['b'] ['k'] = 2 ∧
      ((s.world.nodes 2).cols ['k']).lastAppendedLsn = 1 := by
  constructor
  · have hout : (run (Streaming.step fiveMembers) (Streaming.initial fiveMembers)
        acknowledgedThenTruncated).any (fun s => (s.world.nodes 0).isLeader &&
          decide ((s.world.nodes 0).progress.matched ['b'] ['k'] = 1) &&
          decide (((s.world.nodes 0).cols ['k']).frames = [⟨0, 1, 0, 0, 7⟩]) &&
          decide (((s.world.nodes 1).cols ['k']).frames = [⟨1, 1, 0, 0, 9⟩])) = true := by
      decide
    obtain ⟨s, hrun, hs⟩ := (Option.any_eq_true _ _).mp hout
    simp only [Bool.and_eq_true, decide_eq_true_eq] at hs
    obtain ⟨⟨⟨hl, hm⟩, h0⟩, h1⟩ := hs
    exact ⟨s, hrun, by decide, hl, hm, h0, h1⟩
  · have hout : (run (Streaming.step fiveMembers) (Streaming.initial fiveMembers) longerTail).any
        (fun s => (s.world.nodes 2).isLeader &&
          decide ((s.world.nodes 2).progress.matched ['b'] ['k'] = 2) &&
          decide (((s.world.nodes 2).cols ['k']).lastAppendedLsn = 1)) = true := by
      decide
    obtain ⟨s, hrun, hs⟩ := (Option.any_eq_true _ _).mp hout
    simp only [Bool.and_eq_true, decide_eq_true_eq] at hs
    exact ⟨s, hrun, hs.1.1, hs.1.2, hs.2⟩

/-- The reply of `b` to a request of term 0 reaches `a` when `a` leads term 2 and `b` has the frame
of term 1. -/
def olderAck : List (Task (Fin 5) ℕ) :=
  acknowledged.dropLast ++ electedBy 2 3 4 ++ writeTo 2 9 [['b']] ++
    [Task.sendBatch 0 1, .deliver 1 0 1, .base (.demote 0 1)] ++ electedBy 0 3 4 ++
    [Task.reply 1 1 1, .base (.adopt 1 2)]

/-- An acknowledgement of an older term is counted for a frame that the replica has lost by then. -/
theorem older_ack_counted :
    ∃ s, run (Streaming.step fiveMembers) (Streaming.initial fiveMembers) olderAck = some s ∧
      (s.world.nodes 0).isLeader = true ∧ (s.world.nodes 1).term = (s.world.nodes 0).term ∧
      (s.world.nodes 0).progress.matched ['b'] ['k'] = 1 ∧
      ((s.world.nodes 0).cols ['k']).frames = [⟨0, 1, 0, 0, 7⟩] ∧
      ((s.world.nodes 1).cols ['k']).frames = [⟨1, 1, 0, 0, 9⟩] := by
  have hout : (run (Streaming.step fiveMembers) (Streaming.initial fiveMembers) olderAck).any
      (fun s => (s.world.nodes 0).isLeader &&
        decide ((s.world.nodes 1).term = (s.world.nodes 0).term) &&
        decide ((s.world.nodes 0).progress.matched ['b'] ['k'] = 1) &&
        decide (((s.world.nodes 0).cols ['k']).frames = [⟨0, 1, 0, 0, 7⟩]) &&
        decide (((s.world.nodes 1).cols ['k']).frames = [⟨1, 1, 0, 0, 9⟩])) = true := by
    decide
  obtain ⟨s, hrun, hs⟩ := (Option.any_eq_true _ _).mp hout
  simp only [Bool.and_eq_true, decide_eq_true_eq] at hs
  exact ⟨s, hrun, hs.1.1.1.1, hs.1.1.1.2, hs.1.1.2, hs.1.2, hs.2⟩

/-- Node `a` reads its frame of term 0 for `b`, takes `c`'s frame of term 1 in its place, wins term
2 and sends what it has read under that term. -/
def staleFrames : List (Task (Fin 5) ℕ) :=
  writeTo 0 7 [] ++ [Task.readStream 0 ['b'] ['k'] 0 none] ++ electedBy 2 3 4 ++
    writeTo 2 9 [['a']] ++ [Task.sendBatch 0 1, .deliver 0 0 1] ++ electedBy 0 3 4 ++
    [Task.sampleTerm 1, .sendBatch 1 1, .deliver 1 0 1, .reply 1 0 1]

/-- Frames read under an older term and sent under a new one are counted as the leader's. -/
theorem stale_frames_counted :
    ∃ s, run (Streaming.step fiveMembers) (Streaming.initial fiveMembers) staleFrames = some s ∧
      (s.world.nodes 0).isLeader = true ∧ (s.world.nodes 1).term = (s.world.nodes 0).term ∧
      (s.world.nodes 0).progress.matched ['b'] ['k'] = 1 ∧
      ((s.world.nodes 0).cols ['k']).frames = [⟨1, 1, 0, 0, 9⟩] ∧
      ((s.world.nodes 1).cols ['k']).frames = [⟨0, 1, 0, 0, 7⟩] := by
  have hout : (run (Streaming.step fiveMembers) (Streaming.initial fiveMembers) staleFrames).any
      (fun s => (s.world.nodes 0).isLeader &&
        decide ((s.world.nodes 1).term = (s.world.nodes 0).term) &&
        decide ((s.world.nodes 0).progress.matched ['b'] ['k'] = 1) &&
        decide (((s.world.nodes 0).cols ['k']).frames = [⟨1, 1, 0, 0, 9⟩]) &&
        decide (((s.world.nodes 1).cols ['k']).frames = [⟨0, 1, 0, 0, 7⟩])) = true := by
    decide
  obtain ⟨s, hrun, hs⟩ := (Option.any_eq_true _ _).mp hout
  simp only [Bool.and_eq_true, decide_eq_true_eq] at hs
  exact ⟨s, hrun, hs.1.1.1.1, hs.1.1.1.2, hs.1.1.2, hs.1.2, hs.2⟩

end DewDB.AckSoundness
