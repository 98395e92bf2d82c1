import DewDB.AckSoundness

/-!
# Terms along a log

In orderly runs the terms of a log never fall, a node appends only under the term it leads, and a
leader's floor is a frame of its term. A voter's tail is then no older than any acknowledged entry
it still has, and it has every entry acknowledged in its present term.
-/
namespace DewDB.LogTerms

open TransitionSystem Endpoint Vote CollectionLog ReplicaNode Replication
  ReplicationSim StreamingInv
open Streaming hiding State step
open LogReplication hiding Initial State Step

variable {ι β : Type} {g : Cluster ι} {a : Machine ι β} {w : World ι β}

/-- The tail of a collection that a voter compares is no older than any of its frames. -/
theorem le_tail (hsim : Sim g a w) {i : ι} {c : CollectionName} {f : Frame β}
    (hf : f ∈ ((w.nodes i).cols c).frames) :
    LogTail.le ⟨f.term, f.lsn⟩
      ⟨((w.nodes i).cols c).lastAppendedTerm, ((w.nodes i).cols c).lastAppendedLsn⟩ = true := by
  have hk := hsim.nodes i
  have hwf : WellFormed ((w.nodes i).cols c).frames := hk.log c ▸ (hsim.inv.logOk i c).wellFormed
  rw [LogTail.le_iff, (hk.colOk c).term, (hk.colOk c).lsn]
  rcases List.eq_nil_or_concat' ((w.nodes i).cols c).frames with hnil | ⟨p, x, hp⟩
  · simp [hnil] at hf
  · rw [hp] at hf hwf ⊢
    have := hwf.le_last hf
    simp only [stamped_term, stamped_pos] at this
    simp only [termOf_concat, lsnOf_concat]
    omega

/-- In every orderly run log terms never fall, local appends are under the term the node leads,
floors are frames of the leader's term, and a replica has every entry it acknowledged in its present
term, each one it still has being no newer than the tail it compares. -/
theorem terms_never_fall [DecidableEq ι] [DecidableEq β] (g : Cluster ι) {s : Streaming.State ι β}
    {tasks : List (Task ι β)}
    (hrun : run (Streaming.step g) (Streaming.initial g) tasks = some s)
    (hok : Meets (Streaming.step g) (Orderly g) (Streaming.initial g) tasks) :
    (∀ i c, ((s.world.nodes i).cols c).frames.Pairwise fun f f' => f.term ≤ f'.term) ∧
    (∀ x ∈ s.appended, x.leading = some x.frame.term) ∧
    (∀ i, (s.world.nodes i).isLeader = true → ∀ c lsn,
      (s.world.nodes i).progress.termFloor c = some lsn →
      ∃ f ∈ ((s.world.nodes i).cols c).frames, f.term = (s.world.nodes i).term ∧ f.lsn = lsn) ∧
    ∀ rp ∈ s.replies, (appliedThrough rp.reply).isSome → ∀ f ∈ rp.request.frames,
      ((s.world.nodes rp.node).term = rp.request.term →
        f ∈ ((s.world.nodes rp.node).cols rp.request.collection).frames) ∧
      (f ∈ ((s.world.nodes rp.node).cols rp.request.collection).frames →
        LogTail.le ⟨f.term, f.lsn⟩
          ⟨((s.world.nodes rp.node).cols rp.request.collection).lastAppendedTerm,
            ((s.world.nodes rp.node).cols rp.request.collection).lastAppendedLsn⟩ = true) := by
  obtain ⟨a, hstream⟩ := streamSim_run hrun hok
  have hsim := hstream.sim
  refine ⟨fun i c => ?_, hstream.appended, fun i hl c lsn hfloor => ?_, fun rp hrp hsome f hf => ?_⟩
  · rw [← (hsim.nodes i).log c]
    exact (hsim.inv.logOk i c).wellFormed.imp fun h => h.2
  · rw [← hsim.leaderLog_eq hl c]
    exact ((hsim.nodes i).progress hl).floor c lsn hfloor
  · refine ⟨fun ht => ?_, le_tail hsim⟩
    obtain ⟨lsn, hlsn⟩ := Option.isSome_iff_exists.mp hsome
    obtain ⟨⟨h, hh, hnode, hterm, pre, hin, hinl⟩, -⟩ :=
      hstream.replies rp hrp lsn hlsn (List.ne_nil_of_mem hf)
    rw [← hnode] at ht ⊢
    have := AckSoundness.held_isPrefix hsim hh (ht.trans hterm.symm) hin (hterm ▸ hinl)
    exact this.subset (List.mem_append_right _ hf)

/-- A leader's floor after an election, with what a replica acknowledged to the leader before it and
to this one. -/
theorem terms_never_fall_acknowledged :
    ∃ s, run (Streaming.step fiveMembers) (Streaming.initial fiveMembers)
      AckSoundness.resumed = some s ∧ (s.world.nodes 2).progress.termFloor ['k'] = some 2 ∧
      (∃ f ∈ ((s.world.nodes 2).cols ['k']).frames, f.term = (s.world.nodes 2).term ∧ f.lsn = 2) ∧
      (((s.world.nodes 1).cols ['k']).frames.Pairwise fun f f' => f.term ≤ f'.term) ∧
      ∀ rp ∈ s.replies, (appliedThrough rp.reply).isSome → ∀ f ∈ rp.request.frames,
        (s.world.nodes rp.node).term = rp.request.term →
          f ∈ ((s.world.nodes rp.node).cols rp.request.collection).frames := by
  have hout : (run (Streaming.step fiveMembers)
    (Streaming.initial fiveMembers) AckSoundness.resumed).any
      (fun s => (s.world.nodes 2).isLeader &&
        decide ((s.world.nodes 2).progress.termFloor ['k'] = some 2)) = true := by
    decide
  obtain ⟨s, hrun, hs⟩ := (Option.any_eq_true _ _).mp hout
  simp only [Bool.and_eq_true, decide_eq_true_eq] at hs
  obtain ⟨hl, hfloor⟩ := hs
  have h := terms_never_fall fiveMembers hrun (by decide)
  refine ⟨s, hrun, hfloor, h.2.2.1 2 hl ['k'] 2 hfloor, h.1 1 ['k'], ?_⟩
  exact fun rp hrp hsome f hf => (h.2.2.2 rp hrp hsome f hf).1

/-- Node `b` acknowledges a frame of term 1, and the leader of term 2 replaces it by one of term 0.
-/
def olderTail : List (Task (Fin 5) ℕ) :=
  writeTo 0 7 [['c']] ++ [Task.sendBatch 0 1, .deliver 2 0 1] ++ electedBy 3 1 4 ++
    writeTo 3 8 [['b']] ++ [Task.sendBatch 0 1, .deliver 1 0 1, .base (.adopt 2 1)] ++
      electedBy 2 0 4 ++
    [Task.readStream 2 ['b'] ['k'] 0 none, .sampleTerm 0, .sendBatch 0 1, .deliver 1 0 1]

/-- Node `a` samples term 0, takes a frame of the leader of term 1, and appends under term 0. -/
def staleAppend : List (Task (Fin 5) ℕ) :=
  [Task.beginWrite 0 ['k'] 7] ++ electedBy 2 3 4 ++ writeTo 2 9 [['a']] ++
    [Task.sendBatch 0 1, .deliver 0 0 1, .appendWrite 0]

/-- An orderly run leaves a voter's tail behind an entry it acknowledged, and a write that a
demotion overtakes leaves a log whose terms fall. -/
theorem terms_fall :
    (∃ s, run (Streaming.step fiveMembers) (Streaming.initial fiveMembers) olderTail = some s ∧
      Meets (Streaming.step fiveMembers) (Orderly fiveMembers) (Streaming.initial fiveMembers)
        olderTail ∧
      (∃ rp ∈ s.replies, rp.node = 1 ∧ rp.reply = .applied 1 ∧
        rp.request.frames = [⟨1, 1, 0, 0, 8⟩]) ∧
      (s.world.nodes 1).localLogTails = [(['k'], ⟨0, 1⟩)]) ∧
    ∃ s, run (Streaming.step fiveMembers) (Streaming.initial fiveMembers) staleAppend = some s ∧
      ((s.world.nodes 0).cols ['k']).frames = [⟨1, 1, 0, 0, 9⟩, ⟨0, 2, 1, 1, 7⟩] ∧
      (s.world.nodes 0).isLeader = false := by
  constructor
  · have hout : (run (Streaming.step fiveMembers) (Streaming.initial fiveMembers) olderTail).any
        (fun s => decide (∃ rp ∈ s.replies, rp.node = 1 ∧ rp.reply = .applied 1 ∧
          rp.request.frames = [⟨1, 1, 0, 0, 8⟩]) &&
          decide ((s.world.nodes 1).localLogTails = [(['k'], ⟨0, 1⟩)])) = true := by
      decide
    obtain ⟨s, hrun, hs⟩ := (Option.any_eq_true _ _).mp hout
    simp only [Bool.and_eq_true, decide_eq_true_eq] at hs
    exact ⟨s, hrun, by decide, hs.1, hs.2⟩
  · have hout : (run (Streaming.step fiveMembers) (Streaming.initial fiveMembers) staleAppend).any
        (fun s => decide (((s.world.nodes 0).cols ['k']).frames =
          [⟨1, 1, 0, 0, 9⟩, ⟨0, 2, 1, 1, 7⟩]) && !(s.world.nodes 0).isLeader) = true := by
      decide
    obtain ⟨s, hrun, hs⟩ := (Option.any_eq_true _ _).mp hout
    simp only [Bool.and_eq_true, decide_eq_true_eq, Bool.not_eq_true'] at hs
    exact ⟨s, hrun, hs.1, hs.2⟩

/-- A frame that was read under an older term is acknowledged under the new one, whose leader then
replaces it. -/
theorem stale_frame_lost :
    ∃ s, run (Streaming.step fiveMembers) (Streaming.initial fiveMembers)
      (AckSoundness.staleFrames ++
        [Task.readStream 0 ['b'] ['k'] 0 none, .sampleTerm 0, .sendBatch 0 1,
          .deliver 1 0 1]) = some s ∧
      (∃ rp ∈ s.replies, rp.node = 1 ∧ rp.reply = .applied 1 ∧
        rp.request.term = (s.world.nodes 1).term ∧ rp.request.frames = [⟨0, 1, 0, 0, 7⟩]) ∧
      ((s.world.nodes 1).cols ['k']).frames = [⟨1, 1, 0, 0, 9⟩] := by
  have hout : (run (Streaming.step fiveMembers) (Streaming.initial fiveMembers)
    (AckSoundness.staleFrames ++
      [Task.readStream 0 ['b'] ['k'] 0 none, .sampleTerm 0, .sendBatch 0 1, .deliver 1 0 1])).any
        (fun s => decide (∃ rp ∈ s.replies, rp.node = 1 ∧ rp.reply = .applied 1 ∧
          rp.request.term = (s.world.nodes 1).term ∧ rp.request.frames = [⟨0, 1, 0, 0, 7⟩]) &&
          decide (((s.world.nodes 1).cols ['k']).frames = [⟨1, 1, 0, 0, 9⟩])) = true := by
    decide
  obtain ⟨s, hrun, hs⟩ := (Option.any_eq_true _ _).mp hout
  simp only [Bool.and_eq_true, decide_eq_true_eq] at hs
  exact ⟨s, hrun, hs.1, hs.2⟩

end DewDB.LogTerms
