import DewDB.CommitSafety
import DewDB.ReadIndex

/-!
# What a step does to a leader

A node that leads after a step led before it, in the same term and with no higher watermark, or it
has just been promoted. This is all that a read needs to know of the steps between its own.
-/
namespace DewDB.ReadIndex

open Endpoint QuorumConfig Vote CollectionLog LeaderProgress ReplicaNode Replication ReplicationSim
open LogReplication hiding Initial

variable {ι β : Type} [DecidableEq ι] {g : Cluster ι} {w w' : World ι β} {i : ι} {n n' : Node β}
  {c : CollectionName}

/-- The watermark of a leader stands and what it applies stays behind it; so do its evidence and its
floor. -/
structure Upward (n n' : Node β) (c : CollectionName) : Prop where
  committed : n.progress.committed c ≤ n'.progress.committed c
  applied : (n.cols c).applied ≤ n.progress.committed c →
    (n'.cols c).applied ≤ n'.progress.committed c
  matched : ∀ url, n.progress.matched url c ≤ n'.progress.matched url c
  floor : ∀ m, n.progress.termFloor c = some m → n'.progress.termFloor c = some m

theorem Upward.refl (n : Node β) (c : CollectionName) : Upward n n c :=
  ⟨le_rfl, id, fun _ => le_rfl, fun _ => id⟩

theorem Upward.trans {n'' : Node β} (h : Upward n n' c) (h' : Upward n' n'' c) :
    Upward n n'' c where
  committed := h.committed.trans h'.committed
  applied := h'.applied ∘ h.applied
  matched url := (h.matched url).trans (h'.matched url)
  floor m := h'.floor m ∘ h.floor m

/-- What a step other than a crash or a promotion does to the node it is of. -/
structure Onward (n n' : Node β) : Prop where
  term : n.term ≤ n'.term
  applied : ∀ c, (n.cols c).applied ≤ (n'.cols c).applied
  leader : n'.isLeader = true → n.isLeader = true ∧ n.term = n'.term ∧ ∀ c, Upward n n' c

theorem Onward.of_same (hterm : n'.term = n.term) (hleader : n'.isLeader = n.isLeader)
    (hprogress : n'.progress = n.progress)
    (happlied : ∀ c, (n'.cols c).applied = (n.cols c).applied) : Onward n n' where
  term := hterm.ge
  applied c := (happlied c).ge
  leader hl := by
    refine ⟨hleader ▸ hl, hterm.symm, fun c => ⟨?_, fun h => ?_, fun _ => ?_, fun _ => ?_⟩⟩
    · rw [hprogress]
    · rw [happlied, hprogress]
      exact h
    · rw [hprogress]
    · rw [hprogress]
      exact id

theorem Onward.of_follower (hterm : n.term ≤ n'.term) (hleader : n'.isLeader = false)
    (happlied : ∀ c, (n.cols c).applied ≤ (n'.cols c).applied) : Onward n n' where
  term := hterm
  applied := happlied
  leader hl := by simp [hleader] at hl

theorem Onward.trans {n'' : Node β} (h : Onward n n') (h' : Onward n' n'') : Onward n n'' where
  term := h.term.trans h'.term
  applied c := (h.applied c).trans (h'.applied c)
  leader hl := by
    obtain ⟨hl', hterm', hup'⟩ := h'.leader hl
    obtain ⟨hl, hterm, hup⟩ := h.leader hl'
    exact ⟨hl, hterm.trans hterm', fun c => (hup c).trans (hup' c)⟩

theorem Onward.refl (n : Node β) : Onward n n := .of_same rfl rfl rfl fun _ => rfl

omit [DecidableEq ι] in
theorem onward_applyVote (g : Election.NodeGroup ι) (n : Node β) (req : VoteRequest)
    (mustWithhold : Bool) : Onward n (n.applyVote (n.voteDecision g req mustWithhold)) := by
  have hle : n.term ≤ (n.voteDecision g req mustWithhold).term := by
    have h : ReplicationMeta.PairLe n.term n.votedFor (n.voteDecision g req mustWithhold).term
        (n.voteDecision g req mustWithhold).votedFor := pairLe_decideVote _ _ _ _ _ _ _
    exact h.term_le
  rcases Nat.eq_or_lt_of_le hle with heq | hlt
  · refine .of_same heq.symm ?_ ?_ fun _ => rfl
    · simp [Node.applyVote, ← heq]
    · simp [Node.applyVote, ← heq]
  · refine .of_follower hle ?_ fun _ => le_rfl
    cases hl : n.isLeader <;> simp [Node.applyVote, hlt, hl]

theorem applyCommitted_applied (n : Node β) (c d : CollectionName) (committed : ℕ) :
    ((n.applyCommitted c committed).cols d).applied = if d = c then max (n.cols c).applied committed
      else (n.cols d).applied := by
  unfold Node.applyCommitted
  split_ifs with hzero hd hd
  · rw [hzero, hd, Nat.max_zero]
  · rfl
  · simp [hd, Node.setCol, Collection.applyCommitted]
  · simp [hd, Node.setCol]

/-- New progress with a higher watermark for one collection, and what is published by it. -/
theorem onward_advance {p : Progress} (hl : n.isLeader = true)
    (hp : ∀ d, n.progress.committed d ≤ p.committed d)
    (hmatched : ∀ url d, n.progress.matched url d ≤ p.matched url d)
    (hfloor : p.termFloor = n.progress.termFloor) :
    Onward n (Node.applyCommitted { n with progress := p } c (p.committed c)) := by
  have hsame : ∀ m : Node β, ∀ k, (m.applyCommitted c k).term = m.term ∧
      (m.applyCommitted c k).isLeader = m.isLeader ∧
        (m.applyCommitted c k).progress = m.progress := by
    intro m k
    unfold Node.applyCommitted
    split_ifs <;> exact ⟨rfl, rfl, rfl⟩
  obtain ⟨hterm, hleader, hprogress⟩ := hsame { n with progress := p } (p.committed c)
  refine ⟨hterm.ge, fun d => ?_,
    fun _ => ⟨hl, hterm.symm, fun d => ⟨?_, fun hle => ?_, fun url => ?_, fun m hm => ?_⟩⟩⟩
  · rw [applyCommitted_applied]
    split_ifs with hd
    · exact hd ▸ le_max_left _ _
    · exact le_rfl
  · rw [hprogress]
    exact hp d
  · rw [applyCommitted_applied, hprogress]
    have := hp d
    split_ifs with hd
    · subst hd
      dsimp only
      omega
    · dsimp only
      omega
  · rw [hprogress]
    exact hmatched url d
  · rw [hprogress]
    exact hfloor ▸ hm

theorem advance_evidence (p : Progress) (c : CollectionName) (own : Url) (durable : ℕ)
    (config : Configuration) : (p.advance c own durable config).matched = p.matched ∧
      (p.advance c own durable config).termFloor = p.termFloor := by
  unfold Progress.advance
  dsimp only
  split_ifs <;> exact ⟨rfl, rfl⟩

theorem observeAck_le (p : Progress) (replica url : Url) (c d : CollectionName) (lsn : ℕ) :
    p.matched url d ≤ (p.observeAck replica c lsn).matched url d := by
  by_cases hu : url = replica
  · subst hu
    by_cases hd : d = c
    · subst hd
      simp [Progress.observeAck]
    · simp [Progress.observeAck, hd]
  · simp [Progress.observeAck, hu]

theorem advance_committed_le (p : Progress) (c d : CollectionName) (own : Url) (durable : ℕ)
    (config : Configuration) : p.committed d ≤ (p.advance c own durable config).committed d := by
  rcases advance_cases p c own durable config with heq | ⟨quorum, -, -, -, -, hlt, heq⟩
  · rw [heq]
  · rw [heq]
    by_cases hd : d = c
    · subst hd
      simp only [Function.update_self]
      omega
    · simp [hd]

omit [DecidableEq ι] in
theorem onward_noteAck (g : Election.NodeGroup ι) (hl : n.isLeader = true) (replica : Url)
    (c : CollectionName) (lsn ackTerm durable : ℕ) :
    Onward n (n.noteAck g i replica c lsn ackTerm durable) := by
  have hle : ∀ d, n.progress.committed d ≤
      (if n.isLeader = false ∨ ackTerm ≠ n.term then n.progress.observeAck replica c lsn
        else (n.progress.observeAck replica c lsn).advance c
          (g.url i) durable g.config).committed d := by
    intro d
    split_ifs
    · exact le_rfl
    · exact advance_committed_le (n.progress.observeAck replica c lsn) c d _ _ _
  refine onward_advance hl hle (fun url d => ?_) ?_
  · split_ifs
    · exact observeAck_le _ _ _ _ _ _
    · rw [(advance_evidence _ _ _ _ _).1]
      exact observeAck_le _ _ _ _ _ _
  · split_ifs
    · rfl
    · exact (advance_evidence _ _ _ _ _).2

omit [DecidableEq ι] in
theorem onward_advanceOwn (g : Election.NodeGroup ι) (hl : n.isLeader = true) (c : CollectionName)
    (durable : ℕ) : Onward n (n.advanceOwnCommit g i c durable) := by
  have hle : ∀ d, n.progress.committed d ≤ (if n.isLeader then
      n.progress.advance c (g.url i) durable g.config else n.progress).committed d := by
    intro d
    rw [if_pos hl]
    exact advance_committed_le _ _ _ _ _ _
  refine onward_advance hl hle (fun url d => ?_) ?_
  · rw [if_pos hl, (advance_evidence _ _ _ _ _).1]
  · rw [if_pos hl, (advance_evidence _ _ _ _ _).2]

omit [DecidableEq ι] in
theorem advanceOwnCommit_progress (g : Election.NodeGroup ι) (hl : n.isLeader = true)
    (c : CollectionName)
    (durable : ℕ) : (n.advanceOwnCommit g i c durable).progress =
      n.progress.advance c (g.url i) durable g.config := by
  unfold Node.advanceOwnCommit Node.applyCommitted
  rw [if_pos hl]
  dsimp only
  split_ifs <;> rfl

theorem onward_noteLeaderAppend (hl : n.isLeader = true) (c : CollectionName) (lsn : ℕ) :
    Onward n (n.noteLeaderAppend c lsn) := by
  rw [Node.noteLeaderAppend, if_pos hl]
  refine ⟨le_rfl, fun _ => le_rfl, fun _ =>
    ⟨hl, rfl, fun d => ⟨le_rfl, id, fun _ => le_rfl, fun m hm => ?_⟩⟩⟩
  by_cases hd : d = c
  · subst hd
    simp [Progress.noteLeaderAppend, hm]
  · simpa [Progress.noteLeaderAppend, hd] using hm

theorem appendRawFrame_applied (col : Collection β) (f : Frame β) :
    (col.appendRawFrame f).1.applied = col.applied := by
  unfold Collection.appendRawFrame
  dsimp only
  split_ifs
  · rfl
  · rfl
  · cases hr : col.rewindTo f.prevLsn f.prevTerm with
    | none => rfl
    | some cutCol =>
      unfold Collection.rewindTo at hr
      split_ifs at hr
      obtain rfl := Option.some.inj hr
      rfl
  · rfl
  · rfl

theorem appendBatch_applied (col : Collection β) (highest : ℕ) (matched : Option ℕ)
    (previous : Option (ℕ × ℕ)) (fs : List (Frame β)) :
    (appendBatch col highest matched previous fs).col.applied = col.applied := by
  induction fs generalizing col highest matched previous with
  | nil => rfl
  | cons f fs ih =>
    have hraw := appendRawFrame_applied col f
    unfold appendBatch
    split_ifs
    · generalize col.appendRawFrame f = out at hraw
      obtain ⟨col', out⟩ := out
      cases out with
      | applied lsn => exact (ih _ _ _ _).trans hraw
      | duplicate last => exact (ih _ _ _ _).trans hraw
      | gap | divergent => exact hraw
    · rfl

theorem onward_applyCommitted (hl : n.isLeader = false) (c : CollectionName) (committed : ℕ) :
    Onward n (n.applyCommitted c committed) := by
  refine .of_follower ?_ ?_ fun d => ?_
  · unfold Node.applyCommitted
    split_ifs <;> exact le_rfl
  · unfold Node.applyCommitted
    split_ifs <;> exact hl
  · rw [applyCommitted_applied]
    split_ifs with hd
    · exact hd ▸ le_max_left _ _
    · exact le_rfl

theorem onward_noteLeaderCommitted (n : Node β) (c : CollectionName) (term lsn : ℕ)
    (matched : Option ℕ) (durable : ℕ) :
    Onward n (n.noteLeaderCommitted c term lsn matched durable) := by
  unfold Node.noteLeaderCommitted
  by_cases hguard : n.isLeader ∨ n.term ≠ term
  · rw [if_pos hguard]
    exact .refl n
  · rw [if_neg hguard]
    have hl : n.isLeader = false := by
      cases hn : n.isLeader with
      | true => exact absurd (.inl hn) hguard
      | false => rfl
    have hnoted : ∀ known, Onward n { n with leaderMatched := known } :=
      fun _ => .of_same rfl rfl rfl fun _ => rfl
    exact (hnoted _).trans (onward_applyCommitted (by exact hl) _ _)

theorem onward_takeFrames (n : Node β) (req : ReplicateRequest β) (durable : ℕ) :
    Onward n (n.takeFrames req durable).1 := by
  have htaken : Onward n (n.takeBatch req.collection
      (appendBatch (n.cols req.collection) 0 none none req.frames)) := by
    refine .of_same rfl rfl rfl fun d => ?_
    by_cases hd : d = req.collection
    · subst hd
      simp [Node.takeBatch, Node.setCol, appendBatch_applied]
    · simp [Node.takeBatch, Node.setCol, hd]
  unfold Node.takeFrames
  dsimp only
  split
  · dsimp only
    exact htaken.trans (onward_noteLeaderCommitted _ _ _ _ _ _)
  · exact htaken

theorem onward_demote {newTerm : ℕ} (h : n.term ≤ newTerm) : Onward n (n.demote newTerm) :=
  .of_follower h rfl fun _ => le_rfl

theorem onward_adopt {newTerm : ℕ} (hl : n.isLeader = false) (h : n.term ≤ newTerm) :
    Onward n (n.adopt newTerm) :=
  .of_follower h hl fun _ => le_rfl

theorem onward_replicate (n : Node β) (req : ReplicateRequest β) (durable : ℕ) :
    Onward n (n.replicateHandler req durable).1 := by
  rcases replicateHandler_cases n req durable with ⟨t, heq | heq⟩ | ⟨m, heq, hm⟩
  · rw [heq]
    exact .refl n
  · rw [heq]
    exact .refl n
  · rw [heq]
    refine Onward.trans ?_ (onward_takeFrames m req durable)
    rcases hm with ⟨rfl, -⟩ | ⟨rfl, hlt⟩ | ⟨rfl, hl, hlt⟩
    · exact .refl _
    · exact onward_demote hlt.le
    · exact onward_adopt hl hlt.le

/-- A step of one node, which moves onward, is promoted, or restarts. -/
structure StepOf (w w' : World ι β) (label : Label ι β) (i : ι) : Prop where
  others : ∀ j, j ≠ i → w'.nodes j = w.nodes j
  won : w.won ⊆ w'.won
  node : Onward (w.nodes i) (w'.nodes i) ∨
    (label = .becomeLeader i ∧ w'.nodes i = (w.nodes i).promote ∧
      (∃ votes, (w.nodes i).campaign = some (.standing (w.nodes i).term votes)) ∧
      ∃ x ∈ w'.won, x.term = (w.nodes i).term) ∨
    ∃ watermark, label = .crash i watermark ∧ w'.nodes i = (w.nodes i).restart watermark

theorem StepOf.of_set {label : Label ι β} (hnodes : w'.nodes = Function.update w.nodes i n)
    (hwon : w'.won = w.won) (hmove : Onward (w.nodes i) n) : StepOf w w' label i where
  others j hj := by rw [hnodes, Function.update_of_ne hj]
  won := by rw [hwon]; exact fun _ => id
  node := by
    refine .inl ?_
    rw [hnodes, Function.update_self]
    exact hmove

omit [DecidableEq ι] in
theorem StepOf.of_nodes {label : Label ι β} (hnodes : w'.nodes = w.nodes)
    (hwon : w'.won = w.won) (i : ι) : StepOf w w' label i where
  others j _ := by rw [hnodes]
  won := by rw [hwon]; exact fun _ => id
  node := by
    refine .inl ?_
    rw [hnodes]
    exact .refl _

theorem stepOf_deliver {message durable : ℕ} (h : stepDeliver w i message durable = some w')
    (label : Label ι β) : StepOf w w' label i := by
  unfold stepDeliver at h
  split at h
  next req hreq =>
    have hmove := onward_replicate (w.nodes i) req durable
    dsimp only at h
    obtain ⟨-, h⟩ := Option.ite_none_right_eq_some.mp h
    split at h
    all_goals
      obtain rfl := Option.some.inj h
      exact .of_set rfl rfl hmove
  next => cases h

theorem stepOf_hear {beat durable : ℕ} (h : stepHear w i beat durable = some w')
    (label : Label ι β) : StepOf w w' label i := by
  unfold stepHear at h
  split at h
  next b hb =>
    dsimp only at h
    obtain ⟨⟨hl, hle, -⟩, h⟩ := Option.ite_none_right_eq_some.mp h
    obtain rfl := Option.some.inj h
    refine .of_set rfl rfl (Onward.trans ?_ (onward_noteLeaderCommitted _ _ _ _ _ _))
    split_ifs with hlt
    · exact onward_adopt hl hlt.le
    · exact .refl _
  next => cases h

theorem step_node [DecidableEq β] {a : Machine ι β} (hsim : Sim g a w) {label : Label ι β}
    (h : Replication.step g w label = some w') : ∃ i, StepOf w w' label i := by
  cases label with
  | sample i =>
    simp only [Replication.step, stepSample] at h
    split_ifs at h
    obtain rfl := Option.some.inj h
    exact ⟨i, .of_set rfl rfl (.of_same rfl rfl rfl fun _ => rfl)⟩
  | stand i =>
    simp only [Replication.step, stepStand] at h
    split at h
    next logs tail hcamp =>
      obtain rfl := Option.some.inj h
      have hl : (w.nodes i).isLeader = false := by
        cases hl : (w.nodes i).isLeader with
        | true => rw [(hsim.nodes i).leading hl] at hcamp; cases hcamp
        | false => rfl
      exact ⟨i, .of_set rfl rfl (.of_follower (Nat.le_succ _) hl fun _ => le_rfl)⟩
    next => cases h
  | vote i request mustWithhold =>
    simp only [Replication.step, stepVote] at h
    split at h
    · obtain ⟨-, h⟩ := Option.ite_none_right_eq_some.mp h
      obtain rfl := Option.some.inj h
      exact ⟨i, .of_set rfl rfl (onward_applyVote _ _ _ _)⟩
    · cases h
  | countVote i voter peer =>
    simp only [Replication.step, stepCountVote] at h
    split at h
    · split_ifs at h
      obtain rfl := Option.some.inj h
      exact ⟨i, .of_set rfl rfl (.of_same rfl rfl rfl fun _ => rfl)⟩
    · cases h
  | becomeLeader i =>
    simp only [Replication.step, stepBecomeLeader] at h
    split at h
    next t votes hcamp =>
      split_ifs at h with hquorum hguard
      · obtain rfl := Option.some.inj h
        refine ⟨i, fun j hj => by simp [World.setNode, hj], fun _ => List.mem_cons_of_mem _,
          .inr (.inl ⟨rfl, ?_, ⟨votes, ?_⟩, _, List.mem_cons_self, hguard.2.1.symm⟩)⟩
        · simp [World.setNode]
        · rw [hcamp, hguard.2.1]
      · obtain rfl := Option.some.inj h
        exact ⟨i, .of_set rfl rfl (.of_same rfl rfl rfl fun _ => rfl)⟩
    next => cases h
  | giveUp i =>
    obtain rfl := Option.some.inj h
    exact ⟨i, .of_set rfl rfl (.of_same rfl rfl rfl fun _ => rfl)⟩
  | demote i newTerm =>
    simp only [Replication.step] at h
    split_ifs at h with hlt
    obtain rfl := Option.some.inj h
    exact ⟨i, .of_set rfl rfl (onward_demote (by omega))⟩
  | adopt i newTerm =>
    simp only [Replication.step] at h
    split_ifs at h with hguard
    obtain rfl := Option.some.inj h
    exact ⟨i, .of_set rfl rfl (onward_adopt hguard.1 hguard.2.le)⟩
  | stepDown i =>
    simp only [Replication.step] at h
    split_ifs at h with hl
    obtain rfl := Option.some.inj h
    exact ⟨i, .of_set rfl rfl (.of_follower le_rfl rfl fun _ => le_rfl)⟩
  | append i c entry =>
    simp only [Replication.step, stepAppend] at h
    split_ifs at h
    obtain rfl := Option.some.inj h
    refine ⟨i, .of_set rfl rfl (.of_same rfl rfl rfl fun d => ?_)⟩
    by_cases hd : d = c
    · subst hd
      simp [Node.append, Node.setCol, Collection.append]
    · simp [Node.append, Node.setCol, hd]
  | appendFails i c =>
    simp only [Replication.step, stepAppendFails] at h
    split_ifs at h
    obtain rfl := Option.some.inj h
    refine ⟨i, .of_set rfl rfl (.of_same rfl rfl rfl fun d => ?_)⟩
    simp [Node.setCol]
  | noteAppend i c lsn =>
    simp only [Replication.step, stepNoteAppend] at h
    split_ifs at h with hguard
    obtain rfl := Option.some.inj h
    exact ⟨i, .of_set rfl rfl (onward_noteLeaderAppend hguard.1 _ _)⟩
  | send i c skip count =>
    simp only [Replication.step, stepSend] at h
    split_ifs at h
    obtain rfl := Option.some.inj h
    exact ⟨i, .of_nodes (by rfl) (by rfl) i⟩
  | beat i c =>
    simp only [Replication.step] at h
    split_ifs at h
    obtain rfl := Option.some.inj h
    exact ⟨i, .of_nodes (by rfl) (by rfl) i⟩
  | deliver i message durable => exact ⟨i, stepOf_deliver h _⟩
  | hear i beat durable => exact ⟨i, stepOf_hear h _⟩
  | ack i voter peer c lsn durable =>
    simp only [Replication.step, stepAck] at h
    obtain ⟨⟨hl, -⟩, h⟩ := Option.ite_none_right_eq_some.mp h
    obtain rfl := Option.some.inj h
    exact ⟨i, .of_set rfl rfl (onward_noteAck _ hl _ _ _ _ _)⟩
  | advanceOwn i c durable =>
    simp only [Replication.step, stepAdvanceOwn] at h
    obtain ⟨⟨hl, -⟩, h⟩ := Option.ite_none_right_eq_some.mp h
    obtain rfl := Option.some.inj h
    exact ⟨i, .of_set rfl rfl (onward_advanceOwn _ hl _ _)⟩
  | crash i watermark =>
    simp only [Replication.step, stepCrash] at h
    split_ifs at h
    obtain rfl := Option.some.inj h
    refine ⟨i, fun j hj => by simp [World.setNode, hj], fun _ =>
      id, .inr (.inr ⟨watermark, rfl, ?_⟩)⟩
    simp [World.setNode]

namespace StepOf

variable {label : Label ι β} {j : ι}

theorem term_le (h : StepOf w w' label i) (j : ι) : (w.nodes j).term ≤ (w'.nodes j).term := by
  by_cases hj : j = i
  · subst hj
    rcases h.node with hmove | ⟨-, heq, -⟩ | ⟨watermark, -, heq⟩
    · exact hmove.term
    · rw [heq]
      exact le_rfl
    · rw [heq]
      exact le_rfl
  · rw [h.others j hj]

theorem applied_le (h : StepOf w w' label i) (hup : ∀ watermark, label ≠ .crash j watermark)
    (c : CollectionName) : ((w.nodes j).cols c).applied ≤ ((w'.nodes j).cols c).applied := by
  by_cases hj : j = i
  · subst hj
    rcases h.node with hmove | ⟨-, heq, -⟩ | ⟨watermark, hcrash, -⟩
    · exact hmove.applied c
    · rw [heq]
      exact le_rfl
    · exact absurd hcrash (hup watermark)
  · rw [h.others j hj]

/-- A node that leads a term which had its leader before the step led it then. -/
theorem led_before {a : Machine ι β} (h : StepOf w w' label i) (hsim : Sim g a w)
    (hlead : (w'.nodes j).isLeader = true) (hled : a.leader (w'.nodes j).term = some j) :
    (w.nodes j).isLeader = true ∧ (w.nodes j).term = (w'.nodes j).term ∧
      ∀ c, Upward (w.nodes j) (w'.nodes j) c := by
  by_cases hj : j = i
  · subst hj
    rcases h.node with hmove | ⟨-, heq, ⟨votes, hcamp⟩, -⟩ | ⟨watermark, -, heq⟩
    · exact hmove.leader hlead
    -- Who stands in a term does not lead it yet.
    · have hstanding := (hsim.nodes j).campaign
      rw [hcamp] at hstanding
      rw [heq] at hled
      exact absurd hled hstanding.2.2.1
    · rw [heq] at hlead
      exact absurd hlead Bool.false_ne_true
  · rw [h.others j hj] at hlead ⊢
    exact ⟨hlead, rfl, fun c => .refl _ c⟩

end StepOf

end DewDB.ReadIndex
