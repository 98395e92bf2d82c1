import DewDB.CommitSafety
import DewDB.Streaming

/-!
# What a follower publishes

A leader announces how far it has committed with every batch and every heartbeat. A follower
publishes up to that, as far as it has seen its log match the leader's in this term. The moments of
a run at which a node led are kept, so that each watermark can be traced to the leader that
announced it. The runs are those of the protocol, in which a leader counts sound acknowledgements
only; no bound here rests on that.
-/
namespace DewDB.FollowerCommit

open TransitionSystem Vote CollectionLog FrameAppend LeaderProgress ReplicaNode Replication
  ReplicationSim CommitSafety
open LogReplication hiding Initial State Step

variable {ι β : Type}

/-- Node `j` leads term `t`. -/
structure Leads (u : World ι β) (j : ι) (t : ℕ) : Prop where
  leader : (u.nodes j).isLeader = true
  term : (u.nodes j).term = t

/-- The term, the collection and the commit index of which a step tells node `i`. -/
def notice [DecidableEq ι] (w : World ι β) (i : ι) : Label ι β → Option (ℕ × CollectionName × ℕ)
  | .deliver j message _ =>
    if j = i then w.messages[message]?.map fun req =>
      (req.term, req.collection, req.commitIndex) else none
  | .hear j beat _ => if j = i then w.beats[beat]?.map fun b =>
      (b.term, b.collection, b.committed) else none
  | _ => none

section Nodes

variable {n : Node β} {c d : CollectionName} {t lsn durable : ℕ} {matched : Option ℕ}

/-- What hearing from a leader of term `t` about `c`, with frames of its log, does to the watermarks
and to what is known to match. -/
structure Heard (n n' : Node β) (t : ℕ) (c : CollectionName) (lsn : ℕ)
    (frames : List (Frame β)) : Prop where
  le : ∀ d, (n.cols d).applied ≤ (n'.cols d).applied
  only : ∀ d, (n.cols d).applied < (n'.cols d).applied →
    d = c ∧ n'.term = t ∧ (n'.leaderMatched d).1 = t ∧
    (n'.cols d).applied ≤ lsn ∧ (n'.cols d).applied ≤ (n'.leaderMatched d).2
  matched : ∀ d, n'.leaderMatched d = n.leaderMatched d ∨ ∃ through, d = c ∧
    n'.leaderMatched d = (t, through) ∧ (through = 0 ∨ ∃ f ∈ frames, through ≤ f.lsn)

theorem Heard.quiet {n' : Node β} {frames : List (Frame β)}
    (happ : ∀ d, (n'.cols d).applied = (n.cols d).applied)
    (hm : n'.leaderMatched = n.leaderMatched) : Heard n n' t c lsn frames :=
  ⟨fun d => (happ d).ge, fun d hlt => absurd (happ d) (Nat.ne_of_gt hlt), fun d =>
    .inl (congrFun hm d)⟩

theorem Heard.after {m n' : Node β} {frames : List (Frame β)} (h : Heard m n' t c lsn frames)
    (happ : ∀ d, (m.cols d).applied = (n.cols d).applied) (hm : m.leaderMatched = n.leaderMatched) :
    Heard n n' t c lsn frames :=
  ⟨fun d => happ d ▸ h.le d, fun d hlt => h.only d (happ d ▸ hlt), fun d => hm ▸ h.matched d⟩

theorem applyCommitted_applied (n : Node β) (c d : CollectionName) (m : ℕ) :
    ((n.applyCommitted c m).cols d).applied =
      if d = c then max (n.cols c).applied m else (n.cols d).applied := by
  unfold Node.applyCommitted
  by_cases hd : d = c
  · subst hd
    by_cases hm : m = 0
    · simp [hm]
    · simp [hm, Node.setCol, Collection.applyCommitted]
  · by_cases hm : m = 0
    · simp [hm, hd]
    · simp [hm, Node.setCol, hd]

theorem applyCommitted_same (n : Node β) (c : CollectionName) (m : ℕ) :
    (n.applyCommitted c m).term = n.term ∧ (n.applyCommitted c m).leaderMatched =
      n.leaderMatched := by
  unfold Node.applyCommitted
  split
  · exact ⟨rfl, rfl⟩
  · exact ⟨rfl, rfl⟩

/-- A notice of another term, or one that a leader hears, does nothing. Else the position through
which the log matches is what was known in this term, or what the batch has shown. -/
theorem noteLeaderCommitted_cases (n : Node β) (c : CollectionName) (t lsn durable : ℕ)
    (matched : Option ℕ) :
    n.noteLeaderCommitted c t lsn matched durable = n ∨
    n.isLeader = false ∧ n.term = t ∧ ∃ through,
      n.noteLeaderCommitted c t lsn matched durable =
        Node.applyCommitted
          { n with leaderMatched := Function.update n.leaderMatched c (t, through) } c
          (min (min lsn through) durable) ∧
      (through = 0 ∨ n.leaderMatched c = (t, through) ∨ ∃ m,
        matched = some m ∧ through = min m durable) := by
  unfold Node.noteLeaderCommitted
  split
  · exact .inl rfl
  · next hguard =>
    obtain ⟨hl, ht⟩ := not_or.mp hguard
    refine .inr ⟨by simpa using hl, not_not.mp ht, _, rfl, ?_⟩
    have hknown : (if (n.leaderMatched c).1 = t then (n.leaderMatched c).2 else 0) = 0 ∨
        n.leaderMatched c = (t, if (n.leaderMatched c).1 = t
          then (n.leaderMatched c).2 else 0) := by
      split
      · next hk => exact .inr (Prod.ext hk rfl)
      · exact .inl rfl
    generalize (if (n.leaderMatched c).1 = t then (n.leaderMatched c).2 else 0) = known at hknown ⊢
    cases matched with
    | none => exact hknown.imp_right .inl
    | some m =>
      rcases Nat.le_total (min m durable) known with hle | hle
      · simp only [Nat.max_eq_left hle]
        exact hknown.imp_right .inl
      · simp only [Nat.max_eq_right hle]
        exact .inr (.inr ⟨m, rfl, rfl⟩)

theorem noteLeaderCommitted_heard (n : Node β) (c : CollectionName) (t lsn durable : ℕ)
    (matched : Option ℕ) (frames : List (Frame β))
    (hframes : ∀ m, matched = some m → ∃ f ∈ frames, f.lsn = m) :
    Heard n (n.noteLeaderCommitted c t lsn matched durable) t c lsn frames := by
  rcases noteLeaderCommitted_cases n c t lsn durable matched with
    heq | ⟨-, hterm, through, heq, hthrough⟩
  · rw [heq]
    exact .quiet (fun _ => rfl) rfl
  rw [heq]
  obtain ⟨hsame, hmatched⟩ := applyCommitted_same
    { n with leaderMatched := Function.update n.leaderMatched c (t, through) } c
      (min (min lsn through) durable)
  have happlied := applyCommitted_applied
    { n with leaderMatched := Function.update n.leaderMatched c (t, through) } c
  constructor
  · intro d
    rw [happlied]
    split
    · next hd =>
      subst hd
      exact le_max_left _ _
    · rfl
  · intro d hlt
    rw [happlied] at hlt
    split at hlt
    · next hd =>
      subst hd
      have hm : (n.cols d).applied < min (min lsn through) durable := by simpa using hlt
      rw [happlied, if_pos rfl, hmatched, hsame]
      dsimp only
      rw [Function.update_self]
      dsimp only
      exact ⟨rfl, hterm, rfl, by omega, by omega⟩
    · exact absurd hlt (lt_irrefl _)
  · intro d
    rw [hmatched]
    dsimp only
    by_cases hd : d = c
    · subst hd
      rw [Function.update_self]
      rcases hthrough with h0 | hold | ⟨m, hm, hle⟩
      · exact .inr ⟨through, rfl, rfl, .inl h0⟩
      · exact .inl hold.symm
      · obtain ⟨f, hf, hlsn⟩ := hframes m hm
        exact .inr ⟨through, rfl, rfl, .inr ⟨f, hf, by omega⟩⟩
    · exact .inl (Function.update_of_ne hd _ _)

theorem rewindTo_applied {col col' : Collection β} {prevLsn prevTerm : ℕ}
    (h : col.rewindTo prevLsn prevTerm = some col') : col'.applied = col.applied := by
  unfold Collection.rewindTo at h
  split_ifs at h
  cases h
  rfl

theorem appendRawFrame_applied (col : Collection β) (f : Frame β) :
    (col.appendRawFrame f).1.applied = col.applied := by
  unfold Collection.appendRawFrame
  dsimp only
  split
  · rfl
  split
  · rfl
  split
  · split
    · rfl
    · next cutCol hcut =>
      have happ := rewindTo_applied hcut
      exact happ
  split
  · rfl
  · rfl

/-- The append loop leaves the watermark, and what it says matches is a frame of the batch. -/
theorem appendBatch_spec (fs : List (Frame β)) (col : Collection β) (highest : ℕ)
    (matched : Option ℕ) (previous : Option (ℕ × ℕ)) :
    (appendBatch col highest matched previous fs).col.applied = col.applied ∧
    ∀ m, (appendBatch col highest matched previous fs).matched = some m →
      matched = some m ∨ ∃ f ∈ fs, f.lsn = m := by
  induction fs generalizing col highest matched previous with
  | nil => exact ⟨rfl, fun m hm => .inl hm⟩
  | cons f fs ih =>
    have happ := appendRawFrame_applied col f
    have htaken : ∀ (col' : Collection β) (high : ℕ), col'.applied = col.applied →
        (appendBatch col' high (some f.lsn) (some (f.term, f.lsn)) fs).col.applied = col.applied ∧
        ∀ m, (appendBatch col' high (some f.lsn) (some (f.term, f.lsn)) fs).matched = some m →
          matched = some m ∨ ∃ x ∈ f :: fs, x.lsn = m := by
      intro col' high hcol
      obtain ⟨happ', hm'⟩ := ih col' high (some f.lsn) (some (f.term, f.lsn))
      refine ⟨happ'.trans hcol, fun m hm => .inr ?_⟩
      rcases hm' m hm with heq | ⟨x, hx, hxm⟩
      · exact ⟨f, List.mem_cons_self, Option.some.inj heq⟩
      · exact ⟨x, List.mem_cons_of_mem f hx, hxm⟩
    unfold appendBatch
    split
    · split
      · next col' lsn heq => exact htaken col' _ (by rw [← happ, heq])
      · next col' lsn heq => exact htaken col' _ (by rw [← happ, heq])
      · next col' refused _ _ heq => exact ⟨by rw [← happ, heq], fun m hm => .inl hm⟩
    · exact ⟨rfl, fun m hm => .inl hm⟩

theorem takeFrames_heard (n : Node β) (req : ReplicateRequest β) (durable : ℕ) :
    Heard n (n.takeFrames req durable).1 req.term req.collection req.commitIndex req.frames := by
  obtain ⟨happ, hmatched⟩ := appendBatch_spec req.frames (n.cols req.collection) 0 none none
  have hcols : ∀ d, ((n.takeBatch req.collection
      (appendBatch (n.cols req.collection) 0 none none req.frames)).cols d).applied =
        (n.cols d).applied := by
    intro d
    by_cases hd : d = req.collection
    · subst hd
      rw [takeBatch_cols_self]
      exact happ
    · simp [Node.takeBatch, Node.setCol, hd]
  unfold Node.takeFrames
  dsimp only
  split
  · next m hm =>
    have hnote := noteLeaderCommitted_heard (n.takeBatch req.collection
      (appendBatch (n.cols req.collection) 0 none none req.frames)) req.collection req.term
        req.commitIndex
      durable (some m) req.frames fun m' hm' => ?_
    · exact hnote.after hcols rfl
    · exact (hmatched m' (hm.trans hm')).resolve_left (by simp)
  · exact .quiet hcols rfl

theorem replicateHandler_heard (n : Node β) (req : ReplicateRequest β) (durable : ℕ) :
    Heard n (n.replicateHandler req durable).1 req.term req.collection req.commitIndex
      req.frames := by
  rcases replicateHandler_cases n req durable with ⟨t, heq | heq⟩ | ⟨n', heq, hn'⟩
  · rw [heq]
    exact .quiet (fun _ => rfl) rfl
  · rw [heq]
    exact .quiet (fun _ => rfl) rfl
  · rw [heq]
    rcases hn' with ⟨rfl, -⟩ | ⟨rfl, -⟩ | ⟨rfl, -, -⟩
    · exact takeFrames_heard _ req durable
    · exact (takeFrames_heard _ req durable).after (fun _ => rfl) rfl
    · exact (takeFrames_heard _ req durable).after (fun _ => rfl) rfl

end Nodes

section Steps

variable [DecidableEq ι] {g : Cluster ι} {w w' : World ι β} {i : ι}

/-- A leader of term `t` has sent these frames of `c`, or a heartbeat, with this commit index. -/
def Sent (w : World ι β) (t : ℕ) (c : CollectionName) (lsn : ℕ) (frames : List (Frame β)) : Prop :=
  ⟨t, c, frames, lsn⟩ ∈ w.messages ∨ frames = [] ∧ ⟨t, c, lsn⟩ ∈ w.beats

/-- What a step does to the watermarks of node `i`, and to what it knows to match. -/
inductive Effect (w w' : World ι β) (i : ι) (label : Label ι β) : Prop where
  | quiet (applied : ∀ d, (((w'.nodes i).cols d).applied = ((w.nodes i).cols d).applied))
      (matched : (w'.nodes i).leaderMatched = (w.nodes i).leaderMatched)
  | restart (watermark : CollectionName → ℕ) (crash : label = .crash i watermark)
      (applied : ∀ d, ((w'.nodes i).cols d).applied ≤ ((w.nodes i).cols d).applied)
      (matched : ∀ d, (w'.nodes i).leaderMatched d = (0, 0))
  | own (leader : (w'.nodes i).isLeader = true)
      (applied : ∀ d, ((w'.nodes i).cols d).applied = ((w.nodes i).cols d).applied ∨
        ((w'.nodes i).cols d).applied =
          max ((w.nodes i).cols d).applied ((w'.nodes i).progress.committed d))
      (matched : (w'.nodes i).leaderMatched = (w.nodes i).leaderMatched)
  | heard (t : ℕ) (c : CollectionName) (lsn : ℕ) (frames : List (Frame β))
      (notice : notice w i label = some (t, c, lsn)) (sent : Sent w t c lsn frames)
      (heard : Heard (w.nodes i) (w'.nodes i) t c lsn frames)

theorem Effect.elsewhere {label : Label ι β} (h : w'.nodes i = w.nodes i) : Effect w w' i label :=
  .quiet (fun d => by rw [h]) (by rw [h])

theorem Effect.setNode {label : Label ι β} {j : ι} {n : Node β}
    (hw : w'.nodes = (w.setNode j n).nodes)
    (happ : ∀ d, (n.cols d).applied = ((w.nodes j).cols d).applied)
    (hm : n.leaderMatched = (w.nodes j).leaderMatched) :
    Effect w w' i label := by
  by_cases hi : i = j
  · subst hi
    have hn : w'.nodes i = n := by
      rw [hw]
      exact setNode_nodes_self
    exact .quiet (fun d => by rw [hn, happ]) (by rw [hn, hm])
  · exact .elsewhere (by rw [hw]; exact Function.update_of_ne hi _ _)

theorem setCol_applied {n : Node β} {c d : CollectionName} {col : Collection β}
    (h : col.applied = (n.cols c).applied) :
    ((n.setCol c col).cols d).applied = (n.cols d).applied := by
  by_cases hd : d = c
  · subst hd
    simp [Node.setCol, h]
  · simp [Node.setCol, hd]

theorem commit_effect {label : Label ι β} {j : ι} {p : Progress} {c : CollectionName}
    (hl : (w.nodes j).isLeader = true)
    (hw : w'.nodes = (w.setNode j (Node.applyCommitted { w.nodes j with progress := p } c
      (p.committed c))).nodes) :
    Effect w w' i label := by
  by_cases hi : i = j
  · subst hi
    have hn : w'.nodes i = Node.applyCommitted { w.nodes i with progress := p } c
      (p.committed c) := by
      rw [hw]
      exact setNode_nodes_self
    have hrest : (w'.nodes i).isLeader = true ∧ (w'.nodes i).progress = p ∧
        (w'.nodes i).leaderMatched = (w.nodes i).leaderMatched := by
      rw [hn]
      unfold Node.applyCommitted
      split
      · exact ⟨hl, rfl, rfl⟩
      · exact ⟨hl, rfl, rfl⟩
    refine .own hrest.1 (fun d => ?_) hrest.2.2
    rw [hrest.2.1, hn, applyCommitted_applied]
    split
    · next hd =>
      subst hd
      exact .inr rfl
    · exact .inl rfl
  · exact .elsewhere (by rw [hw]; exact Function.update_of_ne hi _ _)

theorem deliver_effect {j : ι} {message durable : ℕ}
    (h : stepDeliver w j message durable = some w') :
    Effect w w' i (.deliver j message durable) := by
  unfold stepDeliver at h
  split at h
  · next req hreq =>
    dsimp only at h
    split at h
    · have hw : w'.nodes = (w.setNode j ((w.nodes j).replicateHandler req durable).1).nodes := by
        split at h
        · cases h
          rfl
        · cases h
          rfl
        · cases h
          rfl
      by_cases hi : i = j
      · subst hi
        have hn : w'.nodes i = ((w.nodes i).replicateHandler req durable).1 := by
          rw [hw]
          exact setNode_nodes_self
        refine .heard req.term req.collection req.commitIndex req.frames ?_
          (.inl (List.mem_of_getElem? hreq)) (hn ▸ replicateHandler_heard _ req durable)
        simp [notice, hreq]
      · exact .elsewhere (by rw [hw]; exact Function.update_of_ne hi _ _)
    · cases h
  · cases h

theorem hear_effect {j : ι} {beat durable : ℕ} (h : stepHear w j beat durable = some w') :
    Effect w w' i (.hear j beat durable) := by
  unfold stepHear at h
  split at h
  · next b hb =>
    dsimp only at h
    split at h
    · cases h
      by_cases hi : i = j
      · subst hi
        refine .heard b.term b.collection b.committed [] (by simp [notice, hb])
          (.inr ⟨rfl, List.mem_of_getElem? hb⟩) ?_
        rw [publish_nodes, setNode_nodes_self]
        have hnote := noteLeaderCommitted_heard
          (if (w.nodes i).term < b.term then (w.nodes i).adopt b.term
            else w.nodes i) b.collection b.term
          b.committed durable none [] (by simp)
        refine hnote.after (fun d => ?_) ?_
        · split
          · rfl
          · rfl
        · split
          · rfl
          · rfl
      · exact .elsewhere (Function.update_of_ne hi _ _)
    · cases h
  · cases h

theorem vote_effect {j : ι} {request : ℕ} {mustWithhold : Bool}
    (h : stepVote g w j request mustWithhold = some w') :
    Effect w w' i (.vote j request mustWithhold) := by
  unfold stepVote at h
  dsimp only at h
  split at h
  · split at h
    · cases h
      exact .setNode rfl (fun _ => rfl) rfl
    · cases h
  · cases h

theorem becomeLeader_effect {j : ι} (h : stepBecomeLeader g w j = some w') :
    Effect w w' i (.becomeLeader j) := by
  unfold stepBecomeLeader at h
  dsimp only at h
  split at h
  · split at h
    · split at h
      · cases h
        exact .setNode rfl (fun _ => rfl) rfl
      · cases h
        exact .setNode rfl (fun _ => rfl) rfl
    · cases h
  · cases h

theorem campaign_effect {j : ι} {label : Label ι β} {camp : Option ReplicaNode.Campaign}
    (hw : w' = w.setNode j { w.nodes j with campaign := camp }) : Effect w w' i label :=
  .setNode (congrArg World.nodes hw) (fun _ => rfl) rfl

theorem step_effect [DecidableEq β] {label : Label ι β} (h : step g w label = some w') :
    Effect w w' i label := by
  cases label with
  | sample j =>
    simp only [step, stepSample] at h
    split_ifs at h
    exact campaign_effect (Option.some.inj h).symm
  | stand j =>
    simp only [step, stepStand] at h
    split at h
    · cases h
      exact .setNode rfl (fun _ => rfl) rfl
    · cases h
  | vote j request mustWithhold => exact vote_effect h
  | countVote j voter peer =>
    simp only [step, stepCountVote] at h
    split at h
    · split_ifs at h
      exact campaign_effect (Option.some.inj h).symm
    · cases h
  | becomeLeader j => exact becomeLeader_effect h
  | giveUp j => exact campaign_effect (Option.some.inj h).symm
  | demote j newTerm =>
    simp only [step] at h
    split_ifs at h
    cases h
    exact .setNode rfl (fun _ => rfl) rfl
  | adopt j newTerm =>
    simp only [step] at h
    split_ifs at h
    cases h
    exact .setNode rfl (fun _ => rfl) rfl
  | stepDown j =>
    simp only [step] at h
    split_ifs at h
    cases h
    exact .setNode rfl (fun _ => rfl) rfl
  | append j c entry =>
    simp only [step, stepAppend] at h
    split_ifs at h
    cases h
    exact .setNode rfl (fun _ => setCol_applied rfl) rfl
  | appendFails j c =>
    simp only [step, stepAppendFails] at h
    split_ifs at h
    cases h
    exact .setNode rfl (fun _ => setCol_applied rfl) rfl
  | noteAppend j c lsn =>
    simp only [step, stepNoteAppend] at h
    split_ifs at h with hguard
    cases h
    refine .setNode rfl (fun _ => ?_) ?_
    · rw [Node.noteLeaderAppend, if_pos hguard.1]
    · rw [Node.noteLeaderAppend, if_pos hguard.1]
  | send j c skip count =>
    simp only [step, stepSend] at h
    split_ifs at h
    cases h
    exact .elsewhere rfl
  | beat j c =>
    simp only [step] at h
    split_ifs at h
    cases h
    exact .elsewhere rfl
  | deliver j message durable => exact deliver_effect h
  | hear j beat durable => exact hear_effect h
  | ack j voter peer c lsn durable =>
    simp only [step, stepAck] at h
    split_ifs at h with hguard
    cases h
    exact commit_effect hguard.1 rfl
  | advanceOwn j c durable =>
    simp only [step, stepAdvanceOwn] at h
    split_ifs at h with hguard
    cases h
    exact commit_effect hguard.1 rfl
  | crash j watermark =>
    simp only [step, stepCrash] at h
    split_ifs at h
    cases h
    by_cases hi : i = j
    · subst hi
      refine .restart watermark rfl (fun d => ?_) fun d => ?_
      · rw [setNode_nodes_self]
        exact Nat.min_le_left _ _
      · rw [setNode_nodes_self]
        rfl
    · exact .elsewhere (Function.update_of_ne hi _ _)

theorem vote_sent [DecidableEq β] {j : ι} {request : ℕ} {mustWithhold : Bool}
    (h : step g w (.vote j request mustWithhold) = some w') {t lsn : ℕ} {c : CollectionName}
    {frames : List (Frame β)} (hs : Sent w' t c lsn frames) :
    Sent w t c lsn frames ∨ ∃ j, Leads w j t ∧ (w.nodes j).progress.committed c = lsn ∧
      frames ⊆ ((w.nodes j).cols c).frames := by
  simp only [step, stepVote] at h
  split at h
  · split at h
    · cases h
      exact .inl hs
    · cases h
  · cases h

theorem countVote_sent [DecidableEq β] {j voter : ι} {peer : Endpoint.Url}
    (h : step g w (.countVote j voter peer) = some w') {t lsn : ℕ} {c : CollectionName}
    {frames : List (Frame β)} (hs : Sent w' t c lsn frames) :
    Sent w t c lsn frames ∨ ∃ j, Leads w j t ∧ (w.nodes j).progress.committed c = lsn ∧
      frames ⊆ ((w.nodes j).cols c).frames := by
  simp only [step, stepCountVote] at h
  split at h
  · split_ifs at h
    cases h
    exact .inl hs
  · cases h

theorem becomeLeader_sent [DecidableEq β] {j : ι}
    (h : step g w (.becomeLeader j) = some w') {t lsn : ℕ} {c : CollectionName}
    {frames : List (Frame β)} (hs : Sent w' t c lsn frames) :
    Sent w t c lsn frames ∨ ∃ j, Leads w j t ∧ (w.nodes j).progress.committed c = lsn ∧
      frames ⊆ ((w.nodes j).cols c).frames := by
  simp only [step, stepBecomeLeader] at h
  split at h
  · split_ifs at h
    · cases h
      exact .inl hs
    · cases h
      exact .inl hs
  · cases h

theorem send_sent [DecidableEq β] {j : ι} {d : CollectionName} {skip count : ℕ}
    (h : step g w (.send j d skip count) = some w') {t lsn : ℕ} {c : CollectionName}
    {frames : List (Frame β)} (hs : Sent w' t c lsn frames) :
    Sent w t c lsn frames ∨ ∃ j, Leads w j t ∧ (w.nodes j).progress.committed c = lsn ∧
      frames ⊆ ((w.nodes j).cols c).frames := by
  simp only [step, stepSend] at h
  split_ifs at h with hl
  cases h
  rcases hs with hs | hs
  · rcases List.mem_cons.mp hs with heq | hs
    · cases heq
      refine .inr ⟨j, ⟨hl, rfl⟩, rfl, ?_⟩
      exact ((List.take_sublist _ _).trans (List.drop_sublist _ _)).subset
    · exact .inl (.inl hs)
  · exact .inl (.inr hs)

theorem beat_sent [DecidableEq β] {j : ι} {d : CollectionName}
    (h : step g w (.beat j d) = some w') {t lsn : ℕ} {c : CollectionName}
    {frames : List (Frame β)} (hs : Sent w' t c lsn frames) :
    Sent w t c lsn frames ∨ ∃ j, Leads w j t ∧ (w.nodes j).progress.committed c = lsn ∧
      frames ⊆ ((w.nodes j).cols c).frames := by
  simp only [step] at h
  split_ifs at h with hl
  cases h
  rcases hs with hs | ⟨rfl, hs⟩
  · exact .inl (.inl hs)
  · rcases List.mem_cons.mp hs with heq | hs
    · cases heq
      exact .inr ⟨j, ⟨hl, rfl⟩, rfl, List.nil_subset _⟩
    · exact .inl (.inr ⟨rfl, hs⟩)

theorem deliver_sent [DecidableEq β] {j : ι} {message durable : ℕ}
    (h : step g w (.deliver j message durable) = some w') {t lsn : ℕ} {c : CollectionName}
    {frames : List (Frame β)} (hs : Sent w' t c lsn frames) :
    Sent w t c lsn frames ∨ ∃ j, Leads w j t ∧ (w.nodes j).progress.committed c = lsn ∧
      frames ⊆ ((w.nodes j).cols c).frames := by
  simp only [step, stepDeliver] at h
  split at h
  · split_ifs at h
    split at h
    · cases h
      exact .inl hs
    · cases h
      exact .inl hs
    · cases h
      exact .inl hs
  · cases h

theorem hear_sent [DecidableEq β] {j : ι} {beat durable : ℕ}
    (h : step g w (.hear j beat durable) = some w') {t lsn : ℕ} {c : CollectionName}
    {frames : List (Frame β)} (hs : Sent w' t c lsn frames) :
    Sent w t c lsn frames ∨ ∃ j, Leads w j t ∧ (w.nodes j).progress.committed c = lsn ∧
      frames ⊆ ((w.nodes j).cols c).frames := by
  simp only [step, stepHear] at h
  split at h
  · split_ifs at h
    · cases h
      exact .inl hs
    · cases h
      exact .inl hs
  · cases h

theorem step_sent [DecidableEq β] {label : Label ι β} (h : step g w label = some w') {t lsn : ℕ}
    {c : CollectionName} {frames : List (Frame β)} (hs : Sent w' t c lsn frames) :
    Sent w t c lsn frames ∨ ∃ j, Leads w j t ∧ (w.nodes j).progress.committed c = lsn ∧
      frames ⊆ ((w.nodes j).cols c).frames := by
  cases label with
  | sample j =>
    simp only [step, stepSample] at h
    split_ifs at h
    cases h
    exact .inl hs
  | stand j =>
    simp only [step, stepStand] at h
    split at h
    · cases h
      exact .inl hs
    · cases h
  | vote j request mustWithhold => exact vote_sent h hs
  | countVote j voter peer => exact countVote_sent h hs
  | becomeLeader j => exact becomeLeader_sent h hs
  | giveUp j =>
    cases h
    exact .inl hs
  | demote j newTerm =>
    simp only [step] at h
    split_ifs at h
    cases h
    exact .inl hs
  | adopt j newTerm =>
    simp only [step] at h
    split_ifs at h
    cases h
    exact .inl hs
  | stepDown j =>
    simp only [step] at h
    split_ifs at h
    cases h
    exact .inl hs
  | append j c entry =>
    simp only [step, stepAppend] at h
    split_ifs at h
    cases h
    exact .inl hs
  | appendFails j c =>
    simp only [step, stepAppendFails] at h
    split_ifs at h
    cases h
    exact .inl hs
  | noteAppend j c lsn =>
    simp only [step, stepNoteAppend] at h
    split_ifs at h
    cases h
    exact .inl hs
  | send j d skip count => exact send_sent h hs
  | beat j d => exact beat_sent h hs
  | deliver j message durable => exact deliver_sent h hs
  | hear j beat durable => exact hear_sent h hs
  | ack j voter peer c lsn durable =>
    simp only [step, stepAck] at h
    split_ifs at h
    cases h
    exact .inl hs
  | advanceOwn j c durable =>
    simp only [step, stepAdvanceOwn] at h
    split_ifs at h
    cases h
    exact .inl hs
  | crash j watermark =>
    simp only [step, stepCrash] at h
    split_ifs at h
    cases h
    exact .inl hs

end Steps

section Runs

variable [DecidableEq ι] [DecidableEq β] {g : Cluster ι} {w w' : World ι β}
  {labels : List (Label ι β)} {i : ι} {c : CollectionName}

def Visited (g : Cluster ι) (labels : List (Label ι β)) (u : World ι β) : Prop :=
  ∃ before after, labels = before ++ after ∧ run (step g) (initialWorld g) before = some u

theorem Visited.last (h : run (step g) (initialWorld g) labels = some w) : Visited g labels w :=
  ⟨labels, [], (List.append_nil labels).symm, h⟩

theorem Visited.append {u : World ι β} (h : Visited g labels u) (more : List (Label ι β)) :
    Visited g (labels ++ more) u := by
  obtain ⟨before, after, rfl, hrun⟩ := h
  exact ⟨before, after ++ more, List.append_assoc _ _ _, hrun⟩

theorem visited_concat {u : World ι β} {label : Label ι β}
    (hrun : run (step g) (initialWorld g) (labels ++ [label]) = some w') :
    Visited g (labels ++ [label]) u → Visited g labels u ∨ u = w' := by
  rintro ⟨before, after, heq, hu⟩
  rcases List.eq_nil_or_concat' after with rfl | ⟨after, x, rfl⟩
  · rw [List.append_nil] at heq
    rw [← heq, hrun] at hu
    exact .inr (Option.some.inj hu).symm
  · rw [← List.append_assoc] at heq
    obtain ⟨rfl, -⟩ := List.append_inj' heq rfl
    exact .inl ⟨before, after, rfl, hu⟩

structure Traced (g : Cluster ι) (labels : List (Label ι β)) (w : World ι β) : Prop where
  sent : ∀ t c lsn frames, Sent w t c lsn frames → ∃ u j, Visited g labels u ∧ Leads u j t ∧
    (u.nodes j).progress.committed c = lsn ∧ frames ⊆ ((u.nodes j).cols c).frames
  matched : ∀ i c, 0 < ((w.nodes i).leaderMatched c).2 → ∃ u j, Visited g labels u ∧
    Leads u j ((w.nodes i).leaderMatched c).1 ∧
    ∃ f ∈ ((u.nodes j).cols c).frames, ((w.nodes i).leaderMatched c).2 ≤ f.lsn
  applied : ∀ i c, 0 < ((w.nodes i).cols c).applied → ∃ u j t, Visited g labels u ∧ Leads u j t ∧
    ((w.nodes i).cols c).applied ≤ (u.nodes j).progress.committed c

/-- What a node had of `c` while it led: a part of the log of its term, with all it reported as
committed. -/
structure LedIn (a : Machine ι β) (u : World ι β) (j : ι) (t : ℕ) (c : CollectionName) : Prop where
  leader : (a.leader t).isSome
  log : ((u.nodes j).cols c).frames <+: a.leaderLog t c
  committed : CommitKnown a t c ((u.nodes j).progress.committed c)
  reaches : 0 < (u.nodes j).progress.committed c →
    ∃ f ∈ ((u.nodes j).cols c).frames, f.lsn = (u.nodes j).progress.committed c

omit [DecidableEq ι] [DecidableEq β] in
theorem LedIn.elsewhere {a a' : Machine ι β} {u : World ι β} {j k : ι} {t : ℕ} (h : LedIn a u j t c)
    (he : Elsewhere a a' k) : LedIn a' u j t c :=
  ⟨he.isSome h.leader, h.log.trans (he.grows t c), h.committed.elsewhere he, h.reaches⟩

omit [DecidableEq ι] [DecidableEq β] in
theorem ledIn_present {a : Machine ι β} {j : ι} {t : ℕ} (hsim : Sim g a w) (hl : Leads w j t)
    (c : CollectionName) : LedIn a w j t c := by
  obtain ⟨hleader, rfl⟩ := hl
  have hk := hsim.nodes j
  have hcommitted := (hk.progress hleader).committed c
  have hlead : (a.leader (w.nodes j).term).isSome := by simp [hk.leader hleader]
  have hlog := hsim.leaderLog_eq hleader c
  refine ⟨hlead, hlog ▸ List.prefix_rfl, hcommitted, fun hpos => ?_⟩
  obtain ⟨cm, -, -, -, hpfx, f, hf, hlsn⟩ := hcommitted.mem hsim.inv hpos hlead
  exact ⟨f, hlog ▸ hpfx.subset hf, hlsn⟩

theorem initial_traced : Traced g [] (initialWorld g : World ι β) where
  sent t c lsn frames hs := by
    rcases hs with hs | ⟨-, hs⟩
    · exact absurd hs List.not_mem_nil
    · exact absurd hs List.not_mem_nil
  matched i c hpos := absurd hpos (lt_irrefl 0)
  applied i c hpos := absurd hpos (lt_irrefl 0)

theorem Traced.step (h : Traced g labels w) {label : Label ι β}
    (hrun : run (Replication.step g) (initialWorld g) labels = some w)
    (hstep : Replication.step g w label = some w') : Traced g (labels ++ [label]) w' where
  sent t c lsn frames hs := by
    rcases step_sent hstep hs with hs | ⟨j, hl, hrest⟩
    · obtain ⟨u, j, hu, hrest⟩ := h.sent t c lsn frames hs
      exact ⟨u, j, hu.append _, hrest⟩
    · exact ⟨w, j, (Visited.last hrun).append _, hl, hrest⟩
  matched i c hpos := by
    have hold : (w'.nodes i).leaderMatched c = (w.nodes i).leaderMatched c → ∃ u j,
        Visited g (labels ++ [label]) u ∧ Leads u j ((w'.nodes i).leaderMatched c).1 ∧
        ∃ f ∈ ((u.nodes j).cols c).frames, ((w'.nodes i).leaderMatched c).2 ≤ f.lsn := by
      intro heq
      rw [heq] at hpos ⊢
      obtain ⟨u, j, hu, hrest⟩ := h.matched i c hpos
      exact ⟨u, j, hu.append _, hrest⟩
    cases step_effect (i := i) hstep with
    | quiet _ hm => exact hold (congrFun hm c)
    | own _ _ hm => exact hold (congrFun hm c)
    | restart _ _ _ hm =>
      rw [hm c] at hpos
      exact absurd hpos (lt_irrefl 0)
    | heard t d lsn frames _ hsent hheard =>
      rcases hheard.matched c with heq | ⟨through, rfl, heq, hthrough⟩
      · exact hold heq
      · rw [heq] at hpos ⊢
        obtain ⟨f, hf, hle⟩ := hthrough.resolve_left (Nat.pos_iff_ne_zero.mp hpos)
        obtain ⟨u, j, hu, hl, -, hframes⟩ := h.sent t _ lsn frames hsent
        exact ⟨u, j, hu.append _, hl, f, hframes hf, hle⟩
  applied i c hpos := by
    have hold : ((w'.nodes i).cols c).applied ≤ ((w.nodes i).cols c).applied → ∃ u j t,
        Visited g (labels ++ [label]) u ∧ Leads u j t ∧
        ((w'.nodes i).cols c).applied ≤ (u.nodes j).progress.committed c := by
      intro hle
      obtain ⟨u, j, t, hu, hl, hcommitted⟩ := h.applied i c (Nat.lt_of_lt_of_le hpos hle)
      exact ⟨u, j, t, hu.append _, hl, hle.trans hcommitted⟩
    cases step_effect (i := i) hstep with
    | quiet happ _ => exact hold (happ c).le
    | restart _ _ happ _ => exact hold (happ c)
    | own hl happ _ =>
      have hrun' : run (Replication.step g) (initialWorld g) (labels ++ [label]) = some w' :=
        run_append.mpr ⟨w, hrun, run_cons.mpr ⟨w', hstep, rfl⟩⟩
      rcases happ c with heq | heq
      · exact hold heq.le
      · rcases Nat.le_total ((w'.nodes i).progress.committed c) ((w.nodes i).cols c).applied
          with hle | hle
        · exact hold (by rw [heq, Nat.max_eq_left hle])
        · exact ⟨w', i, _, Visited.last hrun', ⟨hl, rfl⟩, by rw [heq, Nat.max_eq_right hle]⟩
    | heard t d lsn frames _ hsent hheard =>
      rcases Nat.lt_or_ge ((w.nodes i).cols c).applied ((w'.nodes i).cols c).applied with hlt | hge
      · obtain ⟨rfl, -, -, hlsn, -⟩ := hheard.only c hlt
        obtain ⟨u, j, hu, hl, hcommitted, -⟩ := h.sent t _ lsn frames hsent
        exact ⟨u, j, t, hu.append _, hl, hcommitted ▸ hlsn⟩
      · exact hold hge

/-- Along a run: the machine that simulates it, with every leader's log and where things come from.
-/
theorem run_traced {ls : List (Label ι β)} (hrun : run (step g) (initialWorld g) ls = some w) :
    Traced g ls w ∧ ∃ a, Sim g a w ∧ ∀ u j t c, Visited g ls u → Leads u j t → LedIn a u j t c := by
  induction ls using List.reverseRecOn generalizing w with
  | nil =>
    obtain rfl : initialWorld g = w := by simpa [run] using hrun
    refine ⟨initial_traced, _, sim_initial g, ?_⟩
    rintro u j t c ⟨before, after, heq, hu⟩ hl
    obtain ⟨rfl, -⟩ := List.append_eq_nil_iff.mp heq.symm
    obtain rfl : initialWorld g = u := by simpa [run] using hu
    exact ledIn_present (sim_initial g) hl c
  | append_singleton ls label ih =>
    obtain ⟨v, hv, hlast⟩ := run_append.mp hrun
    obtain ⟨v', hstep, hdone⟩ := run_cons.mp hlast
    obtain rfl : v' = w := by simpa [run] using hdone
    obtain ⟨htraced, a, hsim, hled⟩ := ih hv
    obtain ⟨a', j, he, hsim'⟩ := sim_step hsim hstep
    refine ⟨htraced.step hv hstep, a', hsim', fun u j t c hu hl => ?_⟩
    rcases visited_concat hrun hu with hu | rfl
    · exact (hled u j t c hu hl).elsewhere he
    · exact ledIn_present hsim' hl c

omit [DecidableEq ι] [DecidableEq β] in
/-- What a log shares with the log of a term it shares with the term's leader, as far as the leader
was. -/
theorem LedIn.shared {a : Machine ι β} {u : World ι β} {j : ι} {t m : ℕ} {frames : List (Frame β)}
    (h : LedIn a u j t c) (hsim : Sim g a w) (hshared : Shared (a.leaderLog t c) frames m)
    (hreach : ∃ f ∈ ((u.nodes j).cols c).frames, m ≤ f.lsn) :
    Shared ((u.nodes j).cols c).frames frames m := by
  obtain ⟨q, x, hq, hqf, rfl⟩ := hshared
  obtain ⟨f, hf, hle⟩ := hreach
  obtain ⟨p, hp⟩ := exists_isPrefix_of_mem hf
  have hpq := (hsim.inv.leadOk t c).wellFormed.prefix_of_pos_le hq (hp.trans h.log) hle
  exact ⟨q, x, hpq.trans hp, hqf, rfl⟩

omit [DecidableEq ι] [DecidableEq β] in
/-- What a node has published is in the log of every leader that has committed as far. -/
theorem LedIn.shared_applied {a : Machine ι β} {u : World ι β} {j : ι} {t : ℕ} (h : LedIn a u j t c)
    (hsim : Sim g a w) (hpos : 0 < ((w.nodes i).cols c).applied)
    (hle : ((w.nodes i).cols c).applied ≤ (u.nodes j).progress.committed c) :
    Shared ((u.nodes j).cols c).frames ((w.nodes i).cols c).frames
      ((w.nodes i).cols c).applied := by
  have hcpos : 0 < (u.nodes j).progress.committed c := Nat.lt_of_lt_of_le hpos hle
  obtain ⟨f, hf, hlsn⟩ := h.reaches hcpos
  refine h.shared hsim ?_ ⟨f, hf, hlsn ▸ hle⟩
  obtain ⟨cm, hcm, hkey, hterm, hpfx, x, hx, hxlsn⟩ := h.committed.mem hsim.inv hcpos h.leader
  obtain ⟨cm', hcm', hkey', -, q, y, hq, hqf, hy⟩ :=
    ((hsim.nodes i).applied c).resolve_left hpos.ne'
  -- Both commits are in the log of the later of their terms.
  obtain ⟨T, hT, hT', hsome⟩ : ∃ T, cm.term ≤ T ∧ cm'.term ≤ T ∧ (a.leader T).isSome := by
    rcases Nat.le_total cm.term cm'.term with hle | hle
    · exact ⟨cm'.term, hle, le_rfl, leader_isSome_of_commit hsim hcm'⟩
    · exact ⟨cm.term, le_rfl, hle, leader_isSome_of_commit hsim hcm⟩
  have hin := hsim.inv.leader_completeness (groupQuorum_inter g) hcm hT hsome
  have hin' := hsim.inv.leader_completeness (groupQuorum_inter g) hcm' hT' hsome
  rw [hkey] at hin
  rw [hkey'] at hin'
  obtain ⟨p, hp⟩ := exists_isPrefix_of_mem hx
  have hpos_le : Stamped.pos y ≤ Stamped.pos x := by
    simp only [stamped_pos]
    omega
  have hqp := (hsim.inv.leadOk T c).wellFormed.prefix_of_pos_le (hq.trans hin')
    (hp.trans hin) hpos_le
  exact ⟨q, y, hqp.trans (hp.trans hpfx), hqf, hy⟩

/-- In every run, what a node has published was announced by a leader whose log it has through
there. A step other than a crash never lowers the watermark. One that raises it is a commit of a
leader's own, or a batch or heartbeat: the watermark stays at or below the commit index announced
and the position through which the log is known to match in that term, and the log matches that of a
leader of the term. -/
theorem follower_publishes_matched (hrun : run (step g) (initialWorld g) labels = some w) (i : ι)
    (c : CollectionName) :
    (0 < ((w.nodes i).cols c).applied → ∃ u j t, Visited g labels u ∧ Leads u j t ∧
      ((w.nodes i).cols c).applied ≤ (u.nodes j).progress.committed c ∧
      Shared ((u.nodes j).cols c).frames ((w.nodes i).cols c).frames ((w.nodes i).cols c).applied) ∧
    ∀ label w', step g w label = some w' → (∀ watermark, label ≠ .crash i watermark) →
      ((w.nodes i).cols c).applied ≤ ((w'.nodes i).cols c).applied ∧
      (((w.nodes i).cols c).applied < ((w'.nodes i).cols c).applied →
        (w'.nodes i).isLeader = true ∧
          ((w'.nodes i).cols c).applied ≤ (w'.nodes i).progress.committed c ∨
        ∃ t lsn m, notice w i label = some (t, c, lsn) ∧ (w'.nodes i).leaderMatched c = (t, m) ∧
          ((w'.nodes i).cols c).applied ≤ lsn ∧ ((w'.nodes i).cols c).applied ≤ m ∧
          ∃ u j, Visited g (labels ++ [label]) u ∧ Leads u j t ∧
            Shared ((u.nodes j).cols c).frames ((w'.nodes i).cols c).frames m) := by
  obtain ⟨htraced, a, hsim, hled⟩ := run_traced hrun
  constructor
  · intro hpos
    obtain ⟨u, j, t, hu, hl, hle⟩ := htraced.applied i c hpos
    exact ⟨u, j, t, hu, hl, hle, (hled u j t c hu hl).shared_applied hsim hpos hle⟩
  · intro label w' hstep hcrash
    cases step_effect (i := i) hstep with
    | quiet happ _ => exact ⟨(happ c).ge, fun hlt => absurd (happ c) (Nat.ne_of_gt hlt)⟩
    | restart watermark hl _ _ => exact absurd hl (hcrash watermark)
    | own hl happ _ =>
      rcases happ c with heq | heq
      · exact ⟨heq.ge, fun hlt => absurd heq (Nat.ne_of_gt hlt)⟩
      · refine ⟨heq ▸ le_max_left _ _, fun hlt => .inl ⟨hl, ?_⟩⟩
        omega
    | heard t d lsn frames hnotice hsent hheard =>
      refine ⟨hheard.le c, fun hlt => .inr ?_⟩
      obtain ⟨rfl, hterm, hmt, hlsn, hm⟩ := hheard.only c hlt
      have hrun' : run (step g) (initialWorld g) (labels ++ [label]) = some w' :=
        run_append.mpr ⟨w, hrun, run_cons.mpr ⟨w', hstep, rfl⟩⟩
      obtain ⟨htraced', a', hsim', hled'⟩ := run_traced hrun'
      have hpos : 0 < ((w'.nodes i).leaderMatched c).2 := by omega
      obtain ⟨u, j, hu, hl, hreach⟩ := htraced'.matched i c hpos
      rw [hmt] at hl
      have hshared := (((hsim'.nodes i).matched c).2 (hmt.trans hterm.symm) hpos).2
      rw [hterm] at hshared
      exact ⟨t, lsn, _, hnotice, Prod.ext hmt rfl, hlsn, hm, u, j, hu, hl,
        (hled' u j t c hu hl).shared hsim' hshared hreach⟩

/-- Node `b` has a second frame of `a` when `c`, which has the first one only, wins term 1, sends it
that one, and commits another frame at the second position with `d` and `e`. -/
def staleTail : List (Label (Fin 5) ℕ) :=
  [.append 0 ['k'] 7, .noteAppend 0 ['k'] 1, .send 0 ['k'] 0 1, .deliver 2 0 1, .append 0 ['k'] 8,
    .send 0 ['k'] 0 2, .deliver 1 0 2, .sample 2, .stand 2, .vote 3 0 false, .vote 4 0 false,
    .countVote 2 3 ['d'], .countVote 2 4 ['e'], .becomeLeader 2, .send 2 ['k'] 0 1, .deliver 1 0 2,
    .append 2 ['k'] 9, .noteAppend 2 ['k'] 2, .send 2 ['k'] 0 2, .deliver 3 0 2, .deliver 4 0 2,
    .ack 2 3 ['d'] ['k'] 2 2, .ack 2 4 ['e'] ['k'] 2 2, .beat 2 ['k']]

/-- The heartbeat that announces the second position publishes the first one only. -/
theorem follower_publishes_matched_stale :
    ∃ w w' : World (Fin 5) ℕ,
      run (step Streaming.fiveMembers) (initialWorld Streaming.fiveMembers) staleTail = some w ∧
      step Streaming.fiveMembers w (.hear 1 0 2) = some w' ∧
      w.beats.map Beat.committed = [2] ∧ ((w'.nodes 1).cols ['k']).applied = 1 ∧
      ((w'.nodes 1).cols ['k']).frames = [⟨0, 1, 0, 0, 7⟩, ⟨0, 2, 0, 1, 8⟩] ∧
      ∃ (u : World (Fin 5) ℕ) (j : Fin 5), Leads u j 1 ∧
        Shared ((u.nodes j).cols ['k']).frames ((w'.nodes 1).cols ['k']).frames 1 := by
  have hout : (run (step Streaming.fiveMembers) (initialWorld Streaming.fiveMembers) staleTail).any
      (fun w => decide (((w.nodes 1).cols ['k']).applied = 0) &&
        decide (w.beats.map Beat.committed = [2]) &&
        (step Streaming.fiveMembers w (.hear 1 0 2)).any fun w' =>
          decide (((w'.nodes 1).cols ['k']).applied = 1) &&
          decide ((w'.nodes 1).isLeader = false) &&
            decide ((w'.nodes 1).leaderMatched ['k'] = (1, 1)) &&
          decide (((w'.nodes 1).cols ['k']).frames = [⟨0, 1, 0, 0, 7⟩, ⟨0, 2, 0, 1, 8⟩])) =
            true := by
    decide
  obtain ⟨w, hrun, hw⟩ := (Option.any_eq_true _ _).mp hout
  simp only [Bool.and_eq_true, decide_eq_true_eq] at hw
  obtain ⟨⟨h0, hbeats⟩, hw⟩ := hw
  obtain ⟨w', hstep, hw'⟩ := (Option.any_eq_true _ _).mp hw
  simp only [Bool.and_eq_true, decide_eq_true_eq] at hw'
  obtain ⟨⟨⟨happ, hl⟩, hm⟩, hframes⟩ := hw'
  have hmoved := ((follower_publishes_matched hrun 1 ['k']).2 _ w' hstep (by simp)).2 (by omega)
  rcases hmoved with ⟨hl', -⟩ | ⟨t, lsn, m, -, hmatched, -, -, u, j, -, hlead, hshared⟩
  · simp [hl] at hl'
  · obtain ⟨rfl, rfl⟩ : 1 = t ∧ 1 = m := Prod.ext_iff.mp (hm.symm.trans hmatched)
    exact ⟨w, w', hrun, hstep, hbeats, happ, hframes, u, j, hlead, hshared⟩

end Runs

end DewDB.FollowerCommit
