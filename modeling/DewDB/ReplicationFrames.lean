import DewDB.ReplicationElections

/-!
# Appends and replication of the protocol as steps of the log machine

A leader's append extends the log of its term, a message is a run of that log, and a replica that
takes frames of a message moves to a prefix of it. A watermark moves to the lowest of the leader's
commit index, what matches the leader and what is durable, and all three are positions of one log.
-/
namespace DewDB.ReplicationSim

open Endpoint QuorumConfig Vote Election CollectionLog FrameAppend LeaderProgress ReplicaNode
open Replication
open LogReplication hiding Initial

variable {ι β : Type} [DecidableEq ι] {g : Cluster ι} {a a' : Machine ι β}
  {w w' : World ι β} {i : ι} {n n' : Node β} {c : CollectionName} {t : ℕ}

@[simp] theorem setNode_nodes_self : (w.setNode i n).nodes i = n := by simp [World.setNode]

@[simp] theorem setNode_setNode : (w.setNode i n).setNode i n' = w.setNode i n' := by
  simp [World.setNode]

omit [DecidableEq ι] in
@[simp] theorem publish_nodes : (w.publish i c).nodes = w.nodes := rfl

section Machine

theorem elsewhere_append {e : Frame β} (hterm : e.term = a.term i) : Elsewhere a
    (a.append i c e) i :=
  { Elsewhere.refl a i with
    log := fun j hj => by simp [State.append, State.setLog, hj]
    leaderLog := fun t d => by
      by_cases ht : t = a.term i
      · subst ht
        by_cases hd : d = c
        · subst hd
          exact ⟨[e], by simp [State.append], fun _ => by simpa using hterm⟩
        · exact ⟨[], by simp [State.append, hd], by simp⟩
      · exact ⟨[], by simp [State.append, ht], by simp⟩ }

theorem elsewhere_receive (a : Machine ι β) (i : ι) (t : ℕ) (c : CollectionName)
    (lg : List (Frame β)) : Elsewhere a (a.receive i t c lg) i :=
  { Elsewhere.refl a i with
    term := fun j hj => by simp [State.receive, hj]
    log := fun j hj => by simp [State.receive, State.setLog, hj] }

omit [DecidableEq ι] in
theorem CommitKnown.mem (hinv : Inv a (GroupQuorum g.toNodeGroup)) {m : ℕ} (h : CommitKnown a t c m)
    (hm : 0 < m) (hlead : (a.leader t).isSome) : ∃ cm ∈ a.commits, cm.key = c ∧ cm.term ≤ t ∧
      cm.entries <+: a.leaderLog t c ∧ ∃ f ∈ cm.entries, f.lsn = m := by
  rcases h with rfl | ⟨cm, hcm, rfl, ht, hf⟩
  · exact absurd hm (lt_irrefl 0)
  · exact ⟨cm, hcm, rfl, ht, hinv.leader_completeness (groupQuorum_inter g) hcm ht hlead, hf⟩

end Machine

section Nodes

omit [DecidableEq ι]

theorem NodeSim.setCol (hk : NodeSim g.toNodeGroup a i n) (he : Elsewhere a a' i)
    (hterm : a'.term i = n.term) {col : Collection β} {m last : ℕ}
    (hlog : ∀ d, a'.log i d = if d = c then col.frames else a.log i d) (hcol : ColOk col)
    (hcounter : ∀ f ∈ col.frames, f.lsn ≤ m) (hm : n.nextLsn ≤ m)
    (happ : AppliedOk a' n.term c col)
    (hmatched : MatchedOk a' n.term c col.frames (n.leaderMatched c))
    (hleader : a'.leader = a.leader) (hvotes : a'.votes = a.votes)
    (hcands : a'.candidacies = a.candidacies) :
    NodeSim g.toNodeGroup a' i { n.setCol c col with nextLsn := m, lastLogTerm := last } := by
  have hcols : ∀ d, d ≠ c → (n.setCol c col).cols d = n.cols d := fun d hd => by
    simp [Node.setCol, hd]
  have hat : (n.setCol c col).cols c = col := by simp [Node.setCol]
  have hname : c ∈ (n.setCol c col).names := by
    simp only [Node.setCol]
    split_ifs with h
    · exact h
    · simp
  have hnames : n.names ⊆ (n.setCol c col).names := by
    simp only [Node.setCol]
    split_ifs
    · exact List.Subset.refl _
    · exact List.subset_append_left _ _
  refine ⟨hterm, fun d => ?_, fun d => ?_, fun d hd => ?_, fun d => ?_, fun hnil => ?_,
    fun hl => he.leader _ _ (hk.leader hl), fun hl => (hk.progress hl).elsewhere he, fun d => ?_,
    fun d => ?_, hk.campaign.elsewhere he fun t h => hleader ▸ h, hk.leading, hk.idle,
    by rw [hvotes]; exact hk.votedBallot, by rw [hcands]; exact hk.votedStood⟩
  · by_cases hd : d = c
    · subst hd
      rw [hlog, if_pos rfl]
      exact congrArg Collection.frames hat.symm
    · rw [hlog, if_neg hd, hk.log]
      exact congrArg Collection.frames (hcols d hd).symm
  · by_cases hd : d = c
    · subst hd
      exact hat.symm ▸ hcol
    · exact (hcols d hd).symm ▸ hk.colOk d
  · have hdc : d ≠ c := fun h => hd (h ▸ hname)
    exact (hcols d hdc).trans (hk.absent d fun h => hd (hnames h))
  · by_cases hd : d = c
    · subst hd
      exact hat.symm ▸ hcounter
    · intro f hf
      rw [show _ = n.cols d from hcols d hd] at hf
      exact (hk.counter d f hf).trans hm
  · rw [show (n.setCol c col).names = [] from hnil] at hname
    simp at hname
  · by_cases hd : d = c
    · subst hd
      exact hat.symm ▸ happ
    · exact (hcols d hd).symm ▸ (hk.applied d).elsewhere he
  · by_cases hd : d = c
    · subst hd
      exact hat.symm ▸ hmatched
    · exact (hcols d hd).symm ▸ (hk.matched d).elsewhere he

end Nodes

section Leaders

omit [DecidableEq ι] in
theorem Sim.leaderLog_eq (hsim : Sim g a w) (hl : (w.nodes i).isLeader = true)
    (c : CollectionName) : a.leaderLog (w.nodes i).term c = ((w.nodes i).cols c).frames := by
  have hk := hsim.nodes i
  have hlead := hk.leader hl
  rw [← hk.term] at hlead ⊢
  rw [← hsim.inv.leadLog i hlead, hk.log c]

/-- A leader's append extends its log and the log of its term by one frame of that term. -/
theorem sim_appendNode (hsim : Sim g a w) (hl : (w.nodes i).isLeader = true) (entry : β) :
    ∃ a', Elsewhere a a' i ∧ Sim g a' (w.setNode i ((w.nodes i).append c (w.nodes i).term entry)) ∧
      (⟨(w.nodes i).term, (w.nodes i).nextLsn + 1, ((w.nodes i).cols c).lastAppendedTerm,
        ((w.nodes i).cols c).lastAppendedLsn, entry⟩ :
          Frame β) ∈ a'.leaderLog (w.nodes i).term c := by
  have hk := hsim.nodes i
  have hlead : a.leader (a.term i) = some i := by rw [hk.term]; exact hk.leader hl
  let e : Frame β := ⟨(w.nodes i).term, (w.nodes i).nextLsn + 1,
    ((w.nodes i).cols c).lastAppendedTerm, ((w.nodes i).cols c).lastAppendedLsn, entry⟩
  have hterm : e.term = a.term i := hk.term.symm
  have hpos : ∀ x ∈ a.log i c, Stamped.pos x < Stamped.pos e := by
    intro x hx
    rw [hk.log] at hx
    exact Nat.lt_succ_of_le (hk.counter c x hx)
  have hchained : Chained (((w.nodes i).cols c).frames ++ [e]) := by
    refine (hk.colOk c).chained.concat (hk.colOk c).lsn (hk.colOk c).term ?_
    rcases List.eq_nil_or_concat' ((w.nodes i).cols c).frames with hnil | ⟨p, x, hp⟩
    · have : ((w.nodes i).cols c).lastAppendedLsn = 0 := by rw [(hk.colOk c).lsn, hnil, lsnOf_nil]
      simp [e, this]
    · have : ((w.nodes i).cols c).lastAppendedLsn = x.lsn := by
        rw [(hk.colOk c).lsn, hp, lsnOf_concat]
      have := hk.counter c x (by simp [hp])
      simp only [e]
      omega
  have he := elsewhere_append (c := c) hterm
  have hown := hsim.leaderLog_eq hl c
  refine ⟨_, he, hsim.setNode (hsim.inv.append groupQuorum_mono hlead hterm hpos) he ?_ ?_,
    by simp [State.append, hk.term, e]⟩
  · refine hk.setCol he hk.term (fun d => ?_) ⟨by simp [Collection.append],
      by simp [Collection.append], hchained⟩ (fun f hf => ?_) (Nat.le_succ _) ?_ ?_ rfl rfl rfl
    · by_cases hd : d = c
      · subst hd
        simp [State.append, State.setLog, hk.log, Collection.append, e]
      · simp [State.append, State.setLog, hd]
    · rcases List.mem_append.mp hf with hf | hf
      · exact (hk.counter c f hf).trans (Nat.le_succ _)
      · obtain rfl := List.mem_singleton.mp hf
        exact le_rfl
    · rcases (hk.applied c).elsewhere he with hzero | ⟨cm, hcm, hkey, ht, hsh⟩
      · exact .inl hzero
      · exact .inr ⟨cm, hcm, hkey, ht, hsh.trans (List.prefix_append _ _)⟩
    · obtain ⟨hle, hm⟩ := (hk.matched c).elsewhere he
      exact ⟨hle, fun ht hp => ⟨(hm ht hp).1, (hm ht hp).2.trans (List.prefix_append _ _)⟩⟩
  · intro u d
    by_cases hu : u = a.term i
    · subst hu
      by_cases hd : d = c
      · subst hd
        rw [← hk.term] at hown
        simpa [State.append, hown] using hchained
      · simpa [State.append, hd] using hsim.records.chained _ d
    · simpa [State.append, hu] using hsim.records.chained u d

theorem sim_append (hsim : Sim g a w) {entry : β} (h : stepAppend w i c entry = some w') :
    ∃ a', Elsewhere a a' i ∧ Sim g a' w' := by
  unfold stepAppend at h
  dsimp only at h
  split_ifs at h with hl
  obtain rfl := Option.some.inj h
  obtain ⟨a', he, hsim', hmem⟩ := sim_appendNode (c := c) hsim hl entry
  refine ⟨a', he, hsim'.records_only rfl { hsim'.records with noted := fun x hx => ?_ }⟩
  rcases List.mem_cons.mp hx with rfl | hx
  · exact ⟨_, hmem, rfl, rfl⟩
  · exact hsim'.records.noted x hx

omit [DecidableEq ι] in
/-- A step of node `i` that leaves its logs alone and opens a collection at most. -/
theorem NodeSim.touch (hk : NodeSim g.toNodeGroup a i n) {m : ℕ} (hm : n.nextLsn ≤ m) :
    NodeSim g.toNodeGroup a i
      { n.setCol c (n.cols c) with nextLsn := m, lastLogTerm := n.lastLogTerm } := by
  refine hk.setCol (Elsewhere.refl a i) hk.term (fun d => ?_) (hk.colOk c)
    (fun f hf => (hk.counter c f hf).trans hm) hm (hk.applied c) (hk.matched c) rfl rfl rfl
  split_ifs with hd
  · rw [hd, hk.log]
  · rfl

theorem sim_appendFails (hsim : Sim g a w) (h : stepAppendFails w i c = some w') :
    ∃ a', Elsewhere a a' i ∧ Sim g a' w' := by
  unfold stepAppendFails at h
  dsimp only at h
  split_ifs at h with hl
  obtain rfl := Option.some.inj h
  exact ⟨a, Elsewhere.refl a i, sim_role hsim ((hsim.nodes i).touch (Nat.le_succ _))⟩

theorem sim_noteNode (hsim : Sim g a w) (hl : (w.nodes i).isLeader = true) {lsn : ℕ}
    (hframe : ∃ f ∈ a.leaderLog (w.nodes i).term c, f.term = (w.nodes i).term ∧ f.lsn = lsn) :
    Sim g a (w.setNode i ((w.nodes i).noteLeaderAppend c lsn)) := by
  have hk := hsim.nodes i
  have hp := hk.progress hl
  rw [Node.noteLeaderAppend, if_pos hl]
  refine sim_role hsim (hk.role _ ⟨rfl, rfl, rfl, rfl, rfl⟩ rfl rfl
    (fun _ => ⟨hl, hk.leading hl, hp.matched, hp.committed, fun d m hm => ?_⟩) hk.idle hk.campaign)
  rcases noteLeaderAppend_termFloor hm with hm | ⟨rfl, rfl⟩
  · exact hp.floor d m hm
  · exact hframe

theorem sim_noteAppend (hsim : Sim g a w) {lsn : ℕ} (h : stepNoteAppend w i c lsn = some w') :
    ∃ a', Elsewhere a a' i ∧ Sim g a' w' := by
  unfold stepNoteAppend at h
  dsimp only at h
  split_ifs at h with hguard
  obtain rfl := Option.some.inj h
  exact ⟨a, Elsewhere.refl a i, sim_noteNode hsim hguard.1 (hsim.records.noted _ hguard.2)⟩

omit [DecidableEq ι] in
theorem sim_send (hsim : Sim g a w) {skip count : ℕ} (h : stepSend w i c skip count = some w') :
    ∃ a', Elsewhere a a' i ∧ Sim g a' w' := by
  unfold stepSend at h
  dsimp only at h
  split_ifs at h with hl
  obtain rfl := Option.some.inj h
  have hk := hsim.nodes i
  refine ⟨a, Elsewhere.refl a i, hsim.records_only rfl
    { hsim.records with messages := fun m hm => ?_ }⟩
  rcases List.mem_cons.mp hm with rfl | hm
  · refine ⟨by simp [hk.leader hl], ⟨((w.nodes i).cols c).frames.take skip, ?_⟩,
      (hk.progress hl).committed c⟩
    rw [hsim.leaderLog_eq hl c]
    nth_rewrite 3 [← List.take_append_drop skip ((w.nodes i).cols c).frames]
    exact (List.prefix_append_right_inj _).mpr (List.take_prefix _ _)
  · exact hsim.records.messages m hm

omit [DecidableEq ι] in
theorem sim_beat (hsim : Sim g a w) (hl : (w.nodes i).isLeader = true) :
    Sim g a { w with
      beats := ⟨(w.nodes i).term, c, (w.nodes i).progress.committed c⟩ :: w.beats } := by
  have hk := hsim.nodes i
  refine hsim.records_only rfl { hsim.records with beats := fun b hb => ?_ }
  rcases List.mem_cons.mp hb with rfl | hb
  · exact ⟨by simp [hk.leader hl], (hk.progress hl).committed c⟩
  · exact hsim.records.beats b hb

end Leaders

section Watermarks

omit [DecidableEq ι] in
theorem AppliedOk.published (hinv : Inv a (GroupQuorum g.toNodeGroup))
    (hk : NodeSim g.toNodeGroup a i n)
    {f : Frame β} (hf : f ∈ cut (n.cols c).applied (n.cols c).frames) :
    ∃ cm ∈ a.commits, cm.key = c ∧ f ∈ cm.entries := by
  have hwf : WellFormed (n.cols c).frames := hk.log c ▸ (hinv.logOk i c).wellFormed
  rcases hk.applied c with h0 | ⟨cm, hcm, hkey, -, q, x, hq, hqf, hx⟩
  · rw [h0, cut_zero (hk.colOk c).chained] at hf
    simp at hf
  · rw [← hx, cut_eq_of_isPrefix hwf hqf] at hf
    exact ⟨cm, hcm, hkey, hq.subset hf⟩

omit [DecidableEq ι] in
theorem sim_publish (hsim : Sim g a w) : Sim g a (w.publish i c) := by
  refine hsim.records_only rfl { hsim.records with published := fun x hx => ?_ }
  rcases List.mem_append.mp hx with hx | hx
  · obtain ⟨f, hf, rfl⟩ := List.mem_map.mp hx
    exact AppliedOk.published hsim.inv (hsim.nodes i) hf
  · exact hsim.records.published x hx

omit [DecidableEq ι] in
theorem NodeSim.applyCommitted (hk : NodeSim g.toNodeGroup a i n) {m : ℕ}
    (hm : 0 < m → ∃ cm ∈ a.commits, cm.key = c ∧ cm.term ≤ n.term ∧
      Shared cm.entries (n.cols c).frames m) :
    NodeSim g.toNodeGroup a i (n.applyCommitted c m) := by
  unfold Node.applyCommitted
  split_ifs with h0
  · exact hk
  have happ : AppliedOk a n.term c ((n.cols c).applyCommitted m) := by
    rcases Nat.le_total m (n.cols c).applied with hle | hle
    · simpa [AppliedOk, Collection.applyCommitted, hle] using hk.applied c
    · have := hm (by omega)
      exact .inr (by simpa [Collection.applyCommitted, hle] using this)
  have hnode : NodeSim g.toNodeGroup a i { n.setCol c ((n.cols c).applyCommitted m) with
      nextLsn := n.nextLsn, lastLogTerm := n.lastLogTerm } := by
    refine hk.setCol (Elsewhere.refl a i) hk.term (fun d => ?_) ?_ (hk.counter c) le_rfl happ
      (hk.matched c) rfl rfl rfl
    · split_ifs with hd
      · rw [hd, hk.log]
        rfl
      · rfl
    · exact ⟨(hk.colOk c).lsn, (hk.colOk c).term, (hk.colOk c).chained⟩
  exact hnode

omit [DecidableEq ι] in
theorem NodeSim.noteMatched (hk : NodeSim g.toNodeGroup a i n) {known : ℕ × ℕ}
    (h : MatchedOk a n.term c (n.cols c).frames known) :
    NodeSim g.toNodeGroup a i { n with leaderMatched := Function.update n.leaderMatched c known } :=
  { hk with
    matched := fun d => by
      by_cases hd : d = c
      · subst hd
        simpa using h
      · simpa [hd] using hk.matched d }

omit [DecidableEq ι] in
theorem shared_durable {durable : ℕ} (h : n.Durable c durable) (hpos : 0 < durable) :
    Shared (n.cols c).frames (n.cols c).frames durable := by
  rcases h with h0 | ⟨f, hf, rfl⟩
  · omega
  · exact Shared.self hf

omit [DecidableEq ι] in
/-- The lowest of the leader's commit index, a matched position and a durable one was committed. -/
theorem NodeSim.publishThrough (hinv : Inv a (GroupQuorum g.toNodeGroup))
    (hk : NodeSim g.toNodeGroup a i n) (hterm : n.term = t) (hlead : (a.leader t).isSome)
    {lsn through durable : ℕ} (hlsn : CommitKnown a t c lsn) (hdurable : n.Durable c durable)
    (hthrough : 0 < through → Shared (a.leaderLog t c) (n.cols c).frames through) :
    NodeSim g.toNodeGroup a i (Node.applyCommitted
      { n with leaderMatched := Function.update n.leaderMatched c (t, through) } c
      (min (min lsn through) durable)) := by
  subst hterm
  have hwf : WellFormed (n.cols c).frames := hk.log c ▸ (hinv.logOk i c).wellFormed
  refine (hk.noteMatched ⟨le_rfl, fun _ hpos => ⟨hlead, hthrough hpos⟩⟩).applyCommitted
    fun hpos => ?_
  obtain ⟨cm, hcm, hkey, ht, hlog, f, hf, hfl⟩ := hlsn.mem hinv (by omega) hlead
  have hcommitted : Shared (a.leaderLog n.term c) cm.entries lsn := by
    obtain ⟨q, hq⟩ := exists_isPrefix_of_mem hf
    exact ⟨q, f, hq.trans hlog, hq, hfl⟩
  have hboth := Shared.min (hinv.leadOk n.term c).wellFormed hcommitted (hthrough (by omega))
  exact ⟨cm, hcm, hkey, ht, Shared.min hwf hboth.symm (shared_durable hdurable (by omega))⟩

omit [DecidableEq ι] in
/-- What `note_leader_committed` publishes is committed, and what it notes matches the leader. -/
theorem NodeSim.noteLeaderCommitted (hinv : Inv a (GroupQuorum g.toNodeGroup))
    (hk : NodeSim g.toNodeGroup a i n) (hlead : (a.leader t).isSome) {lsn durable : ℕ}
    {matched : Option ℕ} (hlsn : CommitKnown a t c lsn)
    (hm : ∀ m, matched = some m → Shared (a.leaderLog t c) (n.cols c).frames m)
    (hdurable : n.Durable c durable) :
    NodeSim g.toNodeGroup a i (n.noteLeaderCommitted c t lsn matched durable) := by
  unfold Node.noteLeaderCommitted
  by_cases hguard : n.isLeader = true ∨ n.term ≠ t
  · rwa [if_pos hguard]
  rw [if_neg hguard]
  have hterm : n.term = t := by simpa using fun h => hguard (.inr h)
  have hwf : WellFormed (n.cols c).frames := hk.log c ▸ (hinv.logOk i c).wellFormed
  dsimp only
  generalize hknown : (if (n.leaderMatched c).1 = t then (n.leaderMatched c).2 else 0) = known
  have hnoted : 0 < known → Shared (a.leaderLog t c) (n.cols c).frames known := by
    intro hpos
    split_ifs at hknown with ht
    · subst hknown
      exact hterm ▸ ((hk.matched c).2 (ht.trans hterm.symm) hpos).2
    · omega
  refine hk.publishThrough hinv hterm hlead hlsn hdurable ?_
  cases matched with
  | none => exact hnoted
  | some m =>
    intro hpos
    dsimp only at hpos ⊢
    rcases Nat.le_total (min m durable) known with hle | hle
    · rw [Nat.max_eq_left hle] at hpos ⊢
      exact hnoted hpos
    · rw [Nat.max_eq_right hle] at hpos ⊢
      exact Shared.min hwf (hm m rfl).symm (shared_durable hdurable (by omega))

end Watermarks

section Frames

omit [DecidableEq ι] in
theorem applyCommitted_frames (n : Node β) (c d : CollectionName) (m : ℕ) :
    ((n.applyCommitted c m).cols d).frames = (n.cols d).frames := by
  unfold Node.applyCommitted
  split_ifs
  · rfl
  · by_cases hd : d = c
    · subst hd
      simp [Node.setCol, Collection.applyCommitted]
    · simp [Node.setCol, hd]

theorem noteLeaderCommitted_frames (n : Node β) (c d : CollectionName) (t lsn durable : ℕ)
    (matched : Option ℕ) :
    ((n.noteLeaderCommitted c t lsn matched durable).cols d).frames = (n.cols d).frames := by
  unfold Node.noteLeaderCommitted
  split
  · rfl
  · exact applyCommitted_frames _ c d _

omit [DecidableEq ι] in
/-- The log of a follower of the term stands against the log of its leader. -/
theorem Sim.against (hsim : Sim g a w) (hterm : (w.nodes i).term = t) (hlead : (a.leader t).isSome)
    (c : CollectionName) : Against a c ((w.nodes i).cols c) (a.leaderLog t c) where
  leaders u := (hsim.inv.leadOk u c).wellFormed
  own := (hsim.nodes i).log c ▸ hsim.inv.logOk i c
  ok := (hsim.nodes i).colOk c
  leading := hsim.inv.leadOk t c
  chained := hsim.records.chained t c
  applied := by
    refine ((hsim.nodes i).applied c).imp_right fun ⟨cm, hcm, hkey, ht, hsh⟩ => ?_
    subst hkey
    exact hsh.symm.trans
      (hsim.inv.leader_completeness (groupQuorum_inter g) hcm (hterm ▸ ht) hlead)

omit [DecidableEq ι] in
@[simp] theorem takeBatch_cols_self (n : Node β) (c : CollectionName) (r : BatchResult β) :
    (n.takeBatch c r).cols c = r.col := by
  simp [Node.takeBatch, Node.setCol]

/-- A batch of the leader's log is taken as one move to a prefix of it, or not at all. -/
theorem sim_takeBatch (hsim : Sim g a w) (hterm : (w.nodes i).term = t)
    (hlead : (a.leader t).isSome) {r : BatchResult β}
    {fs : List (Frame β)}
    (hr : BatchOk (a.leaderLog t c) ((w.nodes i).cols c) 0 none fs r) :
    ∃ a', Elsewhere a a' i ∧ a'.leader = a.leader ∧ a'.leaderLog = a.leaderLog ∧
      Sim g a' (w.setNode i ((w.nodes i).takeBatch c r)) := by
  have hk := hsim.nodes i
  have hkeep : ∀ p, p <+: ((w.nodes i).cols c).frames → p <+: a.leaderLog t c →
      p <+: r.col.frames := by
    intro p hp hpl
    rcases hr.log with heq | ⟨-, hkeep⟩
    · rwa [heq]
    · exact hkeep p hp hpl
  have hcounter : ∀ f ∈ r.col.frames, f.lsn ≤ max (w.nodes i).nextLsn r.highest := by
    intro f hf
    rcases hr.counter f hf with hf | hf
    · exact (hk.counter c f hf).trans (le_max_left _ _)
    · exact hf.trans (le_max_right _ _)
  have happ : AppliedOk a (w.nodes i).term c r.col := by
    refine (hk.applied c).imp (fun h0 => hr.applied.trans h0) fun ⟨cm, hcm, hkey, ht, hsh⟩ => ?_
    obtain ⟨q, f, hq, hqf, hf⟩ := hsh
    have hlog := hsim.inv.leader_completeness (groupQuorum_inter g) hcm (hterm ▸ ht) hlead
    exact ⟨cm, hcm, hkey, ht, q, f, hq, hkeep _ hqf (hkey ▸ hq.trans hlog),
      hf.trans hr.applied.symm⟩
  have hmatched : MatchedOk a (w.nodes i).term c r.col.frames ((w.nodes i).leaderMatched c) := by
    refine ⟨(hk.matched c).1, fun ht hpos => ?_⟩
    obtain ⟨hs, q, f, hq, hqf, hf⟩ := (hk.matched c).2 ht hpos
    exact ⟨hs, q, f, hq, hkeep _ hqf (hterm ▸ hq), hf⟩
  rcases hr.log with heq | ⟨hpfx, -⟩
  · refine ⟨a, Elsewhere.refl a i, rfl, rfl, sim_role hsim (hk.setCol (Elsewhere.refl a i) hk.term
      (fun d => ?_) hr.ok hcounter (le_max_left _ _) happ hmatched rfl rfl rfl)⟩
    split_ifs with hd
    · rw [hd, hk.log, heq]
    · rfl
  · have he := elsewhere_receive a i t c r.col.frames
    have hinv := hsim.inv.receive groupQuorum_mono (v := i) (by rw [hk.term, hterm]) hlead hpfx
      (fun p hp hpl => hkeep p (hk.log c ▸ hp) hpl)
    refine ⟨_, he, rfl, rfl, hsim.setNode hinv he (hk.setCol he (by simp [State.receive, hterm])
      (fun d => ?_) hr.ok hcounter (le_max_left _ _) (happ.elsewhere he) (hmatched.elsewhere he)
      rfl rfl rfl) hsim.records.chained⟩
    by_cases hd : d = c
    · subst hd
      simp [State.receive, State.setLog]
    · simp [State.receive, State.setLog, hd]

omit [DecidableEq ι] in
/-- A success comes with the whole batch in the log, and names a frame of it or the log's tail. -/
theorem batch_replied {lead pre fs : List (Frame β)} {col : Collection β} {r : BatchResult β}
    (hwf : WellFormed lead) (hwf' : WellFormed r.col.frames) (hpre : pre ++ fs <+: lead)
    (hr : BatchOk lead col 0 none fs r) {lsn : ℕ} (hlsn : lsn ∈ appliedThrough (replyOf r))
    (hne : fs ≠ []) :
    pre ++ fs <+: r.col.frames ∧ ((∃ f ∈ fs, f.lsn = lsn) ∨ lsnOf fs ≤ lsn) := by
  obtain ⟨p, x, rfl⟩ := (List.eq_nil_or_concat' fs).resolve_left hne
  have hnone : r.refusal = none := by
    cases hrefusal : r.refusal with
    | none => rfl
    | some refused =>
      rcases refused with _ | (_ | _ | _ | _) <;> simp [replyOf, hrefusal, appliedThrough] at hlsn
  have hm : r.matched = some x.lsn := by simpa using hr.whole hnone
  have hin : pre ++ (p ++ [x]) <+: r.col.frames := by
    obtain ⟨q, f, hq, hqf, hfx⟩ := hr.matched x.lsn hm
    rw [← List.append_assoc] at hpre ⊢
    rwa [← cut_eq_of_isPrefix hwf hpre, ← hfx, cut_eq_of_isPrefix hwf hq]
  refine ⟨hin, ?_⟩
  by_cases h0 : r.highest = 0
  · have : lsn = r.col.lastAppendedLsn := by
      simpa [replyOf, hnone, h0, appliedThrough, eq_comm] using hlsn
    right
    rw [lsnOf_concat, this]
    exact lsn_le_last hwf' hr.ok (hin.subset (by simp))
  · have : lsn = r.highest := by simpa [replyOf, hnone, h0, appliedThrough, eq_comm] using hlsn
    rw [this]
    exact .inl (hr.highest.resolve_left h0)

theorem sim_takeFrames (hsim : Sim g a w) {req : ReplicateRequest β} {durable : ℕ}
    (hterm : (w.nodes i).term = req.term) (hlead : (a.leader req.term).isSome)
    (hframes : ∃ pre, pre ++ req.frames <+: a.leaderLog req.term req.collection)
    (hcommit : CommitKnown a req.term req.collection req.commitIndex)
    (hdurable : ((w.nodes i).takeFrames req durable).1.Durable req.collection durable) :
    ∃ a', Elsewhere a a' i ∧ Sim g a' (w.setNode i ((w.nodes i).takeFrames req durable).1) ∧
      ReplyOk (a'.hold i) i req ((w.nodes i).takeFrames req durable).2 := by
  obtain ⟨pre, hpre⟩ := hframes
  have hr : BatchOk (a.leaderLog req.term req.collection) ((w.nodes i).cols req.collection) 0 none
      req.frames (appendBatch ((w.nodes i).cols req.collection) 0 none none req.frames) :=
    appendBatch_ok req.frames (hsim.against hterm hlead req.collection) hpre (by simp)
  unfold Node.takeFrames at hdurable ⊢
  dsimp only at hdurable ⊢
  generalize appendBatch ((w.nodes i).cols req.collection) 0 none none req.frames = r
    at hr hdurable ⊢
  obtain ⟨a', he, hleader, hlog, hsim'⟩ := sim_takeBatch hsim hterm hlead hr
  have hk' := hsim'.nodes i
  rw [setNode_nodes_self] at hk'
  have hreply : ReplyOk (a'.hold i) i req (replyOf r) := by
    intro lsn hlsn hne
    have hframes : a'.log i req.collection = r.col.frames := by rw [hk'.log, takeBatch_cols_self]
    obtain ⟨hin, hpos⟩ := batch_replied (hsim.inv.leadOk req.term req.collection).wellFormed
      (hframes ▸ (hsim'.inv.logOk i req.collection).wellFormed) hpre hr hlsn hne
    refine ⟨⟨a'.snapshot i, Set.mem_insert _ _, rfl, hk'.term.trans hterm, pre, ?_, ?_⟩, hpos⟩
    · rwa [show (a'.snapshot i).logs req.collection = _ from hframes]
    · exact hpre.trans (he.grows _ _)
  refine ⟨a', he, ?_⟩
  cases hm : r.matched with
  | none => exact ⟨hsim', hreply⟩
  | some m =>
    simp only [hm, Node.Durable, noteLeaderCommitted_frames] at hdurable
    have hmatched : ∀ m', some m = some m' → Shared (a'.leaderLog req.term req.collection)
        (((w.nodes i).takeBatch req.collection r).cols req.collection).frames m' := by
      intro m' hm'
      rw [hlog, takeBatch_cols_self]
      exact hr.matched m' (hm.trans hm')
    have := sim_role hsim' (hk'.noteLeaderCommitted hsim'.inv (hleader ▸ hlead)
      (hcommit.elsewhere he) hmatched hdurable)
    rw [setNode_setNode] at this
    exact ⟨this, hreply⟩

/-- A node answers a request as it stands, or goes on as a follower of the request's term. -/
theorem replicateHandler_cases (n : Node β) (req : ReplicateRequest β) (durable : ℕ) :
    (∃ t, n.replicateHandler req durable = (n, .notAReplica t) ∨
      n.replicateHandler req durable = (n, .staleTerm t)) ∨
    ∃ n', n.replicateHandler req durable = n'.takeFrames req durable ∧
      ((n' = n ∧ n.term = req.term) ∨ (n' = n.demote req.term ∧ n.term < req.term) ∨
        (n' = n.adopt req.term ∧ n.isLeader = false ∧ n.term < req.term)) := by
  unfold Node.replicateHandler
  by_cases hl : n.isLeader = true
  · by_cases ht : n.term < req.term
    · exact .inr ⟨_, by simp [hl, ht, Node.demote], .inr (.inl ⟨rfl, ht⟩)⟩
    · exact .inl ⟨n.term, .inl (by simp [hl, ht])⟩
  · rcases lt_trichotomy n.term req.term with ht | ht | ht
    · exact .inr ⟨_, by simp [hl, ht, ht.not_gt], .inr (.inr ⟨rfl, by simpa using hl, ht⟩)⟩
    · exact .inr ⟨n, by simp [hl, ht], .inl ⟨rfl, ht⟩⟩
    · exact .inl ⟨n.term, .inr (by simp [hl, ht])⟩

omit [DecidableEq ι] in
theorem sim_hold (hsim : Sim g a w) (i : ι) : Sim g (a.hold i) w := by
  have he := elsewhere_hold a i
  refine ⟨hsim.inv.hold groupQuorum_mono i, fun j => ?_,
    hsim.records.elsewhere he hsim.records.chained⟩
  have hk := hsim.nodes j
  exact { hk with
    progress := fun hl => (hk.progress hl).elsewhere he
    campaign := hk.campaign.elsewhere he fun t h => h }

omit [DecidableEq ι] in
theorem sim_answer (hsim : Sim g a w) (hterm : (w.nodes i).term = t) :
    Sim g (a.hold i) { w with answers := ⟨i, t, c, ((w.nodes i).cols c).frames⟩ :: w.answers } := by
  have hsim' := sim_hold hsim i
  refine hsim'.records_only rfl { hsim'.records with answers := fun an han => ?_ }
  rcases List.mem_cons.mp han with rfl | han
  · exact ⟨a.snapshot i, Set.mem_insert _ _, rfl, ((hsim.nodes i).term.trans hterm),
      (hsim.nodes i).log c⟩
  · exact hsim'.records.answers an han

theorem takeFrames_term (n : Node β) (req : ReplicateRequest β) (durable : ℕ) :
    (n.takeFrames req durable).1.term = n.term := by
  unfold Node.takeFrames
  dsimp only
  split
  · unfold Node.noteLeaderCommitted Node.applyCommitted
    dsimp only
    split_ifs <;> rfl
  · rfl

theorem sim_deliver (hsim : Sim g a w) {message durable : ℕ}
    (h : stepDeliver w i message durable = some w') :
    ∃ a', Elsewhere a a' i ∧ Sim g a' w' ∧ ∀ req ∈ w.messages[message]?,
      ReplyOk a' i req ((w.nodes i).replicateHandler req durable).2 := by
  unfold stepDeliver at h
  split at h
  next req hreq =>
    have hk := hsim.nodes i
    obtain ⟨hlead, hframes, hcommit⟩ := hsim.records.messages req (List.mem_of_getElem? hreq)
    dsimp only at h
    split at h
    next hdurable =>
      simp only [hreq, Option.mem_def, Option.some.injEq, forall_eq']
      rcases replicateHandler_cases (w.nodes i) req durable with ⟨t, heq | heq⟩ | ⟨n', heq, hn'⟩
      · simp only [heq, Option.some.injEq] at h ⊢
        subst h
        exact ⟨a, Elsewhere.refl a i, sim_publish (sim_role hsim hk),
          by simp [ReplyOk, appliedThrough]⟩
      · simp only [heq, Option.some.injEq] at h ⊢
        subst h
        exact ⟨a, Elsewhere.refl a i, sim_publish (sim_role hsim hk),
          by simp [ReplyOk, appliedThrough]⟩
      · rw [heq] at h hdurable ⊢
        have hfollow : ∃ b, Elsewhere a b i ∧ Sim g b (w.setNode i n') ∧ n'.term = req.term := by
          rcases hn' with ⟨rfl, ht⟩ | ⟨rfl, ht⟩ | ⟨rfl, hl, ht⟩
          · exact ⟨a, Elsewhere.refl a i, sim_role hsim hk, ht⟩
          · exact ⟨_, elsewhere_raise a i _, sim_demote hsim ht, rfl⟩
          · exact ⟨_, elsewhere_raise a i _, sim_adopt hsim hl ht, rfl⟩
        obtain ⟨b, he, hsimb, hterm⟩ := hfollow
        have hdurable' : (((w.setNode i n').nodes i).takeFrames req durable).1.Durable
          req.collection
            durable := by rwa [setNode_nodes_self]
        obtain ⟨b', he', hsim', hreply⟩ := sim_takeFrames hsimb (by rwa [setNode_nodes_self])
          (he.isSome hlead) (hframes.imp fun pre hp => hp.trans (he.grows _ _))
          (hcommit.elsewhere he) hdurable'
        rw [setNode_nodes_self, setNode_setNode] at hsim'
        rw [setNode_nodes_self] at hreply
        have hterm' : ((n'.takeFrames req durable).1).term = req.term :=
          (takeFrames_term n' req durable).trans hterm
        have hpub := sim_publish (i := i) (c := req.collection) hsim'
        have hans := sim_answer (i := i) (c := req.collection) (t :=
          req.term) hpub (by simpa using hterm')
        simp only [publish_nodes, setNode_nodes_self] at hans
        refine ⟨b'.hold i, (he.trans he').trans (elsewhere_hold b' i), ?_, hreply⟩
        split at h
        · obtain rfl := Option.some.inj h
          exact sim_hold hpub i
        · obtain rfl := Option.some.inj h
          exact sim_hold hpub i
        · obtain rfl := Option.some.inj h
          exact hans
    next => simp at h
  next => simp at h

theorem sim_hear (hsim : Sim g a w) {beat durable : ℕ} (h : stepHear w i beat durable = some w') :
    ∃ a', Elsewhere a a' i ∧ Sim g a' w' := by
  unfold stepHear at h
  split at h
  next b hb =>
    have hk := hsim.nodes i
    obtain ⟨hlead, hcommit⟩ := hsim.records.beats b (List.mem_of_getElem? hb)
    dsimp only at h
    split at h
    next hguard =>
      obtain rfl := Option.some.inj h
      obtain ⟨hl, hle, hdurable⟩ := hguard
      generalize hn : (if (w.nodes i).term < b.term then (w.nodes i).adopt b.term
        else w.nodes i) = n
      have hfollow : ∃ a', Elsewhere a a' i ∧ Sim g a' (w.setNode i n) ∧
        n.cols = (w.nodes i).cols := by
        split_ifs at hn with ht
        · subst hn
          exact ⟨_, elsewhere_raise a i _, sim_adopt hsim hl ht, rfl⟩
        · subst hn
          exact ⟨a, Elsewhere.refl a i, sim_role hsim hk, rfl⟩
      obtain ⟨a', he, hsim', hcols⟩ := hfollow
      have hk' := hsim'.nodes i
      rw [setNode_nodes_self] at hk'
      have hdurable' : n.Durable b.collection durable := by rwa [Node.Durable, hcols]
      have hmatched : ∀ m, none = some m → Shared (a'.leaderLog b.term b.collection)
          (n.cols b.collection).frames m := by simp
      have := sim_role hsim' (hk'.noteLeaderCommitted hsim'.inv (he.isSome hlead)
        (hcommit.elsewhere he) hmatched hdurable')
      rw [setNode_setNode] at this
      exact ⟨a', he, sim_publish this⟩
    next => simp at h
  next => simp at h

end Frames

end DewDB.ReplicationSim
