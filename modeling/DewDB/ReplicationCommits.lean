import DewDB.ReplicationFrames

/-!
# Commits of the protocol as steps of the log machine

When `advance` moves the watermark, the quorum LSN is a position of the leader's log that a quorum
of nodes held in this term, and the floor makes its frame one of this term: the frames through it
are a commit of the machine.
-/
namespace DewDB.ReplicationSim

open Endpoint QuorumConfig Vote CollectionLog LeaderProgress ReplicaNode Replication
open LogReplication hiding Initial

variable {ι β : Type} {g : Cluster ι} {a a' : Machine ι β} {w w' : World ι β} {i : ι}
  {n n' : Node β} {c : CollectionName} {t : ℕ}

theorem sim_commit (hsim : Sim g a w) (i : ι) {cm : Commit CollectionName (Frame β)}
    (hpfx : cm.entries <+: a.leaderLog cm.term cm.key)
    (hterm : ∃ e ∈ cm.entries.getLast?, Stamped.term e = cm.term)
    (hquorum : GroupQuorum g.toNodeGroup (a.holders cm.term cm.key cm.entries)) :
    Sim g (a.commit cm) w := by
  have he := elsewhere_commit a cm i
  refine ⟨hsim.inv.commit groupQuorum_mono hpfx hterm hquorum, fun j => ?_,
    hsim.records.elsewhere he hsim.records.chained⟩
  have hk := hsim.nodes j
  exact { hk with
    progress := fun hl => (hk.progress hl).elsewhere he
    applied := fun c => (hk.applied c).elsewhere he
    campaign := hk.campaign.elsewhere he fun t h => h }

section Advance

variable {p : Progress} {durable : ℕ}

/-- A sound acknowledgement is a position of a snapshot that the leader's log shares. -/
theorem SoundAck.shared [DecidableEq β] (hsim : Sim g a w) (hl : (w.nodes i).isLeader = true)
    {voter : ι} {lsn : ℕ} (hack : SoundAck w i voter c lsn) :
    ∃ h ∈ a.held, h.node = voter ∧ h.term = (w.nodes i).term ∧
      Shared (h.logs c) (a.leaderLog (w.nodes i).term c) lsn := by
  obtain ⟨an, han, hnode, hterm, hcol, ⟨f, hf, hfl⟩, hcut⟩ := hack
  obtain ⟨s, hs, hsn, hst, hslog⟩ := hsim.records.answers an han
  refine ⟨s, hs, hsn.trans hnode, hst.trans hterm, ?_⟩
  rw [hsim.leaderLog_eq hl]
  obtain ⟨q, hq⟩ := exists_isPrefix_of_mem hf
  have hwf : WellFormed an.frames :=
    hslog ▸ ((hsim.inv.held s hs).grounded an.collection).wellFormed
  subst hcol hfl
  refine ⟨q, f, hslog ▸ hq, ?_, rfl⟩
  rw [← cut_eq_of_isPrefix hwf hq, hcut]
  exact cut_isPrefix _ _

theorem ProgressOk.observeAck (hp : ProgressOk g.toNodeGroup a t p) {voter : ι}
    {peer : Url} {lsn : ℕ} (hpeer : sameEndpoint peer (g.url voter) = true)
    (hack : ∃ h ∈ a.held, h.node = voter ∧ h.term = t ∧ Shared (h.logs c) (a.leaderLog t c) lsn) :
    ProgressOk g.toNodeGroup a t (p.observeAck peer c lsn) := by
  refine ⟨fun url d hpos => ?_, hp.committed, hp.floor⟩
  rcases observeAck_matched p peer url d c lsn with heq | ⟨rfl, rfl, heq⟩
  · rw [heq] at hpos ⊢
    exact hp.matched url d hpos
  · rw [heq]
    exact ⟨voter, hpeer, hack⟩

/-- What a member of the group is counted for is a position of the leader's log that some node of
that endpoint held in the term. -/
theorem heldBy_shared (hsim : Sim g a w) (hl : (w.nodes i).isLeader = true)
    (hheld : a.snapshot i ∈ a.held) (hp : ProgressOk g.toNodeGroup a (w.nodes i).term p)
    (hdurable : (w.nodes i).Durable c durable) {v : Url}
    (hpos : 0 < p.heldBy c (g.url i) durable v) :
    ∃ j, sameEndpoint v (g.url j) = true ∧ ∃ s ∈ a.held, s.node = j ∧ s.term = (w.nodes i).term ∧
      Shared (s.logs c) (a.leaderLog (w.nodes i).term c) (p.heldBy c (g.url i) durable v) := by
  have hk := hsim.nodes i
  unfold Progress.heldBy at hpos ⊢
  split_ifs at hpos ⊢ with hown
  · refine ⟨i, hown, _, hheld, rfl, hk.term, ?_⟩
    rw [hsim.leaderLog_eq hl, show (a.snapshot i).logs c = _ from hk.log c]
    exact shared_durable hdurable hpos
  · exact hp.matched v c hpos

theorem advance_commit (hsim : Sim g a w) (hl : (w.nodes i).isLeader = true)
    (hheld : a.snapshot i ∈ a.held) (hp : ProgressOk g.toNodeGroup a (w.nodes i).term p)
    (hdurable : (w.nodes i).Durable c durable) {quorum floor : ℕ}
    (hquorum : quorum = g.config.quorumLsn (p.heldBy c (g.url i) durable))
    (hfloor : p.termFloor c = some floor) (hle : floor ≤ quorum) (hpos : 0 < quorum) :
    ∃ q f, q ++ [f] <+: a.leaderLog (w.nodes i).term c ∧ f.lsn = quorum ∧
      f.term = (w.nodes i).term ∧
      GroupQuorum g.toNodeGroup (a.holders (w.nodes i).term c (q ++ [f])) := by
  have hwf := (hsim.inv.leadOk (w.nodes i).term c).wellFormed
  obtain ⟨v, -, hv⟩ := (quorumLsn_mem g.config (p.heldBy c (g.url i) durable)).resolve_left
    (by rw [← hquorum]; omega)
  obtain ⟨-, -, -, -, -, -, q, f, -, hqf, hf⟩ :=
    heldBy_shared hsim hl hheld hp hdurable (v := v) (by rw [hv, ← hquorum]; exact hpos)
  rw [hv, ← hquorum] at hf
  refine ⟨q, f, hqf, hf, le_antisymm ?_ ?_, ?_⟩
  · exact hsim.inv.leadTerm _ c f (hqf.subset (by simp))
  -- The floor is of this term and no further on, so the frame is of this term.
  · obtain ⟨x, hx, hxt, hxl⟩ := hp.floor c floor hfloor
    obtain ⟨r, hr⟩ := exists_isPrefix_of_mem hx
    have hrq := hwf.prefix_of_pos_le hr hqf (by simp only [stamped_pos]; omega)
    have := ((hwf.of_isPrefix hqf).le_last (hrq.subset (by simp : x ∈ r ++ [x]))).1
    simp only [stamped_term] at this
    omega
  · refine Configuration.Quorum.mono (fun u hu => ?_)
      (quorumLsn_spec g.config (p.heldBy c (g.url i) durable))
    rw [← hquorum] at hu
    simp only [decide_eq_true_eq] at hu ⊢
    obtain ⟨j, hj, s, hs, hsn, hst, r, e, hrs, hrl, he⟩ :=
      heldBy_shared hsim hl hheld hp hdurable (v := u) (by omega)
    refine ⟨j, ⟨s, hs, hsn, hst, ?_⟩, hj⟩
    exact (hwf.prefix_of_pos_le hqf hrl (by simp only [stamped_pos]; omega)).trans hrs

theorem sim_advance (hsim : Sim g a w) (hl : (w.nodes i).isLeader = true)
    (hheld : a.snapshot i ∈ a.held) (hp : ProgressOk g.toNodeGroup a (w.nodes i).term p)
    (hdurable : (w.nodes i).Durable c durable) :
    ∃ a', Elsewhere a a' i ∧ Sim g a' w ∧
      ProgressOk g.toNodeGroup a' (w.nodes i).term (p.advance c (g.url i) durable g.config) := by
  rcases advance_cases p c (g.url i) durable g.config with heq |
    ⟨quorum, floor, hquorum, hfloor, hle, hlt, heq⟩
  · exact ⟨a, Elsewhere.refl a i, hsim, heq.symm ▸ hp⟩
  · obtain ⟨q, f, hqf, hf, hft, hq⟩ :=
      advance_commit hsim hl hheld hp hdurable hquorum hfloor hle (by omega)
    let cm : Commit CollectionName (Frame β) := ⟨(w.nodes i).term, c, q ++ [f]⟩
    have he := elsewhere_commit a cm i
    have hp' := hp.elsewhere he
    refine ⟨a.commit cm, he, sim_commit hsim i hqf ⟨f, by simp [cm], hft⟩ hq, ?_⟩
    rw [heq]
    refine ⟨hp'.matched, fun d => ?_, hp'.floor⟩
    by_cases hd : d = c
    · subst hd
      exact .inr ⟨cm, Set.mem_insert _ _, rfl, le_rfl, f, by simp [cm], by simpa using hf⟩
    · simpa [hd] using hp'.committed d

end Advance

section Leader

variable [DecidableEq ι]

omit [DecidableEq ι] in
theorem sim_report (hsim : Sim g a w) (hl : (w.nodes i).isLeader = true) :
    Sim g a (w.report i c) := by
  have hk := hsim.nodes i
  have hlead : (a.leader (w.nodes i).term).isSome := by simp [hk.leader hl]
  refine hsim.records_only rfl { hsim.records with reports := fun r hr => ?_ }
  rcases List.mem_cons.mp hr with rfl | hr
  · rcases Nat.eq_zero_or_pos ((w.nodes i).progress.committed c) with h0 | hpos
    · left
      simp only [h0]
      exact cut_zero (hk.colOk c).chained
    · obtain ⟨cm, hcm, hkey, ht, hlog, f, hf, hfl⟩ :=
        ((hk.progress hl).committed c).mem hsim.inv hpos hlead
      refine .inr ⟨cm, hcm, hkey, ht, ?_⟩
      rw [hsim.leaderLog_eq hl] at hlog
      obtain ⟨q, hq⟩ := exists_isPrefix_of_mem hf
      have hwf := hk.log c ▸ (hsim.inv.logOk i c).wellFormed
      exact Shared.cut_isPrefix hwf ⟨q, f, hq.trans hlog, hq, hfl⟩
  · exact hsim.records.reports r hr

/-- A leader with new progress publishes through its watermark, and reports it. -/
theorem sim_setProgress (hsim : Sim g a w) (hl : (w.nodes i).isLeader = true) {p : Progress}
    (hp : ProgressOk g.toNodeGroup a (w.nodes i).term p) :
    Sim g a (((w.setNode i (Node.applyCommitted { w.nodes i with progress := p } c
      (p.committed c))).report i c).publish i c) := by
  have hk := hsim.nodes i
  have hlead : (a.leader (w.nodes i).term).isSome := by simp [hk.leader hl]
  have hrole : NodeSim g.toNodeGroup a i { w.nodes i with progress := p } :=
    hk.role _ ⟨rfl, rfl, rfl, rfl, rfl⟩ rfl rfl (fun _ => ⟨hl, hk.leading hl, hp⟩)
      (fun h => absurd (hl.symm.trans h) (by simp)) hk.campaign
  have hnode := hrole.applyCommitted (c := c) (m := p.committed c) fun hpos => by
    obtain ⟨cm, hcm, hkey, ht, hlog, f, hf, hfl⟩ := (hp.committed c).mem hsim.inv hpos hlead
    rw [hsim.leaderLog_eq hl] at hlog
    obtain ⟨q, hq⟩ := exists_isPrefix_of_mem hf
    exact ⟨cm, hcm, hkey, ht, q, f, hq, hq.trans hlog, hfl⟩
  refine sim_publish (sim_report (sim_role hsim hnode) ?_)
  rw [setNode_nodes_self]
  unfold Node.applyCommitted
  split_ifs
  · exact hl
  · exact hl

/-- An acknowledgement in the leader's term of a position that the replica held in that term. -/
theorem sim_noteAck (hsim : Sim g a w) (hl : (w.nodes i).isLeader = true) {voter : ι} {peer : Url}
    {lsn durable : ℕ} (hpeer : sameEndpoint peer (g.url voter) = true)
    (hack : ∃ h ∈ a.held, h.node = voter ∧ h.term = (w.nodes i).term ∧
      Shared (h.logs c) (a.leaderLog (w.nodes i).term c) lsn)
    (hdurable : (w.nodes i).Durable c durable) :
    ∃ a', Elsewhere a a' i ∧ Sim g a' (((w.setNode i ((w.nodes i).noteAck g.toNodeGroup i peer c lsn
      (w.nodes i).term durable)).report i c).publish i c) := by
  have hsim₁ := sim_hold hsim i
  obtain ⟨h, hh, hack⟩ := hack
  have hobs := ((hsim₁.nodes i).progress hl).observeAck hpeer
    ⟨h, (elsewhere_hold a i).held hh, hack⟩
  obtain ⟨a', he, hsim', hp⟩ := sim_advance hsim₁ hl (Set.mem_insert _ _) hobs hdurable
  refine ⟨a', (elsewhere_hold a i).trans he, ?_⟩
  have := sim_setProgress (c := c) hsim' hl hp
  simpa [Node.noteAck, hl] using this

theorem sim_ack [DecidableEq β] (hsim : Sim g a w) {voter : ι} {peer : Url} {lsn durable : ℕ}
    (h : stepAck g w i voter peer c lsn durable = some w') :
    ∃ a', Elsewhere a a' i ∧ Sim g a' w' := by
  unfold stepAck at h
  dsimp only at h
  split_ifs at h with hguard
  obtain rfl := Option.some.inj h
  obtain ⟨hl, hpeer, hack, hdurable⟩ := hguard
  exact sim_noteAck hsim hl hpeer (SoundAck.shared hsim hl hack) hdurable

theorem sim_advanceOwn (hsim : Sim g a w) {durable : ℕ}
    (h : stepAdvanceOwn g w i c durable = some w') : ∃ a', Elsewhere a a' i ∧ Sim g a' w' := by
  unfold stepAdvanceOwn at h
  dsimp only at h
  split_ifs at h with hguard
  obtain rfl := Option.some.inj h
  obtain ⟨hl, hdurable⟩ := hguard
  have hsim₁ := sim_hold hsim i
  obtain ⟨a', he, hsim', hp⟩ := sim_advance hsim₁ hl (Set.mem_insert _ _)
    ((hsim₁.nodes i).progress hl) hdurable
  refine ⟨a', (elsewhere_hold a i).trans he, ?_⟩
  have := sim_setProgress (c := c) hsim' hl hp
  simpa [Node.advanceOwnCommit, hl] using this

end Leader

section Crash

theorem lastAppendedLsn_le_bootCounters (cols : CollectionName → Collection β)
    {names : List CollectionName} (hc : c ∈ names) :
    (cols c).lastAppendedLsn ≤ (bootCounters cols names).1 := by
  induction names with
  | nil => simp at hc
  | cons d names ih =>
    simp only [bootCounters]
    rcases List.mem_cons.mp hc with rfl | hc
    · split_ifs with h
      · exact le_rfl
      · exact Nat.le_of_not_lt h
    · split_ifs with h
      · exact (ih hc).trans h.le
      · exact ih hc

/-- A restart finds the logs again, and of a watermark a position at or below it. -/
theorem NodeSim.restart (hinv : Inv a (GroupQuorum g.toNodeGroup))
    (hk : NodeSim g.toNodeGroup a i n)
    {watermark : CollectionName → ℕ} (hmark : ∀ c ∈ n.names, n.Durable c (watermark c)) :
    NodeSim g.toNodeGroup a i (n.restart watermark) where
  term := hk.term
  log := hk.log
  colOk c := ⟨(hk.colOk c).lsn, (hk.colOk c).term, (hk.colOk c).chained⟩
  absent c hc := by
    have := hk.absent c hc
    simp [Node.restart, this, Collection.empty]
  counter c f hf := by
    have hname : c ∈ n.names := by
      by_contra hc
      simp [Node.restart, hk.absent c hc, Collection.empty] at hf
    have hwf : WellFormed (n.cols c).frames := hk.log c ▸ (hinv.logOk i c).wellFormed
    refine (FrameAppend.lsn_le_last hwf (hk.colOk c) hf).trans ?_
    exact lastAppendedLsn_le_bootCounters
      (fun c => { n.cols c with applied := min (n.cols c).applied (watermark c) }) hname
  counters hnil := by
    have hnil' : n.names = [] := hnil
    simp [Node.counters, Node.restart, hnil', bootCounters, LogTail.zero]
  leader hl := by simp [Node.restart] at hl
  progress hl := by simp [Node.restart] at hl
  applied c := by
    by_cases h0 : min (n.cols c).applied (watermark c) = 0
    · exact .inl h0
    have hname : c ∈ n.names := by
      by_contra hc
      simp [hk.absent c hc, Collection.empty] at h0
    have hwf : WellFormed (n.cols c).frames := hk.log c ▸ (hinv.logOk i c).wellFormed
    have hpos : 0 < (n.cols c).applied ∧ 0 < watermark c := by omega
    obtain ⟨cm, hcm, hkey, ht, hsh⟩ := (hk.applied c).resolve_left (by omega)
    exact .inr ⟨cm, hcm, hkey, ht, Shared.min hwf hsh.symm (shared_durable (hmark c hname) hpos.2)⟩
  matched c := ⟨Nat.zero_le _, fun _ hpos => absurd hpos (lt_irrefl 0)⟩
  campaign := trivial
  leading hl := by simp [Node.restart] at hl
  idle _ _ := rfl
  votedBallot := hk.votedBallot
  votedStood := hk.votedStood

end Crash

section Runs

variable [DecidableEq ι] [DecidableEq β]

/-- Every step of the protocol is one or more steps of the machine, all of one node. -/
theorem sim_step (hsim : Sim g a w) {label : Label ι β} (h : step g w label = some w') :
    ∃ a' i, Elsewhere a a' i ∧ Sim g a' w' := by
  have stepped : ∀ {i : ι}, (∃ a', Elsewhere a a' i ∧ Sim g a' w') →
      ∃ a' i, Elsewhere a a' i ∧ Sim g a' w' := fun ⟨a', h'⟩ => ⟨a', _, h'⟩
  cases label with
  | sample i => exact stepped (sim_sample hsim h)
  | stand i => exact stepped (sim_stand hsim h)
  | vote i request mustWithhold => exact stepped (sim_vote hsim h)
  | countVote i voter peer => exact stepped (sim_countVote hsim h)
  | becomeLeader i => exact stepped (sim_becomeLeader hsim h)
  | giveUp i =>
    obtain rfl := Option.some.inj h
    exact ⟨a, i, Elsewhere.refl a i, sim_giveUp hsim⟩
  | demote i newTerm =>
    simp only [step] at h
    split_ifs at h with hlt
    obtain rfl := Option.some.inj h
    exact ⟨_, i, elsewhere_raise a i newTerm, sim_demote hsim (Nat.lt_of_not_le hlt)⟩
  | adopt i newTerm =>
    simp only [step] at h
    split_ifs at h with hguard
    obtain rfl := Option.some.inj h
    exact ⟨_, i, elsewhere_raise a i newTerm, sim_adopt hsim hguard.1 hguard.2⟩
  | stepDown i =>
    simp only [step] at h
    split_ifs at h with hl
    obtain rfl := Option.some.inj h
    exact ⟨a, i, Elsewhere.refl a i, sim_stepDown hsim⟩
  | append i c entry => exact stepped (sim_append hsim h)
  | appendFails i c => exact stepped (sim_appendFails hsim h)
  | noteAppend i c lsn => exact stepped (sim_noteAppend hsim h)
  | send i c skip count => exact stepped (sim_send hsim h)
  | beat i c =>
    simp only [step] at h
    split_ifs at h with hl
    obtain rfl := Option.some.inj h
    exact ⟨a, i, Elsewhere.refl a i, sim_beat hsim hl⟩
  | deliver i message durable =>
    obtain ⟨a', he, hsim', -⟩ := sim_deliver hsim h
    exact ⟨a', i, he, hsim'⟩
  | hear i beat durable => exact stepped (sim_hear hsim h)
  | ack i voter peer c lsn durable => exact stepped (sim_ack hsim h)
  | advanceOwn i c durable => exact stepped (sim_advanceOwn hsim h)
  | crash i watermark =>
    simp only [step, stepCrash] at h
    split_ifs at h with hmark
    obtain rfl := Option.some.inj h
    exact ⟨a, i, Elsewhere.refl a i, sim_role hsim ((hsim.nodes i).restart hsim.inv hmark)⟩

end Runs

def initialMachine (g : Cluster ι) : Machine ι β where
  term _ := 0
  log _ _ := []
  leader t := if t = 0 then g.primary else none
  leaderLog _ _ := []
  held := ∅
  candidacies := ∅
  votes := ∅
  commits := ∅

theorem sim_initial [DecidableEq ι] (g : Cluster ι) :
    Sim g (initialMachine g) (initialWorld g : World ι β) := by
  have hnil : Chained ([] : List (Frame β)) := fun q f hq => by simp at hq
  have hinit : LogReplication.Initial (initialMachine (β := β) g) :=
    ⟨fun _ => rfl, fun _ _ => rfl, fun t ht => if_neg ht.ne', fun _ _ => rfl, rfl, rfl, rfl, rfl⟩
  refine ⟨inv_initial hinit, fun i => ?_, ?_⟩
  · exact {
      term := rfl
      log := fun _ => rfl
      colOk := fun _ => ⟨rfl, rfl, hnil⟩
      absent := fun _ _ => rfl
      counter := fun _ f hf => by simp [initialWorld, Node.fresh, Collection.empty] at hf
      counters := fun _ => rfl
      leader := fun hl => by simpa [initialWorld, initialMachine, Node.fresh] using hl
      progress := fun _ => ⟨fun _ _ hpos => absurd hpos (lt_irrefl 0), fun _ => .inl rfl,
        fun _ _ hm => by cases hm⟩
      applied := fun _ => .inl rfl
      matched := fun _ => ⟨le_rfl, fun _ hpos => absurd hpos (lt_irrefl 0)⟩
      campaign := trivial
      leading := fun _ => rfl
      idle := fun _ _ => rfl
      votedBallot := fun b hb => hb.elim
      votedStood := fun cd hcd => hcd.elim }
  · refine ⟨fun _ _ => hnil, ?_, ?_, ?_, ?_, ?_, ?_, ?_, ?_, ?_⟩ <;> simp [initialWorld]

end DewDB.ReplicationSim
