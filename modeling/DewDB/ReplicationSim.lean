import DewDB.LogReplicationInv
import DewDB.FrameAppend
import DewDB.Replication

/-!
# The protocol against the log machine

`Sim` relates a world of the protocol to a state of the machine of replicated logs: terms and logs
are the same, and every request, vote, acknowledgement and watermark is backed by a record of the
machine. Everything in it is monotone in the machine's records, so that a step of one node keeps it
for all the others.
-/
namespace DewDB.ReplicationSim

open Endpoint QuorumConfig Vote Election CollectionLog LeaderProgress ReplicaNode Replication
open LogReplication hiding Initial

variable {ι β : Type}

/-- The machine's states over the nodes and collections of the protocol. -/
abbrev Machine (ι β : Type) := State ι CollectionName (Frame β)

open Classical in
/-- A set of nodes that is a quorum of the group's configuration. -/
noncomputable def GroupQuorum (g : NodeGroup ι) (A : Set ι) : Prop :=
  g.config.Quorum fun u => decide (∃ v ∈ A, sameEndpoint u (g.url v) = true)

theorem groupQuorum_mono {g : NodeGroup ι} (A B : Set ι) (hAB : A ⊆ B) (h : GroupQuorum g A) :
    GroupQuorum g B := by
  refine Configuration.Quorum.mono (fun u hu => ?_) h
  simp only [decide_eq_true_eq] at hu ⊢
  obtain ⟨v, hv, huv⟩ := hu
  exact ⟨v, hAB hv, huv⟩

theorem groupQuorum_inter (g : Cluster ι) (A B : Set ι) (hA : GroupQuorum g.toNodeGroup A)
    (hB : GroupQuorum g.toNodeGroup B) : (A ∩ B).Nonempty := by
  obtain ⟨u, -, hu, hu'⟩ := Configuration.Quorum.inter g.member_voter hA hB
  simp only [decide_eq_true_eq] at hu hu'
  obtain ⟨v, hv, huv⟩ := hu
  obtain ⟨v', hv', huv'⟩ := hu'
  obtain rfl : v = v' := by
    apply g.url_injective
    rw [sameEndpoint_iff] at *
    rw [← huv, huv']
  exact ⟨v, hv, hv'⟩

/-- LSN `n` of collection `c` is one that was committed in term `t` or before. -/
def CommitKnown (a : Machine ι β) (t : ℕ) (c : CollectionName) (n : ℕ) : Prop :=
  n = 0 ∨ ∃ cm ∈ a.commits, cm.key = c ∧ cm.term ≤ t ∧ ∃ f ∈ cm.entries, f.lsn = n

def SampleOf (h : Snapshot ι CollectionName (Frame β)) (logs : List (CollectionName × LogTail))
    (tail : LogTail) : Prop :=
  ∃ names : List CollectionName,
    logs = names.map (fun c => (c, ⟨termOf (h.logs c), lsnOf (h.logs c)⟩)) ∧
    (∀ c, c ∉ names → h.logs c = []) ∧ (names = [] → tail = .zero)

/-- The campaign of node `i` is backed by the machine's records. -/
def CampaignOk (g : NodeGroup ι) (a : Machine ι β) (i : ι) : Option ReplicaNode.Campaign → Prop
  | none => True
  | some (.sampled logs tail) => ∃ h ∈ a.held, h.node = i ∧ SampleOf h logs tail
  | some (.standing t votes) => 0 < t ∧ (∃ cd ∈ a.candidacies, cd.node = i ∧ cd.term = t) ∧
      a.leader t ≠ some i ∧
      ∀ u ∈ votes, ∃ v, sameEndpoint u (g.url v) = true ∧ v ∈ a.supporters i t

/-- What a leader of term `t` keeps about its replicas is so. -/
structure ProgressOk (g : NodeGroup ι) (a : Machine ι β) (t : ℕ) (p : Progress) : Prop where
  matched : ∀ peer c, 0 < p.matched peer c → ∃ v, sameEndpoint peer (g.url v) = true ∧
    ∃ h ∈ a.held, h.node = v ∧ h.term = t ∧ Shared (h.logs c) (a.leaderLog t c) (p.matched peer c)
  committed : ∀ c, CommitKnown a t c (p.committed c)
  floor : ∀ c m, p.termFloor c = some m → ∃ f ∈ a.leaderLog t c, f.term = t ∧ f.lsn = m

/-- The log of a collection through its watermark was committed. -/
def AppliedOk (a : Machine ι β) (t : ℕ) (c : CollectionName) (col : Collection β) : Prop :=
  col.applied = 0 ∨ ∃ cm ∈ a.commits, cm.key = c ∧ cm.term ≤ t ∧
    Shared cm.entries col.frames col.applied

/-- The log of a collection matches the leader of term `t` through what was noted. -/
def MatchedOk (a : Machine ι β) (t : ℕ) (c : CollectionName) (frames : List (Frame β))
    (known : ℕ × ℕ) : Prop :=
  known.1 ≤ t ∧ (known.1 = t → 0 < known.2 → (a.leader t).isSome ∧
    Shared (a.leaderLog t c) frames known.2)

structure NodeSim (g : NodeGroup ι) (a : Machine ι β) (i : ι) (n : Node β) : Prop where
  term : a.term i = n.term
  log : ∀ c, a.log i c = (n.cols c).frames
  colOk : ∀ c, ColOk (n.cols c)
  absent : ∀ c, c ∉ n.names → n.cols c = .empty
  counter : ∀ c, ∀ f ∈ (n.cols c).frames, f.lsn ≤ n.nextLsn
  counters : n.names = [] → n.counters = .zero
  leader : n.isLeader = true → a.leader n.term = some i
  progress : n.isLeader = true → ProgressOk g a n.term n.progress
  applied : ∀ c, AppliedOk a n.term c (n.cols c)
  matched : ∀ c, MatchedOk a n.term c (n.cols c).frames (n.leaderMatched c)
  campaign : CampaignOk g a i n.campaign
  leading : n.isLeader = true → n.campaign = none
  idle : n.isLeader = false → ∀ c, n.progress.committed c = 0
  votedBallot : ∀ b ∈ a.votes, b.voter = i → b.term = n.term →
    n.votedFor = some (g.nodeId b.candidate)
  votedStood : ∀ cd ∈ a.candidacies, cd.node = i → cd.term = n.term →
    n.votedFor = some (g.nodeId i)

/-- The requests in flight and the history, backed by the machine's records. -/
structure RecordSim (g : NodeGroup ι) (a : Machine ι β) (w : World ι β) : Prop where
  chained : ∀ t c, Chained (a.leaderLog t c)
  requests : ∀ req ∈ w.requests, 0 < req.term ∧ ∃ cd ∈ a.candidacies, cd.term = req.term ∧
    req.candidateId = g.nodeId cd.node ∧
    SampleOf cd.sample req.logs ⟨req.lastTerm, req.lastLsn⟩
  granted : ∀ gr ∈ w.granted, ∃ c, gr.candidate = g.nodeId c ∧ gr.voter ∈ a.supporters c gr.term
  messages : ∀ m ∈ w.messages, (a.leader m.term).isSome ∧
    (∃ pre, pre ++ m.frames <+: a.leaderLog m.term m.collection) ∧
    CommitKnown a m.term m.collection m.commitIndex
  beats : ∀ b ∈ w.beats, (a.leader b.term).isSome ∧ CommitKnown a b.term b.collection b.committed
  noted : ∀ x ∈ w.noted, ∃ f ∈ a.leaderLog x.2.1 x.2.2.1, f.term = x.2.1 ∧ f.lsn = x.2.2.2
  answers : ∀ an ∈ w.answers, ∃ h ∈ a.held, h.node = an.node ∧ h.term = an.term ∧
    h.logs an.collection = an.frames
  won : ∀ x ∈ w.won, 0 < x.term ∧ a.leader x.term = some x.node ∧
    ∀ c, ∃ ext, a.leaderLog x.term c = x.logs c ++ ext ∧ ∀ e ∈ ext, e.term = x.term
  reports : ∀ r ∈ w.reports, r.frames = [] ∨ ∃ cm ∈ a.commits, cm.key = r.collection ∧
    cm.term ≤ r.term ∧ r.frames <+: cm.entries
  published : ∀ x ∈ w.published, ∃ cm ∈ a.commits, cm.key = x.1 ∧ x.2 ∈ cm.entries

/-- A success of node `i` was given with a log that had the whole batch and all before it. -/
def ReplyOk (a : Machine ι β) (i : ι) (req : ReplicateRequest β) (reply : Reply) : Prop :=
  ∀ lsn ∈ appliedThrough reply, req.frames ≠ [] →
    (∃ h ∈ a.held, h.node = i ∧ h.term = req.term ∧ ∃ pre,
      pre ++ req.frames <+: h.logs req.collection ∧
      pre ++ req.frames <+: a.leaderLog req.term req.collection) ∧
    ((∃ f ∈ req.frames, f.lsn = lsn) ∨ lsnOf req.frames ≤ lsn)

/-- A world, a machine state that it simulates, and the machine's invariant. -/
structure Sim (g : Cluster ι) (a : Machine ι β) (w : World ι β) : Prop where
  inv : Inv a (GroupQuorum g.toNodeGroup)
  nodes : ∀ i, NodeSim g.toNodeGroup a i (w.nodes i)
  records : RecordSim g.toNodeGroup a w

/-- The machine moved on by steps of node `i` alone. -/
structure Elsewhere (a a' : Machine ι β) (i : ι) : Prop where
  term : ∀ j, j ≠ i → a'.term j = a.term j
  log : ∀ j, j ≠ i → a'.log j = a.log j
  leader : ∀ t v, a.leader t = some v → a'.leader t = some v
  newLeader : ∀ t v, a'.leader t = some v → a.leader t = some v ∨ v = i
  leaderLog : ∀ t c, ∃ ext, a'.leaderLog t c = a.leaderLog t c ++ ext ∧
    ((a.leader t).isSome → ∀ e ∈ ext, e.term = t)
  held : a.held ⊆ a'.held
  candidacies : a.candidacies ⊆ a'.candidacies
  newCandidacy : ∀ cd ∈ a'.candidacies, cd ∈ a.candidacies ∨ cd.node = i
  votes : a.votes ⊆ a'.votes
  newVote : ∀ b ∈ a'.votes, b ∈ a.votes ∨ b.voter = i
  commits : a.commits ⊆ a'.commits

section Monotone

variable {g : NodeGroup ι} {a a' a'' : Machine ι β} {i j : ι} {t : ℕ} {c : CollectionName}

theorem Elsewhere.refl (a : Machine ι β) (i : ι) : Elsewhere a a i where
  term _ _ := rfl
  log _ _ := rfl
  leader _ _ h := h
  newLeader _ _ h := .inl h
  leaderLog _ _ := ⟨[], by simp, by simp⟩
  held := le_rfl
  candidacies := le_rfl
  newCandidacy _ h := .inl h
  votes := le_rfl
  newVote _ h := .inl h
  commits := le_rfl

theorem Elsewhere.trans (h : Elsewhere a a' i) (h' : Elsewhere a' a'' i) : Elsewhere a a'' i where
  term j hj := (h'.term j hj).trans (h.term j hj)
  log j hj := (h'.log j hj).trans (h.log j hj)
  leader t v hv := h'.leader t v (h.leader t v hv)
  newLeader t v hv := by
    rcases h'.newLeader t v hv with hv | hv
    · exact h.newLeader t v hv
    · exact .inr hv
  leaderLog t c := by
    obtain ⟨e, he, ht⟩ := h.leaderLog t c
    obtain ⟨e', he', ht'⟩ := h'.leaderLog t c
    refine ⟨e ++ e', by rw [he', he, List.append_assoc], fun hs x hx => ?_⟩
    obtain ⟨v, hv⟩ := Option.isSome_iff_exists.mp hs
    rcases List.mem_append.mp hx with hx | hx
    · exact ht hs x hx
    · exact ht' (by simp [h.leader t v hv]) x hx
  held := h.held.trans h'.held
  candidacies := h.candidacies.trans h'.candidacies
  newCandidacy cd hcd := by
    rcases h'.newCandidacy cd hcd with hcd | hcd
    · exact h.newCandidacy cd hcd
    · exact .inr hcd
  votes := h.votes.trans h'.votes
  newVote b hb := by
    rcases h'.newVote b hb with hb | hb
    · exact h.newVote b hb
    · exact .inr hb
  commits := h.commits.trans h'.commits

theorem Elsewhere.grows (h : Elsewhere a a' i) (t : ℕ) (c : CollectionName) :
    a.leaderLog t c <+: a'.leaderLog t c := by
  obtain ⟨ext, he, -⟩ := h.leaderLog t c
  exact ⟨ext, he.symm⟩

theorem Elsewhere.isSome (h : Elsewhere a a' i) (hs : (a.leader t).isSome) :
    (a'.leader t).isSome := by
  obtain ⟨v, hv⟩ := Option.isSome_iff_exists.mp hs
  simp [h.leader t v hv]

theorem Elsewhere.supporters (h : Elsewhere a a' i) {v : ι} (hv : v ∈ a.supporters j t) :
    v ∈ a'.supporters j t := by
  rcases hv with rfl | ⟨b, hb, hbv⟩
  · exact .inl rfl
  · exact .inr ⟨b, h.votes hb, hbv⟩

theorem CommitKnown.elsewhere {m : ℕ} (hk : CommitKnown a t c m) (h : Elsewhere a a' i) :
    CommitKnown a' t c m :=
  hk.imp_right fun ⟨cm, hcm, hrest⟩ => ⟨cm, h.commits hcm, hrest⟩

theorem AppliedOk.elsewhere {col : Collection β} (hk : AppliedOk a t c col) (h : Elsewhere a a' i) :
    AppliedOk a' t c col :=
  hk.imp_right fun ⟨cm, hcm, hrest⟩ => ⟨cm, h.commits hcm, hrest⟩

theorem AppliedOk.mono {col : Collection β} {t' : ℕ} (hk : AppliedOk a t c col) (h : t ≤ t') :
    AppliedOk a t' c col :=
  hk.imp_right fun ⟨cm, hcm, hc, ht, hrest⟩ => ⟨cm, hcm, hc, ht.trans h, hrest⟩

theorem AppliedOk.commitKnown {col : Collection β} (hk : AppliedOk a t c col) :
    CommitKnown a t c col.applied :=
  hk.imp_right fun ⟨cm, hcm, hc, ht, q, f, hq, _, hf⟩ =>
    ⟨cm, hcm, hc, ht, f, hq.subset (by simp), hf⟩

theorem MatchedOk.elsewhere {frames : List (Frame β)} {known : ℕ × ℕ}
    (hk : MatchedOk a t c frames known) (h : Elsewhere a a' i) : MatchedOk a' t c frames known := by
  refine ⟨hk.1, fun ht hpos => ?_⟩
  obtain ⟨hs, q, f, hq, hrest⟩ := hk.2 ht hpos
  exact ⟨h.isSome hs, q, f, hq.trans (h.grows t c), hrest⟩

theorem MatchedOk.raise {frames : List (Frame β)} {known : ℕ × ℕ} {t' : ℕ}
    (hk : MatchedOk a t c frames known) (h : t < t') : MatchedOk a t' c frames known :=
  ⟨hk.1.trans h.le, fun ht => absurd ht (by have := hk.1; omega)⟩

theorem ProgressOk.elsewhere {p : Progress} (hk : ProgressOk g a t p) (h : Elsewhere a a' i) :
    ProgressOk g a' t p where
  matched peer c hpos := by
    obtain ⟨v, hv, s, hs, hn, ht, hshared⟩ := hk.matched peer c hpos
    exact ⟨v, hv, s, h.held hs, hn, ht, hshared.trans (h.grows t c)⟩
  committed c := (hk.committed c).elsewhere h
  floor c m hm := by
    obtain ⟨f, hf, hrest⟩ := hk.floor c m hm
    exact ⟨f, (h.grows t c).subset hf, hrest⟩

theorem ReplyOk.elsewhere {req : ReplicateRequest β} {reply : Reply} (hk : ReplyOk a j req reply)
    (h : Elsewhere a a' i) : ReplyOk a' j req reply := by
  intro lsn hlsn hne
  obtain ⟨⟨s, hs, hn, ht, pre, hp, hpl⟩, hpos⟩ := hk lsn hlsn hne
  exact ⟨⟨s, h.held hs, hn, ht, pre, hp, hpl.trans (h.grows _ _)⟩, hpos⟩

theorem CampaignOk.elsewhere {camp : Option ReplicaNode.Campaign} (hk : CampaignOk g a j camp)
    (h : Elsewhere a a' i) (hlead : ∀ t, a'.leader t = some j → a.leader t = some j) :
    CampaignOk g a' j camp := by
  match camp with
  | none => trivial
  | some (.sampled logs tail) =>
    obtain ⟨s, hs, hrest⟩ := hk
    exact ⟨s, h.held hs, hrest⟩
  | some (.standing t votes) =>
    obtain ⟨ht, ⟨cd, hcd, hrest⟩, hne, hvotes⟩ := hk
    refine ⟨ht, ⟨cd, h.candidacies hcd, hrest⟩, fun hl => hne (hlead t hl), fun u hu => ?_⟩
    obtain ⟨v, huv, hv⟩ := hvotes u hu
    exact ⟨v, huv, h.supporters hv⟩

theorem NodeSim.elsewhere {n : Node β} (hk : NodeSim g a j n) (h : Elsewhere a a' i)
    (hji : j ≠ i) : NodeSim g a' j n where
  term := (h.term j hji).trans hk.term
  log c := (congrFun (h.log j hji) c).trans (hk.log c)
  colOk := hk.colOk
  absent := hk.absent
  counter := hk.counter
  counters := hk.counters
  leader hl := h.leader _ _ (hk.leader hl)
  progress hl := (hk.progress hl).elsewhere h
  applied c := (hk.applied c).elsewhere h
  matched c := (hk.matched c).elsewhere h
  campaign := hk.campaign.elsewhere h fun t hl => (h.newLeader t j hl).resolve_right hji
  leading := hk.leading
  idle := hk.idle
  votedBallot b hb hv ht := by
    rcases h.newVote b hb with hb | hb
    · exact hk.votedBallot b hb hv ht
    · exact absurd (hv.symm.trans hb) hji
  votedStood cd hcd hn ht := by
    rcases h.newCandidacy cd hcd with hcd | hcd
    · exact hk.votedStood cd hcd hn ht
    · exact absurd (hn.symm.trans hcd) hji

theorem RecordSim.elsewhere {w : World ι β} (hk : RecordSim g a w) (h : Elsewhere a a' i)
    (hchained : ∀ t c, Chained (a'.leaderLog t c)) : RecordSim g a' w where
  chained := hchained
  requests req hreq := by
    obtain ⟨ht, cd, hcd, hrest⟩ := hk.requests req hreq
    exact ⟨ht, cd, h.candidacies hcd, hrest⟩
  granted gr hgr := by
    obtain ⟨c, hc, hv⟩ := hk.granted gr hgr
    exact ⟨c, hc, h.supporters hv⟩
  messages m hm := by
    obtain ⟨hs, ⟨pre, hpre⟩, hc⟩ := hk.messages m hm
    exact ⟨h.isSome hs, ⟨pre, hpre.trans (h.grows _ _)⟩, hc.elsewhere h⟩
  beats b hb := ⟨h.isSome (hk.beats b hb).1, (hk.beats b hb).2.elsewhere h⟩
  noted x hx := by
    obtain ⟨f, hf, hrest⟩ := hk.noted x hx
    exact ⟨f, (h.grows _ _).subset hf, hrest⟩
  answers an han := by
    obtain ⟨s, hs, hrest⟩ := hk.answers an han
    exact ⟨s, h.held hs, hrest⟩
  won x hx := by
    obtain ⟨ht, hl, hlogs⟩ := hk.won x hx
    refine ⟨ht, h.leader _ _ hl, fun c => ?_⟩
    obtain ⟨e, he, hterm⟩ := hlogs c
    obtain ⟨e', he', hterm'⟩ := h.leaderLog x.term c
    refine ⟨e ++ e', by rw [he', he, List.append_assoc], fun y hy => ?_⟩
    rcases List.mem_append.mp hy with hy | hy
    · exact hterm y hy
    · exact hterm' (by simp [hl]) y hy
  reports r hr := (hk.reports r hr).imp_right fun ⟨cm, hcm, hrest⟩ => ⟨cm, h.commits hcm, hrest⟩
  published x hx := by
    obtain ⟨cm, hcm, hrest⟩ := hk.published x hx
    exact ⟨cm, h.commits hcm, hrest⟩

end Monotone

end DewDB.ReplicationSim
