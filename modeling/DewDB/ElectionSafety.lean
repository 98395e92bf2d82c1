import DewDB.Election

/-!
# Election safety

A granted vote stays with the voter: in memory while it runs, and on disk across a crash. Two
quorums of one configuration share a voter, so a term has at most one winner.
-/
namespace DewDB.ElectionSafety

open Endpoint QuorumConfig ReplicationMeta Vote Election TransitionSystem

variable {ι : Type} {g : NodeGroup ι} {granted : List (Grant ι)} {i : ι} {n : Node}
  {o : Outcome} {disk : Disk} {m : Memory}

/-- The pair is remembered on disk, and in memory while the node is up. -/
def Holds (n : Node) (t : ℕ) (v : Option NodeId) : Prop :=
  Remembers n.disk t v ∧ ∀ m, n.mem = some m → PairLe t v m.term m.votedFor

/-- Memory that a node has after an action: moved forward, or read back from disk. -/
def MemoryFrom (n : Node) (m' : Memory) : Prop :=
  (∃ m, n.mem = some m ∧ PairLe m.term m.votedFor m'.term m'.votedFor) ∨
    load n.disk = .ok none ∨
      ∃ r, load n.disk = .ok (some r) ∧ r.term = m'.term ∧ r.votedFor = m'.votedFor

/-- The votes a standing candidate holds come from nodes that granted them. -/
def VotesBacked (g : NodeGroup ι) (granted : List (Grant ι)) (i : ι) (t : ℕ)
    (votes : List Url) : Prop :=
  ∀ u ∈ votes, ∃ v, sameEndpoint u (g.url v) = true ∧ ⟨v, g.nodeId i, t⟩ ∈ granted

def CampaignBacked (g : NodeGroup ι) (granted : List (Grant ι)) (i : ι) (n : Node) : Prop :=
  ∀ m t votes, n.mem = some m → m.campaign = some (.standing t votes) →
    VotesBacked g granted i t votes

def VoteDurable (n : Node) : Prop :=
  ∀ m c, n.mem = some m → m.votedFor = some c → Remembers n.disk m.term (some c)

def Saved (d d' : Disk) : Prop :=
  d' = d ∨ ∃ r fault, d' = (save r fault d).1

theorem Saved.diskLe {d d' : Disk} (h : Saved d d') : DiskLe d d' := by
  rcases h with rfl | ⟨r, fault, rfl⟩
  · exact DiskLe.refl _
  · exact diskLe_save r fault d

structure ActSpec (g : NodeGroup ι) (granted : List (Grant ι)) (i : ι) (n : Node) (o : Outcome) :
    Prop where
  saved : Saved n.disk o.node.disk
  memory : ∀ m', o.node.mem = some m' → MemoryFrom n m'
  voteDurable : VoteDurable n → VoteDurable o.node
  grant : VoteDurable n → ∀ c t, o.granted = some (c, t) → Remembers o.node.disk t (some c) ∧
    ∃ m, o.node.mem = some m ∧ m.term = t ∧ m.votedFor = some c
  campaign : CampaignBacked g granted i n → ∀ m t votes, o.node.mem = some m →
    m.campaign = some (.standing t votes) →
      VotesBacked g granted i t votes ∨ (votes = [g.url i] ∧ o.granted = some (g.nodeId i, t))
  won : ∀ t, o.won = some t → g.config.contains (g.url i) = true ∧
    ∃ m votes, n.mem = some m ∧ m.campaign = some (.standing t votes) ∧
      g.config.hasQuorum votes = true
  applied : ∀ t, o.applied = some t → ∃ m, n.mem = some m ∧ Task.append t ∈ m.tasks

/-- An action of a running node without a grant or a win: the pair stands or a higher term is
adopted without a vote, and the votes of a campaign are backed. -/
theorem ActSpec.of_forward {disk' : Disk} {m' : Memory} (hsaved : Saved disk disk')
    (hpair : (m'.term = m.term ∧ m'.votedFor = m.votedFor) ∨
      (m.term < m'.term ∧ m'.votedFor = none))
    (hcamp : CampaignBacked g granted i ⟨disk, some m⟩ → ∀ t votes,
      m'.campaign = some (.standing t votes) → VotesBacked g granted i t votes) :
    ActSpec g granted i ⟨disk, some m⟩ ⟨⟨disk', some m'⟩, none, none, none⟩ where
  saved := hsaved
  memory := by
    rintro _ ⟨⟩
    refine .inl ⟨m, rfl, ?_⟩
    rcases hpair with ⟨ht, hv⟩ | ⟨ht, -⟩
    · rw [ht, hv]
      exact PairLe.refl _ _
    · exact .inl ht
  voteDurable := by
    rintro hdur _ c ⟨⟩ hc
    rcases hpair with ⟨ht, hv⟩ | ⟨-, hv⟩
    · rw [ht]
      exact hsaved.diskLe.1 _ _ (hdur m c rfl (hv ▸ hc))
    · simp [hv] at hc
  grant := by simp
  campaign := by
    rintro hback _ t votes ⟨⟩ hc
    exact .inl (hcamp hback t votes hc)
  won := by simp
  applied := by simp

theorem campaign_kept {m' : Memory} (h : m'.campaign = m.campaign) :
    CampaignBacked g granted i ⟨disk, some m⟩ → ∀ t votes,
      m'.campaign = some (.standing t votes) → VotesBacked g granted i t votes :=
  fun hback t votes hc => hback m t votes rfl (h ▸ hc)

theorem boot_spec {fault : Option Fault} (h : boot g i n fault = some o) :
    ActSpec g granted i n o := by
  unfold boot at h
  split at h
  next r hmem hload =>
    obtain rfl := Option.some.inj h
    refine ⟨.inr ⟨_, _, rfl⟩, ?_, ?_, by simp [Outcome.quiet], ?_, by simp [Outcome.quiet],
      by simp [Outcome.quiet]⟩
    · rintro m' hm'
      obtain rfl := Option.some.inj hm'
      cases r with
      | none => exact .inr (.inl hload)
      | some r => exact .inr (.inr ⟨r, hload, rfl, rfl⟩)
    · rintro - m' c hm' hc
      obtain rfl := Option.some.inj hm'
      cases r with
      | none => simp [bootRecord] at hc
      | some r =>
        have hr : Remembers n.disk r.term r.votedFor := remembers_of_load hload
        rw [show r.votedFor = some c from hc] at hr
        exact (diskLe_save _ _ _).1 _ _ hr
    · rintro - m' t votes hm' hc
      obtain rfl := Option.some.inj hm'
      simp at hc
  next => simp at h

theorem crash_spec : ActSpec g granted i n (.quiet ⟨n.disk, none⟩) where
  saved := .inl rfl
  memory := by simp [Outcome.quiet]
  voteDurable := by simp [Outcome.quiet, VoteDurable]
  grant := by simp [Outcome.quiet]
  campaign := by simp [Outcome.quiet]
  won := by simp [Outcome.quiet]
  applied := by simp [Outcome.quiet]

theorem beginCampaign_spec (h : beginCampaign g i disk m = some o) :
    ActSpec g granted i ⟨disk, some m⟩ o := by
  unfold beginCampaign at h
  split_ifs at h
  obtain rfl := Option.some.inj h
  exact .of_forward (.inl rfl) (.inl ⟨rfl, rfl⟩) (by simp)

theorem stand_spec {fault : Option Fault} (h : stand g i disk m fault = some o) :
    ActSpec g granted i ⟨disk, some m⟩ o := by
  unfold stand at h
  split_ifs at h with hprep
  dsimp only at h
  split_ifs at h with hok
  · obtain rfl := Option.some.inj h
    refine ⟨.inr ⟨_, _, rfl⟩, ?_, ?_, ?_, ?_, by simp, by simp⟩
    · rintro _ ⟨⟩
      exact .inl ⟨m, rfl, .inl (Nat.lt_succ_self _)⟩
    · rintro - _ c ⟨⟩ ⟨⟩
      exact remembers_of_save_ok hok
    · rintro - c t ⟨⟩
      exact ⟨remembers_of_save_ok hok, _, rfl, rfl, rfl⟩
    · rintro - _ t votes ⟨⟩ hc
      obtain ⟨rfl, rfl⟩ : m.term + 1 = t ∧ [g.url i] = votes := by simpa using hc
      exact .inr ⟨rfl, rfl⟩
  · obtain rfl := Option.some.inj h
    exact .of_forward (.inr ⟨_, _, rfl⟩) (.inl ⟨rfl, rfl⟩) (by simp)

theorem voteHandler_spec {req : VoteRequest} {myLogs : List (CollectionName × LogTail)}
    {mySummary : LogTail} {mustWithhold : Bool} {fault : Option Fault}
    (h : voteHandler g i disk m req myLogs mySummary mustWithhold fault = some o) :
    ActSpec g granted i ⟨disk, some m⟩ o := by
  unfold voteHandler at h
  split_ifs at h with hmember
  dsimp only at h
  have hpair := pairLe_decideVote m.term m.votedFor myLogs mySummary
    (some g.config) req mustWithhold
  have hgrant : ∀ d, decideVote m.term m.votedFor myLogs mySummary
    (some g.config) req mustWithhold = d →
      d.granted = true → d.votedFor = some req.candidateId := by
    rintro d rfl hg
    rw [(decideVote_granted hg).1]
  generalize hd : decideVote m.term m.votedFor myLogs mySummary (some g.config) req mustWithhold = d
    at h hpair
  have hgrant := hgrant d hd
  generalize hs : (if d.term ≠ m.term ∨ d.votedFor ≠ m.votedFor then
    save ⟨d.term, m.isLeader && !(decide (m.term < d.term) && m.isLeader), d.votedFor⟩ fault disk
    else (disk, true)) = saved at h
  have hsaved : Saved disk saved.1 := by
    rw [← hs]
    split_ifs
    · exact .inr ⟨_, _, rfl⟩
    · exact .inl rfl
  -- A vote that was not saved now is one that memory, and so the disk, already held.
  have hkept : saved.2 = true → VoteDurable ⟨disk, some m⟩ → ∀ c, d.votedFor = some c →
      Remembers saved.1 d.term (some c) := by
    rw [← hs]
    split_ifs with hnew
    · intro hok _ c hc
      exact hc ▸ remembers_of_save_ok hok
    · push Not at hnew
      intro _ hdur c hc
      rw [hnew.1]
      exact hdur m c rfl (hnew.2 ▸ hc)
  by_cases hok : saved.2 = true
  · rw [if_pos hok] at h
    obtain rfl := Option.some.inj h
    refine ⟨hsaved, ?_, ?_, ?_, ?_, by simp, by simp⟩
    · rintro _ ⟨⟩
      exact .inl ⟨m, rfl, hpair⟩
    · rintro hdur _ c ⟨⟩ hc
      exact hkept hok hdur c hc
    · intro hdur c t hct
      have hg : d.granted = true := by
        by_contra hg
        simp [hg] at hct
      obtain ⟨rfl, rfl⟩ : req.candidateId = c ∧ d.term = t := by simpa [hg] using hct
      exact ⟨hkept hok hdur _ (hgrant hg), _, rfl, rfl, hgrant hg⟩
    · rintro hback _ t votes ⟨⟩ hc
      exact .inl (hback m t votes rfl hc)
  · rw [if_neg hok] at h
    obtain rfl := Option.some.inj h
    exact .of_forward hsaved (.inl ⟨rfl, rfl⟩) (campaign_kept rfl)

theorem voteReply_spec [DecidableEq ι] {voter : ι} {peer : Url}
    (h : voteReply g granted i disk m voter peer = some o) :
    ActSpec g granted i ⟨disk, some m⟩ o := by
  unfold voteReply at h
  split at h
  next term votes hcamp =>
    split_ifs at h with hguard
    obtain ⟨hvote, -, hpeer⟩ := hguard
    obtain rfl := Option.some.inj h
    refine .of_forward (.inl rfl) (.inl ⟨rfl, rfl⟩) ?_
    intro hback t votes' hc
    obtain ⟨rfl, rfl⟩ : term = t ∧ votes ++ [peer] = votes' := by simpa using hc
    intro u hu
    rcases List.mem_append.mp hu with hu | hu
    · exact hback m term votes rfl hcamp u hu
    · obtain rfl := List.mem_singleton.mp hu
      exact ⟨voter, hpeer, hvote⟩
  next => simp at h

theorem becomeLeader_spec (h : becomeLeader g i disk m = some o) :
    ActSpec g granted i ⟨disk, some m⟩ o := by
  unfold becomeLeader at h
  split at h
  next term votes hcamp =>
    split_ifs at h with hquorum hself
    · obtain rfl := Option.some.inj h
      refine ⟨.inl rfl, ?_, ?_, by simp, ?_, ?_, by simp⟩
      · rintro _ ⟨⟩
        exact .inl ⟨m, rfl, PairLe.refl _ _⟩
      · rintro hdur _ c ⟨⟩ hc
        exact hdur m c rfl hc
      · rintro - _ t votes ⟨⟩ ⟨⟩
      · rintro t ⟨⟩
        exact ⟨hself.1, m, votes, rfl, hcamp, hquorum⟩
    · obtain rfl := Option.some.inj h
      exact .of_forward (.inl rfl) (.inl ⟨rfl, rfl⟩) (by simp)
  next => simp at h

theorem giveUp_spec (h : giveUp disk m = some o) : ActSpec g granted i ⟨disk, some m⟩ o := by
  unfold giveUp at h
  split_ifs at h
  obtain rfl := Option.some.inj h
  exact .of_forward (.inl rfl) (.inl ⟨rfl, rfl⟩) (by simp)

theorem demote_spec {newTerm : ℕ} (h : demote disk m newTerm = some o) :
    ActSpec g granted i ⟨disk, some m⟩ o := by
  unfold demote at h
  split_ifs at h with hle
  obtain rfl := Option.some.inj h
  exact .of_forward (.inl rfl) (.inr ⟨Nat.lt_of_not_le hle, rfl⟩) (campaign_kept rfl)

theorem heartbeat_spec {theirTerm : ℕ} (h : heartbeat disk m theirTerm = some o) :
    ActSpec g granted i ⟨disk, some m⟩ o := by
  unfold heartbeat at h
  split_ifs at h with hlt
  obtain rfl := Option.some.inj h
  exact .of_forward (.inl rfl) (.inr ⟨hlt, rfl⟩) (campaign_kept rfl)

theorem stepDown_spec (h : stepDown disk m = some o) : ActSpec g granted i ⟨disk, some m⟩ o := by
  unfold stepDown at h
  split_ifs at h
  obtain rfl := Option.some.inj h
  exact .of_forward (.inl rfl) (.inl ⟨rfl, rfl⟩) (campaign_kept rfl)

theorem replicate_spec {term : ℕ} (h : replicate disk m term = some o) :
    ActSpec g granted i ⟨disk, some m⟩ o := by
  unfold replicate at h
  split_ifs at h
  obtain rfl := Option.some.inj h
  exact .of_forward (.inl rfl) (.inl ⟨rfl, rfl⟩) (campaign_kept rfl)

theorem runTask_spec {t : Task} (ht : t ∈ m.tasks) (rest : List Task) (fault : Option Fault) :
    ActSpec g granted i ⟨disk, some m⟩ (runTask disk m t rest fault) := by
  cases t with
  | checked term =>
    unfold runTask
    dsimp only
    split_ifs with hlt
    · exact .of_forward (.inl rfl) (.inr ⟨hlt, rfl⟩) (campaign_kept rfl)
    · exact .of_forward (.inl rfl) (.inl ⟨rfl, rfl⟩) (campaign_kept rfl)
  | persist record answering =>
    exact .of_forward (.inr ⟨_, _, rfl⟩) (.inl ⟨rfl, rfl⟩) (campaign_kept rfl)
  | append term =>
    have hquiet : ActSpec g granted i ⟨disk, some m⟩
      (.quiet ⟨disk, some { m with tasks := rest }⟩) :=
      .of_forward (.inl rfl) (.inl ⟨rfl, rfl⟩) (campaign_kept rfl)
    refine { hquiet with applied := ?_ }
    rintro _ ⟨⟩
    exact ⟨m, rfl, ht⟩
  | recordStepDown => exact .of_forward (.inl rfl) (.inl ⟨rfl, rfl⟩) (campaign_kept rfl)

theorem act_spec [DecidableEq ι] {a : Action ι} (h : act g granted i n a = some o) :
    ActSpec g granted i n o := by
  obtain ⟨disk, mem⟩ := n
  cases mem with
  | none =>
    cases a with
    | boot fault => exact boot_spec h
    | _ => simp [act] at h
  | some m =>
    cases a with
    | boot fault => simp [act, boot] at h
    | crash =>
      obtain rfl := Option.some.inj h
      exact crash_spec
    | beginCampaign => exact beginCampaign_spec h
    | stand fault => exact stand_spec h
    | voteRequest req myLogs mySummary mustWithhold fault => exact voteHandler_spec h
    | voteReply voter peer => exact voteReply_spec h
    | becomeLeader => exact becomeLeader_spec h
    | giveUp => exact giveUp_spec h
    | demote newTerm => exact demote_spec h
    | heartbeat theirTerm => exact heartbeat_spec h
    | stepDown => exact stepDown_spec h
    | replicate term => exact replicate_spec h
    | task k fault =>
      obtain ⟨t, ht, rfl⟩ : ∃ t, m.tasks[k]? = some t ∧
          runTask disk m t (m.tasks.eraseIdx k) fault = o := by
        simpa [act, Option.map_eq_some_iff] using h
      exact runTask_spec (List.mem_of_getElem? ht) _ fault

theorem ActSpec.holds (h : ActSpec g granted i n o) {t : ℕ} {v : Option NodeId}
    (hn : Holds n t v) : Holds o.node t v := by
  refine ⟨h.saved.diskLe.1 t v hn.1, fun m' hm' => ?_⟩
  rcases h.memory m' hm' with ⟨m, hm, hle⟩ | hnone | ⟨r, hr, ht, hv⟩
  · exact (hn.2 m hm).trans hle
  · have := hn.1
    simp [Remembers, hnone] at this
  · have := hn.1
    simpa [Remembers, hr, ht, hv] using this

/-- A quorum of the configuration voted for node `i` in term `t`. -/
def Elected (g : NodeGroup ι) (granted : List (Grant ι)) (i : ι) (t : ℕ) : Prop :=
  g.config.contains (g.url i) = true ∧
    ∃ votes, g.config.hasQuorum votes = true ∧ VotesBacked g granted i t votes

structure Inv (g : NodeGroup ι) (w : World ι) : Prop where
  voteDurable : ∀ i, VoteDurable (w.nodes i)
  grants : ∀ gr ∈ w.granted, Holds (w.nodes gr.voter) gr.term (some gr.candidate)
  voteOnce : ∀ gr ∈ w.granted, ∀ gr' ∈ w.granted, gr.voter = gr'.voter → gr.term = gr'.term →
    gr.candidate = gr'.candidate
  campaigns : ∀ i, CampaignBacked g w.granted i (w.nodes i)
  elected : ∀ i t, (i, t) ∈ w.won → Elected g w.granted i t

theorem VotesBacked.mono {granted' : List (Grant ι)} {t : ℕ} {votes : List Url}
    (hsub : ∀ gr ∈ granted, gr ∈ granted') (h : VotesBacked g granted i t votes) :
    VotesBacked g granted' i t votes := by
  intro u hu
  obtain ⟨v, huv, hv⟩ := h u hu
  exact ⟨v, huv, hsub _ hv⟩

theorem inv_initial {w : World ι} (h : Initial w) : Inv g w := by
  obtain ⟨hdown, hgranted, hwon, -⟩ := h
  refine ⟨fun i m c hm => ?_, by simp [hgranted], by simp [hgranted], fun i m t votes hm => ?_,
    by simp [hwon]⟩
  · simp [hdown i] at hm
  · simp [hdown i] at hm

theorem inv_step [DecidableEq ι] {w w' : World ι} {label : ι × Action ι} (hinv : Inv g w)
    (h : step g w label = some w') : Inv g w' := by
  obtain ⟨j, a⟩ := label
  obtain ⟨o, ho, rfl⟩ := step_eq_some.mp h
  have hspec := act_spec ho
  have hsub : ∀ gr ∈ w.granted, gr ∈ (w.record j o).granted := fun gr hgr => by
    simp [World.record, hgr]
  have hself : (w.record j o).nodes j = o.node := by simp [World.record]
  have hother : ∀ k, k ≠ j → (w.record j o).nodes k = w.nodes k := fun k hk => by
    simp [World.record, hk]
  have hholds : ∀ k t v, Holds (w.nodes k) t v → Holds ((w.record j o).nodes k) t v := by
    intro k t v hk
    by_cases hkj : k = j
    · subst hkj
      rw [hself]
      exact hspec.holds hk
    · rwa [hother k hkj]
  have hnew : ∀ gr ∈ (w.record j o).granted, gr ∈ w.granted ∨
      (gr.voter = j ∧ o.granted = some (gr.candidate, gr.term)) := by
    intro gr hgr
    rcases List.mem_append.mp hgr with hnew | hold
    · obtain ⟨⟨c, t⟩, hct, rfl⟩ : ∃ p, o.granted = some p ∧ (⟨j, p.1, p.2⟩ : Grant ι) = gr := by
        simpa using hnew
      exact .inr ⟨rfl, hct⟩
    · exact .inl hold
  have hgrants : ∀ gr ∈ (w.record j o).granted,
      Holds ((w.record j o).nodes gr.voter) gr.term (some gr.candidate) := by
    intro gr hgr
    rcases hnew gr hgr with hold | ⟨hv, hct⟩
    · exact hholds _ _ _ (hinv.grants gr hold)
    · rw [hv, hself]
      obtain ⟨hdisk, m, hm, ht, hc⟩ := hspec.grant (hinv.voteDurable j) _ _ hct
      refine ⟨hdisk, fun m' hm' => ?_⟩
      obtain rfl : m = m' := Option.some.inj (hm.symm.trans hm')
      exact .inr ⟨ht.symm, .inr hc⟩
  -- A new vote stands in memory, so it agrees with every vote of the term before it.
  have honce : ∀ gr gr' : Grant ι, gr ∈ (w.record j o).granted → gr.voter = j →
      o.granted = some (gr'.candidate, gr'.term) → gr.term = gr'.term →
      gr.candidate = gr'.candidate := by
    intro gr gr' hgr hv hct ht
    obtain ⟨-, m, hm, hmt, hmc⟩ := hspec.grant (hinv.voteDurable j) _ _ hct
    have hle := (hgrants gr hgr).2 m (by rw [hv, hself, hm])
    rw [hmt, ht, hmc] at hle
    exact (Option.some.inj hle.vote_eq).symm
  refine ⟨fun k => ?_, hgrants, fun gr hgr gr' hgr' hv ht => ?_, fun k => ?_, fun k t hk => ?_⟩
  · by_cases hkj : k = j
    · subst hkj
      rw [hself]
      exact hspec.voteDurable (hinv.voteDurable k)
    · rw [hother k hkj]
      exact hinv.voteDurable k
  · rcases hnew gr hgr with hold | ⟨hj, hct⟩
    · rcases hnew gr' hgr' with hold' | ⟨hj', hct'⟩
      · exact hinv.voteOnce gr hold gr' hold' hv ht
      · exact honce gr gr' hgr (hv.trans hj') hct' ht
    · exact (honce gr' gr hgr' (hv.symm.trans hj) hct ht.symm).symm
  · by_cases hkj : k = j
    · subst hkj
      rw [hself]
      intro m t votes hm hc
      rcases hspec.campaign (hinv.campaigns k) m t votes hm hc with hback | ⟨rfl, hgr⟩
      · exact hback.mono hsub
      · intro u hu
        obtain rfl := List.mem_singleton.mp hu
        exact ⟨k, sameEndpoint_refl _, by simp [World.record, hgr]⟩
    · rw [hother k hkj]
      intro m t votes hm hc
      exact (hinv.campaigns k m t votes hm hc).mono hsub
  · rcases List.mem_append.mp hk with hnew | hold
    · obtain ⟨ht, rfl⟩ : o.won = some t ∧ j = k := by simpa using hnew
      obtain ⟨hmember, m, votes, hm, hcamp, hquorum⟩ := hspec.won t ht
      exact ⟨hmember, votes, hquorum, (hinv.campaigns j m t votes hm hcamp).mono hsub⟩
    · obtain ⟨hmember, votes, hquorum, hback⟩ := hinv.elected k t hold
      exact ⟨hmember, votes, hquorum, hback.mono hsub⟩

/-- Two elections of one term share a voter, and the voter has one vote in the term. -/
theorem elected_unique {w : World ι} (hinv : Inv g w) {j : ι} {t : ℕ}
    (hi : Elected g w.granted i t) (hj : Elected g w.granted j t) : i = j := by
  obtain ⟨hmember, votes, hquorum, hback⟩ := hi
  obtain ⟨-, votes', hquorum', hback'⟩ := hj
  obtain ⟨u, -, hu, hu'⟩ :=
    (hasQuorum_iff.mp hquorum).inter hmember (hasQuorum_iff.mp hquorum')
  obtain ⟨a, ha, hau⟩ := List.any_eq_true.mp hu
  obtain ⟨b, hb, hbu⟩ := List.any_eq_true.mp hu'
  obtain ⟨v, hav, hv⟩ := hback a ha
  obtain ⟨v', hbv, hv'⟩ := hback' b hb
  -- Both spellings name the shared voter.
  have hvv : v = v' := by
    apply g.url_injective
    rw [sameEndpoint_iff] at *
    rw [← hav, hau, ← hbu, hbv]
  subst hvv
  exact g.nodeId_injective (hinv.voteOnce _ hv _ hv' rfl rfl)

/-- The record on `d'` is no earlier than the one on `d`: never absent again, never a lower term,
never another vote within the term. A record that can no longer be read keeps the node down. -/
def NeverRewinds (d d' : Disk) : Prop :=
  ∀ m, load d = .ok (some m) → (∃ e, load d' = .error e) ∨
    ∃ m', load d' = .ok (some m') ∧ m.term ≤ m'.term ∧
      (m.term = m'.term → m.votedFor.isSome → m'.votedFor = m.votedFor)

theorem neverRewinds_of_diskLe {d d' : Disk} (h : DiskLe d d') : NeverRewinds d d' := by
  intro m hm
  have hr := h.1 _ _ (remembers_of_load hm)
  cases hl : load d' with
  | error e => exact .inl ⟨e, rfl⟩
  | ok r =>
    cases r with
    | none => simp [Remembers, hl] at hr
    | some m' =>
      have hle : PairLe m.term m.votedFor m'.term m'.votedFor := by simpa [Remembers, hl] using hr
      refine .inr ⟨m', rfl, hle.term_le, fun ht hv => ?_⟩
      obtain ⟨c, hc⟩ := Option.isSome_iff_exists.mp hv
      rw [← ht, hc] at hle
      rw [hle.vote_eq, hc]

theorem diskLe_step [DecidableEq ι] {w w' : World ι} {label : ι × Action ι}
    (h : step g w label = some w') (k : ι) : DiskLe (w.nodes k).disk (w'.nodes k).disk := by
  obtain ⟨o, ho, rfl⟩ := step_eq_some.mp h
  by_cases hk : k = label.1
  · subst hk
    simpa [World.record] using (act_spec ho).saved.diskLe
  · simpa [World.record, hk] using DiskLe.refl (w.nodes k).disk

theorem diskLe_run [DecidableEq ι] {w w' : World ι} {labels : List (ι × Action ι)}
    (h : run (step g) w labels = some w') (k : ι) : DiskLe (w.nodes k).disk (w'.nodes k).disk :=
  run_invariant (I := fun v => DiskLe (w.nodes k).disk (v.nodes k).disk)
    (fun _ _ _ hle hstep => hle.trans (diskLe_step hstep k)) h (DiskLe.refl _)

/-- In every run a term has at most one winner, no durable pair rewinds, and a vote that was
answered is the vote its term keeps. -/
theorem election_safety [DecidableEq ι] (g : NodeGroup ι) {w : World ι}
    (h : Reachable Initial (step g) w) :
    (∀ i j t, (i, t) ∈ w.won → (j, t) ∈ w.won → i = j) ∧
    (∀ labels w', run (step g) w labels = some w' →
      ∀ i, NeverRewinds (w.nodes i).disk (w'.nodes i).disk) ∧
    ∀ gr ∈ w.granted, (∃ e, load (w.nodes gr.voter).disk = .error e) ∨
      ∃ m, load (w.nodes gr.voter).disk = .ok (some m) ∧
        gr.term ≤ m.term ∧ (m.term = gr.term → m.votedFor = some gr.candidate) := by
  have hinv : Inv g w := h.invariant (fun _ => inv_initial) fun _ _ _ => inv_step
  refine ⟨fun i j t hi hj => elected_unique hinv (hinv.elected i t hi) (hinv.elected j t hj),
    fun labels w' hrun i => neverRewinds_of_diskLe (diskLe_run hrun i), fun gr hgr => ?_⟩
  have hr := (hinv.grants gr hgr).1
  cases hl : load (w.nodes gr.voter).disk with
  | error e => exact .inl ⟨e, rfl⟩
  | ok r =>
    cases r with
    | none => simp [Remembers, hl] at hr
    | some m =>
      have hle : PairLe gr.term (some gr.candidate) m.term m.votedFor := by
        simpa [Remembers, hl] using hr
      refine .inr ⟨m, rfl, hle.term_le, fun ht => ?_⟩
      rw [ht] at hle
      exact hle.vote_eq

/-- Node `a` wins term 1 with the vote of `b`, after a first attempt whose save failed. -/
def firstElection : List (Fin 3 × Action (Fin 3)) :=
  [(0, .boot none), (1, .boot none), (2, .boot (some .write)),
    (0, .beginCampaign), (0, .stand (some .syncOrRename)),
    (0, .beginCampaign), (0, .stand none),
    (1, .voteRequest ⟨1, ['a'], 0, 0, [], some ['a']⟩ [] ⟨0, 0⟩ false none),
    (0, .voteReply 1 ['b']), (0, .becomeLeader), (1, .crash), (1, .boot none)]

theorem election_safety_first :
    ∃ w, run (step threeNodes) freshWorld firstElection = some w ∧ ((0 : Fin 3), 1) ∈ w.won ∧
      ∀ i, (i, 1) ∈ w.won → i = 0 := by
  have hwins : (run (step threeNodes) freshWorld firstElection).map World.won = some [(0, 1)] := by
    decide
  obtain ⟨w, hrun, hwon⟩ := Option.map_eq_some_iff.mp hwins
  have hreach : Reachable Initial (step threeNodes) w :=
    ⟨freshWorld, firstElection, ⟨fun _ => rfl, rfl, rfl, rfl⟩, hrun⟩
  have hmem : ((0 : Fin 3), 1) ∈ w.won := by simp [hwon]
  exact ⟨w, hrun, hmem, fun i hi => (election_safety threeNodes hreach).1 i 0 1 hi hmem⟩

end DewDB.ElectionSafety
