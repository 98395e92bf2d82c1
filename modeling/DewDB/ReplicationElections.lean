import DewDB.ReplicationSim

/-!
# Elections of the protocol as steps of the log machine

A sample is a snapshot, standing is a candidacy on that snapshot, a granted vote is a ballot whose
freshness test `candidateIsCurrent` makes over the map of tails, and a win is a win: a second one in
the term would share a voter with the first.
-/
namespace DewDB.ReplicationSim

open Endpoint QuorumConfig Vote Election CollectionLog LeaderProgress ReplicaNode Replication
open LogReplication hiding Initial

variable {ι β : Type} [DecidableEq ι] {g : Cluster ι} {a a' : Machine ι β}
  {w w' : World ι β} {i : ι} {n n' : Node β}

theorem Sim.setNode (hsim : Sim g a w) (hinv : Inv a' (GroupQuorum g.toNodeGroup))
    (he : Elsewhere a a' i) (hn : NodeSim g.toNodeGroup a' i n)
    (hchained : ∀ t c, Chained (a'.leaderLog t c)) : Sim g a' (w.setNode i n) where
  inv := hinv
  nodes j := by
    by_cases hj : j = i
    · subst hj
      simpa [World.setNode] using hn
    · simpa [World.setNode, hj] using (hsim.nodes j).elsewhere he hj
  records := { hsim.records.elsewhere he hchained with }

omit [DecidableEq ι] in
theorem Sim.records_only (hsim : Sim g a w) (hnodes : w'.nodes = w.nodes)
    (hrec : RecordSim g.toNodeGroup a w') : Sim g a w' :=
  ⟨hsim.inv, fun i => hnodes ▸ hsim.nodes i, hrec⟩

/-- The state of the logs of a node that a change of role leaves alone. -/
structure SameLogs (n n' : Node β) : Prop where
  names : n'.names = n.names
  cols : n'.cols = n.cols
  nextLsn : n'.nextLsn = n.nextLsn
  lastLogTerm : n'.lastLogTerm = n.lastLogTerm
  leaderMatched : n'.leaderMatched = n.leaderMatched

section Machine

variable {v : ι} {t : ℕ}

theorem elsewhere_raise (a : Machine ι β) (i : ι) (t : ℕ) : Elsewhere a (a.raise i t) i :=
  { Elsewhere.refl a i with term := fun j hj => by simp [State.raise, hj] }

omit [DecidableEq ι] in
theorem elsewhere_hold (a : Machine ι β) (i : ι) : Elsewhere a (a.hold i) i :=
  { Elsewhere.refl a i with held := Set.subset_insert _ _ }

omit [DecidableEq ι] in
theorem elsewhere_commit (a : Machine ι β) (cm : Commit CollectionName (Frame β)) (i : ι) :
    Elsewhere a (a.commit cm) i :=
  { Elsewhere.refl a i with commits := Set.subset_insert _ _ }

theorem elsewhere_stand (a : Machine ι β) (i : ι) (t : ℕ)
    (s : Snapshot ι CollectionName (Frame β)) : Elsewhere a (a.stand i t s) i :=
  { Elsewhere.refl a i with
    term := fun j hj => by simp [State.stand, hj]
    candidacies := Set.subset_insert _ _
    newCandidacy := by
      rintro cd (rfl | hcd)
      · exact .inr rfl
      · exact .inl hcd }

theorem elsewhere_vote (a : Machine ι β) (i : ι) (t : ℕ) (v : ι) : Elsewhere a (a.vote i t v) i :=
  { Elsewhere.refl a i with
    term := fun j hj => by simp [State.vote, hj]
    votes := Set.subset_insert _ _
    newVote := by
      rintro b (rfl | hb)
      · exact .inr rfl
      · exact .inl hb }

omit [DecidableEq ι] in
theorem elsewhere_win (hinv : Inv a (GroupQuorum g.toNodeGroup))
    (hnone : a.leader (a.term i) = none) : Elsewhere a (a.win i) i :=
  { Elsewhere.refl a i with
    leader := fun t v hv => by
      by_cases ht : t = a.term i
      · simp [ht, hnone] at hv
      · simpa [State.win, ht] using hv
    newLeader := fun t v hv => by
      by_cases ht : t = a.term i
      · subst ht
        exact .inr (by simpa [State.win, eq_comm] using hv)
      · exact .inl (by simpa [State.win, ht] using hv)
    leaderLog := fun t c => by
      by_cases ht : t = a.term i
      · subst ht
        exact ⟨a.log i c, by simp [State.win, hinv.leadNone _ hnone], by simp [hnone]⟩
      · exact ⟨[], by simp [State.win, ht], by simp⟩ }

end Machine

section Roles

omit [DecidableEq ι]

theorem no_vote_above (hinv : Inv a (GroupQuorum g.toNodeGroup)) {t : ℕ} (ht : a.term i < t) :
    (∀ b ∈ a.votes, b.voter = i → b.term ≠ t) ∧ ∀ cd ∈ a.candidacies, cd.node = i →
      cd.term ≠ t := by
  constructor
  · rintro b hb rfl rfl
    exact absurd (hinv.votes b hb).le (by omega)
  · rintro cd hcd rfl rfl
    exact absurd (hinv.candidacies cd hcd).2.2.2 (by omega)

/-- A change of role within the term: the logs, the vote and the term stand. -/
theorem NodeSim.role (hk : NodeSim g.toNodeGroup a i n) (n' : Node β) (hsame : SameLogs n n')
    (hterm : n'.term = n.term) (hvote : n'.votedFor = n.votedFor)
    (hlead : n'.isLeader = true → n.isLeader = true ∧ n'.campaign = none ∧
      ProgressOk g.toNodeGroup a n.term n'.progress)
    (hidle : n'.isLeader = false → ∀ c, n'.progress.committed c = 0)
    (hcamp : CampaignOk g.toNodeGroup a i n'.campaign) : NodeSim g.toNodeGroup a i n' where
  term := hk.term.trans hterm.symm
  log := by rw [hsame.cols]; exact hk.log
  colOk := by rw [hsame.cols]; exact hk.colOk
  absent := by rw [hsame.cols, hsame.names]; exact hk.absent
  counter := by rw [hsame.cols, hsame.nextLsn]; exact hk.counter
  counters := by
    rw [hsame.names, Node.counters, hsame.lastLogTerm, hsame.nextLsn]
    exact hk.counters
  leader hl := by rw [hterm]; exact hk.leader (hlead hl).1
  progress hl := by rw [hterm]; exact (hlead hl).2.2
  applied := by rw [hsame.cols, hterm]; exact hk.applied
  matched := by rw [hsame.cols, hterm, hsame.leaderMatched]; exact hk.matched
  campaign := hcamp
  leading hl := (hlead hl).2.1
  idle := hidle
  votedBallot := by rw [hterm, hvote]; exact hk.votedBallot
  votedStood := by rw [hterm, hvote]; exact hk.votedStood

end Roles

theorem NodeSim.raise (hinv : Inv a (GroupQuorum g.toNodeGroup)) (hk : NodeSim g.toNodeGroup a i n)
    (hsame : SameLogs n n') (hlt : n.term < n'.term) (hlead : n'.isLeader = false)
    (hidle : ∀ c, n'.progress.committed c = 0) (hcamp : n'.campaign = n.campaign) :
    NodeSim g.toNodeGroup (a.raise i n'.term) i n' := by
  have he := elsewhere_raise a i n'.term
  obtain ⟨hvotes, hcands⟩ := no_vote_above hinv (i := i) (t := n'.term) (by rw [hk.term]; exact hlt)
  refine ⟨by simp [State.raise], by rw [hsame.cols]; exact hk.log,
    by rw [hsame.cols]; exact hk.colOk,
    by rw [hsame.cols, hsame.names]; exact hk.absent,
    by rw [hsame.cols, hsame.nextLsn]; exact hk.counter, ?_, by simp [hlead], by simp [hlead],
    fun c => ?_, fun c => ?_, ?_, by simp [hlead], fun _ => hidle,
    fun b hb hv ht => absurd ht (hvotes b hb hv), fun cd hcd hn ht => absurd ht (hcands cd hcd hn)⟩
  · rw [hsame.names, Node.counters, hsame.lastLogTerm, hsame.nextLsn]
    exact hk.counters
  · rw [hsame.cols]
    exact ((hk.applied c).mono hlt.le).elsewhere he
  · rw [hsame.cols, hsame.leaderMatched]
    exact ((hk.matched c).raise hlt).elsewhere he
  · rw [hcamp]
    exact hk.campaign.elsewhere he fun t h => h

theorem Sim.raise (hsim : Sim g a w) (n' : Node β) (hsame : SameLogs (w.nodes i) n')
    (hlt : (w.nodes i).term < n'.term) (hlead : n'.isLeader = false)
    (hidle : ∀ c, n'.progress.committed c = 0) (hcamp : n'.campaign = (w.nodes i).campaign) :
    Sim g (a.raise i n'.term) (w.setNode i n') :=
  hsim.setNode (hsim.inv.raise groupQuorum_mono (by rw [(hsim.nodes i).term]; exact hlt.le))
    (elsewhere_raise _ _ _) ((hsim.nodes i).raise hsim.inv hsame hlt hlead hidle hcamp)
    hsim.records.chained

theorem sim_demote (hsim : Sim g a w) {newTerm : ℕ} (h : (w.nodes i).term < newTerm) :
    Sim g (a.raise i newTerm) (w.setNode i ((w.nodes i).demote newTerm)) :=
  hsim.raise ((w.nodes i).demote newTerm) ⟨rfl, rfl, rfl, rfl, rfl⟩ h rfl (fun _ => rfl) rfl

theorem sim_adopt (hsim : Sim g a w) {newTerm : ℕ} (hlead : (w.nodes i).isLeader = false)
    (h : (w.nodes i).term < newTerm) :
    Sim g (a.raise i newTerm) (w.setNode i ((w.nodes i).adopt newTerm)) :=
  hsim.raise ((w.nodes i).adopt newTerm) ⟨rfl, rfl, rfl, rfl, rfl⟩ h hlead
    ((hsim.nodes i).idle hlead) rfl

theorem sim_role (hsim : Sim g a w) (hn : NodeSim g.toNodeGroup a i n) : Sim g a (w.setNode i n) :=
  hsim.setNode hsim.inv (Elsewhere.refl a i) hn hsim.records.chained

theorem sim_stepDown (hsim : Sim g a w) : Sim g a (w.setNode i (w.nodes i).relinquish) :=
  sim_role hsim ((hsim.nodes i).role (w.nodes i).relinquish ⟨rfl, rfl, rfl, rfl, rfl⟩ rfl rfl
    (by simp [Node.relinquish]) (fun _ _ => rfl) (hsim.nodes i).campaign)

theorem sim_giveUp (hsim : Sim g a w) : Sim g a (w.setNode i { w.nodes i with campaign := none }) :=
  sim_role hsim ((hsim.nodes i).role _ ⟨rfl, rfl, rfl, rfl, rfl⟩ rfl rfl
    (fun hl => ⟨hl, rfl, (hsim.nodes i).progress hl⟩) (hsim.nodes i).idle trivial)

omit [DecidableEq ι] in
theorem localLogTails_eq (hk : NodeSim g.toNodeGroup a i n) :
    n.localLogTails = n.names.map fun c => (c, ⟨termOf (a.log i c), lsnOf (a.log i c)⟩) := by
  refine List.map_congr_left fun c _ => ?_
  rw [(hk.colOk c).lsn, (hk.colOk c).term, hk.log c]

omit [DecidableEq ι] in
theorem sampleOf_snapshot (hk : NodeSim g.toNodeGroup a i n) :
    SampleOf (a.snapshot i) n.localLogTails n.summary := by
  refine ⟨n.names, localLogTails_eq hk, fun c hc => ?_, fun hnil => ?_⟩
  · change a.log i c = []
    rw [hk.log c, hk.absent c hc]
    rfl
  · rw [Node.summary, Node.localLogTails, hnil]
    exact hk.counters hnil

omit [DecidableEq ι] in
theorem isLeader_eq_false_of_campaign (hk : NodeSim g.toNodeGroup a i n)
    {camp : ReplicaNode.Campaign} (hcamp : n.campaign = some camp) : n.isLeader = false := by
  by_contra hl
  simp [hk.leading (by simpa using hl)] at hcamp

theorem sim_sample (hsim : Sim g a w) (h : stepSample g w i = some w') :
    ∃ a', Elsewhere a a' i ∧ Sim g a' w' := by
  unfold stepSample at h
  dsimp only at h
  split_ifs at h with hguard
  obtain rfl := Option.some.inj h
  have hk := hsim.nodes i
  have he := elsewhere_hold a i
  refine ⟨_, he, hsim.setNode (hsim.inv.hold groupQuorum_mono i) he ?_ hsim.records.chained⟩
  have hk' : NodeSim g.toNodeGroup (a.hold i) i (w.nodes i) :=
    { hk with
      progress := fun hl => (hk.progress hl).elsewhere he
      campaign := hk.campaign.elsewhere he fun t h => h }
  refine hk'.role _ ⟨rfl, rfl, rfl, rfl, rfl⟩ rfl rfl (by simp [hguard.2.1]) hk.idle ?_
  exact ⟨a.snapshot i, Set.mem_insert _ _, rfl, sampleOf_snapshot hk⟩

theorem sim_stand (hsim : Sim g a w) (h : stepStand g w i = some w') :
    ∃ a', Elsewhere a a' i ∧ Sim g a' w' := by
  unfold stepStand at h
  dsimp only at h
  split at h
  next logs tail hcamp =>
    obtain rfl := Option.some.inj h
    have hk := hsim.nodes i
    have hlead := isLeader_eq_false_of_campaign hk hcamp
    have hc := hk.campaign
    rw [hcamp] at hc
    obtain ⟨s, hs, hsn, hsample⟩ := hc
    have he := elsewhere_stand a i ((w.nodes i).term + 1) s
    have hlt : a.term i < (w.nodes i).term + 1 := by rw [hk.term]; omega
    have hinv := hsim.inv.stand groupQuorum_mono hlt hs hsn
    have hnew : (⟨i, (w.nodes i).term + 1, s⟩ : Candidacy ι CollectionName (Frame β)) ∈
        (a.stand i ((w.nodes i).term + 1) s).candidacies := Set.mem_insert _ _
    have hnode : NodeSim g.toNodeGroup (a.stand i ((w.nodes i).term + 1) s) i
        ((w.nodes i).stand g.toNodeGroup i) := by
      obtain ⟨hvotes, -⟩ := no_vote_above hsim.inv hlt
      refine ⟨by simp [State.stand, Node.stand], hk.log, hk.colOk, hk.absent,
        hk.counter, hk.counters,
        by simp [Node.stand, hlead], by simp [Node.stand, hlead],
        fun c => ((hk.applied c).mono (Nat.le_succ _)).elsewhere he,
        fun c => ((hk.matched c).raise (Nat.lt_succ_self _)).elsewhere he, ?_,
        by simp [Node.stand, hlead], hk.idle, fun b hb hv ht => absurd ht (hvotes b hb hv),
        fun _ _ _ _ => rfl⟩
      refine ⟨Nat.succ_pos _, ⟨_, hnew, rfl, rfl⟩, fun hl => ?_, fun u hu => ?_⟩
      · have := hsim.inv.leadLe _ i hl
        omega
      · obtain rfl := List.mem_singleton.mp hu
        exact ⟨i, sameEndpoint_refl _, .inl rfl⟩
    have hsim' := hsim.setNode hinv he hnode hsim.records.chained
    refine ⟨_, he, hsim'.records_only rfl { hsim'.records with requests := ?_, granted := ?_ }⟩
    · intro req hreq
      rcases List.mem_cons.mp hreq with rfl | hreq
      · exact ⟨Nat.succ_pos _, _, hnew, rfl, rfl, hsample⟩
      · exact hsim'.records.requests req hreq
    · intro gr hgr
      rcases List.mem_cons.mp hgr with rfl | hgr
      · exact ⟨i, rfl, .inl rfl⟩
      · exact hsim'.records.granted gr hgr
  next => simp at h

section Freshness

omit [DecidableEq ι] in
/-- The freshness test over the maps of tails is the machine's, collection by collection. -/
theorem tailLe_of_candidateIsCurrent (hk : NodeSim g.toNodeGroup a i n)
    {s : Snapshot ι CollectionName (Frame β)} {req : VoteRequest}
    (hs : SampleOf s req.logs ⟨req.lastTerm, req.lastLsn⟩)
    (hcur : candidateIsCurrent n.localLogTails n.summary req = true) (c : CollectionName) :
    TailLe (a.log i c) (s.logs c) := by
  obtain ⟨names, hlogs, habsent, hzero⟩ := hs
  intro x hx
  obtain ⟨p, hp⟩ := exists_concat_of_getLast? hx
  have hcol := hk.log c
  have hpos : 0 < x.lsn := (hk.colOk c).chained.lsn_pos (by rw [← hcol, hp]; simp)
  have hname : c ∈ n.names := by
    by_contra hc
    simp [hcol, hk.absent c hc, Collection.empty] at hp
  have htail : (c, (⟨x.term, x.lsn⟩ : LogTail)) ∈ n.localLogTails := by
    rw [localLogTails_eq hk]
    exact List.mem_map.mpr ⟨c, hname, by simp [hp]⟩
  unfold candidateIsCurrent at hcur
  split_ifs at hcur with hempty
  -- A candidate without collections advertises the zero tail, which no entry is below.
  · have hnil : names = [] := by simpa [hlogs] using hempty
    obtain ⟨m, hm, hle⟩ := le_maxTail htail
    rw [hzero hnil, Node.summary, logSummary, hm, Option.getD_some, LogTail.le_iff] at hcur
    rw [LogTail.le_iff] at hle
    simp only [LogTail.zero] at hcur hle
    omega
  · have hle := List.all_eq_true.mp hcur _ htail
    dsimp only at hle
    rw [hlogs, LogTail.le_iff] at hle
    have hmine : x.term < termOf (s.logs c) ∨
        (x.term = termOf (s.logs c) ∧ x.lsn ≤ lsnOf (s.logs c)) := by
      by_cases hc : c ∈ names
      · simpa [List.lookup_graph _ hc] using hle
      · have hnone : (names.map fun c =>
          (c, (⟨termOf (s.logs c), lsnOf (s.logs c)⟩ : LogTail))).lookup c
            = none := by
          simp only [List.lookup_eq_none_iff, List.mem_map]
          rintro _ ⟨d, hd, rfl⟩
          exact bne_iff_ne.mpr fun h => hc (h ▸ hd)
        simp only [hnone, Option.getD_none, LogTail.zero] at hle
        omega
    rcases List.eq_nil_or_concat' (s.logs c) with hnil | ⟨q, y, hq⟩
    · simp only [hnil, termOf_nil, lsnOf_nil] at hmine
      omega
    · refine ⟨y, by simp [hq], ?_⟩
      simpa [hq] using hmine

end Freshness

omit [DecidableEq ι] in
/-- A voter that does not lead, or no longer does, has no watermark of its own. -/
theorem applyVote_idle (hidle : n.isLeader = false → ∀ c, n.progress.committed c = 0)
    {d : VoteDecision} (hl : (n.applyVote d).isLeader = false) (c : CollectionName) :
    (n.applyVote d).progress.committed c = 0 := by
  by_cases hn : n.isLeader = true
  · by_cases hlt : n.term < d.term
    · simp [Node.applyVote, hn, hlt, Progress.reset, Progress.new]
    · simp [Node.applyVote, hn, hlt] at hl
  · simpa [Node.applyVote, hn] using hidle (by simpa using hn) c

theorem sim_grant (hsim : Sim g a w) {cd : Candidacy ι CollectionName (Frame β)}
    (hcd : cd ∈ a.candidacies) (hle : (w.nodes i).term ≤ cd.term)
    (hfresh : ∀ c, TailLe (a.log i c) (cd.sample.logs c))
    (hfree : (w.nodes i).term = cd.term → (w.nodes i).votedFor = none ∨
      (w.nodes i).votedFor = some (g.nodeId cd.node)) :
    Sim g (a.vote i cd.term cd.node) { w.setNode i
        ((w.nodes i).applyVote ⟨true, cd.term, some (g.nodeId cd.node)⟩) with
      granted := ⟨i, g.nodeId cd.node, cd.term⟩ :: w.granted } := by
  have hk := hsim.nodes i
  have he := elsewhere_vote a i cd.term cd.node
  -- A vote or candidacy of this node in the term is already for the candidate.
  have honce : ∀ b ∈ a.votes, b.voter = i → b.term = cd.term → b.candidate = cd.node := by
    intro b hb hv ht
    rcases Nat.eq_or_lt_of_le hle with heq | hlt
    · have hvoted := hk.votedBallot b hb hv (ht.trans heq.symm)
      rcases hfree heq with h | h
      · simp [h] at hvoted
      · exact (g.nodeId_injective (Option.some.inj (h.symm.trans hvoted))).symm
    · exact absurd ht ((no_vote_above hsim.inv (hk.term ▸ hlt)).1 b hb hv)
  have hstood : ∀ d ∈ a.candidacies, d.node = i → d.term = cd.term → cd.node = i := by
    intro d hd hn ht
    rcases Nat.eq_or_lt_of_le hle with heq | hlt
    · have hvoted := hk.votedStood d hd hn (ht.trans heq.symm)
      rcases hfree heq with h | h
      · simp [h] at hvoted
      · exact g.nodeId_injective (Option.some.inj (h.symm.trans hvoted))
    · exact absurd ht ((no_vote_above hsim.inv (hk.term ▸ hlt)).2 d hd hn)
  have hstays : ((w.nodes i).applyVote ⟨true, cd.term, some (g.nodeId cd.node)⟩).isLeader = true →
      (w.nodes i).isLeader = true ∧ (w.nodes i).term = cd.term := by
    intro hl
    simp only [Node.applyVote, Bool.and_eq_true, Bool.not_eq_true', Bool.and_eq_false_iff,
      decide_eq_false_iff_not] at hl
    obtain ⟨hl, hn | hn⟩ := hl
    · exact ⟨hl, by omega⟩
    · simp [hl] at hn
  have hinv := hsim.inv.vote groupQuorum_mono (by rw [hk.term]; exact hle) hcd rfl rfl honce hstood
    hfresh
  have hnode : NodeSim g.toNodeGroup (a.vote i cd.term cd.node) i
      ((w.nodes i).applyVote ⟨true, cd.term, some (g.nodeId cd.node)⟩) := by
    refine ⟨by simp [State.vote, Node.applyVote], hk.log, hk.colOk, hk.absent,
      hk.counter, hk.counters,
      fun hl => ?_, fun hl => ?_, fun c => ((hk.applied c).mono hle).elsewhere he, fun c => ?_,
      hk.campaign.elsewhere he fun t h => h, fun hl => hk.leading (hstays hl).1, fun hl => ?_,
      fun b hb hv ht => ?_, fun d hd hn ht => ?_⟩
    · obtain ⟨hl, ht⟩ := hstays hl
      have := hk.leader hl
      rwa [ht] at this
    · obtain ⟨hl, ht⟩ := hstays hl
      have hp : ((w.nodes i).applyVote ⟨true, cd.term, some (g.nodeId cd.node)⟩).progress =
          (w.nodes i).progress := by simp [Node.applyVote, ht]
      rw [hp]
      exact (ht ▸ hk.progress hl).elsewhere he
    · rcases Nat.eq_or_lt_of_le hle with heq | hlt
      · exact (heq ▸ hk.matched c).elsewhere he
      · exact ((hk.matched c).raise hlt).elsewhere he
    · exact applyVote_idle hk.idle hl
    · rcases hb with rfl | hb
      · rfl
      · exact congrArg (fun v => some (g.nodeId v)) (honce b hb hv ht).symm
    · exact congrArg (fun v => some (g.nodeId v)) (hstood d hd hn ht)
  have hsim' := hsim.setNode hinv he hnode hsim.records.chained
  refine hsim'.records_only rfl { hsim'.records with granted := fun gr hgr => ?_ }
  rcases List.mem_cons.mp hgr with rfl | hgr
  · exact ⟨cd.node, rfl, .inr ⟨_, Set.mem_insert _ _, rfl, rfl, rfl⟩⟩
  · exact hsim'.records.granted gr hgr

theorem sim_vote (hsim : Sim g a w) {request : ℕ} {mustWithhold : Bool}
    (h : stepVote g w i request mustWithhold = some w') :
    ∃ a', Elsewhere a a' i ∧ Sim g a' w' := by
  unfold stepVote at h
  dsimp only at h
  split at h
  next req hreq =>
    split at h
    next hmember =>
      obtain rfl := Option.some.inj h
      have hk := hsim.nodes i
      obtain ⟨-, cd, hcd, hterm, hid, hsample⟩ :=
        hsim.records.requests req (List.mem_of_getElem? hreq)
      cases hgr : ((w.nodes i).voteDecision g.toNodeGroup req mustWithhold).granted with
      | true =>
        obtain ⟨hd, hle, hcur⟩ := decideVote_granted hgr
        have hpair := pairLe_decideVote (w.nodes i).term (w.nodes i).votedFor
          (w.nodes i).localLogTails (w.nodes i).summary (some g.config) req mustWithhold
        have hd' : (w.nodes i).voteDecision g.toNodeGroup req mustWithhold =
            ⟨true, cd.term, some (g.nodeId cd.node)⟩ := by rw [hterm, ← hid]; exact hd
        refine ⟨_, elsewhere_vote a i cd.term cd.node, ?_⟩
        have := sim_grant hsim hcd (by rw [hterm]; exact hle)
          (tailLe_of_candidateIsCurrent hk hsample hcur) (fun heq => ?_)
        · simpa [hd', hid] using this
        · rw [hd, hid, ← hterm] at hpair
          rcases hpair with hlt | ⟨-, hv⟩
          · exact absurd heq hlt.ne
          · exact hv.imp_right Eq.symm
      | false =>
        rcases decideVote_refused hgr with hd | ⟨hlt, hd⟩
        · have hsame : (w.nodes i).applyVote
            ((w.nodes i).voteDecision g.toNodeGroup req mustWithhold) =
              w.nodes i := by
            rw [Node.voteDecision, hd]
            simp [Node.applyVote]
          refine ⟨a, Elsewhere.refl a i, ?_⟩
          rw [hsame]
          exact sim_role hsim hk
        · have hlead : ((w.nodes i).applyVote ⟨false, req.term, none⟩).isLeader = false := by
            simp [Node.applyVote, hlt]
          refine ⟨_, elsewhere_raise a i req.term, ?_⟩
          rw [Node.voteDecision, hd]
          exact hsim.raise ((w.nodes i).applyVote ⟨false, req.term, none⟩)
            ⟨rfl, rfl, rfl, rfl, rfl⟩ hlt hlead (applyVote_idle hk.idle hlead) rfl
    next => simp at h
  next => simp at h

theorem sim_countVote (hsim : Sim g a w) {voter : ι} {peer : Url}
    (h : stepCountVote g w i voter peer = some w') : ∃ a', Elsewhere a a' i ∧ Sim g a' w' := by
  unfold stepCountVote at h
  dsimp only at h
  split at h
  next t votes hcamp =>
    split_ifs at h with hguard
    obtain rfl := Option.some.inj h
    obtain ⟨hgrant, -, hpeer⟩ := hguard
    have hk := hsim.nodes i
    have hc := hk.campaign
    rw [hcamp] at hc
    obtain ⟨ht, hstood, hne, hvotes⟩ := hc
    obtain ⟨c, hid, hsupp⟩ := hsim.records.granted _ hgrant
    obtain rfl := g.nodeId_injective hid
    refine ⟨a, Elsewhere.refl a i, sim_role hsim (hk.role _ ⟨rfl, rfl, rfl, rfl, rfl⟩ rfl rfl ?_
      hk.idle ?_)⟩
    · simp [isLeader_eq_false_of_campaign hk hcamp]
    · refine ⟨ht, hstood, hne, fun u hu => ?_⟩
      rcases List.mem_append.mp hu with hu | hu
      · exact hvotes u hu
      · obtain rfl := List.mem_singleton.mp hu
        exact ⟨voter, hpeer, hsupp⟩
  next => simp at h

omit [DecidableEq ι] in
theorem groupQuorum_supporters {t : ℕ} {votes : List Url}
    (hvotes : ∀ u ∈ votes, ∃ v, sameEndpoint u (g.url v) = true ∧ v ∈ a.supporters i t)
    (hq : g.config.hasQuorum votes = true) : GroupQuorum g.toNodeGroup (a.supporters i t) := by
  refine Configuration.Quorum.mono (fun u hu => ?_) (hasQuorum_iff.mp hq)
  obtain ⟨x, hx, hxu⟩ := List.any_eq_true.mp hu
  obtain ⟨v, hxv, hv⟩ := hvotes x hx
  rw [sameEndpoint_iff] at hxu hxv
  simp only [decide_eq_true_eq]
  exact ⟨v, hv, sameEndpoint_iff.mpr (hxu.symm.trans hxv)⟩

theorem sim_becomeLeader (hsim : Sim g a w) (h : stepBecomeLeader g w i = some w') :
    ∃ a', Elsewhere a a' i ∧ Sim g a' w' := by
  unfold stepBecomeLeader at h
  dsimp only at h
  split at h
  next t votes hcamp =>
    have hk := hsim.nodes i
    split_ifs at h with hquorum hguard
    · obtain rfl := Option.some.inj h
      obtain ⟨-, hterm, -⟩ := hguard
      have hc := hk.campaign
      rw [hcamp] at hc
      obtain ⟨ht, ⟨cd, hcd, hnode, hcdt⟩, hne, hvotes⟩ := hc
      have hat : a.term i = t := hk.term.trans hterm
      have hq := groupQuorum_supporters hvotes hquorum
      have hnone : a.leader t = none := by
        by_contra hsome
        obtain ⟨c, hc⟩ := Option.ne_none_iff_exists'.mp hsome
        obtain rfl := hsim.inv.winner_unique (groupQuorum_inter g) ht hc ⟨cd, hcd, hnode, hcdt⟩ hq
        exact hne hc
      have hinv := hsim.inv.win groupQuorum_mono hcd hnode (hcdt.trans hat.symm)
        (hat.symm ▸ hnone) (hat.symm ▸ hq)
      have he := elsewhere_win hsim.inv (hat.symm ▸ hnone)
      have hleads : (a.win i).leader t = some i := by simp [State.win, hat]
      have hsim' := hsim.setNode (n := (w.nodes i).promote) hinv he ?_ ?_
      · refine ⟨_, he, hsim'.records_only rfl { hsim'.records with won := fun x hx => ?_ }⟩
        rcases List.mem_cons.mp hx with rfl | hx
        · refine ⟨ht, hleads, fun c => ⟨[], ?_, by simp⟩⟩
          simp [State.win, hat, hk.log c]
        · exact hsim'.records.won x hx
      · refine ⟨hk.term, hk.log, hk.colOk, hk.absent, hk.counter, hk.counters,
          fun _ => by rw [← hterm] at hleads; exact hleads, fun _ => ?_,
          fun c => (hk.applied c).elsewhere he, fun c => (hk.matched c).elsewhere he, trivial,
          fun _ => rfl, fun hl => by simp [Node.promote] at hl, hk.votedBallot, hk.votedStood⟩
        exact ⟨fun _ _ hpos => absurd hpos (lt_irrefl 0),
          fun c => (hk.applied c).commitKnown.elsewhere he, fun _ _ hm => by cases hm⟩
      · intro u c
        by_cases hu : u = a.term i
        · simpa [State.win, hu, hk.log c] using (hk.colOk c).chained
        · simpa [State.win, hu] using hsim.records.chained u c
    · obtain rfl := Option.some.inj h
      exact ⟨a, Elsewhere.refl a i, sim_giveUp hsim⟩
  next => simp at h

end DewDB.ReplicationSim
