import DewDB.QuorumExact
import DewDB.ReadIndexInv

/-!
# Linearizable reads

A read that is served at an index shows every write that was acknowledged on the word of a quorum
before it began: its node has applied the index, and every committed entry through it. A write that
was acknowledged at the default concern is not committed, and a read may miss it.
-/
namespace DewDB.ReadIndex

open TransitionSystem Endpoint QuorumConfig Vote CollectionLog LeaderProgress
  ReplicaNode Replication ReplicationSim CommitSafety Concern
open LogReplication hiding Initial

variable {ι β : Type} {g : ReadGroup ι} {a : Machine ι β} {w : World ι β} {s s' : ReadWorld ι β}
  {i : ι} {r : ℕ} {x : Read ι}

section Steps

theorem ReadInv.refuse (h : ReadInv g a s) (r : ℕ) : ReadInv g a (s.refuse r) :=
  { h with reads := fun x hx => h.reads x (List.mem_of_mem_eraseIdx hx) }

theorem ReadInv.toStage (h : ReadInv g a s) (hx : s.reads[r]? = some x) {stage : Stage}
    (hstage : StageOk g.toNodeGroup s.group x stage) : ReadInv g a (s.toStage r stage) := by
  refine { h with reads := fun y hy => ?_ }
  obtain ⟨j, hj⟩ := List.getElem?_of_mem hy
  simp only [ReadWorld.toStage, List.getElem?_modify] at hj
  obtain ⟨z, hz, rfl⟩ := Option.map_eq_some_iff.mp hj
  split_ifs with hrj
  · obtain rfl : x = z := Option.some.inj (hx.symm.trans (hrj ▸ hz))
    have hread := h.reads x (List.mem_of_getElem? hx)
    exact ⟨hread.before, hread.led, hstage⟩
  · exact h.reads z (List.mem_of_getElem? hz)

/-- The holders that a leader has counted through a frame of its term stand for a quorum of the
group. -/
theorem groupQuorum_holders (hsim : Sim g.toCluster a w) (hheld : a.snapshot i ∈ a.held)
    (hl : (w.nodes i).isLeader = true)
    {c : CollectionName} {holders : List Url} {q : List (Frame β)} {f : Frame β}
    (hq : q ++ [f] <+: a.leaderLog (w.nodes i).term c) (hpos : 0 < f.lsn)
    (hcounted : ∀ u ∈ holders, u = g.url i ∨ f.lsn ≤ (w.nodes i).progress.matched u c)
    (hquorum : g.config.hasQuorum holders = true) :
    GroupQuorum g.toNodeGroup (a.holders (w.nodes i).term c (q ++ [f])) := by
  have hk := hsim.nodes i
  have hwf := (hsim.inv.leadOk (w.nodes i).term c).wellFormed
  refine Configuration.Quorum.mono (fun u hu => ?_) (hasQuorum_iff.mp hquorum)
  obtain ⟨h, hh, hhu⟩ := List.any_eq_true.mp hu
  simp only [decide_eq_true_eq]
  rcases hcounted h hh with rfl | hle
  · refine ⟨i, ⟨_, hheld, rfl, hk.term, ?_⟩, by rwa [sameEndpoint_comm]⟩
    rwa [show (a.snapshot i).logs c = _ from hk.log c, ← hsim.leaderLog_eq hl]
  · obtain ⟨v, hv, s, hs, hsn, hst, r, e, hrs, hrl, he⟩ := (hk.progress hl).matched h c (by omega)
    refine ⟨v, ⟨s, hs, hsn, hst, ?_⟩, sameEndpoint_trans (by rwa [sameEndpoint_comm]) hv⟩
    exact (hwf.prefix_of_pos_le hq hrl (by simp only [stamped_pos]; omega)).trans hrs

/-- A commit through a write of the leader's term is one that a quorum has seen. -/
theorem ackOk_commit (hsim : Sim g.toCluster a w) (hleaders : LeadersOk w)
    (hl : (w.nodes i).isLeader = true)
    {cm : Commit CollectionName (Frame β)} (hcm : cm ∈ a.commits)
    (hterm : cm.term = (w.nodes i).term) {f : Frame β}
    (hf : f ∈ cm.entries) {concern : WriteConcern} {holders : List Url} :
    AckOk g.toNodeGroup a w ⟨concern, holders, (w.nodes i).term, cm.key, f.lsn⟩ where
  committed := ⟨cm, hcm, rfl, hterm.le, f, hf, rfl⟩
  seen := by
    obtain ⟨-, -, hquorum⟩ := hsim.inv.commits cm hcm
    refine groupQuorum_mono _ _ ?_ hquorum
    rintro v ⟨held, hheld, rfl, ht, -⟩
    have := (hsim.inv.held held hheld).le
    rw [(hsim.nodes held.node).term] at this
    show (w.nodes i).term ≤ (w.nodes held.node).term
    omega
  leader := by simp [(hsim.nodes i).leader hl]
  won := hleaders.won i hl

theorem ReadInv.note [DecidableEq ι] [DecidableEq β] (h : ReadInv g a s)
    {c : CollectionName} {lsn : ℕ}
    (hstep : noteWrite g.toCluster s i c lsn = some s') : ∃ a', ReadInv g a' s' := by
  obtain ⟨group, hgroup, rfl⟩ := Option.map_eq_some_iff.mp hstep
  obtain ⟨a', h'⟩ := h.beside hgroup
  refine ⟨a', { h' with writes := fun p hp => ?_ }⟩
  rcases List.mem_append.mp hp with hp | hp
  · exact h'.writes p hp
  · obtain rfl := List.mem_singleton.mp hp
    simp only [Replication.step, stepNoteAppend] at hgroup
    obtain ⟨⟨hl, hnoted⟩, hgroup⟩ := Option.ite_none_right_eq_some.mp hgroup
    obtain rfl := Option.some.inj hgroup
    have hself : (s.group.setNode i ((s.group.nodes i).noteLeaderAppend c lsn)).nodes i =
        (s.group.nodes i).noteLeaderAppend c lsn := by simp [World.setNode]
    refine ⟨?_, h'.sim.records.noted (i, (s.group.nodes i).term, c, lsn) hnoted, fun _ => ?_⟩
    · have hlead := (h'.sim.nodes i).leader
      dsimp only [ReadWorld.beside] at hlead
      rw [hself, Node.noteLeaderAppend, if_pos hl] at hlead
      exact hlead hl
    · show (((s.group.setNode i _).nodes i).progress.termFloor c).isSome
      rw [hself, Node.noteLeaderAppend, if_pos hl]
      simp [Progress.noteLeaderAppend]

theorem ReadInv.settle [DecidableEq ι] (h : ReadInv g a s) {k : ℕ} {concern : WriteConcern}
    {replicas : List Url}
    {durable : ℕ} (hstep : settleWrite g.toCluster s k concern replicas durable = some s') :
    ∃ a', ReadInv g a' s' := by
  obtain ⟨p, hp, hstep⟩ := Option.bind_eq_some_iff.mp hstep
  dsimp only at hstep
  obtain ⟨⟨hl, hterm, -, -, hnodup, hreplicas⟩, hs⟩ := Option.ite_none_right_eq_some.mp hstep
  obtain rfl := Option.some.inj hs
  have hwrite := h.writes p (List.mem_of_getElem? hp)
  have hcounted : ∀ u ∈ g.url p.node :: replicas, u = g.url p.node ∨
      (u ∈ g.config.members ∧ p.lsn ≤ (s.group.nodes p.node).progress.matched u p.collection) := by
    intro u hu
    exact (List.mem_cons.mp hu).imp_right (hreplicas u)
  -- The machine moves on alone, to a state that holds the write where a quorum does.
  have hmove : ∃ a', Elsewhere a a' p.node ∧ Sim g.toCluster a' s.group ∧
      (g.config.hasQuorum (g.url p.node :: replicas) = true → AckOk g.toNodeGroup a' s.group
        ⟨concern, g.url p.node :: replicas, p.term, p.collection, p.lsn⟩) := by
    by_cases hquorum : g.config.hasQuorum (g.url p.node :: replicas) = true
    · obtain ⟨f, hf, hft, hfl⟩ := hwrite.frame
      have hsim := sim_hold h.sim p.node
      have hpos : 0 < f.lsn := (h.sim.records.chained p.term p.collection).lsn_pos hf
      obtain ⟨q, hq⟩ := exists_isPrefix_of_mem hf
      rw [← hterm] at hq hft
      let cm : Commit CollectionName (Frame β) :=
        ⟨(s.group.nodes p.node).term, p.collection, q ++ [f]⟩
      have hholders : GroupQuorum g.toNodeGroup
        ((a.hold p.node).holders cm.term cm.key cm.entries) := by
        refine groupQuorum_holders hsim (Set.mem_insert _ _) hl hq hpos (fun u hu => ?_) hquorum
        exact (hcounted u hu).imp_right fun hu => hfl ▸ hu.2
      have hsim' := sim_commit hsim p.node hq ⟨f, by simp [cm], hft⟩ hholders
      refine ⟨_, (elsewhere_hold a p.node).trans (elsewhere_commit _ cm p.node), hsim', fun _ => ?_⟩
      rw [← hterm, ← hfl]
      have hcm : cm ∈ ((a.hold p.node).commit cm).commits := Set.mem_insert _ _
      have hfm : f ∈ cm.entries := by simp [cm]
      exact ackOk_commit hsim' h.leaders hl hcm rfl hfm
    · exact ⟨a, .refl a p.node, h.sim, fun hheld => absurd hheld hquorum⟩
  obtain ⟨a', helse, hsim', hack⟩ := hmove
  have h' := h.machine helse hsim'
  refine ⟨a', { h' with writes := fun y hy => h'.writes y (List.mem_of_mem_eraseIdx hy), settled :=
    fun y hy => ?_ }⟩
  rcases List.mem_append.mp hy with hy | hy
  · exact h'.settled y hy
  · obtain rfl := List.mem_singleton.mp hy
    exact ⟨helse.leader _ _ hwrite.led, hnodup, fun _ => hcounted, hwrite.floor, hack⟩

/-- A quorum of holders reaches the write in every half of a plain configuration. -/
theorem le_quorumLsn_of_held {config : Configuration} (hplain : Plain config) {p : Progress}
    {c : CollectionName} {own : Url} {durable lsn : ℕ} {holders : List Url}
    (hcounted : ∀ u ∈ holders, u = own ∨ (u ∈ config.members ∧ lsn ≤ p.matched u c))
    (hdurable : lsn ≤ durable)
    (hquorum : config.hasQuorum holders = true) :
    lsn ≤ config.quorumLsn (p.heldBy c own durable) := by
  apply (le_quorumLsn_iff hplain.filled).mpr
  intro half hhalf
  have hmaj := hasQuorum_halves.mp hquorum half hhalf
  rw [halfHasQuorum_iff] at hmaj ⊢
  refine hmaj.imp_right (.mono fun v hv hany => ?_)
  obtain ⟨u, hu, huv⟩ := List.any_eq_true.mp hany
  refine List.any_eq_true.mpr ⟨v, List.mem_filter.mpr ⟨hv, ?_⟩, sameEndpoint_refl v⟩
  rw [decide_eq_true_eq, Progress.heldBy]
  rcases hcounted u hu with rfl | ⟨hmem, hle⟩
  · rwa [if_pos (by rwa [sameEndpoint_comm])]
  · obtain rfl := hplain.spelled half hhalf v (mem_of_mem_distinct hv) u hmem huv
    split_ifs
    · exact hdurable
    · exact hle

/-- The watermark goes to what a quorum holds, unless that is below the floor. -/
theorem shown_advance (p : Progress) (c : CollectionName) (own : Url) (durable : ℕ)
    (config : Configuration)
    {lsn : ℕ} (hfloor : (p.termFloor c).isSome)
    (hle : lsn ≤ config.quorumLsn (p.heldBy c own durable)) :
    lsn ≤ (p.advance c own durable config).committed c ∨
      ∃ floor, (p.advance c own durable config).termFloor c = some floor ∧ lsn ≤ floor := by
  obtain ⟨floor, hfloor⟩ := Option.isSome_iff_exists.mp hfloor
  rw [(advance_evidence p c own durable config).2]
  by_cases hreached : floor ≤ config.quorumLsn (p.heldBy c own durable)
  · left
    unfold Progress.advance
    dsimp only
    split_ifs with hmoves
    · simpa using hle
    · have hstays : config.quorumLsn (p.heldBy c own durable) ≤ p.committed c := by
        by_contra hlt
        exact hmoves ⟨by simpa [hfloor] using hreached, Nat.lt_of_not_le hlt⟩
      exact hle.trans hstays
  · exact .inr ⟨floor, hfloor, by omega⟩

theorem ReadInv.toClient (h : ReadInv g a s) {n : ℕ} {k : Ack}
    (hnodup : (k.holders.map nodeKey).Nodup)
    (hok : g.config.hasQuorum k.holders = true → AckOk g.toNodeGroup a s.group k ∧
      Shown s.group k) :
    ReadInv g a (s.toClient g.config n k) where
  sim := h.sim
  leases := h.leases
  leaders := h.leaders
  writes := h.writes
  settled p hp := h.settled p (List.mem_of_mem_eraseIdx hp)
  met y hy := by
    unfold ReadWorld.toClient at hy
    split_ifs at hy with henough
    · rcases List.mem_cons.mp hy with rfl | hy
      · exact ⟨hnodup, henough⟩
      · exact h.met y hy
    · exact h.met y hy
  acks y hy hquorum := by
    unfold ReadWorld.toClient at hy
    split_ifs at hy
    · rcases List.mem_cons.mp hy with rfl | hy
      · exact hok hquorum
      · exact h.acks y hy hquorum
    · exact h.acks y hy hquorum
  reads x hx := by
    have hread := h.reads x hx
    refine ⟨fun y hy => ?_, hread.led, hread.stage⟩
    unfold ReadWorld.toClient
    split_ifs
    · exact List.mem_cons_of_mem _ (hread.before hy)
    · exact hread.before hy

/-- The leader tells of the write once its watermark or its floor is past it. -/
theorem ReadInv.tell [DecidableEq ι] [DecidableEq β] (hplain : Plain g.config) (h : ReadInv g a s)
    {k durable : ℕ}
    (hstep : tellWrite g.toCluster s k durable = some s') : ∃ a', ReadInv g a' s' := by
  obtain ⟨⟨i, y⟩, hy, hstep⟩ := Option.bind_eq_some_iff.mp hstep
  have hmem := List.mem_of_getElem? hy
  have hset := h.settled (i, y) hmem
  dsimp only at hstep hset
  by_cases hl : (s.group.nodes i).isLeader = true
  · rw [if_pos hl] at hstep
    obtain ⟨hdurable, hstep⟩ := Option.ite_none_right_eq_some.mp hstep
    obtain ⟨group, hgroup, rfl⟩ := Option.map_eq_some_iff.mp hstep
    obtain ⟨a', h'⟩ := h.beside hgroup
    have hset' := h'.settled (i, y) hmem
    refine ⟨a', h'.toClient hset'.nodup fun hquorum => ⟨hset'.held hquorum, fun v hleads => ?_⟩⟩
    obtain rfl : i = v := Option.some.inj (hset'.led.symm.trans (hleads.led h'.sim))
    simp only [Replication.step, stepAdvanceOwn] at hgroup
    obtain ⟨-, hgroup⟩ := Option.ite_none_right_eq_some.mp hgroup
    obtain rfl := Option.some.inj hgroup
    have hself : (((s.group.setNode i
      ((s.group.nodes i).advanceOwnCommit g.toNodeGroup i y.collection durable)).report
        i y.collection).publish i y.collection).nodes i =
          (s.group.nodes i).advanceOwnCommit g.toNodeGroup i y.collection durable := by
      simp [World.setNode, World.report, World.publish]
    obtain ⟨hl', hterm⟩ := hleads
    dsimp only [ReadWorld.beside] at hl' hterm
    rw [hself] at hl' hterm
    obtain ⟨-, hsame, -⟩ := (onward_advanceOwn g.toNodeGroup hl y.collection durable).leader hl'
    have hbefore : LeadsIn s.group i y.term := ⟨hl, hsame.trans hterm⟩
    have hle := le_quorumLsn_of_held hplain (hset.counted hbefore) (hdurable hbefore.2) hquorum
    dsimp only [ReadWorld.beside]
    rw [hself, advanceOwnCommit_progress g.toNodeGroup hl]
    exact shown_advance _ _ _ _ _ (hset.floor hbefore) hle
  · rw [if_neg hl] at hstep
    obtain rfl := Option.some.inj hstep
    refine ⟨a, h.toClient hset.nodup fun hquorum => ⟨hset.held hquorum, fun v hleads => ?_⟩⟩
    obtain rfl : i = v := Option.some.inj (hset.led.symm.trans (hleads.led h.sim))
    exact absurd hleads.1 hl

theorem ReadInv.begin (h : ReadInv g a s) {c : CollectionName} (hstep : begin s i c = some s') :
    ReadInv g a s' := by
  obtain ⟨hl, hs⟩ := Option.ite_none_right_eq_some.mp hstep
  obtain rfl := Option.some.inj hs
  refine { h with reads := fun x hx => ?_ }
  rcases List.mem_append.mp hx with hx | hx
  · exact h.reads x hx
  · obtain rfl := List.mem_singleton.mp hx
    exact ⟨fun _ => id, (h.sim.nodes i).leader hl, trivial⟩

theorem ReadInv.check [DecidableEq ι] (h : ReadInv g a s) (hx : s.reads[r]? = some x) {opens : Bool}
    (hseeded : x.node ∉ s.unseeded)
    (hopens : x.collection ∈ (s.group.nodes x.node).names → opens = true)
    (hstep : checkRead s r x opens = some s') : ReadInv g a s' := by
  have hmem := List.mem_of_getElem? hx
  obtain ⟨-, hs⟩ := Option.ite_none_right_eq_some.mp hstep
  split_ifs at hs with hnone hcomplete
  · obtain rfl := Option.some.inj hs
    have habsent : x.collection ∉ (s.group.nodes x.node).names := by
      intro hnamed
      rcases hnone with habsent | hfails
      · exact habsent hnamed
      · simp [hopens hnamed] at hfails
    exact h.toStage hx ⟨fun _ => rfl, fun hled => coversTerm_absent h hmem hled habsent⟩
  · obtain rfl := Option.some.inj hs
    exact h.toStage hx fun hled => coversTerm_complete h hmem hled hseeded hcomplete
  · obtain rfl := Option.some.inj hs
    exact h.refuse r

theorem ReadInv.sample [DecidableEq ι] (h : ReadInv g a s) (hx : s.reads[r]? = some x)
    (hseeded : x.node ∉ s.unseeded) (hstep : sampleRead s r x = some s') : ReadInv g a s' := by
  obtain ⟨hcomplete, hs⟩ := Option.ite_none_right_eq_some.mp hstep
  obtain rfl := Option.some.inj hs
  have hstage := (h.reads x (List.mem_of_getElem? hx)).stage
  rw [hcomplete] at hstage
  refine h.toStage hx ⟨fun hmissing => absurd hmissing Bool.false_ne_true, fun hled => ?_⟩
  rw [ReadWorld.progress, if_neg hseeded]
  exact hstage hled

/-- Under a lease no later term was won, so no write of one was acknowledged. -/
theorem ReadInv.lease [DecidableEq ι] (h : ReadInv g a s) (hx : s.reads[r]? = some x)
    (hled : Led s.group x) {wallNow : ℕ} (hstep : leaseRead g s r x wallNow = some s') :
    ReadInv g a s' := by
  have hread := h.reads x (List.mem_of_getElem? hx)
  unfold leaseRead at hstep
  split at hstep
  next index missing hstage =>
    obtain ⟨⟨⟨hoffice, hknown⟩, hlease⟩, hs⟩ := Option.ite_none_right_eq_some.mp hstep
    obtain rfl := Option.some.inj hs
    obtain ⟨m, hm, hsame⟩ := (Option.any_eq_true _ _).mp hoffice
    simp only [Bool.and_eq_true, decide_eq_true_eq] at hsame
    have hwon : ∀ v ∈ s.group.won, v.term ≤ x.term := by
      intro v hv
      have := h.leases.exclusive x.node m hm (hsame.2.trans hled.1) wallNow hlease v.node
        v.term (hknown v hv)
      rwa [hsame.1, hled.2] at this
    have hok := hread.stage
    rw [hstage] at hok
    refine h.toStage hx ⟨hok.1, fun k hk => hok.2 hled k hk ?_⟩
    rcases (h.acks k (hread.before hk.1) hk.2.1).1.won with hzero | ⟨v, hv, hvt⟩
    · omega
    · have := hwon v hv
      omega
  next => cases hstep

theorem ReadInv.round (h : ReadInv g a s) (hx : s.reads[r]? = some x)
    (hstep : roundRead g.toCluster s r x = some s') : ReadInv g a s' := by
  have hread := h.reads x (List.mem_of_getElem? hx)
  unfold roundRead at hstep
  split at hstep
  next index missing hstage =>
    obtain rfl := Option.some.inj hstep
    have hok := hread.stage
    rw [hstage] at hok
    refine h.toStage hx ⟨hok.1, hok.2, le_rfl, fun hle k hk hlt => ?_⟩
    refine groupQuorum_mono _ _ (fun v hv => ⟨hv, fun u hu => ?_⟩)
      (h.acks k (hread.before hk.1) hk.2.1).1.seen
    obtain rfl := List.mem_singleton.mp hu
    rw [Bool.eq_false_iff]
    intro hsame
    obtain rfl := g.url_injective _ _ hsame
    have : k.term ≤ (s.group.nodes x.node).term := hv
    omega
  next => cases hstep

theorem ReadInv.probe (h : ReadInv g a s) (hx : s.reads[r]? = some x) {voter : ι} {peer : Url}
    (hstep : probeRead g.toCluster s r x voter peer = some s') : ReadInv g a s' := by
  have hread := h.reads x (List.mem_of_getElem? hx)
  unfold probeRead at hstep
  split at hstep
  next index missing term highest granted hstage =>
    obtain ⟨⟨-, hpeer⟩, hs⟩ := Option.ite_none_right_eq_some.mp hstep
    obtain rfl := Option.some.inj hs
    have hok := hread.stage
    rw [hstage] at hok
    refine h.toStage hx ⟨hok.1, hok.2.1, hok.2.2.1, fun hle k hk hlt => ?_⟩
    split_ifs with hgrants
    · refine groupQuorum_mono _ _ (fun v hv => ⟨hv.1, fun u hu => ?_⟩) (hok.2.2.2 hle k hk hlt)
      rcases List.mem_append.mp hu with hu | hu
      · exact hv.2 u hu
      · obtain rfl := List.mem_singleton.mp hu
        rw [Bool.eq_false_iff]
        intro hsame
        obtain rfl : voter = v :=
          g.url_injective _ _ (sameEndpoint_trans (sameEndpoint_comm _ _ ▸ hpeer) hsame)
        have := hv.1
        omega
    · exact hok.2.2.2 hle k hk hlt
  next => cases hstep

/-- A quorum of grants and a quorum that has seen a later term would share a voter. -/
theorem Unseen.no_quorum {granted : List Url} (h : Unseen g.toNodeGroup w x granted)
    (hquorum : g.config.hasQuorum granted = true) {k : Ack} (hk : x.Told g.config k) :
    k.term ≤ x.term := by
  by_contra hlt
  obtain ⟨u, -, hu, hv⟩ := (hasQuorum_iff.mp hquorum).inter g.member_voter (h k hk (by omega))
  obtain ⟨p, hp, hpu⟩ := List.any_eq_true.mp hu
  simp only [decide_eq_true_eq] at hv
  obtain ⟨v, hv, huv⟩ := hv
  have hgranted := sameEndpoint_trans hpu huv
  rw [hv.2 p hp] at hgranted
  exact absurd hgranted Bool.false_ne_true

theorem ReadInv.conclude [DecidableEq ι] [DecidableEq β] (h : ReadInv g a s)
    (hx : s.reads[r]? = some x)
    (hterm : (s.group.nodes x.node).isLeader = true → (s.group.nodes x.node).term = x.term)
    (hstep : concludeRead g.toCluster s r x = some s') : ∃ a', ReadInv g a' s' := by
  have hread := h.reads x (List.mem_of_getElem? hx)
  unfold concludeRead at hstep
  split at hstep
  next index missing term highest granted hstage =>
    have hok := hread.stage
    rw [hstage] at hok
    split_ifs at hstep with hhigher hconfirmed
    · obtain rfl := Option.some.inj hstep
      cases hdemote : Replication.step g.toCluster s.group (.demote x.node highest) with
      | none => exact ⟨a, h.refuse r⟩
      | some group =>
        obtain ⟨a', h'⟩ := h.beside hdemote
        exact ⟨a', h'.refuse r⟩
    · obtain rfl := Option.some.inj hstep
      have hled : Led s.group x := ⟨hconfirmed.2, hterm hconfirmed.2⟩
      have hle : term ≤ x.term := hled.2 ▸ hok.2.2.1
      refine ⟨a, h.toStage hx ⟨hok.1, fun k hk => hok.2.1 hled k hk ?_⟩⟩
      exact (hok.2.2.2 hle).no_quorum hconfirmed.1 hk
    · obtain rfl := Option.some.inj hstep
      exact ⟨a, h.refuse r⟩
  next => cases hstep

theorem ReadInv.wait (h : ReadInv g a s) (hx : s.reads[r]? = some x)
    (hstep : waitRead s r x = some s') : ReadInv g a s' := by
  have hread := h.reads x (List.mem_of_getElem? hx)
  unfold waitRead at hstep
  split at hstep
  next index missing hstage =>
    obtain ⟨happlied, hs⟩ := Option.ite_none_right_eq_some.mp hstep
    obtain rfl := Option.some.inj hs
    have hok := hread.stage
    rw [hstage] at hok
    refine h.toStage hx ⟨hok.2, ?_⟩
    rcases happlied with hmissing | hle
    · rw [hok.1 hmissing]
      exact Nat.zero_le _
    · exact hle
  next => cases hstep

theorem ReadInv.finish (h : ReadInv g a s) (hx : s.reads[r]? = some x)
    (hstep : finishRead s r x = some s') : ReadInv g a s' := by
  have hread := h.reads x (List.mem_of_getElem? hx)
  unfold finishRead at hstep
  split at hstep
  next index hstage =>
    have hok := hread.stage
    rw [hstage] at hok
    split_ifs at hstep
    · obtain rfl := Option.some.inj hstep
      exact h.toStage hx hok
    · obtain rfl := Option.some.inj hstep
      exact h.refuse r
  next => cases hstep

end Steps

section Runs

variable [DecidableEq ι] [DecidableEq β]

theorem ReadInv.step (hplain : Plain g.config) (h : ReadInv g a s) {op : Op ι β}
    (hok : Steady g s op) (hstep : step g s op = some s') : ∃ a', ReadInv g a' s' := by
  cases op with
  | group label =>
    obtain ⟨group, hgroup, rfl⟩ := Option.map_eq_some_iff.mp hstep
    exact h.beside hgroup
  | leases label =>
    obtain ⟨leases, hlabel, rfl⟩ := Option.map_eq_some_iff.mp hstep
    exact ⟨a, { h with leases := Lease.step_inv h.leases hok hlabel }⟩
  | seed i =>
    obtain rfl := Option.some.inj hstep
    exact ⟨a, { h with sim := h.sim }⟩
  | note i c lsn => exact h.note hstep
  | settle k concern replicas durable => exact h.settle hstep
  | tell k durable => exact h.tell hplain hstep
  | begin i c => exact ⟨a, h.begin hstep⟩
  | check r opens =>
    obtain ⟨x, hx, hs⟩ := Option.bind_eq_some_iff.mp hstep
    exact ⟨a, h.check hx (hok x hx).1 (hok x hx).2 hs⟩
  | sample r =>
    obtain ⟨x, hx, hs⟩ := Option.bind_eq_some_iff.mp hstep
    exact ⟨a, h.sample hx (hok x hx) hs⟩
  | lease r wallNow =>
    obtain ⟨x, hx, hs⟩ := Option.bind_eq_some_iff.mp hstep
    exact ⟨a, h.lease hx (hok x hx) hs⟩
  | round r =>
    obtain ⟨x, hx, hs⟩ := Option.bind_eq_some_iff.mp hstep
    exact ⟨a, h.round hx hs⟩
  | probe r voter peer =>
    obtain ⟨x, hx, hs⟩ := Option.bind_eq_some_iff.mp hstep
    exact ⟨a, h.probe hx hs⟩
  | conclude r =>
    obtain ⟨x, hx, hs⟩ := Option.bind_eq_some_iff.mp hstep
    exact h.conclude hx (hok x hx) hs
  | wait r =>
    obtain ⟨x, hx, hs⟩ := Option.bind_eq_some_iff.mp hstep
    exact ⟨a, h.wait hx hs⟩
  | finish r =>
    obtain ⟨x, hx, hs⟩ := Option.bind_eq_some_iff.mp hstep
    exact ⟨a, h.finish hx hs⟩

omit [DecidableEq β] in
theorem readInv_initial (g : ReadGroup ι) {leases : Lease.LeaseWorld ι}
    (h₀ : Lease.Initial leases) :
    ReadInv g (initialMachine g.toCluster) (initialReads g.toCluster leases : ReadWorld ι β) := by
  refine ⟨sim_initial g.toCluster, Lease.initial_inv h₀, ⟨fun i _ c => le_rfl, fun i _ => .inl rfl⟩,
    ?_, ?_, ?_, ?_, ?_⟩
  all_goals simp [initialReads]

theorem readInv_run (hplain : Plain g.config) {leases : Lease.LeaseWorld ι}
    (h₀ : Lease.Initial leases)
    {ops : List (Op ι β)} (hrun : run (step g) (initialReads g.toCluster leases) ops = some s)
    (hok : Meets (step g) (Steady g) (initialReads g.toCluster leases) ops) : ∃ a, ReadInv g a s :=
  run_invariant_of_meets (I := fun s => ∃ a, ReadInv g a s) (fun _ _ _ ⟨_, h⟩ hop hs =>
    h.step hplain hop hs) hrun hok ⟨_, readInv_initial g h₀⟩

omit [DecidableEq ι] [DecidableEq β] in
theorem mem_applied (hsim : Sim g.toCluster a w) {c : CollectionName}
    {cm : Commit CollectionName (Frame β)}
    (hcm : cm ∈ a.commits) (hkey : cm.key = c) {f : Frame β} (hf : f ∈ cm.entries)
    (hle : f.lsn ≤ ((w.nodes i).cols c).applied) : f ∈ ((w.nodes i).cols c).frames := by
  have hk := hsim.nodes i
  have hwf : ∀ t, WellFormed (a.leaderLog t c) := fun t => (hsim.inv.leadOk t c).wellFormed
  have hlog : WellFormed ((w.nodes i).cols c).frames := hk.log c ▸ (hsim.inv.logOk i c).wellFormed
  have hpos : 0 < f.lsn :=
    (hsim.records.chained cm.term cm.key).lsn_pos ((hsim.inv.commits cm hcm).1.subset hf)
  rcases hk.applied c with hzero | ⟨cm', hcm', hkey', -, hshared⟩
  · omega
  -- Of two commits the one of the later term has what the other has, in the log of its leader.
  · have hboth : ∃ t, cm.entries <+: a.leaderLog t c ∧ cm'.entries <+: a.leaderLog t c := by
      rcases Nat.le_total cm.term cm'.term with hterm | hterm
      · have := hsim.inv.leader_completeness (groupQuorum_inter g.toCluster) hcm hterm
          (leader_isSome_of_commit hsim hcm')
        exact ⟨cm'.term, hkey ▸ this, hkey' ▸ (hsim.inv.commits cm' hcm').1⟩
      · have := hsim.inv.leader_completeness (groupQuorum_inter g.toCluster) hcm' hterm
          (leader_isSome_of_commit hsim hcm)
        exact ⟨cm.term, hkey ▸ (hsim.inv.commits cm hcm).1, hkey' ▸ this⟩
    obtain ⟨t, hp, hp'⟩ := hboth
    have hin : Shared (a.leaderLog t c) ((w.nodes i).cols c).frames ((w.nodes i).cols c).applied :=
      (hshared.symm.trans hp').symm
    exact (hin.mem_iff (hwf t) hlog hle).mp (hp.subset hf)

omit [DecidableEq ι] [DecidableEq β] in
/-- The holders that the majority concern asks for are a quorum, and so are all the members. -/
theorem AckMet.quorum {config : Configuration} {k : Ack} (h : AckMet config k)
    (hk : k.OfQuorum config) : config.hasQuorum k.holders = true := by
  rcases hk with hmajority | ⟨hall, hmembers⟩ | hquorum
  · rw [← h.enough, hmajority]
    rfl
  · exact hasQuorum_of_keys (keys_of_met_all (hall ▸ h.enough) h.nodup hmembers)
  · exact hquorum

/-- In every steady run a read that is served at an index shows every write that was acknowledged
before it began on the word of a quorum, and its node has applied every committed entry through the
index. -/
theorem read_index_linearizable (g : ReadGroup ι) (hplain : Plain g.config)
    {leases : Lease.LeaseWorld ι}
    (h₀ : Lease.Initial leases) {s : ReadWorld ι β} {ops : List (Op ι β)}
    (hrun : run (step g) (initialReads g.toCluster leases) ops = some s)
    (hok : Meets (step g) (Steady g) (initialReads g.toCluster leases) ops) :
    ∀ x ∈ s.reads, ∀ index, x.stage = .served index →
      (∀ k ∈ x.before, k.OfQuorum g.config → k.collection = x.collection → k.lsn ≤ index) ∧
      index ≤ ((s.group.nodes x.node).cols x.collection).applied ∧
      (∀ f, (x.collection, f) ∈ s.group.published → f.lsn ≤ index →
        f ∈ ((s.group.nodes x.node).cols x.collection).frames) ∧
      ∀ rep ∈ s.group.reports, rep.collection = x.collection → ∀ f ∈ rep.frames, f.lsn ≤ index →
        f ∈ ((s.group.nodes x.node).cols x.collection).frames := by
  intro x hx index hserved
  obtain ⟨a, h⟩ := readInv_run hplain h₀ hrun hok
  have hread := h.reads x hx
  have hstage := hread.stage
  rw [hserved] at hstage
  obtain ⟨hcovers, happlied⟩ := hstage
  refine ⟨fun k hk hheld hcol => ?_, happlied, fun f hf hle => ?_, fun rep hrep hcol f hf hle => ?_⟩
  · exact hcovers k ⟨hk, (h.met k (hread.before hk)).quorum hheld, hcol⟩
  · obtain ⟨cm, hcm, hkey, hfm⟩ := h.sim.records.published _ hf
    exact mem_applied h.sim hcm hkey hfm (hle.trans happlied)
  · rcases h.sim.records.reports rep hrep with hnil | ⟨cm, hcm, hkey, -, hp⟩
    · rw [hnil] at hf
      cases hf
    · exact mem_applied h.sim hcm (hkey.trans hcol) (hp.subset hf) (hle.trans happlied)

end Runs

def threeReaders : ReadGroup (Fin 3) :=
  { threeMembers with
    heartbeatTimeout := Lease.threeVoters.heartbeatTimeout
    primaryAddr := Lease.threeVoters.primaryAddr }

/-- Node `b` is elected at term 1 and takes the promises of the others. -/
def takeLease : List (Op (Fin 3) ℕ) :=
  [.leases (.node 0 (.boot none)), .leases (.node 1 (.boot none)), .leases (.node 2 (.boot none)),
    .leases (.tick (Lease.fromMillis 60000)), .leases (.node 1 (.poll 0)),
    .leases (.node 1 (.stand [] ⟨0, 0⟩ none)),
    .leases (.node 2 (.test 0)), .leases (.node 2 (.decide 0 [] ⟨0, 0⟩ none)),
    .leases (.node 1 (.voteReply 2 ['c'])), .leases (.node 1 .becomeLeader),
    .leases (.node 2 (.follow ['b'] true)),
    .leases (.node 1 (.probe ['c'] 0)), .leases (.node 2 (.answer 1 0)),
    .leases (.node 1 (.receive 0))]

/-- Node `a` commits a write with `b` and goes down; `b` leads, commits another with `c`, and tells
at the default concern of a third that nobody else has. One read asks nobody, another one asks `c`.
-/
def readAfterFailover : List (Op (Fin 3) ℕ) :=
  [Op.group (.append 0 ['d'] 7), .note 0 ['d'] 1, .group (.send 0 ['d'] 0 1),
    .group (.deliver 1 0 1),
    .group (.ack 0 1 ['b'] ['d'] 1 1), .settle 0 .majority [['b']] 1, .tell 0 1,
    .group (.crash 0 fun _ => 1),
    .group (.sample 1), .group (.stand 1), .group (.vote 2 0 false), .group (.countVote 1 2 ['c']),
    .group (.becomeLeader 1), .seed 1] ++
  takeLease ++
  [Op.group (.append 1 ['d'] 8), .note 1 ['d'] 2, .group (.send 1 ['d'] 0 2),
    .group (.deliver 2 0 2),
    .group (.ack 1 2 ['c'] ['d'] 2 2), .settle 0 (.n 2) [['c']] 2, .tell 0 2,
    .group (.append 1 ['d'] 9),
    .note 1 ['d'] 3, .settle 0 .local' [] 3, .tell 0 3, .begin 1 ['d'], .begin 1 ['d'],
    .check 0 true, .sample 0,
    .lease 0 0, .wait 0, .finish 0, .check 1 true, .sample 1, .round 1, .probe 1 2 ['c'],
    .conclude 1, .wait 1, .finish 1]

def readersStart : ReadWorld (Fin 3) ℕ := initialReads threeReaders.toCluster Lease.freshGroup

theorem threeReaders_plain : Plain threeReaders.config := by
  constructor <;> decide

theorem readAfterFailover_steady : Meets (step threeReaders)
    (Steady threeReaders) readersStart readAfterFailover := by
  decide

theorem read_index_linearizable_failover :
    ∃ s, run (step threeReaders) readersStart readAfterFailover = some s ∧
      s.reads.map (fun x => (x.stage, x.before.map Ack.lsn)) =
        [(.served 2, [3, 2, 1]), (.served 2, [3, 2, 1])] ∧
      ∀ x ∈ s.reads, ∀ index, x.stage = .served index →
        ∀ k ∈ x.before, k.OfQuorum threeReaders.config → k.collection = x.collection →
          k.lsn ≤ index := by
  have hout : (run (step threeReaders) readersStart readAfterFailover).map
      (fun s => s.reads.map fun x => (x.stage, x.before.map Ack.lsn)) =
        some [(.served 2, [3, 2, 1]), (.served 2, [3, 2, 1])] := by
    decide
  obtain ⟨s, hrun, hserved⟩ := Option.map_eq_some_iff.mp hout
  exact ⟨s, hrun, hserved, fun x hx index hx' =>
    (read_index_linearizable threeReaders threeReaders_plain
    ⟨⟨fun _ => rfl, rfl, rfl, rfl⟩, rfl⟩ hrun readAfterFailover_steady x hx index hx').1⟩

/-- Told of a write at the default concern, a client can read at an index below it. -/
theorem read_index_misses_default :
    Meets (step threeReaders) (Steady threeReaders) readersStart readAfterFailover ∧
      ∃ s, run (step threeReaders) readersStart readAfterFailover = some s ∧
        ∃ x ∈ s.reads, x.stage = .served 2 ∧ ∃ k ∈ x.before, k.collection = x.collection ∧
          k.lsn = 3 := by
  have hout : (run (step threeReaders) readersStart readAfterFailover).any (fun s =>
      decide (∃ x ∈ s.reads, x.stage = .served 2 ∧ ∃ k ∈ x.before,
        k.collection = x.collection ∧ k.lsn = 3)) = true := by
    decide
  refine ⟨readAfterFailover_steady, ?_⟩
  obtain ⟨s, hrun, hserved⟩ := (Option.any_eq_true _ _).mp hout
  exact ⟨s, hrun, of_decide_eq_true hserved⟩

end DewDB.ReadIndex
