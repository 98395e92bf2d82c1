import DewDB.ReadIndexSteps

/-!
# The invariant of the reads

A write that a quorum of its holders has is committed in its term when its leader settles it, so
every later leader has it and a quorum of nodes has seen its term. The leader tells of it once it
has shown it: its watermark or its floor is past the write. While the node of a read leads the term
in which the read began, the index covers the writes of that term and before; a quorum that has not
seen a later term leaves no others.
-/
namespace DewDB.ReadIndex

open Endpoint QuorumConfig Vote CollectionLog LeaderProgress ReplicaNode Replication
  ReplicationSim CommitSafety Concern
open LogReplication hiding Initial

variable {ι β : Type} [DecidableEq ι] {g : ReadGroup ι} {a a' : Machine ι β} {w w' : World ι β}
  {i j : ι} {k : Ack}
  {x : Read ι} {p : PendingWrite ι} {label : Label ι β} {index : ℕ} {stage : Stage}

/-- A leader has applied nothing past its watermark, and it has won its term unless it is the first.
-/
structure LeadersOk (w : World ι β) : Prop where
  applied : ∀ i, (w.nodes i).isLeader = true → ∀ c,
    ((w.nodes i).cols c).applied ≤ (w.nodes i).progress.committed c
  won : ∀ i, (w.nodes i).isLeader = true → (w.nodes i).term = 0 ∨ ∃ x ∈ w.won,
    x.term = (w.nodes i).term

/-- The write is in the log of its leader, which has a floor in its term. -/
structure WriteOk (a : Machine ι β) (w : World ι β) (p : PendingWrite ι) : Prop where
  led : a.leader p.term = some p.node
  frame : ∃ f ∈ a.leaderLog p.term p.collection, f.term = p.term ∧ f.lsn = p.lsn
  floor : LeadsIn w p.node p.term → ((w.nodes p.node).progress.termFloor p.collection).isSome

structure AckOk (g : Election.NodeGroup ι) (a : Machine ι β) (w : World ι β) (k : Ack) : Prop where
  committed : ∃ cm ∈ a.commits, cm.key = k.collection ∧ cm.term ≤ k.term ∧
    ∃ f ∈ cm.entries, f.lsn = k.lsn
  seen : GroupQuorum g {v | k.term ≤ (w.nodes v).term}
  leader : (a.leader k.term).isSome
  won : k.term = 0 ∨ ∃ x ∈ w.won, x.term = k.term

/-- The holders of a write that a client knows of are different nodes, enough for its concern. -/
structure AckMet (config : Configuration) (k : Ack) : Prop where
  nodup : (k.holders.map nodeKey).Nodup
  enough : (writeQuorum k.concern config).met k.holders = true

structure SettledOk (g : Election.NodeGroup ι) (a : Machine ι β) (w : World ι β) (i : ι)
    (k : Ack) : Prop where
  led : a.leader k.term = some i
  nodup : (k.holders.map nodeKey).Nodup
  counted : LeadsIn w i k.term → ∀ u ∈ k.holders, u = g.url i ∨
    (u ∈ g.config.members ∧ k.lsn ≤ (w.nodes i).progress.matched u k.collection)
  floor : LeadsIn w i k.term → ((w.nodes i).progress.termFloor k.collection).isSome
  held : g.config.hasQuorum k.holders = true → AckOk g a w k

/-- The watermark of the leader of the write, or the floor that it waits for, is past the write. -/
def Shown (w : World ι β) (k : Ack) : Prop :=
  ∀ i, LeadsIn w i k.term → k.lsn ≤ (w.nodes i).progress.committed k.collection ∨
    ∃ floor, (w.nodes i).progress.termFloor k.collection = some floor ∧ k.lsn ≤ floor

def Read.Told (config : Configuration) (x : Read ι) (k : Ack) : Prop :=
  k ∈ x.before ∧ config.hasQuorum k.holders = true ∧ k.collection = x.collection

def Read.Covers (config : Configuration) (x : Read ι) (index : ℕ) : Prop :=
  ∀ k, x.Told config k → k.lsn ≤ index

/-- The writes of the term in which the read began, and of those before it. -/
def Read.CoversTerm (config : Configuration) (x : Read ι) (index : ℕ) : Prop :=
  ∀ k, x.Told config k → k.term ≤ x.term → k.lsn ≤ index

/-- A quorum that has seen the term of a later write has granted nothing. -/
def Unseen (g : Election.NodeGroup ι) (w : World ι β) (x : Read ι) (granted : List Url) : Prop :=
  ∀ k, x.Told g.config k → x.term < k.term →
    GroupQuorum g {v | k.term ≤ (w.nodes v).term ∧ ∀ u ∈ granted, sameEndpoint u (g.url v) = false}

def StageOk (g : Election.NodeGroup ι) (w : World ι β) (x : Read ι) : Stage → Prop
  | .opened => True
  | .complete => Led w x → x.CoversTerm g.config ((w.nodes x.node).progress.committed x.collection)
  | .sampled index missing => (missing = true → index = 0) ∧ (Led w x → x.CoversTerm g.config index)
  | .asking index missing term _ granted =>
    (missing = true → index = 0) ∧ (Led w x → x.CoversTerm g.config index) ∧
      term ≤ (w.nodes x.node).term ∧ (term ≤ x.term → Unseen g w x granted)
  | .confirmed index missing => (missing = true → index = 0) ∧ x.Covers g.config index
  | .waited index | .served index =>
    x.Covers g.config index ∧ index ≤ ((w.nodes x.node).cols x.collection).applied

structure ReadOk (g : Election.NodeGroup ι) (a : Machine ι β) (w : World ι β) (acked : List Ack)
    (x : Read ι) : Prop where
  before : x.before ⊆ acked
  led : a.leader x.term = some x.node
  stage : StageOk g w x x.stage

structure ReadInv (g : ReadGroup ι) (a : Machine ι β) (s : ReadWorld ι β) : Prop where
  sim : Sim g.toCluster a s.group
  leases : Lease.LeaseInv g.leaseGroup s.leases
  leaders : LeadersOk s.group
  writes : ∀ p ∈ s.writes, WriteOk a s.group p
  settled : ∀ p ∈ s.settled, SettledOk g.toNodeGroup a s.group p.1 p.2
  met : ∀ k ∈ s.acked, AckMet g.config k
  acks : ∀ k ∈ s.acked, g.config.hasQuorum k.holders = true →
    AckOk g.toNodeGroup a s.group k ∧ Shown s.group k
  reads : ∀ x ∈ s.reads, ReadOk g.toNodeGroup a s.group s.acked x

section Group

theorem LeadersOk.step (h : LeadersOk w) (hstep : StepOf w w' label i) : LeadersOk w' := by
  have hcases : ∀ j, (w'.nodes j).isLeader = true →
      ((w.nodes j).isLeader = true ∧ (w.nodes j).term = (w'.nodes j).term ∧
        ∀ c, Upward (w.nodes j) (w'.nodes j) c) ∨
      (w'.nodes j = (w.nodes j).promote ∧ ∃ x ∈ w'.won, x.term = (w.nodes j).term) := by
    intro j hl
    by_cases hj : j = i
    · subst hj
      rcases hstep.node with hmove | ⟨-, heq, -, hwon⟩ | ⟨watermark, -, heq⟩
      · exact .inl (hmove.leader hl)
      · exact .inr ⟨heq, hwon⟩
      · rw [heq] at hl
        exact absurd hl Bool.false_ne_true
    · rw [hstep.others j hj] at hl ⊢
      exact .inl ⟨hl, rfl, fun c => .refl _ c⟩
  constructor
  · intro j hl c
    rcases hcases j hl with ⟨hl, -, hup⟩ | ⟨heq, -⟩
    · exact (hup c).applied (h.applied j hl c)
    · rw [heq]
      exact le_rfl
  · intro j hl
    rcases hcases j hl with ⟨hl, hterm, -⟩ | ⟨heq, hwon⟩
    · rw [← hterm]
      exact (h.won j hl).imp_right fun ⟨x, hx, hxt⟩ => ⟨x, hstep.won hx, hxt⟩
    · rw [heq]
      exact .inr hwon

theorem LeadsIn.before {term : ℕ} (h : LeadsIn w' j term) (hled : a.leader term = some j)
    (hsim : Sim g.toCluster a w)
    (hstep : StepOf w w' label i) : LeadsIn w j term ∧ ∀ c, Upward (w.nodes j) (w'.nodes j) c := by
  obtain ⟨hl, rfl⟩ := h
  obtain ⟨hl', hterm, hup⟩ := hstep.led_before hsim hl hled
  exact ⟨⟨hl', hterm⟩, hup⟩

omit [DecidableEq ι] in
theorem LeadsIn.led {term : ℕ} (h : LeadsIn w j term) (hsim : Sim g.toCluster a w) :
    a.leader term = some j := by
  obtain ⟨hl, rfl⟩ := h
  exact (hsim.nodes j).leader hl

theorem Upward.floor_isSome {n n' : Node β} {c : CollectionName} (h : Upward n n' c)
    (hfloor : (n.progress.termFloor c).isSome) : (n'.progress.termFloor c).isSome := by
  obtain ⟨m, hm⟩ := Option.isSome_iff_exists.mp hfloor
  simp [h.floor m hm]

theorem WriteOk.step (h : WriteOk a w p) (hsim : Sim g.toCluster a w) (helse : Elsewhere a a' j)
    (hstep : StepOf w w' label i) : WriteOk a' w' p where
  led := helse.leader _ _ h.led
  frame := by
    obtain ⟨f, hf, hrest⟩ := h.frame
    exact ⟨f, (helse.grows _ _).subset hf, hrest⟩
  floor hleads := by
    obtain ⟨hbefore, hup⟩ := hleads.before h.led hsim hstep
    exact (hup _).floor_isSome (h.floor hbefore)

theorem AckOk.step (h : AckOk g.toNodeGroup a w k) (helse : Elsewhere a a' j)
    (hstep : StepOf w w' label i) : AckOk g.toNodeGroup a' w' k where
  committed := by
    obtain ⟨cm, hcm, hrest⟩ := h.committed
    exact ⟨cm, helse.commits hcm, hrest⟩
  seen := groupQuorum_mono _ _ (fun v hv => le_trans hv (hstep.term_le v)) h.seen
  leader := helse.isSome h.leader
  won := h.won.imp_right fun ⟨x, hx, hxt⟩ => ⟨x, hstep.won hx, hxt⟩

theorem SettledOk.step {v : ι} (h : SettledOk g.toNodeGroup a w v k) (hsim : Sim g.toCluster a w)
    (helse : Elsewhere a a' j)
    (hstep : StepOf w w' label i) : SettledOk g.toNodeGroup a' w' v k where
  led := helse.leader _ _ h.led
  nodup := h.nodup
  counted hleads u hu := by
    obtain ⟨hbefore, hup⟩ := hleads.before h.led hsim hstep
    exact (h.counted hbefore u hu).imp_right fun ⟨hmem, hle⟩ =>
      ⟨hmem, hle.trans ((hup _).matched u)⟩
  floor hleads := by
    obtain ⟨hbefore, hup⟩ := hleads.before h.led hsim hstep
    exact (hup _).floor_isSome (h.floor hbefore)
  held hquorum := (h.held hquorum).step helse hstep

theorem Shown.step (h : Shown w k) (hlead : (a.leader k.term).isSome) (hsim : Sim g.toCluster a w)
    (helse : Elsewhere a a' j)
    (hsim' : Sim g.toCluster a' w') (hstep : StepOf w w' label i) : Shown w' k := by
  intro v hleads
  obtain ⟨u, hu⟩ := Option.isSome_iff_exists.mp hlead
  have hled : a.leader k.term = some v := by
    rw [hu, ← helse.leader _ _ hu]
    exact hleads.led hsim'
  obtain ⟨hbefore, hup⟩ := hleads.before hled hsim hstep
  rcases h v hbefore with hle | ⟨floor, hfloor, hle⟩
  · exact .inl (hle.trans (hup _).committed)
  · exact .inr ⟨floor, (hup _).floor floor hfloor, hle⟩

theorem StageOk.step (h : StageOk g.toNodeGroup w x stage) (hsim : Sim g.toCluster a w)
    (hled : a.leader x.term = some x.node)
    (hstep : StepOf w w' label i) (hup : ∀ watermark, label ≠ .crash x.node watermark) :
    StageOk g.toNodeGroup w' x stage := by
  have hback : Led w' x → Led w x ∧ (w.nodes x.node).progress.committed x.collection ≤
      (w'.nodes x.node).progress.committed x.collection := by
    intro hl
    obtain ⟨hl', hterm', hwm⟩ := hstep.led_before hsim hl.1 (hl.2 ▸ hled)
    exact ⟨⟨hl', hterm'.trans hl.2⟩, (hwm _).committed⟩
  have happlied := hstep.applied_le hup x.collection
  cases stage with
  | opened => trivial
  | complete => exact fun hl k hk ht => (h (hback hl).1 k hk ht).trans (hback hl).2
  | sampled index missing => exact ⟨h.1, fun hl => h.2 (hback hl).1⟩
  | asking index missing term highest granted =>
    refine ⟨h.1, fun hl => h.2.1 (hback hl).1, h.2.2.1.trans (hstep.term_le _),
      fun ht k hk hlt => ?_⟩
    refine groupQuorum_mono _ _ (fun v hv => ?_) (h.2.2.2 ht k hk hlt)
    exact ⟨le_trans hv.1 (hstep.term_le v), hv.2⟩
  | confirmed index missing => exact h
  | waited index => exact ⟨h.1, h.2.trans happlied⟩
  | served index => exact ⟨h.1, h.2.trans happlied⟩

omit [DecidableEq ι] in
theorem mem_beside_reads [DecidableEq ι] {s : ReadWorld ι β} {label : Label ι β}
    (h : x ∈ (s.beside w' label).reads) :
    x ∈ s.reads ∧ ∀ watermark, label ≠ .crash x.node watermark := by
  cases label with
  | crash i watermark =>
    obtain ⟨hx, hne⟩ := List.mem_filter.mp h
    refine ⟨hx, fun watermark' heq => ?_⟩
    obtain ⟨rfl, -⟩ : i = x.node ∧ _ := by simpa using heq
    simp at hne
  | _ => exact ⟨h, fun _ => by simp⟩

omit [DecidableEq ι] in
theorem beside_writes [DecidableEq ι] (s : ReadWorld ι β) (w' : World ι β) (label : Label ι β) :
    (s.beside w' label).writes ⊆ s.writes ∧ (s.beside w' label).settled ⊆ s.settled := by
  cases label with
  | crash i watermark => exact ⟨List.filter_subset_self _, List.filter_subset_self _⟩
  | _ => exact ⟨List.Subset.refl _, List.Subset.refl _⟩

/-- A step of the group, or of the machine alone, keeps what is known of the writes and the reads.
-/
theorem ReadInv.move {s : ReadWorld ι β} (h : ReadInv g a s) (helse : Elsewhere a a' j)
    (hsim' : Sim g.toCluster a' w')
    (hof : StepOf s.group w' label i) : ReadInv g a' (s.beside w' label) := by
  have hgroup : (s.beside w' label).group = w' := by cases label <;> rfl
  have hleases : (s.beside w' label).leases = s.leases := by cases label <;> rfl
  have hacked : (s.beside w' label).acked = s.acked := by cases label <;> rfl
  obtain ⟨hwrites, hsettled⟩ := beside_writes s w' label
  constructor
  · rw [hgroup]
    exact hsim'
  · rw [hleases]
    exact h.leases
  · rw [hgroup]
    exact h.leaders.step hof
  · rw [hgroup]
    exact fun p hp => (h.writes p (hwrites hp)).step h.sim helse hof
  · rw [hgroup]
    exact fun p hp => (h.settled p (hsettled hp)).step h.sim helse hof
  · rw [hacked]
    exact h.met
  · rw [hgroup, hacked]
    intro k hk hquorum
    obtain ⟨hok, hshown⟩ := h.acks k hk hquorum
    exact ⟨hok.step helse hof, hshown.step hok.leader h.sim helse hsim' hof⟩
  · rw [hgroup, hacked]
    intro x hx
    obtain ⟨hx, hup⟩ := mem_beside_reads hx
    have hread := h.reads x hx
    exact ⟨hread.before, helse.leader _ _ hread.led, hread.stage.step h.sim hread.led hof hup⟩

theorem ReadInv.beside [DecidableEq β] {s : ReadWorld ι β} (h : ReadInv g a s)
    (hstep : Replication.step g.toCluster s.group label = some w') :
    ∃ a', ReadInv g a' (s.beside w' label) := by
  obtain ⟨a', j, helse, hsim'⟩ := sim_step h.sim hstep
  obtain ⟨i, hof⟩ := step_node h.sim hstep
  exact ⟨a', h.move helse hsim' hof⟩

theorem ReadInv.machine {s : ReadWorld ι β} (h : ReadInv g a s) (helse : Elsewhere a a' j)
    (hsim' : Sim g.toCluster a' s.group) : ReadInv g a' s := by
  have hof : StepOf s.group s.group (.giveUp j) j := .of_nodes rfl rfl j
  exact h.move helse hsim' hof

end Group

section Index

omit [DecidableEq ι] in
/-- A leader of the term of an acknowledged write, or of a later one, has it. -/
theorem AckOk.mem_log (h : AckOk g.toNodeGroup a w k) (hsim : Sim g.toCluster a w)
    (hl : (w.nodes i).isLeader = true) (hle : k.term ≤ (w.nodes i).term) :
    ∃ f ∈ ((w.nodes i).cols k.collection).frames, f.lsn = k.lsn ∧ f.term ≤ k.term := by
  obtain ⟨cm, hcm, hkey, hterm, f, hf, hlsn⟩ := h.committed
  have hlead : (a.leader (w.nodes i).term).isSome := by simp [(hsim.nodes i).leader hl]
  have hp := hsim.inv.leader_completeness (groupQuorum_inter g.toCluster) hcm
    (hterm.trans hle) hlead
  rw [hsim.leaderLog_eq hl, hkey] at hp
  obtain ⟨hcp, -⟩ := hsim.inv.commits cm hcm
  have hft := hsim.inv.leadTerm cm.term cm.key f (hcp.subset hf)
  exact ⟨f, hp.subset hf, hlsn, le_trans hft hterm⟩

omit [DecidableEq ι] in
theorem coversTerm_absent {s : ReadWorld ι β} (h : ReadInv g a s) (hx : x ∈ s.reads)
    (hled : Led s.group x)
    (habsent : x.collection ∉ (s.group.nodes x.node).names) : x.CoversTerm g.config 0 := by
  rintro k ⟨hk, hquorum, hcol⟩ hterm
  have hack := (h.acks k ((h.reads x hx).before hk) hquorum).1
  obtain ⟨f, hf, -⟩ := hack.mem_log h.sim hled.1 (hled.2 ▸ hterm)
  rw [hcol, (h.sim.nodes x.node).absent _ habsent] at hf
  cases hf

/-- With nothing staged, or an entry of its own term committed, a leader's watermark is the commit
index. -/
theorem coversTerm_complete {s : ReadWorld ι β} (h : ReadInv g a s) (hx : x ∈ s.reads)
    (hled : Led s.group x)
    (hseeded : x.node ∉ s.unseeded) (hcomplete : indexIsComplete s x.node x.collection = true) :
    x.CoversTerm g.config ((s.group.nodes x.node).progress.committed x.collection) := by
  rintro k ⟨hk, hquorum, hcol⟩ hterm
  obtain ⟨hack, hshown⟩ := h.acks k ((h.reads x hx).before hk) hquorum
  obtain ⟨f, hf, hlsn, hft⟩ := hack.mem_log h.sim hled.1 (hled.2 ▸ hterm)
  rw [hcol] at hf
  simp only [indexIsComplete, ReadWorld.progress, if_neg hseeded, Bool.or_eq_true,
    beq_iff_eq] at hcomplete
  rcases hcomplete with hpending | hfloor
  · have hnone := List.filter_eq_nil_iff.mp (List.length_eq_zero_iff.mp hpending) f hf
    have happlied := h.leaders.applied x.node hled.1 x.collection
    simp only [decide_eq_true_eq, Nat.not_lt] at hnone
    omega
  · simp only [hasCurrentTermCommit, Option.any_eq_true, decide_eq_true_eq] at hfloor
    obtain ⟨floor, hfloor, hle⟩ := hfloor
    rcases Nat.eq_or_lt_of_le hterm with heq | hlt
    -- The write of this term was told of here, so the watermark is past it once it has reached the
    -- floor.
    · have hpast := hshown x.node ⟨hled.1, hled.2.trans heq.symm⟩
      rw [hcol] at hpast
      rcases hpast with hpast | ⟨floor', hfloor', hpast⟩
      · exact hpast
      · obtain rfl := Option.some.inj (hfloor.symm.trans hfloor')
        exact hpast.trans hle
    -- An older write lies below the first frame of this term.
    · obtain ⟨e, he, het, helsn⟩ :=
        ((h.sim.nodes x.node).progress hled.1).floor x.collection floor hfloor
      rw [h.sim.leaderLog_eq hled.1] at he
      have hwf := (h.sim.inv.leadOk (s.group.nodes x.node).term x.collection).wellFormed
      rw [h.sim.leaderLog_eq hled.1] at hwf
      have hbelow : f.lsn < e.lsn := hwf.pos_lt_of_term_lt hf he (by
        have := hled.2
        simp only [stamped_term]
        omega)
      omega

end Index

end DewDB.ReadIndex
