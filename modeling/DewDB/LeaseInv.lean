import DewDB.LeaseGroup

/-!
# What a lease rests on

A voter that made a promise is bound until the deadline the leader counts: by the deadline it
recorded itself, or after a restart by its boot window. A vote above the leader's term by a bound
voter is cast only past the withholding test.
-/
namespace DewDB.Lease

open Endpoint QuorumConfig ReplicationMeta Vote Election ElectionSafety TransitionSystem

variable {ι : Type}

section Office

variable [DecidableEq ι] {g : NodeGroup ι} {granted : List (Grant ι)} {i : ι} {n : Node}
  {a : Action ι} {o : Outcome} {m m' : Memory}

def OfficeOk (m : Memory) : Prop := m.campaign ≠ none → m.isLeader = false

/-- How an action moves the term, the office and the campaign of a running node. -/
structure OfficeMove (m m' : Memory) : Prop where
  term_le : m.term ≤ m'.term
  lead : m'.isLeader = true → m.isLeader = true ∨
    (m'.term = m.term ∧ ∃ votes, m.campaign = some (.standing m.term votes))
  office : OfficeOk m'
  standing : ∀ t votes, m'.campaign = some (.standing t votes) →
    (∃ votes', m.campaign = some (.standing t votes')) ∨ m.term < t

theorem OfficeMove.of_same (hok : OfficeOk m) (hterm : m.term ≤ m'.term)
    (hlead : m'.isLeader = m.isLeader) (hcamp : m'.campaign = m.campaign) : OfficeMove m m' where
  term_le := hterm
  lead h := .inl (hlead ▸ h)
  office h := hlead.trans (hok (hcamp ▸ h))
  standing _ votes h := .inl ⟨votes, hcamp ▸ h⟩

theorem OfficeMove.of_leave (hterm : m.term ≤ m'.term) (hlead : m'.isLeader = false)
    (hcamp : m'.campaign = m.campaign) : OfficeMove m m' where
  term_le := hterm
  lead h := by simp [hlead] at h
  office _ := hlead
  standing _ votes h := .inl ⟨votes, hcamp ▸ h⟩

omit [DecidableEq ι] in
theorem voteHandler_mem {req : VoteRequest} {myLogs : List (CollectionName × LogTail)}
    {mySummary : LogTail} {mustWithhold : Bool} {fault : Option Fault} {disk : Disk}
    (h : voteHandler g i disk m req myLogs mySummary mustWithhold fault = some o) :
    (o.granted = none ∧ o.node.mem = some m) ∨
      ∃ d, decideVote m.term m.votedFor myLogs mySummary (some g.config) req mustWithhold = d ∧
        o.granted = (if d.granted then some (req.candidateId, d.term) else none) ∧
        o.node.mem = some { m with
          term := d.term
          votedFor := d.votedFor
          isLeader := m.isLeader && !(decide (m.term < d.term) && m.isLeader) } := by
  unfold voteHandler at h
  split_ifs at h with hmember
  dsimp only at h
  generalize hd : decideVote m.term m.votedFor myLogs mySummary (some g.config) req mustWithhold = d
    at h
  generalize (if d.term ≠ m.term ∨ d.votedFor ≠ m.votedFor then
    save ⟨d.term, m.isLeader && !(decide (m.term < d.term) && m.isLeader), d.votedFor⟩ fault disk
    else (disk, true)) = saved at h
  by_cases hsaved : saved.2 = true
  · rw [if_pos hsaved] at h
    obtain rfl := Option.some.inj h
    exact .inr ⟨d, rfl, rfl, rfl⟩
  · rw [if_neg hsaved] at h
    obtain rfl := Option.some.inj h
    exact .inl ⟨rfl, rfl⟩

omit [DecidableEq ι] in
theorem stand_officeMove {disk : Disk} {fault : Option Fault}
    (h : stand g i disk m fault = some o) (hm' : o.node.mem = some m')
    (hok : OfficeOk m) : OfficeMove m m' := by
  unfold stand at h
  split_ifs at h with hprep
  have hlead : m.isLeader = false := hok (by simp [hprep])
  dsimp only at h
  split_ifs at h
  · obtain rfl := Option.some.inj h
    obtain rfl := Option.some.inj hm'
    refine ⟨Nat.le_succ _, fun hl => .inl hl, fun _ => hlead, fun t votes ht => .inr ?_⟩
    obtain ⟨rfl, -⟩ : m.term + 1 = t ∧ [g.url i] = votes := by simpa using ht
    exact Nat.lt_succ_self _
  · obtain rfl := Option.some.inj h
    obtain rfl := Option.some.inj hm'
    exact ⟨Nat.le_refl _, fun hl => .inl hl, fun _ => hlead, by simp⟩

omit [DecidableEq ι] in
theorem voteHandler_officeMove {disk : Disk} {req : VoteRequest}
    {myLogs : List (CollectionName × LogTail)}
    {mySummary : LogTail} {mustWithhold : Bool} {fault : Option Fault}
    (h : voteHandler g i disk m req myLogs mySummary mustWithhold fault = some o)
    (hm' : o.node.mem = some m') (hok : OfficeOk m) : OfficeMove m m' := by
  rcases voteHandler_mem h with ⟨-, hmem⟩ | ⟨d, hd, -, hmem⟩
  · obtain rfl := Option.some.inj (hmem.symm.trans hm')
    exact .of_same hok (Nat.le_refl _) rfl rfl
  · obtain rfl := Option.some.inj (hmem.symm.trans hm')
    have hle : m.term ≤ d.term := hd ▸ (pairLe_decideVote _ _ _ _ _ _ _).term_le
    refine ⟨hle, fun hl => .inl ?_, fun hc => ?_, fun t votes ht => .inl ⟨votes, ht⟩⟩
    · simp only [Bool.and_eq_true] at hl
      exact hl.1
    · simp [hok hc]

theorem voteReply_officeMove {disk : Disk} {voter : ι} {peer : Url}
    (h : voteReply g granted i disk m voter peer = some o) (hm' : o.node.mem = some m')
    (hok : OfficeOk m) : OfficeMove m m' := by
  unfold voteReply at h
  split at h
  next term votes hcamp =>
    split_ifs at h
    obtain rfl := Option.some.inj h
    obtain rfl := Option.some.inj hm'
    refine ⟨Nat.le_refl _, fun hl => .inl hl, fun _ => hok (by simp [hcamp]), ?_⟩
    intro t votes' ht
    obtain ⟨rfl, -⟩ : term = t ∧ votes ++ [peer] = votes' := by simpa using ht
    exact .inl ⟨votes, hcamp⟩
  next => simp at h

omit [DecidableEq ι] in
theorem becomeLeader_officeMove {disk : Disk}
    (h : becomeLeader g i disk m = some o) (hm' : o.node.mem = some m') : OfficeMove m m' := by
  unfold becomeLeader at h
  split at h
  next term votes hcamp =>
    split_ifs at h with hquorum hself
    · obtain rfl := Option.some.inj h
      obtain rfl := Option.some.inj hm'
      exact ⟨Nat.le_refl _, fun _ => .inr ⟨rfl, votes, hself.2.1 ▸ hcamp⟩, by simp [OfficeOk],
        by simp⟩
    · obtain rfl := Option.some.inj h
      obtain rfl := Option.some.inj hm'
      exact ⟨Nat.le_refl _, fun hl => .inl hl, by simp [OfficeOk], by simp⟩
  next => simp at h

theorem act_officeMove (h : act g granted i n a = some o) (hm : n.mem = some m)
    (hm' : o.node.mem = some m') (hok : OfficeOk m) : OfficeMove m m' := by
  obtain ⟨disk, mem⟩ := n
  obtain rfl : mem = some m := hm
  cases a with
  | boot fault => simp [act, boot] at h
  | crash =>
    obtain rfl := Option.some.inj h
    simp [Outcome.quiet] at hm'
  | beginCampaign =>
    have h : beginCampaign g i disk m = some o := h
    unfold beginCampaign at h
    split_ifs at h with hguard
    obtain rfl := Option.some.inj h
    obtain rfl := Option.some.inj hm'
    exact ⟨Nat.le_refl _, fun hl => .inl hl, fun _ => hguard.2.1, by simp⟩
  | stand fault => exact stand_officeMove h hm' hok
  | voteRequest req myLogs mySummary mustWithhold fault => exact voteHandler_officeMove h hm' hok
  | voteReply voter peer => exact voteReply_officeMove h hm' hok
  | becomeLeader => exact becomeLeader_officeMove h hm'
  | giveUp =>
    have h : giveUp disk m = some o := h
    unfold giveUp at h
    split_ifs at h
    obtain rfl := Option.some.inj h
    obtain rfl := Option.some.inj hm'
    exact ⟨Nat.le_refl _, fun hl => .inl hl, by simp [OfficeOk], by simp⟩
  | demote newTerm =>
    have h : demote disk m newTerm = some o := h
    unfold demote at h
    split_ifs at h with hle
    obtain rfl := Option.some.inj h
    obtain rfl := Option.some.inj hm'
    exact .of_leave (Nat.le_of_not_le hle) rfl rfl
  | heartbeat theirTerm =>
    have h : heartbeat disk m theirTerm = some o := h
    unfold heartbeat at h
    split_ifs at h with hlt
    obtain rfl := Option.some.inj h
    obtain rfl := Option.some.inj hm'
    exact .of_same hok (Nat.le_of_lt hlt) rfl rfl
  | stepDown =>
    have h : stepDown disk m = some o := h
    unfold stepDown at h
    split_ifs at h
    obtain rfl := Option.some.inj h
    obtain rfl := Option.some.inj hm'
    exact .of_leave (Nat.le_refl _) rfl rfl
  | replicate term =>
    have h : replicate disk m term = some o := h
    unfold replicate at h
    split_ifs at h
    obtain rfl := Option.some.inj h
    obtain rfl := Option.some.inj hm'
    exact .of_same hok (Nat.le_refl _) rfl rfl
  | task k fault =>
    obtain ⟨t, -, rfl⟩ : ∃ t, m.tasks[k]? = some t ∧
        runTask disk m t (m.tasks.eraseIdx k) fault = o := by
      simpa [act, Option.map_eq_some_iff] using h
    cases t with
    | checked term =>
      unfold runTask at hm'
      dsimp only at hm'
      split_ifs at hm' with hlt
      · obtain rfl := Option.some.inj hm'
        exact .of_same hok (Nat.le_of_lt hlt) rfl rfl
      · obtain rfl := Option.some.inj hm'
        exact .of_same hok (Nat.le_refl _) rfl rfl
    | _ =>
      obtain rfl := Option.some.inj hm'
      exact .of_same hok (Nat.le_refl _) rfl rfl

end Office

section Invariant

variable {g : LeaseGroup ι} {s : LeaseWorld ι}

def window (g : LeaseGroup ι) (v : ι) : ℕ := refusalWindow (g.heartbeatTimeout v)

/-- When the grant of an answered probe is out, counted from before the probe was sent. -/
def Probe.last (pr : Probe) : ℕ := pr.sent + fromMillis ((pr.answer.map Prod.snd).getD 0)

theorem Probe.last_answered (pr : Probe) (term ms : ℕ) :
    ({ pr with answer := some (term, ms) } : Probe).last = pr.sent + fromMillis ms := rfl

/-- The voter withholds its vote until `last`, across a restart too. -/
def Bound (g : LeaseGroup ι) (s : LeaseWorld ι) (v : ι) (last : ℕ) : Prop :=
  last ≤ s.now + window g v ∧ ((s.world.nodes v).mem ≠ none →
    (∃ u, (s.lease v).novoteUntil = some u ∧ last ≤ u) ∨ last ≤ (s.lease v).bootedAt + window g v)

def Silent (s : LeaseWorld ι) (v : ι) (term : ℕ) : Prop :=
  ∀ gr ∈ s.world.granted, gr.voter = v → gr.term ≤ term

def Lapsed (g : LeaseGroup ι) (s : LeaseWorld ι) (v : ι) : Prop :=
  (s.lease v).bootedAt + window g v ≤ s.now ∧ ∀ u, (s.lease v).novoteUntil = some u → u ≤ s.now

structure LeaseInv (g : LeaseGroup ι) (s : LeaseWorld ι) : Prop where
  base : Inv g.toNodeGroup s.world
  clock : ∀ v m, (s.world.nodes v).mem = some m → (s.lease v).bootedAt ≤ s.now ∧
    ∀ u, (s.lease v).novoteUntil = some u → u ≤ s.now + window g v
  office : ∀ a m, (s.world.nodes a).mem = some m → OfficeOk m ∧
    (m.isLeader = false → (s.lease a).leases = [])
  probes : ∀ a m, (s.world.nodes a).mem = some m → ∀ pr ∈ (s.lease a).probes,
    pr.sent ≤ s.now ∧ pr.term ≤ m.term ∧
      ∀ t votes, m.campaign = some (.standing t votes) → pr.term < t
  promised : ∀ a m, (s.world.nodes a).mem = some m → ∀ held ∈ (s.lease a).leases,
    s.now < held.2.last → ∀ v, sameEndpoint held.1 (g.url v) = true →
      Bound g s v held.2.last ∧ (Silent s v m.term ∨ (s.lease a).handingOver = true)
  answered : ∀ a m, (s.world.nodes a).mem = some m → ∀ pr ∈ (s.lease a).probes,
    s.now < pr.last → ∀ v, sameEndpoint pr.replica (g.url v) = true →
      Bound g s v pr.last ∧ (m.isLeader = true → m.term = pr.term →
        Silent s v m.term ∨ (s.lease a).handingOver = true)
  tested : ∀ v m, (s.world.nodes v).mem = some m → ∀ r ∈ (s.lease v).requests,
    r.mustWithhold = false → r.bypassed = false → Lapsed g s v

/-- The leader `a` counts on the silence of `v`: it holds a promise, or an answer is under way. -/
def CountsOn (g : LeaseGroup ι) (s : LeaseWorld ι) (a v : ι) (term : ℕ) : Prop :=
  (∃ held ∈ (s.lease a).leases, s.now < held.2.last ∧ sameEndpoint held.1 (g.url v) = true) ∨
    ∃ pr ∈ (s.lease a).probes, s.now < pr.last ∧ sameEndpoint pr.replica (g.url v) = true ∧
      pr.term = term

/-- Every leader below the term that counts on the silence of `v` is handing over. -/
def Released (g : LeaseGroup ι) (s : LeaseWorld ι) (v : ι) (term : ℕ) : Prop :=
  ∀ a m, (s.world.nodes a).mem = some m → m.isLeader = true → m.term < term →
    CountsOn g s a v m.term → (s.lease a).handingOver = true

/-- A bound voter whose own test lets it vote is bound to nothing that still runs. -/
theorem Bound.le_now {v : ι} {last : ℕ} (h : Bound g s v last)
    (hup : (s.world.nodes v).mem ≠ none) (hlapsed : Lapsed g s v) : last ≤ s.now := by
  rcases h.2 hup with ⟨u, hu, hle⟩ | hle
  · exact Nat.le_trans hle (hlapsed.2 u hu)
  · exact Nat.le_trans hle hlapsed.1

theorem Bound.mono {v : ι} {last last' : ℕ} (h : Bound g s v last) (hle : last' ≤ last) :
    Bound g s v last' := by
  refine ⟨Nat.le_trans hle h.1, fun hup => ?_⟩
  rcases h.2 hup with ⟨u, hu, hlast⟩ | hlast
  · exact .inl ⟨u, hu, Nat.le_trans hle hlast⟩
  · exact .inr (Nat.le_trans hle hlast)

theorem LeaseInv.released_of_lapsed (h : LeaseInv g s) {v : ι} (hup : (s.world.nodes v).mem ≠ none)
    (hlapsed : Lapsed g s v) (term : ℕ) : Released g s v term := by
  intro a m hm _ _ hcounts
  rcases hcounts with ⟨held, hheld, hlive, hsame⟩ | ⟨pr, hpr, hlive, hsame, -⟩
  · have hle := (h.promised a m hm held hheld hlive v hsame).1.le_now hup hlapsed
    omega
  · have hle := (h.answered a m hm pr hpr hlive v hsame).1.le_now hup hlapsed
    omega

theorem LeaseInv.lapsed_of_not_withholds (h : LeaseInv g s) {v : ι} {m : Memory}
    (hm : (s.world.nodes v).mem = some m)
    (hfree : (s.lease v).withholds (g.heartbeatTimeout v) s.now = false) : Lapsed g s v := by
  simp only [LeaseState.withholds, withholdsVote, Bool.or_eq_false_iff,
    decide_eq_false_iff_not] at hfree
  obtain ⟨⟨hboot, -⟩, hnovote⟩ := hfree
  refine ⟨?_, fun u hu => ?_⟩
  · have := (h.clock v m hm).1
    unfold window
    omega
  · simpa [hu] using hnovote

structure Moved (g : LeaseGroup ι) (s : LeaseWorld ι) (i : ι) (m m' : Memory) (l' : LeaseState)
    (granted : Option (NodeId × ℕ)) : Prop where
  novote : l'.novoteUntil = (s.lease i).novoteUntil
  booted : l'.bootedAt = (s.lease i).bootedAt
  office : m'.isLeader = false → l'.leases = []
  handing : m'.isLeader = true → (s.lease i).handingOver = true →
    l'.handingOver = true ∨ ∀ gr ∈ s.world.granted, gr.term ≤ m.term
  leases : ∀ held ∈ l'.leases, held ∈ (s.lease i).leases ∨ (s.now < held.2.last →
    ∀ v, sameEndpoint held.1 (g.url v) = true → Bound g s v held.2.last ∧ Silent s v m.term)
  probes : ∀ pr ∈ l'.probes, pr ∈ (s.lease i).probes ∨
    (pr.answer = none ∧ pr.sent = s.now ∧ pr.term = m.term ∧ m' = m ∧ m.isLeader = true)
  requests : ∀ r ∈ l'.requests, r ∈ (s.lease i).requests ∨
    (r.mustWithhold = false → r.bypassed = false → Lapsed g s i)
  cast : ∀ c u, granted = some (c, u) → Released g s i u

variable [DecidableEq ι] {i : ι} {a : Action ι} {o : Outcome} {m m' : Memory} {l' : LeaseState}
  {mail' : List Mail}

/-- The world after node `i` has moved. -/
def LeaseWorld.moved (s : LeaseWorld ι) (i : ι) (o : Outcome) (l' : LeaseState)
    (mail' : List Mail) : LeaseWorld ι :=
  { s with
    world := s.world.record i o
    lease := Function.update s.lease i l'
    mail := mail' }

@[simp] theorem moved_now : (s.moved i o l' mail').now = s.now := rfl

@[simp] theorem moved_nodes_self : (s.moved i o l' mail').world.nodes i = o.node := by
  simp [LeaseWorld.moved, World.record]

@[simp] theorem moved_lease_self : (s.moved i o l' mail').lease i = l' := by
  simp [LeaseWorld.moved]

@[simp] theorem moved_nodes_of_ne {v : ι} (h : v ≠ i) :
    (s.moved i o l' mail').world.nodes v = s.world.nodes v := by
  simp [LeaseWorld.moved, World.record, h]

@[simp] theorem moved_lease_of_ne {v : ι} (h : v ≠ i) :
    (s.moved i o l' mail').lease v = s.lease v := by
  simp [LeaseWorld.moved, h]

theorem mem_moved_granted {gr : Grant ι} (h : gr ∈ (s.moved i o l' mail').world.granted) :
    gr ∈ s.world.granted ∨ (gr.voter = i ∧ o.granted = some (gr.candidate, gr.term)) := by
  rcases List.mem_append.mp h with hnew | hold
  · obtain ⟨⟨c, t⟩, hct, rfl⟩ : ∃ p, o.granted = some p ∧ (⟨i, p.1, p.2⟩ : Grant ι) = gr := by
      simpa using hnew
    exact .inr ⟨rfl, hct⟩
  · exact .inl hold

theorem Bound.moved {v : ι} {last : ℕ} (h : Bound g s v last) (hm : (s.world.nodes i).mem = some m)
    (hnovote : l'.novoteUntil = (s.lease i).novoteUntil)
    (hbooted : l'.bootedAt = (s.lease i).bootedAt) : Bound g (s.moved i o l' mail') v last := by
  refine ⟨h.1, fun hup => ?_⟩
  by_cases hv : v = i
  · subst hv
    simpa [hnovote, hbooted] using h.2 (by simp [hm])
  · simpa [hv] using h.2 (by simpa [hv] using hup)

/-- A cast vote is at or below the term of its voter, and below no leader that counts on it. -/
theorem Silent.moved {v : ι} {term : ℕ} (h : Silent s v term)
    (hcast : ∀ c u, o.granted = some (c, u) → v = i → u ≤ term) :
    Silent (s.moved i o l' mail') v term := by
  intro gr hgr hv
  rcases mem_moved_granted hgr with hold | ⟨hi, hct⟩
  · exact h gr hold hv
  · exact hcast _ _ hct (hv.symm.trans hi)

theorem LeaseInv.moved (h : LeaseInv g s) (hm : (s.world.nodes i).mem = some m)
    (hm' : o.node.mem = some m') (hbase : Inv g.toNodeGroup (s.world.record i o))
    (hoff : OfficeMove m m') (hterm : ∀ c u, o.granted = some (c, u) → u ≤ m'.term)
    (hl : Moved g s i m m' l' o.granted) : LeaseInv g (s.moved i o l' mail') := by
  -- What another leader counts on, when node `i` votes.
  have hother : ∀ b mb v, b ≠ i → (s.world.nodes b).mem = some mb → mb.isLeader = true →
      CountsOn g s b v mb.term → Silent s v mb.term ∨ (s.lease b).handingOver = true →
      Silent (s.moved i o l' mail') v mb.term ∨ (s.lease b).handingOver = true := by
    intro b mb v _ hmb hlead hcounts hsilent
    rcases hsilent with hsilent | hover
    · by_cases hlow : ∃ c u, o.granted = some (c, u) ∧ v = i ∧ mb.term < u
      · obtain ⟨c, u, hcu, rfl, hlt⟩ := hlow
        exact .inr (hl.cast c u hcu b mb hmb hlead hlt hcounts)
      · refine .inl (hsilent.moved fun c u hcu hv => ?_)
        by_contra hlt
        exact hlow ⟨c, u, hcu, hv, Nat.lt_of_not_le hlt⟩
    · exact .inr hover
  have hself : ∀ v, m'.isLeader = true → Silent s v m.term ∨ (s.lease i).handingOver = true →
      Silent (s.moved i o l' mail') v m'.term ∨ l'.handingOver = true := by
    intro v hlead hsilent
    have hmoved : Silent s v m.term → Silent (s.moved i o l' mail') v m'.term := fun hs =>
      Silent.moved (fun gr hgr hv => Nat.le_trans (hs gr hgr hv) hoff.term_le)
        fun c u hcu _ => hterm c u hcu
    rcases hsilent with hsilent | hover
    · exact .inl (hmoved hsilent)
    · rcases hl.handing hlead hover with hover' | hall
      · exact .inr hover'
      · exact .inl (hmoved fun gr hgr _ => hall gr hgr)
  refine ⟨hbase, ?_, ?_, ?_, ?_, ?_, ?_⟩
  · intro v mv hmv
    by_cases hv : v = i
    · subst hv
      simpa [hl.novote, hl.booted] using h.clock v m hm
    · simpa [hv] using h.clock v mv (by simpa [hv] using hmv)
  · intro b mb hmb
    by_cases hb : b = i
    · subst hb
      obtain rfl : m' = mb := by simpa [hm'] using hmb
      exact ⟨hoff.office, by simpa using hl.office⟩
    · simpa [hb] using h.office b mb (by simpa [hb] using hmb)
  · intro b mb hmb pr hpr
    by_cases hb : b = i
    · subst hb
      obtain rfl : m' = mb := by simpa [hm'] using hmb
      rcases hl.probes pr (by simpa using hpr) with hold | ⟨-, hsent, hpt, rfl, hlead⟩
      · obtain ⟨hsent, hpt, hstand⟩ := h.probes b m hm pr hold
        refine ⟨hsent, Nat.le_trans hpt hoff.term_le, fun t votes ht => ?_⟩
        rcases hoff.standing t votes ht with ⟨votes', ht'⟩ | hlt
        · exact hstand t votes' ht'
        · exact Nat.lt_of_le_of_lt hpt hlt
      · refine ⟨hsent.le, hpt.le, fun t votes ht => ?_⟩
        have hnot := hoff.office (by simp [ht])
        simp [hlead] at hnot
    · exact h.probes b mb (by simpa [hb] using hmb) pr (by simpa [hb] using hpr)
  · intro b mb hmb held hheld hlive v hsame
    by_cases hb : b = i
    · subst hb
      obtain rfl : m' = mb := by simpa [hm'] using hmb
      have hmem : held ∈ l'.leases := by simpa using hheld
      have hlead : m'.isLeader = true := by
        by_contra hnot
        simp [hl.office (by simpa using hnot)] at hmem
      obtain ⟨hbound, hsilent⟩ : Bound g s v held.2.last ∧
          (Silent s v m.term ∨ (s.lease b).handingOver = true) := by
        rcases hl.leases held hmem with hold | hnew
        · exact h.promised b m hm held hold hlive v hsame
        · exact ⟨(hnew hlive v hsame).1, .inl (hnew hlive v hsame).2⟩
      exact ⟨hbound.moved hm hl.novote hl.booted, by simpa using hself v hlead hsilent⟩
    · have hmb' : (s.world.nodes b).mem = some mb := by simpa [hb] using hmb
      have hheld' : held ∈ (s.lease b).leases := by simpa [hb] using hheld
      obtain ⟨hbound, hsilent⟩ := h.promised b mb hmb' held hheld' hlive v hsame
      have hlead : mb.isLeader = true := by
        by_contra hnot
        simp [(h.office b mb hmb').2 (by simpa using hnot)] at hheld'
      refine ⟨hbound.moved hm hl.novote hl.booted, ?_⟩
      simpa [hb] using hother b mb v hb hmb' hlead (.inl ⟨held, hheld', hlive, hsame⟩) hsilent
  · intro b mb hmb pr hpr hlive v hsame
    by_cases hb : b = i
    · subst hb
      obtain rfl : m' = mb := by simpa [hm'] using hmb
      rcases hl.probes pr (by simpa using hpr) with hold | ⟨hnone, hsent, -⟩
      · obtain ⟨hbound, hsilent⟩ := h.answered b m hm pr hold hlive v hsame
        refine ⟨hbound.moved hm hl.novote hl.booted, fun hlead hpt => ?_⟩
        obtain ⟨-, hle, hstand⟩ := h.probes b m hm pr hold
        have hsame_term : m.term = pr.term := Nat.le_antisymm (hpt ▸ hoff.term_le) hle
        rcases hoff.lead hlead with hlead' | ⟨-, votes, hvotes⟩
        · simpa using hself v hlead (hsilent hlead' hsame_term)
        · have := hstand m.term votes hvotes
          omega
      · simp [Probe.last, hnone, fromMillis, hsent] at hlive
    · have hmb' : (s.world.nodes b).mem = some mb := by simpa [hb] using hmb
      have hpr' : pr ∈ (s.lease b).probes := by simpa [hb] using hpr
      obtain ⟨hbound, hsilent⟩ := h.answered b mb hmb' pr hpr' hlive v hsame
      refine ⟨hbound.moved hm hl.novote hl.booted, fun hlead hpt => ?_⟩
      simpa [hb] using hother b mb v hb hmb' hlead (.inr ⟨pr, hpr', hlive, hsame, hpt.symm⟩)
        (hsilent hlead hpt)
  · intro v mv hmv r hr hmust hbypass
    by_cases hv : v = i
    · subst hv
      have hlapsed : Lapsed g s v := by
        rcases hl.requests r (by simpa using hr) with hold | hnew
        · exact h.tested v m hm r hold hmust hbypass
        · exact hnew hmust hbypass
      simpa [Lapsed, hl.novote, hl.booted] using hlapsed
    · simpa [Lapsed, hv] using
        h.tested v mv (by simpa [hv] using hmv) r (by simpa [hv] using hr) hmust hbypass

theorem LeaseInv.acted (h : LeaseInv g s) (hm : (s.world.nodes i).mem = some m)
    (ho : act g.toNodeGroup s.world.granted i (s.world.nodes i) a = some o)
    (hm' : o.node.mem = some m') (hl : Moved g s i m m' l' o.granted) :
    LeaseInv g (s.moved i o l' mail') := by
  have hstep : Election.step g.toNodeGroup s.world (i, a) = some (s.world.record i o) :=
    step_eq_some.mpr ⟨o, ho, rfl⟩
  refine h.moved hm hm' (inv_step h.base hstep) (act_officeMove ho hm hm' (h.office i m hm).1) ?_ hl
  intro c u hcu
  obtain ⟨-, m₁, hm₁, ht, -⟩ := (act_spec ho).grant (h.base.voteDurable i) c u hcu
  obtain rfl := Option.some.inj (hm₁.symm.trans hm')
  exact ht.ge

theorem record_quiet_self (w : World ι) (i : ι) : w.record i (.quiet (w.nodes i)) = w := by
  simp [World.record, Outcome.quiet]

theorem LeaseInv.set (h : LeaseInv g s) (hm : (s.world.nodes i).mem = some m)
    (hl : Moved g s i m m l' none) : LeaseInv g { s.setLease i l' with mail := mail' } := by
  have hworld : { s.setLease i l' with mail := mail' } =
      s.moved i (.quiet (s.world.nodes i)) l' mail' := by
    simp [LeaseWorld.setLease, LeaseWorld.moved, record_quiet_self]
  rw [hworld]
  refine h.moved hm hm ?_ (.of_same (h.office i m hm).1 (Nat.le_refl _) rfl rfl) ?_ hl
  · rw [record_quiet_self]
    exact h.base
  · simp [Outcome.quiet]

omit [DecidableEq ι] in
/-- A move that leaves the promises, probes and requests alone and casts no vote. -/
theorem Moved.of_same (h : LeaseInv g s) (hm : (s.world.nodes i).mem = some m)
    (hlead : m'.isLeader = m.isLeader) (hnovote : l'.novoteUntil = (s.lease i).novoteUntil)
    (hbooted : l'.bootedAt = (s.lease i).bootedAt) (hleases : l'.leases = (s.lease i).leases)
    (hover : (s.lease i).handingOver = true → l'.handingOver = true)
    (hprobes : l'.probes = (s.lease i).probes) (hrequests : l'.requests = (s.lease i).requests)
    {granted : Option (NodeId × ℕ)} (hcast : ∀ c u, granted = some (c, u) → Released g s i u) :
    Moved g s i m m' l' granted where
  novote := hnovote
  booted := hbooted
  office hnot := hleases ▸ (h.office i m hm).2 (hlead ▸ hnot)
  handing _ hold := .inl (hover hold)
  leases _ hheld := .inl (hleases ▸ hheld)
  probes _ hpr := .inl (hprobes ▸ hpr)
  requests _ hr := .inl (hrequests ▸ hr)
  cast := hcast

omit [DecidableEq ι] in
theorem Moved.of_leave (hlead : m'.isLeader = false)
    (hnovote : l'.novoteUntil = (s.lease i).novoteUntil)
    (hbooted : l'.bootedAt = (s.lease i).bootedAt) (hleases : l'.leases = [])
    (hprobes : ∀ pr ∈ l'.probes, pr ∈ (s.lease i).probes)
    (hrequests : l'.requests = (s.lease i).requests) : Moved g s i m m' l' none where
  novote := hnovote
  booted := hbooted
  office _ := hleases
  handing hl := by simp [hlead] at hl
  leases held hheld := by simp [hleases] at hheld
  probes pr hpr := .inl (hprobes pr hpr)
  requests r hr := .inl (hrequests ▸ hr)
  cast := by simp

end Invariant

end DewDB.Lease
