import DewDB.LeaseInv

/-!
# What the steps of a group keep

`PromisesKept` is the condition on a step: a vote is cast past the withholding test only while every
leader that counts on the voter is handing over. A step that meets it keeps `LeaseInv`.
-/
namespace DewDB.Lease

open Endpoint QuorumConfig ReplicationMeta Vote Election ElectionSafety TransitionSystem

variable {ι : Type} {g : LeaseGroup ι} {s : LeaseWorld ι} {v i : ι} {m : Memory}

/-- No vote request stands between its test and its decision with leave to vote. -/
def NoneOpen (l : LeaseState) : Prop :=
  ∀ r ∈ l.requests, r.mustWithhold = true ∨ r.bypassed = true

/-- What a step of node `v` must meet for promises to be kept. -/
def StepKeeps [DecidableEq ι] (g : LeaseGroup ι) (s : LeaseWorld ι) (v : ι)
    (m : Memory) : Op ι → Prop
  | .stand _ _ _ => (s.lease v).withholds (g.heartbeatTimeout v) s.now = true →
      Released g s v (m.term + 1)
  | .decide k myLogs mySummary _ => ∀ r ∈ (s.lease v).requests[k]?, r.bypassed = true →
      (s.lease v).withholds (g.heartbeatTimeout v) s.now = true →
      (decideVote m.term m.votedFor myLogs mySummary (some g.config) r.req r.mustWithhold).granted =
        true → Released g s v r.req.term
  | .heartbeat askerTerm leaseMs =>
      (heartbeatGrant (s.lease v) m.term (g.heartbeatTimeout v) s.now askerTerm leaseMs).1 ≠ 0 →
        NoneOpen (s.lease v)
  | .answer asker k => ∀ pr ∈ (s.lease asker).probes[k]?,
      (heartbeatGrant (s.lease v) m.term (g.heartbeatTimeout v) s.now pr.term
        (asMillis (window g asker))).1 ≠ 0 → NoneOpen (s.lease v)
  | .endTransfer => m.isLeader = true → (s.lease v).handingOver = true →
      ∀ gr ∈ s.world.granted, gr.term ≤ m.term
  | _ => True

/-- A vote is cast past the withholding test only while every leader that counts on the voter is
handing over; a handover is given up only when nobody has voted above the leader's term; and no
promise is made between the test of a vote request and its decision. -/
def PromisesKept [DecidableEq ι] (g : LeaseGroup ι) (s : LeaseWorld ι) : Label ι → Prop
  | .tick _ => True
  | .node v op => ∀ m ∈ (s.world.nodes v).mem, StepKeeps g s v m op

/-- A grant raises the recorded deadline past the end of what is granted. -/
theorem heartbeatGrant_cases (l : LeaseState) (term timeout now askerTerm leaseMs : ℕ) :
    heartbeatGrant l term timeout now askerTerm leaseMs = (0, l) ∨
      ∃ granted u, heartbeatGrant l term timeout now askerTerm leaseMs =
          (granted, { l with novoteUntil := some u }) ∧ granted ≠ 0 ∧
        granted ≤ refusalWindow timeout ∧ term ≤ askerTerm ∧ now + granted ≤ u ∧
        (u = now + granted ∨ l.novoteUntil = some u) ∧ ∀ old,
          l.novoteUntil = some old → old ≤ u := by
  unfold heartbeatGrant grantNovote
  dsimp only
  split_ifs with hms hterm hzero
  · exact .inl rfl
  · exact .inl rfl
  · right
    have hle : min (fromMillis leaseMs) (grantable (l.contact now) timeout) ≤
      refusalWindow timeout :=
      Nat.le_trans (Nat.min_le_right _ _) (grantable_le _ _)
    refine ⟨_, _, rfl, hzero, hle, Nat.le_of_not_lt hterm, ?_, ?_, ?_⟩
    · cases l.novoteUntil with
      | none => exact Nat.le_refl _
      | some old => exact Nat.le_max_right _ _
    · cases l.novoteUntil with
      | none => exact .inl rfl
      | some old =>
        rcases Nat.le_total old (now + min (fromMillis leaseMs) (grantable (l.contact now) timeout))
          with hold | hold
        · exact .inl (Nat.max_eq_right hold)
        · exact .inr (by simp [Nat.max_eq_left hold])
    · intro old hold
      simp [hold]
  · exact .inl rfl

theorem Bound.of_later {s' : LeaseWorld ι} {last : ℕ} (h : Bound g s v last)
    (hnow : s.now ≤ s'.now) (hmem : (s'.world.nodes v).mem ≠ none → (s.world.nodes v).mem ≠ none)
    (hbooted : (s'.lease v).bootedAt = (s.lease v).bootedAt)
    (hnovote : ∀ u, (s.lease v).novoteUntil = some u → ∃ u',
      (s'.lease v).novoteUntil = some u' ∧ u ≤ u') :
    Bound g s' v last := by
  have hle : last ≤ s'.now + window g v := Nat.le_trans h.1 (Nat.add_le_add_right hnow _)
  refine ⟨hle, fun hup => ?_⟩
  rcases h.2 (hmem hup) with ⟨u, hu, hlast⟩ | hlast
  · obtain ⟨u', hu', hle'⟩ := hnovote u hu
    exact .inl ⟨u', hu', Nat.le_trans hlast hle'⟩
  · exact .inr (hbooted ▸ hlast)

theorem LeaseInv.tick (h : LeaseInv g s) (d : ℕ) : LeaseInv g { s with now := s.now + d } where
  base := h.base
  clock v m hm := by
    obtain ⟨hboot, hnovote⟩ := h.clock v m hm
    refine ⟨Nat.le_trans hboot (Nat.le_add_right _ _), fun u hu => ?_⟩
    have := hnovote u hu
    change u ≤ s.now + d + window g v
    omega
  office := h.office
  probes a m hm pr hpr := by
    obtain ⟨hsent, hrest⟩ := h.probes a m hm pr hpr
    exact ⟨Nat.le_trans hsent (Nat.le_add_right _ _), hrest⟩
  promised a m hm held hheld hlive v hsame := by
    have hlive' : s.now < held.2.last := Nat.lt_of_le_of_lt (Nat.le_add_right _ _) hlive
    obtain ⟨hbound, hrest⟩ := h.promised a m hm held hheld hlive' v hsame
    exact ⟨hbound.of_later (Nat.le_add_right _ _) id rfl fun u hu => ⟨u, hu, Nat.le_refl _⟩, hrest⟩
  answered a m hm pr hpr hlive v hsame := by
    have hlive' : s.now < pr.last := Nat.lt_of_le_of_lt (Nat.le_add_right _ _) hlive
    obtain ⟨hbound, hrest⟩ := h.answered a m hm pr hpr hlive' v hsame
    exact ⟨hbound.of_later (Nat.le_add_right _ _) id rfl fun u hu => ⟨u, hu, Nat.le_refl _⟩, hrest⟩
  tested v m hm r hr hmust hbypass := by
    obtain ⟨hboot, hnovote⟩ := h.tested v m hm r hr hmust hbypass
    exact ⟨Nat.le_trans hboot (Nat.le_add_right _ _),
      fun u hu => Nat.le_trans (hnovote u hu) (Nat.le_add_right _ _)⟩

theorem LeaseInv.crash [DecidableEq ι] {o : Outcome} {l' : LeaseState} {mail' : List Mail}
    (h : LeaseInv g s) (hbase : Inv g.toNodeGroup (s.world.record i o)) (hdown : o.node.mem = none)
    (hgranted : o.granted = none) : LeaseInv g (s.moved i o l' mail') := by
  have hmem : ∀ {b mb}, ((s.moved i o l' mail').world.nodes b).mem = some mb →
      b ≠ i ∧ (s.world.nodes b).mem = some mb := by
    intro b mb hmb
    by_cases hb : b = i
    · subst hb
      simp [hdown] at hmb
    · exact ⟨hb, by simpa [hb] using hmb⟩
  have hbound : ∀ {v last}, Bound g s v last → Bound g (s.moved i o l' mail') v last := by
    intro v last hb
    refine ⟨hb.1, fun hup => ?_⟩
    by_cases hv : v = i
    · subst hv
      simp [hdown] at hup
    · simpa [hv] using hb.2 (by simpa [hv] using hup)
  have hsilent : ∀ {v term}, Silent s v term → Silent (s.moved i o l' mail') v term :=
    fun hs => hs.moved (by simp [hgranted])
  refine ⟨hbase, ?_, ?_, ?_, ?_, ?_, ?_⟩
  · intro v mv hmv
    obtain ⟨hv, hmv⟩ := hmem hmv
    simpa [hv] using h.clock v mv hmv
  · intro b mb hmb
    obtain ⟨hb, hmb⟩ := hmem hmb
    simpa [hb] using h.office b mb hmb
  · intro b mb hmb pr hpr
    obtain ⟨hb, hmb⟩ := hmem hmb
    exact h.probes b mb hmb pr (by simpa [hb] using hpr)
  · intro b mb hmb held hheld hlive v hsame
    obtain ⟨hb, hmb⟩ := hmem hmb
    obtain ⟨hvb, hrest⟩ := h.promised b mb hmb held (by simpa [hb] using hheld) hlive v hsame
    exact ⟨hbound hvb, by simpa [hb] using hrest.imp_left hsilent⟩
  · intro b mb hmb pr hpr hlive v hsame
    obtain ⟨hb, hmb⟩ := hmem hmb
    obtain ⟨hvb, hrest⟩ := h.answered b mb hmb pr (by simpa [hb] using hpr) hlive v hsame
    refine ⟨hbound hvb, fun hlead hpt => ?_⟩
    simpa [hb] using (hrest hlead hpt).imp_left hsilent
  · intro v mv hmv r hr hmust hbypass
    obtain ⟨hv, hmv⟩ := hmem hmv
    simpa [Lapsed, hv] using h.tested v mv hmv r (by simpa [hv] using hr) hmust hbypass

/-- A node that boots is bound by its boot window to whatever it promised before. -/
theorem LeaseInv.boot [DecidableEq ι] {o : Outcome} {m' : Memory} {mail' : List Mail}
    {primaryAddr : Option Url} (h : LeaseInv g s) (hbase : Inv g.toNodeGroup (s.world.record i o))
    (hm' : o.node.mem = some m') (hcamp : m'.campaign = none) (hgranted : o.granted = none) :
    LeaseInv g (s.moved i o (.booted s.now primaryAddr) mail') := by
  have hbound : ∀ {v last}, Bound g s v last →
      Bound g (s.moved i o (.booted s.now primaryAddr) mail') v last := by
    intro v last hb
    refine ⟨hb.1, fun hup => ?_⟩
    by_cases hv : v = i
    · subst hv
      exact .inr (by simpa [LeaseState.booted] using hb.1)
    · simpa [hv] using hb.2 (by simpa [hv] using hup)
  have hsilent : ∀ {v term}, Silent s v term →
      Silent (s.moved i o (.booted s.now primaryAddr) mail') v term :=
    fun hs => hs.moved (by simp [hgranted])
  refine ⟨hbase, ?_, ?_, ?_, ?_, ?_, ?_⟩
  · intro v mv hmv
    by_cases hv : v = i
    · subst hv
      simp [LeaseState.booted]
    · simpa [hv] using h.clock v mv (by simpa [hv] using hmv)
  · intro b mb hmb
    by_cases hb : b = i
    · subst hb
      obtain rfl : m' = mb := by simpa [hm'] using hmb
      exact ⟨by simp [OfficeOk, hcamp], by simp [LeaseState.booted]⟩
    · simpa [hb] using h.office b mb (by simpa [hb] using hmb)
  · intro b mb hmb pr hpr
    by_cases hb : b = i
    · subst hb
      simp [LeaseState.booted] at hpr
    · exact h.probes b mb (by simpa [hb] using hmb) pr (by simpa [hb] using hpr)
  · intro b mb hmb held hheld hlive v hsame
    by_cases hb : b = i
    · subst hb
      simp [LeaseState.booted] at hheld
    · obtain ⟨hvb, hrest⟩ := h.promised b mb (by simpa [hb] using hmb) held
        (by simpa [hb] using hheld) hlive v hsame
      exact ⟨hbound hvb, by simpa [hb] using hrest.imp_left hsilent⟩
  · intro b mb hmb pr hpr hlive v hsame
    by_cases hb : b = i
    · subst hb
      simp [LeaseState.booted] at hpr
    · obtain ⟨hvb, hrest⟩ := h.answered b mb (by simpa [hb] using hmb) pr (by simpa [hb] using hpr)
        hlive v hsame
      refine ⟨hbound hvb, fun hlead hpt => ?_⟩
      simpa [hb] using (hrest hlead hpt).imp_left hsilent
  · intro v mv hmv r hr hmust hbypass
    by_cases hv : v = i
    · subst hv
      simp [LeaseState.booted] at hr
    · simpa [Lapsed, hv] using
        h.tested v mv (by simpa [hv] using hmv) r (by simpa [hv] using hr) hmust hbypass

@[simp] theorem setLease_now [DecidableEq ι] {l' : LeaseState} :
    (s.setLease i l').now = s.now := rfl

@[simp] theorem setLease_self [DecidableEq ι] {l' : LeaseState} :
    (s.setLease i l').lease i = l' := by
  simp [LeaseWorld.setLease]

@[simp] theorem setLease_of_ne [DecidableEq ι] {l' : LeaseState} (h : v ≠ i) :
    (s.setLease i l').lease v = s.lease v := by
  simp [LeaseWorld.setLease, h]

theorem LeaseInv.heartbeat [DecidableEq ι] (h : LeaseInv g s) (hm : (s.world.nodes v).mem = some m)
    {askerTerm leaseMs : ℕ}
    (hopen : (heartbeatGrant (s.lease v) m.term (g.heartbeatTimeout v) s.now askerTerm leaseMs).1 ≠
      0 → NoneOpen (s.lease v)) :
    LeaseInv g (s.setLease v
      (heartbeatGrant (s.lease v) m.term (g.heartbeatTimeout v) s.now askerTerm leaseMs).2) := by
  rcases heartbeatGrant_cases (s.lease v) m.term (g.heartbeatTimeout v) s.now askerTerm leaseMs with
    hzero | ⟨granted, u, hgrant, hpos, hwindow, -, hcover, hu, hold⟩
  · have hself : s.setLease v (s.lease v) = s := by simp [LeaseWorld.setLease]
    rw [hzero, hself]
    exact h
  · rw [hgrant] at hopen ⊢
    have hnone := hopen hpos
    have hlease : ∀ b, ((s.setLease v { s.lease v with novoteUntil := some u }).lease b).leases =
        (s.lease b).leases ∧
        ((s.setLease v { s.lease v with novoteUntil := some u }).lease b).probes =
          (s.lease b).probes ∧
        ((s.setLease v { s.lease v with novoteUntil := some u }).lease b).handingOver =
          (s.lease b).handingOver := by
      intro b
      by_cases hb : b = v
      · subst hb
        simp
      · simp [hb]
    have hbound : ∀ {w last}, Bound g s w last →
        Bound g (s.setLease v { s.lease v with novoteUntil := some u }) w last := by
      intro w last hb
      refine hb.of_later (Nat.le_refl _) id ?_ ?_
      · by_cases hw : w = v
        · subst hw
          simp
        · simp [hw]
      · intro u' hu'
        by_cases hw : w = v
        · subst hw
          exact ⟨u, by simp, hold u' hu'⟩
        · exact ⟨u', by simpa [hw] using hu', Nat.le_refl _⟩
    refine ⟨h.base, ?_, ?_, ?_, ?_, ?_, ?_⟩
    · intro w mw hmw
      by_cases hw : w = v
      · subst hw
        refine ⟨by simpa using (h.clock w mw hmw).1, fun u' hu' => ?_⟩
        obtain rfl : u = u' := by simpa using hu'
        rcases hu with rfl | hu
        · exact Nat.add_le_add_left hwindow _
        · exact (h.clock w mw hmw).2 u hu
      · simpa [hw] using h.clock w mw hmw
    · intro b mb hmb
      rw [(hlease b).1]
      exact h.office b mb hmb
    · intro b mb hmb pr hpr
      rw [(hlease b).2.1] at hpr
      exact h.probes b mb hmb pr hpr
    · intro b mb hmb held hheld hlive w hsame
      rw [(hlease b).1] at hheld
      rw [(hlease b).2.2]
      obtain ⟨hwb, hrest⟩ := h.promised b mb hmb held hheld hlive w hsame
      exact ⟨hbound hwb, hrest⟩
    · intro b mb hmb pr hpr hlive w hsame
      rw [(hlease b).2.1] at hpr
      rw [(hlease b).2.2]
      obtain ⟨hwb, hrest⟩ := h.answered b mb hmb pr hpr hlive w hsame
      exact ⟨hbound hwb, hrest⟩
    · intro w mw hmw r hr hmust hbypass
      by_cases hw : w = v
      · subst hw
        rcases hnone r (by simpa using hr) with hr' | hr'
        · simp [hmust] at hr'
        · simp [hbypass] at hr'
      · simpa [Lapsed, hw] using h.tested w mw hmw r (by simpa [hw] using hr) hmust hbypass

theorem LeaseInv.recordAnswer [DecidableEq ι] {k : ℕ} {pr pr' : Probe} (h : LeaseInv g s)
    (hpr : (s.lease i).probes[k]? = some pr) (hreplica : pr'.replica = pr.replica)
    (hterm : pr'.term = pr.term) (hsent : pr'.sent = pr.sent)
    (hbound : s.now < pr'.last → ∀ v, sameEndpoint pr.replica (g.url v) = true →
      Bound g s v pr'.last ∧ Silent s v pr.term) :
    LeaseInv g (s.setLease i { s.lease i with probes := (s.lease i).probes.set k pr' }) := by
  have hmem : pr ∈ (s.lease i).probes := List.mem_of_getElem? hpr
  have hset : ∀ p ∈ (s.lease i).probes.set k pr', p ∈ (s.lease i).probes ∨ p = pr' :=
    fun p hp => List.mem_or_eq_of_mem_set hp
  generalize hl : { s.lease i with probes := (s.lease i).probes.set k pr' } = l'
  have hsame : ∀ b, ((s.setLease i l').lease b).leases = (s.lease b).leases ∧
      ((s.setLease i l').lease b).handingOver = (s.lease b).handingOver ∧
      ((s.setLease i l').lease b).novoteUntil = (s.lease b).novoteUntil ∧
      ((s.setLease i l').lease b).bootedAt = (s.lease b).bootedAt ∧
      ((s.setLease i l').lease b).requests = (s.lease b).requests := by
    intro b
    by_cases hb : b = i
    · subst hb
      simp [← hl]
    · simp [hb]
  have hvoter : ∀ {w last}, Bound g s w last → Bound g (s.setLease i l') w last := fun {w _} hb =>
    hb.of_later (Nat.le_refl _) id (hsame w).2.2.2.1 fun u hu =>
      ⟨u, (hsame w).2.2.1.trans hu, Nat.le_refl _⟩
  refine ⟨h.base, ?_, ?_, ?_, ?_, ?_, ?_⟩
  · intro w mw hmw
    rw [(hsame w).2.2.1, (hsame w).2.2.2.1]
    exact h.clock w mw hmw
  · intro b mb hmb
    rw [(hsame b).1]
    exact h.office b mb hmb
  · intro b mb hmb p hp
    by_cases hb : b = i
    · subst hb
      rcases hset p (by simpa [← hl] using hp) with hold | rfl
      · exact h.probes b mb hmb p hold
      · rw [hsent, hterm]
        exact h.probes b mb hmb pr hmem
    · exact h.probes b mb hmb p (by simpa [hb] using hp)
  · intro b mb hmb held hheld hlive w hw
    rw [(hsame b).1] at hheld
    rw [(hsame b).2.1]
    obtain ⟨hwb, hrest⟩ := h.promised b mb hmb held hheld hlive w hw
    exact ⟨hvoter hwb, hrest⟩
  · intro b mb hmb p hp hlive w hw
    rw [(hsame b).2.1]
    by_cases hb : b = i
    · subst hb
      rcases hset p (by simpa [← hl] using hp) with hold | rfl
      · obtain ⟨hwb, hrest⟩ := h.answered b mb hmb p hold hlive w hw
        exact ⟨hvoter hwb, hrest⟩
      · obtain ⟨hwb, hsilent⟩ := hbound hlive w (hreplica ▸ hw)
        refine ⟨hvoter hwb, fun _ hpt => .inl ?_⟩
        rw [hpt, hterm]
        exact hsilent
    · obtain ⟨hwb, hrest⟩ := h.answered b mb hmb p (by simpa [hb] using hp) hlive w hw
      exact ⟨hvoter hwb, hrest⟩
  · intro w mw hmw r hr hmust hbypass
    rw [(hsame w).2.2.2.2] at hr
    have := h.tested w mw hmw r hr hmust hbypass
    unfold Lapsed at this ⊢
    rw [(hsame w).2.2.1, (hsame w).2.2.2.1]
    exact this

theorem LeaseInv.silent (h : LeaseInv g s) (hm : (s.world.nodes v).mem = some m) :
    Silent s v m.term := by
  rintro gr hgr rfl
  exact ((h.base.grants gr hgr).2 m hm).term_le

theorem LeaseInv.answer [DecidableEq ι] {s' : LeaseWorld ι} {asker : ι} {k : ℕ} (h : LeaseInv g s)
    (hm : (s.world.nodes v).mem = some m) (hkeeps : StepKeeps g s v m (.answer asker k))
    (hstep : answerProbe g s v m asker k = some s') : LeaseInv g s' := by
  unfold answerProbe at hstep
  obtain ⟨pr, hpr, hstep⟩ := Option.bind_eq_some_iff.mp hstep
  split_ifs at hstep with hguard
  obtain ⟨hup, hreplica, hnone⟩ := hguard
  obtain rfl := Option.some.inj hstep
  have hopen := hkeeps pr hpr
  have hgranted := h.heartbeat hm hopen
  unfold window at hopen hgranted
  generalize hg : heartbeatGrant (s.lease v) m.term (g.heartbeatTimeout v) s.now pr.term
    (asMillis (refusalWindow (g.heartbeatTimeout asker))) = given at hopen hgranted ⊢
  -- The grant leaves the probes of the asker, which may be the voter itself, alone.
  have hsame : ∀ b, ((s.setLease v given.2).lease b).probes = (s.lease b).probes := by
    intro b
    by_cases hb : b = v
    · subst hb
      rcases heartbeatGrant_cases (s.lease b) m.term (g.heartbeatTimeout b) s.now pr.term
        (asMillis (refusalWindow (g.heartbeatTimeout asker))) with hz | ⟨granted, u, hu, -⟩
      · simp [← hg, hz]
      · simp [← hg, hu]
    · simp [hb]
  obtain ⟨ma, hma⟩ := Option.isSome_iff_exists.mp hup
  have hpr' : ((s.setLease v given.2).lease asker).probes[k]? = some pr := by
    rw [hsame]
    exact hpr
  refine hgranted.recordAnswer hpr' rfl rfl rfl ?_
  intro hlive w hw
  obtain rfl : w = v := by
    apply g.url_injective
    rw [sameEndpoint_iff] at *
    rw [← hw, hreplica]
  have hsent : pr.sent ≤ s.now := (h.probes asker ma hma pr (List.mem_of_getElem? hpr)).1
  have hlast : ({ pr with answer := some (m.term, asMillis given.1) } : Probe).last ≤
      s.now + given.1 := by
    rw [Probe.last_answered]
    exact Nat.add_le_add hsent (fromMillis_asMillis_le given.1)
  rcases heartbeatGrant_cases (s.lease w) m.term (g.heartbeatTimeout w) s.now pr.term
    (asMillis (refusalWindow (g.heartbeatTimeout asker))) with
    hz | ⟨granted, u, hu, hpos, hwindow, hterm, hcover, -, -⟩
  · have hzero : given.1 = 0 := by simp [← hg, hz]
    simp only [setLease_now] at hlive
    omega
  · have hgiven : given = (granted, { s.lease w with novoteUntil := some u }) := hg ▸ hu
    have hone : given.1 = granted := by rw [hgiven]
    refine ⟨⟨?_, fun _ => .inl ⟨u, by simp [hgiven], ?_⟩⟩, ?_⟩
    · have hle : s.now + granted ≤ s.now + window g w := Nat.add_le_add_left hwindow _
      simp only [setLease_now]
      omega
    · omega
    · exact fun gr hgr hv => Nat.le_trans (h.silent hm gr hgr hv) hterm

theorem act_eq_some [DecidableEq ι] {s' : LeaseWorld ι} {a : Action ι}
    {effect : Outcome → LeaseState → LeaseState} {post : Outcome → List Mail}
    (h : s.actPosting g i a effect post = some s') :
    ∃ o, Election.act g.toNodeGroup s.world.granted i (s.world.nodes i) a = some o ∧
      s' = s.moved i o (effect o (s.lease i)) (s.mail ++ post o) := by
  obtain ⟨o, ho, rfl⟩ := Option.map_eq_some_iff.mp h
  exact ⟨o, ho, rfl⟩

/-- The actions after which a running node runs on, in or out of office as before. -/
def keepsOffice : Action ι → Bool
  | .beginCampaign => true
  | .stand _ => true
  | .voteReply _ _ => true
  | .giveUp => true
  | .heartbeat _ => true
  | .replicate _ => true
  | .task _ _ => true
  | _ => false

theorem act_kept [DecidableEq ι] {gr : NodeGroup ι} {granted : List (Grant ι)} {n : Node}
    {a : Action ι} {o : Outcome} (h : Election.act gr granted i n a = some o) (hm : n.mem = some m)
    (ha : keepsOffice a = true) :
    ∃ m', o.node.mem = some m' ∧ m'.isLeader = m.isLeader ∧
      ∀ c u, o.granted = some (c, u) → u = m.term + 1 ∧ ∃ fault, a = .stand fault := by
  obtain ⟨disk, mem⟩ := n
  obtain rfl : mem = some m := hm
  cases a with
  | beginCampaign =>
    have h : beginCampaign gr i disk m = some o := h
    unfold beginCampaign at h
    split_ifs at h
    obtain rfl := Option.some.inj h
    exact ⟨_, rfl, rfl, by simp [Outcome.quiet]⟩
  | stand fault =>
    have h : stand gr i disk m fault = some o := h
    unfold stand at h
    split_ifs at h
    dsimp only at h
    split_ifs at h
    · obtain rfl := Option.some.inj h
      refine ⟨_, rfl, rfl, fun c u hcu => ?_⟩
      obtain ⟨-, rfl⟩ : gr.nodeId i = c ∧ m.term + 1 = u := by simpa using hcu
      exact ⟨rfl, fault, rfl⟩
    · obtain rfl := Option.some.inj h
      exact ⟨_, rfl, rfl, by simp [Outcome.quiet]⟩
  | voteReply voter peer =>
    have h : voteReply gr granted i disk m voter peer = some o := h
    unfold voteReply at h
    split at h
    · split_ifs at h
      obtain rfl := Option.some.inj h
      exact ⟨_, rfl, rfl, by simp [Outcome.quiet]⟩
    · simp at h
  | giveUp =>
    have h : giveUp disk m = some o := h
    unfold giveUp at h
    split_ifs at h
    obtain rfl := Option.some.inj h
    exact ⟨_, rfl, rfl, by simp [Outcome.quiet]⟩
  | heartbeat theirTerm =>
    have h : Election.heartbeat disk m theirTerm = some o := h
    unfold Election.heartbeat at h
    split_ifs at h
    obtain rfl := Option.some.inj h
    exact ⟨_, rfl, rfl, by simp [Outcome.quiet]⟩
  | replicate term =>
    have h : replicate disk m term = some o := h
    unfold replicate at h
    split_ifs at h
    obtain rfl := Option.some.inj h
    exact ⟨_, rfl, rfl, by simp [Outcome.quiet]⟩
  | task k fault =>
    obtain ⟨t, -, rfl⟩ : ∃ t, m.tasks[k]? = some t ∧
        runTask disk m t (m.tasks.eraseIdx k) fault = o := by
      simpa [Election.act, Option.map_eq_some_iff] using h
    cases t with
    | checked term =>
      unfold runTask
      dsimp only
      split_ifs <;> exact ⟨_, rfl, rfl, by simp [Outcome.quiet]⟩
    | append term => exact ⟨_, rfl, rfl, by simp [runTask]⟩
    | _ => exact ⟨_, rfl, rfl, by simp [runTask, Outcome.quiet]⟩
  | _ => simp [keepsOffice] at ha

def LeavesAlone (l l' : LeaseState) : Prop :=
  l'.novoteUntil = l.novoteUntil ∧ l'.bootedAt = l.bootedAt ∧ l'.leases = l.leases ∧
    l'.handingOver = l.handingOver ∧ l'.probes = l.probes ∧ l'.requests = l.requests

theorem LeaseInv.kept [DecidableEq ι] {s' : LeaseWorld ι} {a : Action ι}
    {effect : Outcome → LeaseState → LeaseState} {post : Outcome → List Mail} (h : LeaseInv g s)
    (hm : (s.world.nodes i).mem = some m) (hstep : s.actPosting g i a effect post = some s')
    (ha : keepsOffice a = true) (heffect : ∀ o l, LeavesAlone l (effect o l))
    (hstand : ∀ fault, a = .stand fault → Released g s i (m.term + 1)) : LeaseInv g s' := by
  obtain ⟨o, ho, rfl⟩ := act_eq_some hstep
  obtain ⟨m', hm', hlead, hgrant⟩ := act_kept ho hm ha
  obtain ⟨hnovote, hbooted, hleases, hover, hprobes, hrequests⟩ := heffect o (s.lease i)
  refine h.acted hm ho hm' (.of_same h hm hlead hnovote hbooted hleases
    (fun hold => hover.trans hold) hprobes hrequests fun c u hcu => ?_)
  obtain ⟨rfl, fault, hfault⟩ := hgrant c u hcu
  exact hstand fault hfault

/-- A lease part set to one that differs in nothing the invariant speaks of. -/
theorem LeaseInv.setAlone [DecidableEq ι] {l' : LeaseState} {mail' : List Mail} (h : LeaseInv g s)
    (hm : (s.world.nodes i).mem = some m) (hl : LeavesAlone (s.lease i) l') :
    LeaseInv g { s.setLease i l' with mail := mail' } := by
  obtain ⟨hnovote, hbooted, hleases, hover, hprobes, hrequests⟩ := hl
  exact h.set hm (.of_same h hm rfl hnovote hbooted hleases (fun hold => hover.trans hold) hprobes
    hrequests (by simp))

/-- `demote` and `step_down_without_quorum` leave office and drop every promise. -/
theorem LeaseInv.left [DecidableEq ι] {s' : LeaseWorld ι} {a : Action ι}
    {effect : Outcome → LeaseState → LeaseState} (h : LeaseInv g s)
    (hm : (s.world.nodes i).mem = some m) (hstep : s.act g i a effect = some s')
    (ha : (∃ t, a = .demote t) ∨ a = .stepDown)
    (heffect : ∀ o l, (effect o l).novoteUntil = l.novoteUntil ∧
      (effect o l).bootedAt = l.bootedAt ∧
      (effect o l).leases = [] ∧ (∀ pr ∈ (effect o l).probes, pr ∈ l.probes) ∧
      (effect o l).requests = l.requests) : LeaseInv g s' := by
  obtain ⟨o, ho, rfl⟩ := act_eq_some hstep
  obtain ⟨m', hm', hlead, hgranted⟩ : ∃ m', o.node.mem = some m' ∧ m'.isLeader = false ∧
      o.granted = none := by
    rcases ha with ⟨t, rfl⟩ | rfl
    · have ho : demote (s.world.nodes i).disk m t = some o := by simpa [Election.act, hm] using ho
      unfold demote at ho
      split_ifs at ho
      obtain rfl := Option.some.inj ho
      exact ⟨_, rfl, rfl, rfl⟩
    · have ho : stepDown (s.world.nodes i).disk m = some o := by simpa [Election.act, hm] using ho
      unfold stepDown at ho
      split_ifs at ho
      obtain rfl := Option.some.inj ho
      exact ⟨_, rfl, rfl, rfl⟩
  obtain ⟨hnovote, hbooted, hleases, hprobes, hrequests⟩ := heffect o (s.lease i)
  have hl : Moved g s i m m' (effect o (s.lease i)) none :=
    .of_leave hlead hnovote hbooted hleases hprobes hrequests
  exact h.acted hm ho hm' (hgranted ▸ hl)

theorem LeaseInv.noted [DecidableEq ι] {pr : Probe} {k theirTerm ms : ℕ} (h : LeaseInv g s)
    (hm : (s.world.nodes i).mem = some m) (hpr : (s.lease i).probes[k]? = some pr)
    (hanswer : pr.answer = some (theirTerm, ms)) {l : LeaseState}
    (hl : l = { s.lease i with probes := (s.lease i).probes.eraseIdx k }) :
    LeaseInv g (s.setLease i
      (noteLeaseGrant g.config (g.heartbeatTimeout i) m l pr (fromMillis ms))) := by
  have hmem : pr ∈ (s.lease i).probes := List.mem_of_getElem? hpr
  have hlast : pr.last = pr.sent + fromMillis ms := by simp [Probe.last, hanswer]
  have herase : Moved g s i m m l none := by
    subst hl
    exact ⟨rfl, rfl, (h.office i m hm).2, fun _ hold => .inl hold, fun _ hheld => .inl hheld,
      fun p hp => .inl (List.mem_of_mem_eraseIdx hp), fun _ hr => .inl hr, by simp⟩
  have hmail : ∀ l', s.setLease i l' = { s.setLease i l' with mail := s.mail } := fun _ => rfl
  unfold noteLeaseGrant
  split_ifs with hskip hnotes
  · rw [hmail]
    exact h.set hm herase
  · obtain ⟨hlead, hterm, hover⟩ := hnotes
    rw [hmail]
    refine h.set hm { herase with office := by simp [hlead], leases := ?_ }
    rintro ⟨url, p⟩ hp
    have hleases : l.leases = (s.lease i).leases := by rw [hl]
    have hover' : (s.lease i).handingOver ≠ true := by simpa [hl] using hover
    rcases mem_notePromise hp with hold | ⟨rfl, hnew | ⟨q, hq, hqlast⟩⟩
    · exact .inl (hleases ▸ hold)
    · refine .inr fun hlive v hsame => ?_
      have hcap : p.last ≤ pr.last := by
        rw [hnew, hlast]
        exact Nat.add_le_add_left (Nat.min_le_left _ _) _
      obtain ⟨hbound, hsilent⟩ :=
        h.answered i m hm pr hmem (Nat.lt_of_lt_of_le hlive hcap) v hsame
      exact ⟨hbound.mono hcap, (hsilent hlead hterm).resolve_right hover'⟩
    · refine .inr fun hlive v hsame => ?_
      have hlive' : s.now < q.last := by
        rw [← hqlast]
        exact hlive
      have hq' : (pr.replica, q) ∈ (s.lease i).leases := hleases ▸ hq
      obtain ⟨hbound, hsilent⟩ := h.promised i m hm (pr.replica, q) hq' hlive' v hsame
      exact ⟨hbound.mono hqlast.le, hsilent.resolve_right hover'⟩
  · rw [hmail]
    exact h.set hm herase

theorem LeaseInv.receive [DecidableEq ι] {s' : LeaseWorld ι} {k : ℕ} (h : LeaseInv g s)
    (hm : (s.world.nodes i).mem = some m) (hstep : receiveAnswer g s i m k = some s') :
    LeaseInv g s' := by
  unfold receiveAnswer at hstep
  obtain ⟨pr, hpr, hstep⟩ := Option.bind_eq_some_iff.mp hstep
  obtain ⟨⟨theirTerm, ms⟩, hanswer, hstep⟩ := Option.bind_eq_some_iff.mp hstep
  dsimp only at hstep
  split_ifs at hstep with hlt
  · refine h.left hm hstep (.inl ⟨theirTerm, rfl⟩) fun o l => ?_
    exact ⟨rfl, rfl, rfl, fun p hp => List.mem_of_mem_eraseIdx hp, rfl⟩
  · obtain rfl := Option.some.inj hstep
    exact h.noted hm hpr hanswer rfl

/-- A vote granted on the test alone is granted by a voter bound to nothing. -/
theorem LeaseInv.released_of_decide [DecidableEq ι] {k : ℕ} {r : TestedRequest}
    {myLogs : List (CollectionName × LogTail)} {mySummary : LogTail} {fault : Option Fault}
    (h : LeaseInv g s) (hm : (s.world.nodes v).mem = some m)
    (hkeeps : StepKeeps g s v m (.decide k myLogs mySummary fault))
    (hr : (s.lease v).requests[k]? = some r)
    (hgranted : (decideVote m.term m.votedFor myLogs mySummary (some g.config) r.req
      r.mustWithhold).granted = true) : Released g s v r.req.term := by
  have hup : (s.world.nodes v).mem ≠ none := by simp [hm]
  have hmust : r.mustWithhold = false := by
    cases hmust : r.mustWithhold with
    | false => rfl
    | true =>
      rw [hmust] at hgranted
      simp only [decideVote, grants, Bool.not_true, Bool.and_false] at hgranted
      split_ifs at hgranted <;> simp_all
  cases hbypass : r.bypassed with
  | false =>
    exact h.released_of_lapsed hup
      (h.tested v m hm r (List.mem_of_getElem? hr) hmust hbypass) _
  | true =>
    cases hfree : (s.lease v).withholds (g.heartbeatTimeout v) s.now with
    | false => exact h.released_of_lapsed hup (h.lapsed_of_not_withholds hm hfree) _
    | true => exact hkeeps r hr hbypass hfree hgranted

theorem LeaseInv.decided [DecidableEq ι] {s' : LeaseWorld ι} {k : ℕ}
    {myLogs : List (CollectionName × LogTail)} {mySummary : LogTail} {fault : Option Fault}
    (h : LeaseInv g s) (hm : (s.world.nodes i).mem = some m)
    (hkeeps : StepKeeps g s i m (.decide k myLogs mySummary fault))
    (hstep : decideRequest g s i m k myLogs mySummary fault = some s') : LeaseInv g s' := by
  unfold decideRequest at hstep
  obtain ⟨r, hr, hstep⟩ := Option.bind_eq_some_iff.mp hstep
  obtain ⟨o, ho, rfl⟩ := act_eq_some hstep
  have hvote : voteHandler g.toNodeGroup i (s.world.nodes i).disk m r.req myLogs mySummary
      r.mustWithhold fault = some o := by simpa [Election.act, hm] using ho
  -- Out of office after the decision means stood down by it, or out of office before.
  have hoffice : ∀ {m'}, o.node.mem = some m' → m'.isLeader = false →
      (afterVote s.now m o (s.lease i)).leases = [] := by
    intro m' hm' hlead
    unfold afterVote
    dsimp only
    split_ifs with hstood
    · rfl
    · refine (h.office i m hm).2 ?_
      simpa [hm', hlead] using hstood
  have hleases : ∀ held ∈ (afterVote s.now m o (s.lease i)).leases, held ∈ (s.lease i).leases := by
    intro held hheld
    unfold afterVote at hheld
    dsimp only at hheld
    split_ifs at hheld
    · simp at hheld
    · exact hheld
  have hmoved : ∀ {m'}, o.node.mem = some m' →
      (∀ c u, o.granted = some (c, u) → Released g s i u) →
      Moved g s i m m' { afterVote s.now m o (s.lease i) with
        requests := (s.lease i).requests.eraseIdx k } o.granted := fun hm' hcast =>
    ⟨rfl, rfl, hoffice hm', fun _ hold => .inl hold, fun held hheld => .inl (hleases held hheld),
      fun _ hp => .inl hp, fun _ hr => .inl (List.mem_of_mem_eraseIdx hr), hcast⟩
  rcases voteHandler_mem hvote with ⟨hnone, hmem⟩ | ⟨d, hd, hgranted, hmem⟩
  · exact h.acted hm ho hmem (hmoved hmem (by simp [hnone]))
  · refine h.acted hm ho hmem (hmoved hmem fun c u hcu => ?_)
    by_cases hg : d.granted = true
    · have hd' := decideVote_granted (hd ▸ hg)
      have hu : u = r.req.term := by
        have hterm : d.term = r.req.term := by rw [← hd, hd'.1]
        rw [hgranted, if_pos hg] at hcu
        rw [← hterm]
        exact (Prod.mk.inj (Option.some.inj hcu)).2.symm
      subst hu
      exact h.released_of_decide hm hkeeps hr (hd ▸ hg)
    · rw [hgranted, if_neg hg] at hcu
      simp at hcu

theorem LeaseInv.won [DecidableEq ι] {s' : LeaseWorld ι} (h : LeaseInv g s)
    (hm : (s.world.nodes i).mem = some m)
    (hstep : runningStep g s i m .becomeLeader = some s') : LeaseInv g s' := by
  obtain ⟨o, ho, rfl⟩ := act_eq_some hstep
  have hwin : becomeLeader g.toNodeGroup i (s.world.nodes i).disk m = some o := by
    simpa [Election.act, hm] using ho
  unfold becomeLeader at hwin
  split at hwin
  next term votes hcamp =>
    have hidle : m.isLeader = false := (h.office i m hm).1 (by simp [hcamp])
    have hnone : (s.lease i).leases = [] := (h.office i m hm).2 hidle
    split_ifs at hwin with hquorum hself
    · obtain rfl := Option.some.inj hwin
      exact h.acted hm ho rfl ⟨rfl, rfl, fun _ => rfl, fun _ hold => .inl hold, by simp,
        fun _ hp => .inl hp, fun _ hr => .inl hr, by simp⟩
    · obtain rfl := Option.some.inj hwin
      have hsame : Moved g s i m { m with campaign := none } (s.lease i) none := by
        refine .of_same h hm ?_ rfl rfl rfl id rfl rfl (by simp)
        rfl
      exact h.acted hm ho rfl hsame
  next => simp at hwin

/-- The steps of a transfer: the mark is set, and cleared only when nobody voted past it. -/
theorem LeaseInv.transferred [DecidableEq ι] {l' : LeaseState} {mail' : List Mail}
    (h : LeaseInv g s)
    (hm : (s.world.nodes i).mem = some m) (hnovote : l'.novoteUntil = (s.lease i).novoteUntil)
    (hbooted : l'.bootedAt = (s.lease i).bootedAt) (hleases : l'.leases = (s.lease i).leases)
    (hprobes : l'.probes = (s.lease i).probes) (hrequests : l'.requests = (s.lease i).requests)
    (hover : m.isLeader = true → (s.lease i).handingOver = true →
      l'.handingOver = true ∨ ∀ gr ∈ s.world.granted, gr.term ≤ m.term) :
    LeaseInv g { s.setLease i l' with mail := mail' } :=
  h.set hm ⟨hnovote, hbooted, fun hnot => hleases ▸ (h.office i m hm).2 hnot, hover,
    fun _ hheld => .inl (hleases ▸ hheld), fun _ hp => .inl (hprobes ▸ hp),
    fun _ hr => .inl (hrequests ▸ hr), by simp⟩

theorem LeaseInv.setProbes [DecidableEq ι] {probes' : List Probe} (h : LeaseInv g s)
    (hm : (s.world.nodes i).mem = some m) (hlead : m.isLeader = true)
    (hprobes : ∀ pr ∈ probes', pr ∈ (s.lease i).probes ∨
      (pr.answer = none ∧ pr.sent = s.now ∧ pr.term = m.term)) :
    LeaseInv g (s.setLease i { s.lease i with probes := probes' }) := by
  refine h.set hm ⟨rfl, rfl, (h.office i m hm).2, fun _ hold => .inl hold,
    fun _ hheld => .inl hheld, fun pr hpr => ?_, fun _ hr => .inl hr, by simp⟩
  rcases hprobes pr hpr with hold | ⟨hanswer, hsent, hterm⟩
  · exact .inl hold
  · exact .inr ⟨hanswer, hsent, hterm, rfl, hlead⟩

/-- A request that is tested with leave to vote is tested by a voter bound to nothing. -/
theorem LeaseInv.test [DecidableEq ι] {s' : LeaseWorld ι} {k : ℕ} (h : LeaseInv g s)
    (hm : (s.world.nodes i).mem = some m) (hstep : testRequest g s i m k = some s') :
    LeaseInv g s' := by
  unfold testRequest at hstep
  split at hstep
  next req transferFrom hmail =>
    dsimp only at hstep
    split_ifs at hstep
    obtain rfl := Option.some.inj hstep
    refine h.set hm ⟨rfl, rfl, (h.office i m hm).2, fun _ hold => .inl hold,
      fun _ hheld => .inl hheld, fun _ hp => .inl hp, fun r hr => ?_, by simp⟩
    rcases List.mem_append.mp hr with hold | hnew
    · exact .inl hold
    · obtain rfl := List.mem_singleton.mp hnew
      refine .inr fun hmust hbypass => h.lapsed_of_not_withholds hm ?_
      cases hw : (s.lease i).withholds (g.heartbeatTimeout i) s.now with
      | false => rfl
      | true =>
        rw [hw] at hmust hbypass
        simp_all
  next => simp at hstep

theorem LeaseInv.running [DecidableEq ι] {s' : LeaseWorld ι} {op : Op ι} (h : LeaseInv g s)
    (hm : (s.world.nodes i).mem = some m) (hkeeps : StepKeeps g s i m op)
    (hstep : runningStep g s i m op = some s') : LeaseInv g s' := by
  have halone : ∀ l : LeaseState, LeavesAlone l l := fun _ => ⟨rfl, rfl, rfl, rfl, rfl, rfl⟩
  have hset : ∀ l', LeavesAlone (s.lease i) l' → LeaseInv g (s.setLease i l') :=
    fun l' hl => h.setAlone hm hl
  cases op <;> simp only [runningStep] at hstep
  case boot fault => simp at hstep
  case crash =>
    obtain ⟨o, ho, rfl⟩ := act_eq_some hstep
    have hstepped : Election.step g.toNodeGroup s.world (i, .crash) = some (s.world.record i o) :=
      step_eq_some.mpr ⟨o, ho, rfl⟩
    obtain rfl : Outcome.quiet ⟨(s.world.nodes i).disk, none⟩ = o := by
      simpa [Election.act, hm] using ho
    exact h.crash (inv_step h.base hstepped) rfl rfl
  case follow leader stamp =>
    obtain rfl := Option.some.inj hstep
    exact hset _ ⟨rfl, rfl, rfl, rfl, rfl, rfl⟩
  case pollAnswer theirTerm leading =>
    have hstamp : ∀ (trusted : Bool) (l : LeaseState),
        LeavesAlone l (if trusted then { l with lastHeartbeat := some s.now } else l) := by
      intro trusted l
      split
      · exact ⟨rfl, rfl, rfl, rfl, rfl, rfl⟩
      · exact halone l
    unfold pollAnswer at hstep
    split_ifs at hstep with hlt
    · exact h.kept hm hstep rfl (fun _ l => hstamp leading l) (by simp)
    · obtain rfl := Option.some.inj hstep
      exact hset _ (hstamp _ _)
  case replicate term => exact h.kept hm hstep rfl (fun _ l => halone l) (by simp)
  case task k fault =>
    exact h.kept hm hstep rfl (fun _ _ => ⟨rfl, rfl, rfl, rfl, rfl, rfl⟩) (by simp)
  case resynced =>
    obtain rfl := Option.some.inj hstep
    exact hset _ ⟨rfl, rfl, rfl, rfl, rfl, rfl⟩
  case demote newTerm =>
    exact h.left hm hstep (.inl ⟨newTerm, rfl⟩) fun _ _ => ⟨rfl, rfl, rfl, fun _ hp => hp, rfl⟩
  case stepDown =>
    exact h.left hm hstep (.inr rfl) fun _ _ => ⟨rfl, rfl, rfl, fun _ hp => hp, rfl⟩
  case probe replica sentWall =>
    split_ifs at hstep with hlead
    obtain rfl := Option.some.inj hstep
    refine h.setProbes hm hlead fun pr hpr => ?_
    rcases List.mem_append.mp hpr with hold | hnew
    · exact .inl hold
    · obtain rfl := List.mem_singleton.mp hnew
      exact .inr ⟨rfl, rfl, rfl⟩
  case heartbeat askerTerm leaseMs =>
    obtain rfl := Option.some.inj hstep
    exact h.heartbeat hm hkeeps
  case answer asker k => exact h.answer hm hkeeps hstep
  case receive k => exact h.receive hm hstep
  case openTransfer target =>
    split_ifs at hstep
    obtain rfl := Option.some.inj hstep
    exact hset _ ⟨rfl, rfl, rfl, rfl, rfl, rfl⟩
  case tellTarget =>
    unfold tellTarget at hstep
    split at hstep
    · obtain rfl := Option.some.inj hstep
      exact h.transferred hm rfl rfl rfl rfl rfl fun _ _ => .inl rfl
    · simp at hstep
  case endTransfer =>
    obtain ⟨transfer, -, rfl⟩ := Option.map_eq_some_iff.mp hstep
    exact h.transferred hm rfl rfl rfl rfl rfl fun hlead hold => .inr (hkeeps hlead hold)
  case timeoutNow k =>
    unfold timeoutNow at hstep
    split at hstep
    · dsimp only at hstep
      split_ifs at hstep
      obtain rfl := Option.some.inj hstep
      exact hset _ ⟨rfl, rfl, rfl, rfl, rfl, rfl⟩
    · simp at hstep
  case runForced k =>
    obtain ⟨leader, -, hstep⟩ := Option.bind_eq_some_iff.mp hstep
    exact h.kept hm hstep rfl (fun _ _ => ⟨rfl, rfl, rfl, rfl, rfl, rfl⟩) (by simp)
  case poll taskStarted =>
    split_ifs at hstep
    exact h.kept hm hstep rfl (fun _ _ => ⟨rfl, rfl, rfl, rfl, rfl, rfl⟩) (by simp)
  case stand logs tail fault =>
    unfold standForElection at hstep
    dsimp only at hstep
    split_ifs at hstep
    refine h.kept hm hstep rfl (fun _ l => halone l) fun _ _ => ?_
    cases hfree : (s.lease i).withholds (g.heartbeatTimeout i) s.now with
    | false => exact h.released_of_lapsed (by simp [hm]) (h.lapsed_of_not_withholds hm hfree) _
    | true => exact hkeeps hfree
  case giveUp => exact h.kept hm hstep rfl (fun _ l => halone l) (by simp)
  case test k => exact h.test hm hstep
  case decide k myLogs mySummary fault => exact h.decided hm hkeeps hstep
  case voteReply voter peer => exact h.kept hm hstep rfl (fun _ l => halone l) (by simp)
  case becomeLeader => exact h.won hm hstep

theorem step_inv [DecidableEq ι] {s' : LeaseWorld ι} {label : Label ι} (h : LeaseInv g s)
    (hkeeps : PromisesKept g s label) (hstep : step g s label = some s') : LeaseInv g s' := by
  cases label with
  | tick d =>
    obtain rfl := Option.some.inj hstep
    exact h.tick d
  | node i op =>
    unfold step at hstep
    split at hstep
    next hlabel => simp at hlabel
    next hlabel =>
      cases hlabel
      split at hstep
      next fault hdown =>
        obtain ⟨o, ho, rfl⟩ := act_eq_some hstep
        have hstepped : Election.step g.toNodeGroup s.world (i, .boot fault) =
            some (s.world.record i o) := step_eq_some.mpr ⟨o, ho, rfl⟩
        have hboot : boot g.toNodeGroup i (s.world.nodes i) fault = some o := ho
        unfold boot at hboot
        split at hboot
        · obtain rfl := Option.some.inj hboot
          exact h.boot (inv_step h.base hstepped) rfl rfl rfl
        · simp at hboot
      next => simp at hstep
      next m hm =>
        exact h.running hm (hkeeps m hm) hstep

theorem initial_inv {s : LeaseWorld ι} (h : Initial s) : LeaseInv g s := by
  have hdown : ∀ v, (s.world.nodes v).mem = none := h.1.1
  refine ⟨inv_initial h.1, ?_, ?_, ?_, ?_, ?_, ?_⟩ <;>
    · intro v m hm
      simp [hdown v] at hm

end DewDB.Lease
