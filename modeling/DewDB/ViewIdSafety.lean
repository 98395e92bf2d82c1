import DewDB.AdoptionOrder
import DewDB.ViewIds

/-!
# An id names one view

A handler gives its plan the version after the one it has copied, so the id is new just as long as
the copy is no older than what the node has planned before. Where every handler begins with such a
copy, the id of a decided view belongs to one topology; and where a node does not crash before it
has saved what it was offered, nodes that were offered the same decided views hold the same
topology.
-/
namespace DewDB.ViewIds

open Endpoint Vote ClusterMeta AdminPlans TransitionSystem
open ClusterView (NodeConfig)
open DurableView hiding Label step

variable {ι : Type} {g : Cluster ι} {w w' : World ι} {l : Label ι} {i j : ι}
  {p p' : Peer} {x y : ClusterMetadata} {circulated sent : List ClusterMetadata}

section Steps

def Plans (g : Cluster ι) (i : ι) (p : Peer) (r : Request) (x : ClusterMetadata) : Prop :=
  ∃ current ∈ p.node.memory, r.plan current (g.nodeId i) (g.config i).ownUrl = .ok x

theorem Plans.unique {r : Request} (hx : Plans g i p r x) (hy : Plans g i p r y) : x = y := by
  obtain ⟨current, hc, hx⟩ := hx
  obtain ⟨current', hc', hy⟩ := hy
  obtain rfl : current = current' := Option.mem_unique hc hc'
  exact Except.ok.inj (hx.symm.trans hy)

/-- What a step can do to the node at `i`, and what it sends. -/
inductive Effect (g : Cluster ι) (i : ι) (circulated : List ClusterMetadata) (p : Peer) :
    Label ι → Peer → List ClusterMetadata → Prop where
  | plan (r : Request) (next : ClusterMetadata) (hplan : Plans g i p r next) :
      Effect g i circulated p (.admin i r)
        { p with handlers := p.handlers ++ [.begin r.announced next] } []
  | announce (k : ℕ) (next : ClusterMetadata) (hk : p.handlers[k]? = some (.announcing next)) :
      Effect g i circulated p (.announce i k)
        { p with handlers := p.handlers.eraseIdx k ++ [.publishing next] } [next]
  | offer (l : Label ι) (v : ClusterMetadata) (node : DurableView.State) (handlers : List Handler)
      (hv : v ∈ circulated ∨ v ∈ p.handlers.map Handler.next) (hh : handlers ⊆ p.handlers)
      (hnode : g.stepNode i p (.offer v) = some node) :
      Effect g i circulated p l
        ⟨node, handlers, if v.sanitized.validate = .ok () then v :: p.offered else p.offered⟩ []
  | share (v : ClusterMetadata) (hm : p.node.memory = some v) :
      Effect g i circulated p (.share i) p [v]
  | node (label : DurableView.Label) (node : DurableView.State) (handlers : List Handler)
      (hlabel : ∀ v, label ≠ .offer v) (hh : handlers ⊆ p.handlers)
        (hnode : g.stepNode i p label = some node) :
      Effect g i circulated p (.node i label) ⟨node, handlers, p.offered⟩ []

theorem step_cases [DecidableEq ι] (h : step g w l = some w') : ∃ i p' sent,
    w' = ⟨Function.update w.peers i p', sent ++ w.circulated⟩ ∧
      Effect g i w.circulated (w.peers i) l p' sent := by
  cases l with
  | admin i r =>
    obtain ⟨current, hc, h⟩ := Option.bind_eq_some_iff.mp h
    split at h
    · cases h
    · next next hplan =>
      cases h
      exact ⟨i, _, [], rfl, .plan r next ⟨current, hc, hplan⟩⟩
  | announce i k =>
    simp only [step, stepAnnounce] at h
    split at h
    · next next hk =>
      cases h
      exact ⟨i, _, [next], rfl, .announce k next hk⟩
    · cases h
  | publish i k =>
    simp only [step, stepPublish] at h
    split at h
    · next next hk =>
      obtain ⟨p', hp', rfl⟩ := Option.map_eq_some_iff.mp h
      obtain ⟨node, hnode, rfl⟩ := Option.map_eq_some_iff.mp hp'
      have hmem : next ∈ (w.peers i).handlers.map Handler.next :=
        List.mem_map.mpr ⟨_, List.mem_of_getElem? hk, rfl⟩
      exact ⟨i, _, [], rfl, .offer _ next node _ (.inr hmem) (List.eraseIdx_subset) hnode⟩
    · cases h
  | receive i m =>
    obtain ⟨v, hv, h⟩ := Option.bind_eq_some_iff.mp h
    obtain ⟨p', hp', rfl⟩ := Option.map_eq_some_iff.mp h
    obtain ⟨node, hnode, rfl⟩ := Option.map_eq_some_iff.mp hp'
    exact ⟨i, _, [], rfl, .offer _ v node _ (.inl (List.mem_of_getElem? hv))
      (List.Subset.refl _) hnode⟩
  | share i =>
    obtain ⟨v, hm, rfl⟩ := Option.map_eq_some_iff.mp h
    exact ⟨i, w.peers i, [v], by simp, .share v hm⟩
  | node i label =>
    have hother (hlabel : ∀ v, label ≠ .offer v)
        (h : (g.stepNode i (w.peers i) label).map (fun node =>
          w.setPeer i { w.peers i with node }) = some w') :
        ∃ k p' sent, w' = ⟨Function.update w.peers k p', sent ++ w.circulated⟩ ∧
          Effect g k w.circulated (w.peers k) (.node i label) p' sent := by
      obtain ⟨node, hnode, rfl⟩ := Option.map_eq_some_iff.mp h
      exact ⟨i, _, [], rfl, .node label node _ hlabel (List.Subset.refl _) hnode⟩
    cases label with
    | offer v => cases h
    | crash =>
      simp only [step, stepNode] at h
      obtain ⟨node, hnode, rfl⟩ := Option.map_eq_some_iff.mp h
      exact ⟨i, _, [], rfl, .node .crash node [] (by simp) (List.nil_subset _) hnode⟩
    | _ => exact hother (by simp) h

theorem mem_views : x ∈ p.views ↔ x ∈ nodeViews p.node ∨ x ∈ p.handlers.map Handler.next :=
  List.mem_append

theorem begin_next (announced : Bool) (v : ClusterMetadata) :
    (Handler.begin announced v).next = v := by
  cases announced <;> rfl

theorem Effect.views (h : Effect g i circulated p l p' sent) (hx : x ∈ p'.views) :
    Has p.views x ∨ Has circulated x ∨ x.topology = (g.seed i).topology ∨
      ∃ r, l = .admin i r ∧ Plans g i p r x := by
  have hold : x ∈ nodeViews p.node ∨ x ∈ p.handlers.map Handler.next → Has p.views x := fun h =>
    has_of_mem (mem_views.mpr h)
  have hnodeHas : Has (nodeViews p.node) x → Has p.views x := fun h =>
    h.mono fun _ hy => mem_views.mpr (.inl hy)
  cases h with
  | plan r next hplan =>
    rcases mem_views.mp hx with hx | hx
    · exact .inl (hold (.inl hx))
    · rw [List.map_append] at hx
      rcases List.mem_append.mp hx with hx | hx
      · exact .inl (hold (.inr hx))
      · obtain rfl : x = next := by simpa [begin_next] using hx
        exact .inr (.inr (.inr ⟨r, rfl, hplan⟩))
  | announce k next hk =>
    left
    rcases mem_views.mp hx with hx | hx
    · exact hold (.inl hx)
    · rw [List.map_append] at hx
      rcases List.mem_append.mp hx with hx | hx
      · exact hold (.inr (List.map_subset _ List.eraseIdx_subset hx))
      · obtain rfl : x = next := by simpa [Handler.next] using hx
        exact hold (.inr (List.mem_map.mpr ⟨_, List.mem_of_getElem? hk, rfl⟩))
  | offer _ v node handlers hv hh hnode =>
    rcases mem_views.mp hx with hx | hx
    · rcases nodeStep_has hnode hx with hx | hx | ⟨u, hu, -, htop⟩
      · exact .inl (hnodeHas hx)
      · exact .inr (.inr (.inl hx))
      · cases hu
        rcases hv with hv | hv
        · exact .inr (.inl ⟨v, hv, htop⟩)
        · exact .inl ⟨v, mem_views.mpr (.inr hv), htop⟩
    · exact .inl (hold (.inr (List.map_subset _ hh hx)))
  | share v hm => exact .inl (has_of_mem hx)
  | node label node handlers hlabel hh hnode =>
    rcases mem_views.mp hx with hx | hx
    · rcases nodeStep_has hnode hx with hx | hx | ⟨u, hu, -⟩
      · exact .inl (hnodeHas hx)
      · exact .inr (.inr (.inl hx))
      · exact absurd hu (hlabel u)
    · exact .inl (hold (.inr (List.map_subset _ hh hx)))

theorem Effect.sent_mem (h : Effect g i circulated p l p' sent) (hx : x ∈ sent) : x ∈ p.views := by
  cases h with
  | announce k next hk =>
    obtain rfl := List.mem_singleton.mp hx
    exact mem_views.mpr (.inr (List.mem_map.mpr ⟨_, List.mem_of_getElem? hk, rfl⟩))
  | share v hm =>
    obtain rfl := List.mem_singleton.mp hx
    exact mem_views.mpr (.inl (memory_subset hm))
  | _ => cases hx

end Steps

section Ids

def Around (w : World ι) (x : ClusterMetadata) : Prop :=
  x ∈ w.circulated ∨ ∃ i, x ∈ (w.peers i).views

/-- The views under the node's own name that it has handed out or holds itself. -/
def ownViews (g : Cluster ι) (w : World ι) (i : ι) : List ClusterMetadata :=
  (w.circulated ++ (w.peers i).views).filter fun x => !x.seeded && x.updatedBy == g.nodeId i

/-- A handler begins with a copy of its node's view that is no older than any of the node's own
views. -/
def Fresh (g : Cluster ι) (w : World ι) : Label ι → Prop
  | .admin i _ => ∀ current ∈ (w.peers i).node.memory,
      current.version + 1 < 2 ^ 64 ∧ ∀ x ∈ ownViews g w i, x.version ≤ current.version
  | _ => True

instance : Decidable (Fresh g w l) :=
  match l with
  | .admin i _ => inferInstanceAs (Decidable (∀ current ∈ (w.peers i).node.memory,
      current.version + 1 < 2 ^ 64 ∧ ∀ x ∈ ownViews g w i, x.version ≤ current.version))
  | .announce .. | .publish .. | .receive .. | .share _ | .node .. => .isTrue trivial

structure IdsOk (g : Cluster ι) (w : World ι) : Prop where
  one : ∀ x y, Around w x → Around w y → x.seeded = false → SameId x y → x.topology = y.topology
  foreign : ∀ i x, x ∈ (w.peers i).views → x.seeded = false → x.updatedBy ≠ g.nodeId i →
    Has w.circulated x
  low : ∀ x, Around w x → SeedLow x

theorem idsOk_initial : IdsOk g (initial (ι := ι)) where
  one x y hx := by simp [Around, initial, Peer.views, nodeViews, diskViews] at hx
  foreign i x hx := by simp [initial, Peer.views, nodeViews, diskViews] at hx
  low x hx := by simp [Around, initial, Peer.views, nodeViews, diskViews] at hx

theorem around_step [DecidableEq ι] (h : step g w l = some w') (hx : Around w' x) :
    (∃ y, Around w y ∧ x.topology = y.topology) ∨ (∃ i, x.topology = (g.seed i).topology) ∨
      ∃ i r, l = .admin i r ∧ Plans g i (w.peers i) r x := by
  obtain ⟨i, p', sent, rfl, heff⟩ := step_cases h
  rcases hx with hx | ⟨j, hx⟩
  · rcases List.mem_append.mp hx with hx | hx
    · exact .inl ⟨x, .inr ⟨i, heff.sent_mem hx⟩, rfl⟩
    · exact .inl ⟨x, .inl hx, rfl⟩
  · by_cases hj : j = i
    · subst hj
      simp only [Function.update_self] at hx
      rcases heff.views hx with ⟨y, hy, htop⟩ | ⟨y, hy, htop⟩ | htop | ⟨r, hl, hplan⟩
      · exact .inl ⟨y, .inr ⟨j, hy⟩, htop⟩
      · exact .inl ⟨y, .inl hy, htop⟩
      · exact .inr (.inl ⟨j, htop⟩)
      · exact .inr (.inr ⟨j, r, hl, hplan⟩)
    · simp only [Function.update_of_ne hj] at hx
      exact .inl ⟨x, .inr ⟨j, hx⟩, rfl⟩

theorem mem_ownViews : x ∈ ownViews g w i ↔
    (x ∈ w.circulated ∨ x ∈ (w.peers i).views) ∧ x.seeded = false ∧ x.updatedBy = g.nodeId i := by
  simp [ownViews, or_and_right]

theorem IdsOk.fresh_plan (h : IdsOk g w) {r : Request} (hfresh : Fresh g w (.admin i r))
    (hplan : Plans g i (w.peers i) r x) (hy : Around w y) : ¬ SameId x y := by
  intro hid
  obtain ⟨current, hc, hplan⟩ := hplan
  have hnext := plan_next hplan
  obtain ⟨hroom, hle⟩ := hfresh current hc
  have hver : x.version = current.version + 1 := by
    rw [hnext.version, nextVersion, Nat.mod_eq_of_lt hroom]
  have hseed : y.seeded = false := hid.seeded ▸ hnext.seeded
  have hby : y.updatedBy = g.nodeId i := hid.updatedBy ▸ hnext.updatedBy
  have hown : ∃ z ∈ ownViews g w i, z.version = x.version := by
    rcases hy with hy | ⟨j, hy⟩
    · exact ⟨y, mem_ownViews.mpr ⟨.inl hy, hseed, hby⟩, hid.version.symm⟩
    · by_cases hj : j = i
      · subst hj
        exact ⟨y, mem_ownViews.mpr ⟨.inr hy, hseed, hby⟩, hid.version.symm⟩
      · -- What another node has under this name was in circulation.
        have hne : y.updatedBy ≠ g.nodeId j :=
          fun heq => hj (g.nodeId_injective (heq.symm.trans hby))
        obtain ⟨z, hz, htop⟩ := h.foreign j y hy hseed hne
        have hyz := SameId.of_topology htop
        exact ⟨z, mem_ownViews.mpr ⟨.inl hz, hyz.seeded ▸ hseed, hyz.updatedBy ▸ hby⟩,
          (hid.version.trans hyz.version).symm⟩
  obtain ⟨z, hz, hzv⟩ := hown
  have := hle z hz
  omega

theorem decided_around_step [DecidableEq ι] (h : step g w l = some w') (hx : Around w' x)
    (hdecided : x.seeded = false) :
    (∃ y, Around w y ∧ x.topology = y.topology) ∨ ∃ i r, l = .admin i r ∧
      Plans g i (w.peers i) r x := by
  rcases around_step h hx with hx | ⟨i, htop⟩ | hx
  · exact .inl hx
  · rw [(SameId.of_topology htop).seeded] at hdecided
    cases hdecided
  · exact .inr hx

theorem IdsOk.step_one [DecidableEq ι] (h : IdsOk g w) (hfresh : Fresh g w l)
    (hstep : step g w l = some w')
    (hx : Around w' x) (hy : Around w' y) (hdecided : x.seeded = false) (hid : SameId x y) :
    x.topology = y.topology := by
  rcases decided_around_step hstep hx hdecided with ⟨x', hx', hxx⟩ | ⟨i, r, rfl, hplan⟩
  · rcases decided_around_step hstep hy (hid.seeded ▸ hdecided)
      with ⟨y', hy', hyy⟩ | ⟨i, r, rfl, hplan⟩
    · have hid' : SameId x' y' := ((SameId.of_topology hxx).symm.trans hid).trans (.of_topology hyy)
      rw [hxx, hyy]
      exact h.one x' y' hx' hy' ((SameId.of_topology hxx).seeded ▸ hdecided) hid'
    · exact absurd (hid.symm.trans (.of_topology hxx)) (h.fresh_plan hfresh hplan hx')
  · rcases decided_around_step hstep hy (hid.seeded ▸ hdecided)
      with ⟨y', hy', hyy⟩ | ⟨j, r', hl, hplan'⟩
    · exact absurd (hid.trans (.of_topology hyy)) (h.fresh_plan hfresh hplan hy')
    · cases hl
      rw [hplan.unique hplan']

theorem IdsOk.step_foreign [DecidableEq ι] (h : IdsOk g w) (hstep : step g w l = some w')
    (hx : x ∈ (w'.peers j).views) (hdecided : x.seeded = false) (hby : x.updatedBy ≠ g.nodeId j) :
    Has w'.circulated x := by
  obtain ⟨i, p', sent, rfl, heff⟩ := step_cases hstep
  have hkept : w.circulated ⊆ sent ++ w.circulated := List.subset_append_right _ _
  by_cases hj : j = i
  · subst hj
    simp only [Function.update_self] at hx
    rcases heff.views hx with ⟨y, hy, htop⟩ | hx | htop | ⟨r, -, current, -, hplan⟩
    · have hid := SameId.of_topology htop
      have hold := h.foreign j y hy (hid.seeded ▸ hdecided) (hid.updatedBy ▸ hby)
      exact (hold.mono hkept).of_topology htop
    · exact hx.mono hkept
    · rw [(SameId.of_topology htop).seeded] at hdecided
      cases hdecided
    · exact absurd (plan_next hplan).updatedBy hby
  · simp only [Function.update_of_ne hj] at hx
    exact (h.foreign j x hx hdecided hby).mono hkept

theorem seedLow_of_topology (htop : x.topology = y.topology) (h : SeedLow y) : SeedLow x := by
  have hid := SameId.of_topology htop
  intro hx
  rw [hid.version]
  exact h (hid.seeded ▸ hx)

theorem IdsOk.step_low [DecidableEq ι] (h : IdsOk g w) (hstep : step g w l = some w')
    (hx : Around w' x) : SeedLow x := by
  rcases around_step hstep hx with ⟨y, hy, htop⟩ | ⟨i, htop⟩ | ⟨i, r, -, current, -, hplan⟩
  · exact seedLow_of_topology htop (h.low y hy)
  · exact seedLow_of_topology htop (seedLow_seedFromConfig (g.config i))
  · intro hx
    rw [(plan_next hplan).seeded] at hx
    cases hx

theorem IdsOk.step [DecidableEq ι] (h : IdsOk g w) (hfresh : Fresh g w l)
    (hstep : step g w l = some w') : IdsOk g w' where
  one _ _ hx hy := h.step_one hfresh hstep hx hy
  foreign _ _ hx := h.step_foreign hstep hx
  low _ hx := h.step_low hstep hx

end Ids

section Offers

variable {s s' : DurableView.State} {current v : ClusterMetadata} {offered : List ClusterMetadata}
  {label : DurableView.Label} {nodeId : ReplicationMeta.NodeId} {seed : ClusterMetadata}

def incoming? : Phase → Option ClusterMetadata
  | .saving v | .adopting v => some v
  | _ => none

def Settled (s : DurableView.State) : Prop := ∀ p ∈ s.tasks, incoming? p = none

/-- The node's files have a view that is as new as any that it was offered. -/
def Filed (p : Peer) : Prop :=
  ∀ x ∈ p.offered, x.seeded = false → ∃ v ∈ (load p.node.disk).toOption.join, IdLe x v

/-- The view is in memory, or an older one is and a call is under way. -/
def Taken (s : DurableView.State) (current x : ClusterMetadata) : Prop :=
  IdLe x current ∨ ∃ p ∈ s.tasks, ∃ v ∈ incoming? p, v.topology = x.topology

/-- What a node holds was offered to it, and it has taken all that it was offered. -/
structure OfferedOk (s : DurableView.State) (offered : List ClusterMetadata) : Prop where
  origin : ∀ x ∈ nodeViews s, x.seeded = false → Has offered x
  valid : ∀ p ∈ s.tasks, ∀ v ∈ incoming? p, v.sanitized.validate = .ok ()
  up : ∀ current ∈ s.memory, ∀ x ∈ offered, x.seeded = false → Taken s current x
  down : s.memory = none → s.tasks = [] ∧
    ∀ x ∈ offered, x.seeded = false → ∃ v ∈ (load s.disk).toOption.join, IdLe x v

/-- A view that does not win is no newer, where the one in memory is no seed above the first
version. -/
theorem idLe_of_loses (hv : v.sanitized.validate = .ok ()) (hdecided : v.seeded = false)
    (hlow : SeedLow current) (hloses : v.supersedes current = false) : IdLe v current := by
  cases hc : current.seeded with
  | true =>
    rw [supersedes_congr (sanitized_topology v).symm rfl, supersedes_seed hv hdecided hc hlow]
      at hloses
    cases hloses
  | false => exact idLe_of_not_supersedes hdecided hc hloses

theorem idLe_adopt (hv : v.sanitized.validate = .ok ()) : IdLe current
    (ClusterMeta.adopt current v).1 := by
  have htop := @adopt_topology current _ hv
  split at htop
  · next hwins => exact IdLe.trans (.inr hwins) (.inl (.of_topology htop))
  · exact .inl (.of_topology htop)

theorem idLe_adopt_right (hv : v.sanitized.validate = .ok ()) (hdecided : v.seeded = false)
    (hlow : SeedLow current) : IdLe v (ClusterMeta.adopt current v).1 := by
  have htop := @adopt_topology current _ hv
  split at htop
  · exact .inl (.of_topology htop)
  · next hloses =>
    exact (idLe_of_loses hv hdecided hlow (Bool.eq_false_iff.mpr hloses)).trans
      (.inl (.of_topology htop))

theorem Taken.mono {t : DurableView.State} {next : ClusterMetadata} (h : Taken s current x)
    (hle : IdLe current next)
    (htasks : ∀ p ∈ s.tasks, ∀ v ∈ incoming? p, v.topology = x.topology → Taken t next x) :
    Taken t next x := by
  rcases h with h | ⟨p, hp, v, hv, htop⟩
  · exact .inl (h.trans hle)
  · exact htasks p hp v hv htop

theorem Taken.keep {t : DurableView.State} {next : ClusterMetadata} (h : Taken s current x)
    (hle : IdLe current next)
    (htasks : ∀ p ∈ s.tasks, incoming? p ≠ none → p ∈ t.tasks) : Taken t next x :=
  h.mono hle fun p hp v hv htop =>
    .inr ⟨p, htasks p hp (by simp [Option.mem_def.mp hv]), v, hv, htop⟩

theorem taken_offer (hv : v.sanitized.validate = .ok ()) (hdecided : v.seeded = false)
    (hlow : SeedLow current) :
    IdLe v current ∨ ∃ p ∈ offerPhase current v, ∃ u ∈ incoming? p, u.topology = v.topology := by
  by_cases hwins : v.supersedes current = true
  · refine .inr ⟨.saving v.sanitized, ?_, v.sanitized, rfl, sanitized_topology v⟩
    unfold offerPhase
    rw [if_neg (not_not.mpr hv), if_pos hwins]
    exact List.mem_singleton.mpr rfl
  · exact .inl (idLe_of_loses hv hdecided hlow (Bool.eq_false_iff.mpr hwins))

/-- The calls after a step other than an offer take views that calls had before. -/
theorem incoming_step (h : DurableView.step nodeId seed s label = some s')
    (hlabel : ∀ u, label ≠ .offer u)
    {p : Phase} (hp : p ∈ s'.tasks) (hv : v ∈ incoming? p) : ∃ q ∈ s.tasks, v ∈ incoming? q := by
  cases label with
  | offer u => exact absurd rfl (hlabel u)
  | save i o =>
    simp only [DurableView.step] at h
    split at h
    · next u hi =>
      cases h
      rcases mem_after hp with hp | hp
      · exact ⟨p, hp, hv⟩
      · rw [List.mem_singleton.mp hp] at hv
        exact ⟨_, List.mem_of_getElem? hi, hv⟩
    · cases h
      exact ⟨p, (mem_after hp).resolve_right List.not_mem_nil, hv⟩
    · cases h
  | adopt i =>
    simp only [DurableView.step] at h
    split at h
    · cases h
      rcases mem_after hp with hp | hp
      · exact ⟨p, hp, hv⟩
      · split at hp
        · cases hp
        · rw [List.mem_singleton.mp hp] at hv
          cases hv
    · cases h
  | update u =>
    obtain ⟨current, -, rfl⟩ := Option.map_eq_some_iff.mp h
    rcases List.mem_append.mp hp with hp | hp
    · exact ⟨p, hp, hv⟩
    · split at hp
      · rw [List.mem_singleton.mp hp] at hv
        cases hv
      · cases hp
  | clone i =>
    simp only [DurableView.step] at h
    split at h
    · cases h
      rcases mem_after hp with hp | hp
      · exact ⟨p, hp, hv⟩
      · rw [List.mem_singleton.mp hp] at hv
        cases hv
    · cases h
  | crash =>
    cases h
    cases hp
  | boot o =>
    simp only [DurableView.step] at h
    split at h
    · cases h
    · split at h
      · cases h
      · cases h
        cases hp
      · cases h
        cases hp

/-- What a node has taken it keeps in a step that does not end its process. -/
theorem taken_step (h : DurableView.step nodeId seed s label = some s')
    (hlabel : ∀ u, label ≠ .offer u)
    (hok : OfferedOk s offered) (hlow : ∀ c ∈ s.memory, SeedLow c) (hdecided : x.seeded = false)
    {next : ClusterMetadata} (hc : s.memory = some current) (hnext : s'.memory = some next)
    (htaken : Taken s current x) : Taken s' next x := by
  cases label with
  | offer u => exact absurd rfl (hlabel u)
  | save i o =>
    simp only [DurableView.step] at h
    split at h
    · next u hi =>
      cases h
      obtain rfl := Option.some.inj (hc.symm.trans hnext)
      refine htaken.mono (.refl _) fun p hp v hv htop => ?_
      rcases @mem_after_or _ _ _ _ [.adopting u] hi hp with rfl | hp
      · obtain rfl := Option.some.inj hv
        exact .inr ⟨_, mem_after_of_mem_next (List.mem_singleton.mpr rfl), _, rfl, htop⟩
      · exact .inr ⟨p, hp, v, hv, htop⟩
    · next u hi =>
      cases h
      obtain rfl := Option.some.inj (hc.symm.trans hnext)
      apply htaken.keep (.refl _)
      rintro p hp hin
      refine mem_after_of_ne hi hp ?_
      rintro rfl
      exact hin rfl
    · cases h
  | adopt i =>
    simp only [DurableView.step] at h
    split at h
    · next u m hi hm =>
      cases h
      obtain rfl := Option.some.inj (hc.symm.trans hm)
      obtain rfl := Option.some.inj hnext
      have hu := hok.valid _ (List.mem_of_getElem? hi) u rfl
      refine htaken.mono (idLe_adopt hu) fun p hp v hv htop => ?_
      rcases @mem_after_or _ _ _ _ (if (ClusterMeta.adopt current u).1.indexCatalog =
        current.indexCatalog
        then [] else [.persisting]) hi hp with rfl | hp
      · obtain rfl := Option.some.inj hv
        have hid := SameId.of_topology htop
        exact .inl (IdLe.trans (.inl hid)
          (idLe_adopt_right hu (hid.seeded.trans hdecided) (hlow _ hc)))
      · exact .inr ⟨p, hp, v, hv, htop⟩
    · cases h
  | update u =>
    obtain ⟨m, hm, rfl⟩ := Option.map_eq_some_iff.mp h
    obtain rfl := Option.some.inj (hc.symm.trans hm)
    obtain rfl := Option.some.inj hnext
    exact htaken.keep (.inl (.of_topology applyTo_topology)) fun p hp _ => List.mem_append_left _ hp
  | clone i =>
    simp only [DurableView.step] at h
    split at h
    · next m hi hm =>
      cases h
      obtain rfl := Option.some.inj (hc.symm.trans hnext)
      apply htaken.keep (.refl _)
      rintro p hp hin
      refine mem_after_of_ne hi hp ?_
      rintro rfl
      exact hin rfl
    · cases h
  | crash =>
    cases h
    cases hnext
  | boot o =>
    simp only [DurableView.step, hc] at h
    cases h

/-- A node that is down can only be started, with what its files give or with its seed. -/
theorem step_down (h : DurableView.step nodeId seed s label = some s') (hmemory : s.memory = none)
    (htasks : s.tasks = []) : s' = s ∨ ∃ current, s'.memory = some current ∧
      (load s.disk = .ok (some current) ∨ load s.disk = .ok none) := by
  cases label with
  | crash =>
    cases h
    left
    rw [← hmemory, ← htasks]
  | boot o =>
    right
    simp only [DurableView.step, hmemory] at h
    split at h
    · cases h
    · split at h
      · cases h
      · next v hload =>
        cases h
        exact ⟨v, rfl, .inl hload⟩
      · next hload =>
        cases h
        exact ⟨seed, rfl, .inr hload⟩
  | _ => simp [DurableView.step, hmemory, htasks] at h

theorem step_up (h : DurableView.step nodeId seed s label = some s')
    (hmemory : s.memory = some current)
    (hlabel : label ≠ .crash) : ∃ next, s'.memory = some next := by
  cases label with
  | crash => exact absurd rfl hlabel
  | offer u =>
    obtain ⟨m, hm, rfl⟩ := Option.map_eq_some_iff.mp h
    exact ⟨m, hm⟩
  | update u =>
    obtain ⟨m, hm, rfl⟩ := Option.map_eq_some_iff.mp h
    exact ⟨_, rfl⟩
  | boot o =>
    simp only [DurableView.step, hmemory] at h
    cases h
  | adopt i =>
    simp only [DurableView.step] at h
    split at h
    · cases h
      exact ⟨_, rfl⟩
    · cases h
  | save i o =>
    simp only [DurableView.step] at h
    split at h <;> cases h <;> exact ⟨current, hmemory⟩
  | clone i =>
    simp only [DurableView.step] at h
    split at h
    · cases h
      exact ⟨current, hmemory⟩
    · cases h

theorem OfferedOk.offer (hok : OfferedOk s offered) (hlow : ∀ c ∈ s.memory, SeedLow c)
    (hseed : seed.seeded = true) (h : DurableView.step nodeId seed s (.offer v) = some s') :
    OfferedOk s' (if v.sanitized.validate = .ok () then v :: offered else offered) := by
  have hkept : offered ⊆ if v.sanitized.validate = .ok () then v :: offered else offered := by
    split
    · exact List.subset_cons_self v offered
    · exact List.Subset.refl offered
  have horigin : ∀ x ∈ nodeViews s', x.seeded = false →
      Has (if v.sanitized.validate = .ok () then v :: offered else offered) x := by
    intro x hx hdecided
    rcases nodeStep_has h hx with ⟨y, hy, htop⟩ | htop | ⟨u, hu, hvalid, htop⟩
    · have hold := hok.origin y hy ((SameId.of_topology htop).seeded ▸ hdecided)
      exact (hold.mono hkept).of_topology htop
    · rw [(SameId.of_topology htop).seeded, hseed] at hdecided
      cases hdecided
    · cases hu
      rw [if_pos hvalid]
      exact ⟨v, List.mem_cons_self, htop⟩
  obtain ⟨current, hc, rfl⟩ := Option.map_eq_some_iff.mp h
  refine ⟨horigin, fun p hp u hu => ?_, fun m hm x hx hdecided => ?_, fun hdown => ?_⟩
  · rcases List.mem_append.mp hp with hp | hp
    · exact hok.valid p hp u hu
    · obtain ⟨hvalid, rfl | rfl⟩ := offerPhase_mem hp
      · obtain rfl := Option.some.inj hu
        exact sanitized_valid hvalid
      · obtain rfl := Option.some.inj hu
        exact sanitized_valid hvalid
  · obtain rfl := Option.some.inj (hc.symm.trans hm)
    have hold (hx : x ∈ offered) :
      Taken { s with tasks := s.tasks ++ offerPhase current v } current x :=
      (hok.up current hc x hx hdecided).keep (.refl _) fun p hp _ => List.mem_append_left _ hp
    split at hx
    · next hvalid =>
      rcases List.mem_cons.mp hx with rfl | hx
      · refine (taken_offer hvalid hdecided (hlow _ hc)).imp_right ?_
        rintro ⟨p, hp, hu⟩
        exact ⟨p, List.mem_append_right _ hp, hu⟩
      · exact hold hx
    · exact hold hx
  · rw [hc] at hdown
    cases hdown

theorem OfferedOk.step (hok : OfferedOk s offered) (hlow : ∀ c ∈ s.memory, SeedLow c)
    (hseed : seed.seeded = true) (hlabel : ∀ u, label ≠ .offer u)
    (hfiled : label = .crash → ∀ x ∈ offered, x.seeded = false →
      ∃ v ∈ (load s.disk).toOption.join, IdLe x v)
    (h : DurableView.step nodeId seed s label = some s') : OfferedOk s' offered := by
  constructor
  · intro x hx hdecided
    rcases nodeStep_has h hx with ⟨y, hy, htop⟩ | htop | ⟨u, hu, -⟩
    · exact (hok.origin y hy ((SameId.of_topology htop).seeded ▸ hdecided)).of_topology htop
    · rw [(SameId.of_topology htop).seeded, hseed] at hdecided
      cases hdecided
    · exact absurd hu (hlabel u)
  · intro p hp v hv
    obtain ⟨q, hq, hqv⟩ := incoming_step h hlabel hp hv
    exact hok.valid q hq v hqv
  · intro next hnext x hx hdecided
    cases hm : s.memory with
    | some current =>
      exact taken_step h hlabel hok hlow hdecided hm hnext (hok.up current hm x hx hdecided)
    | none =>
      obtain ⟨htasks, hdown⟩ := hok.down hm
      obtain ⟨v, hv, hle⟩ := hdown x hx hdecided
      rcases step_down h hm htasks with rfl | ⟨current, hc, hload | hload⟩
      · cases hm.symm.trans hnext
      · obtain rfl := Option.some.inj (hc.symm.trans hnext)
        rw [hload] at hv
        obtain rfl : current = v := Option.some.inj hv
        exact .inl hle
      · rw [hload] at hv
        cases hv
  · intro hdown
    by_cases hcrash : label = .crash
    · subst hcrash
      cases h
      exact ⟨rfl, hfiled rfl⟩
    · cases hm : s.memory with
      | some current =>
        obtain ⟨next, hnext⟩ := step_up h hm hcrash
        cases hdown.symm.trans hnext
      | none =>
        obtain ⟨htasks, hold⟩ := hok.down hm
        rcases step_down h hm htasks with rfl | ⟨current, hc, -⟩
        · exact ⟨htasks, hold⟩
        · cases hdown.symm.trans hc

end Offers

section Run

/-- A node does not crash before its files have what it was offered. -/
def Kept (w : World ι) : Label ι → Prop
  | .node i .crash => Filed (w.peers i)
  | _ => True

instance : Decidable (Kept w l) :=
  match l with
  | .node i .crash => inferInstanceAs (Decidable (∀ x ∈ (w.peers i).offered, x.seeded = false →
      ∃ v ∈ (load (w.peers i).node.disk).toOption.join, IdLe x v))
  | .node _ (.offer _) | .node _ (.save ..) | .node _ (.adopt _) | .node _
      (.update _) | .node _ (.clone _)
  | .node _ (.boot _) | .admin .. | .announce .. | .publish .. | .receive .. | .share _ =>
      .isTrue trivial

theorem Effect.offeredOk (h : Effect g i circulated p l p' sent) (hok : OfferedOk p.node p.offered)
    (hlow : ∀ c ∈ p.node.memory, SeedLow c) (hfiled : l = .node i .crash → Filed p) :
    OfferedOk p'.node p'.offered := by
  cases h with
  | plan => exact hok
  | announce => exact hok
  | offer _ v node handlers hv hh hnode => exact hok.offer hlow rfl hnode
  | share => exact hok
  | node label node handlers hlabel hh hnode =>
    exact hok.step hlow rfl hlabel (fun hcrash => hfiled (hcrash ▸ rfl)) hnode

/-- The ids are in order, and every node has taken what it was offered. -/
structure WorldOk (g : Cluster ι) (w : World ι) : Prop extends IdsOk g w where
  offered : ∀ i, OfferedOk (w.peers i).node (w.peers i).offered

theorem worldOk_initial : WorldOk g (initial (ι := ι)) where
  toIdsOk := idsOk_initial
  offered i := ⟨by simp [initial, nodeViews, diskViews], by simp [initial], by simp [initial],
    by simp [initial]⟩

variable [DecidableEq ι] {ls : List (Label ι)}

theorem WorldOk.step (h : WorldOk g w) (hfresh : Fresh g w l) (hkept : Kept w l)
    (hstep : ViewIds.step g w l = some w') : WorldOk g w' where
  toIdsOk := h.toIdsOk.step hfresh hstep
  offered j := by
    obtain ⟨i, p', sent, rfl, heff⟩ := step_cases hstep
    by_cases hj : j = i
    · subst hj
      simp only [Function.update_self]
      have hlow : ∀ c ∈ (w.peers j).node.memory, SeedLow c := fun c hc =>
        h.low c (.inr ⟨j, mem_views.mpr (.inl (memory_subset hc))⟩)
      refine heff.offeredOk (h.offered j) hlow fun hl => ?_
      subst hl
      exact hkept
    · simp only [Function.update_of_ne hj]
      exact h.offered j

theorem run_idsOk (hrun : run (step g) initial ls = some w)
    (hfresh : Meets (step g) (Fresh g) initial ls) : IdsOk g w :=
  run_invariant_of_meets (fun _ _ _ h hok hs => h.step hok hs) hrun hfresh idsOk_initial

theorem run_worldOk (hrun : run (step g) initial ls = some w)
    (hfresh : Meets (step g) (Fresh g) initial ls)
    (hkept : Meets (step g) Kept initial ls) : WorldOk g w :=
  @run_invariant_of_meets _ _ _ (fun w l => Fresh g w l ∧ Kept w l) _
    (fun _ _ _ h hok hs => h.step hok.1 hok.2 hs) _ _ _ hrun
      (meets_and hfresh hkept) worldOk_initial

def Peer.decidedOffers (p : Peer) : List ClusterMetadata := p.offered.filterMap decided

theorem mem_decidedOffers :
    y ∈ p.decidedOffers ↔ ∃ x ∈ p.offered, x.seeded = false ∧ x.topology = y := by
  simp only [Peer.decidedOffers, List.mem_filterMap, decided]
  constructor
  · rintro ⟨x, hx, h⟩
    split at h
    · cases h
    · next hdecided => exact ⟨x, hx, Bool.eq_false_iff.mpr hdecided, Option.some.inj h⟩
  · rintro ⟨x, hx, hdecided, rfl⟩
    exact ⟨x, hx, by simp [hdecided]⟩

theorem sameId_topology (v : ClusterMetadata) : SameId v v.topology := ⟨rfl, rfl, rfl⟩

/-- What a settled node holds has the greatest id of what it was offered, and comes from there. -/
theorem OfferedOk.settled {current : ClusterMetadata} (hok : OfferedOk p.node p.offered)
    (hrest : Settled p.node) (hc : p.node.memory = some current) (hne : p.decidedOffers ≠ []) :
    current.topology ∈ p.decidedOffers ∧ ∀ t ∈ p.decidedOffers, IdLe t current := by
  have hle : ∀ t ∈ p.decidedOffers, IdLe t current := by
    intro t ht
    obtain ⟨x, hx, hdecided, rfl⟩ := mem_decidedOffers.mp ht
    rcases hok.up current hc x hx hdecided with hle | ⟨q, hq, v, hv, -⟩
    · exact IdLe.trans (.inl (sameId_topology x)) hle
    · rw [hrest q hq] at hv
      cases hv
  have hdecided : current.seeded = false := by
    obtain ⟨t, ht⟩ := List.exists_mem_of_ne_nil _ hne
    obtain ⟨x, hx, hx', rfl⟩ := mem_decidedOffers.mp ht
    rw [Bool.eq_false_iff]
    intro hseeded
    have hid := (hle _ ht).sameId_of_seeded hseeded
    exact absurd (hid.seeded.symm.trans hseeded) (by simpa [ClusterMetadata.topology] using hx')
  obtain ⟨y, hy, htop⟩ := hok.origin current (memory_subset hc) hdecided
  exact ⟨mem_decidedOffers.mpr ⟨y, hy, (SameId.of_topology htop).seeded ▸ hdecided, htop.symm⟩, hle⟩

/-- Where every handler begins with a copy of its node's view that is no older than the node's own
views, two decided views in circulation with the same version and author have the same topology.
Where no node crashes before its files have what it was offered either, two nodes that are through
with what they were offered, and that were offered the same decided topologies, hold the same one.
-/
theorem view_id_names_one_view (hrun : run (step g) initial ls = some w)
    (hfresh : Meets (step g) (Fresh g) initial ls) :
    (∀ v ∈ w.circulated, ∀ u ∈ w.circulated, v.seeded = false → u.seeded = false →
      v.version = u.version → v.updatedBy = u.updatedBy → v.topology = u.topology) ∧
    (Meets (step g) Kept initial ls → ∀ i j, Settled (w.peers i).node → Settled (w.peers j).node →
      (∀ t, t ∈ (w.peers i).decidedOffers ↔ t ∈ (w.peers j).decidedOffers) →
        (w.peers i).decidedOffers ≠ [] →
      ∀ v ∈ (w.peers i).node.memory, ∀ u ∈ (w.peers j).node.memory, v.topology = u.topology) := by
  constructor
  · intro v hv u hu hdecided hdecided' hversion hby
    exact (run_idsOk hrun hfresh).one v u (.inl hv) (.inl hu) hdecided
      ⟨hversion, hby, hdecided.trans hdecided'.symm⟩
  · intro hkept i j hi hj hsame hne v hv u hu
    have hok := run_worldOk hrun hfresh hkept
    obtain ⟨hmem, hle⟩ := (hok.offered i).settled hi hv hne
    have hne' : (w.peers j).decidedOffers ≠ [] := List.ne_nil_of_mem ((hsame _).mp hmem)
    obtain ⟨hmem', hle'⟩ := (hok.offered j).settled hj hu hne'
    -- Each of the two was offered what the other one holds.
    have hvu : IdLe v u := IdLe.trans (.inl (sameId_topology v).symm) (hle' _ ((hsame _).mp hmem))
    have huv : IdLe u v := IdLe.trans (.inl (sameId_topology u).symm) (hle _ ((hsame _).mpr hmem'))
    obtain ⟨x, -, hdecided, htop⟩ := mem_decidedOffers.mp hmem
    have hid := SameId.of_topology htop
    exact hok.one v u (.inr ⟨i, mem_views.mpr (.inl (memory_subset hv))⟩)
      (.inr ⟨j, mem_views.mpr (.inl (memory_subset hu))⟩) (hid.seeded.symm.trans hdecided)
        (huv.antisymm hvu)

end Run

section Runs

def trio : Cluster (Fin 3) where
  config i := { bareConfig [['a', 'b', 'c'][i]] ("http://".toList ++ [['a', 'b', 'c'][i]]) with
    ring := some ⟨1, [⟨"http://a".toList, []⟩]⟩ }
  nodeId_injective := by
    unfold Function.Injective
    decide

def handTo (second id : String) : Request :=
  .migrate ⟨1, [⟨"http://a".toList, []⟩, ⟨second.toList, []⟩]⟩ id.toList (some true)

def booted : List (Label (Fin 3)) := [0, 1, 2].map fun i => .node i (.boot ⟨true, none⟩)

def taken (i : Fin 3) : List (Label (Fin 3)) := [.node i (.save 0 ⟨true, none⟩), .node i (.adopt 0)]

/-- The first node crashes after it has handed out a plan, and plans again; the others hear of both
plans. -/
def replanned : List (Label (Fin 3)) :=
  booted ++ [Label.admin 0 (handTo "http://b" "1"), .announce 0 0, .node 0 .crash,
    .node 0 (.boot ⟨true, none⟩), .admin 0 (handTo "http://c" "2"), .announce 0 0] ++
    .receive 1 0 :: taken 1 ++ .receive 1 1 :: .receive 2 1 :: taken 2 ++ [Label.receive 2 0]

/-- The two plans have one id, and nodes that hear of them in different orders hold different ones.
-/
theorem replanned_ids : ∃ w, run (step trio) initial replanned = some w ∧
    (∃ v ∈ w.circulated, ∃ u ∈ w.circulated, v.seeded = false ∧ u.seeded = false ∧
      v.version = u.version ∧ v.updatedBy = u.updatedBy ∧ v.topology ≠ u.topology) ∧
    (w.peers 1).node.tasks = [] ∧ (w.peers 2).node.tasks = [] ∧
    (w.peers 1).offered.reverse = (w.peers 2).offered ∧
    ∃ v ∈ (w.peers 1).node.memory, ∃ u ∈ (w.peers 2).node.memory, v.topology ≠ u.topology := by
  have h : (run (step trio) initial replanned).any fun w => decide (
    (∃ v ∈ w.circulated, ∃ u ∈ w.circulated, v.seeded = false ∧ u.seeded = false ∧
      v.version = u.version ∧ v.updatedBy = u.updatedBy ∧ v.topology ≠ u.topology) ∧
    (w.peers 1).node.tasks = [] ∧ (w.peers 2).node.tasks = [] ∧
    (w.peers 1).offered.reverse = (w.peers 2).offered ∧
    ∃ v ∈ (w.peers 1).node.memory, ∃ u ∈ (w.peers 2).node.memory, v.topology ≠ u.topology) := by
    decide
  obtain ⟨w, hw, hfacts⟩ := (Option.any_eq_true _ _).mp h
  exact ⟨w, hw, of_decide_eq_true hfacts⟩

/-- The first node is restarted once its handover is saved, and gives the handover up; another node
hears of both views. -/
def givenUp : List (Label (Fin 3)) :=
  booted ++ .admin 0 (handTo "http://b" "1") :: .announce 0 0 :: .publish 0 0 :: taken 0 ++
    .node 0 .crash :: .node 0 (.boot ⟨true, none⟩) :: .admin 0 .abort :: .publish 0 0 :: taken 0 ++
    .share 0 :: .receive 1 0 :: taken 1 ++ [Label.receive 1 1]

theorem givenUp_ids : ∃ w, run (step trio) initial givenUp = some w ∧ w.circulated.length = 2 ∧
    (∀ v ∈ w.circulated, ∀ u ∈ w.circulated, v.seeded = false → u.seeded = false →
      v.version = u.version → v.updatedBy = u.updatedBy → v.topology = u.topology) ∧
    ∀ v ∈ (w.peers 0).node.memory, ∀ u ∈ (w.peers 1).node.memory, v.topology = u.topology := by
  have h : (run (step trio) initial givenUp).any fun w => decide (w.circulated.length = 2 ∧
    (w.peers 0).node.tasks = [] ∧ (w.peers 1).node.tasks = [] ∧
    (w.peers 0).decidedOffers.reverse = (w.peers 1).decidedOffers ∧
      (w.peers 0).decidedOffers ≠ []) := by
    decide
  obtain ⟨w, hw, hfacts⟩ := (Option.any_eq_true _ _).mp h
  obtain ⟨hlen, h0, h1, hsame, hne⟩ := of_decide_eq_true hfacts
  obtain ⟨hids, hhold⟩ := view_id_names_one_view hw (by decide)
  refine ⟨w, hw, hlen, hids, hhold (by decide) 0 1 ?_ ?_ ?_ hne⟩
  · simp [Settled, h0]
  · simp [Settled, h1]
  · intro t
    rw [← List.mem_reverse, hsame]

end Runs

end DewDB.ViewIds
