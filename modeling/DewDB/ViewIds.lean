import DewDB.AdminPlans
import DewDB.DurableAgreement

/-!
# Where views come from

Nodes that take administrative requests and hand views on. A handler plans the next view from a copy
of its node's view and publishes it by adopting it; a handover is handed out first. A view that a
node has, has sent or is about to have is one that was there before, the node's seed, or a plan.
Which node leads its group is left open.
-/
namespace DewDB.ViewIds

open ReplicationMeta (NodeId)
open Endpoint Vote ClusterMeta AdminPlans TransitionSystem
open ClusterView (NodeConfig)
open DurableView hiding Label step

/-- A group of nodes with their configurations; no two have the same name. -/
structure Cluster (ι : Type) where
  config : ι → NodeConfig
  nodeId_injective : Function.Injective fun i => (config i).nodeId

variable {ι : Type}

def Cluster.nodeId (g : Cluster ι) (i : ι) : NodeId := (g.config i).nodeId

def Cluster.seed (g : Cluster ι) (i : ι) : ClusterMetadata := seedFromConfig (g.config i)

/-- A handler that has planned a view: before its broadcast, and before it is published. -/
inductive Handler where
  | announcing (next : ClusterMetadata)
  | publishing (next : ClusterMetadata)

def Handler.next : Handler → ClusterMetadata
  | .announcing v | .publishing v => v

/-- A node with its handlers, and the valid views that it was ever offered. -/
structure Peer where
  node : DurableView.State
  handlers : List Handler
  offered : List ClusterMetadata

/-- The nodes, and all views that were ever sent from one to another. -/
structure World (ι : Type) where
  peers : ι → Peer
  circulated : List ClusterMetadata

inductive Label (ι : Type) where
  | admin (i : ι) (r : Request)
  | announce (i : ι) (k : ℕ)
  | publish (i : ι) (k : ℕ)
  -- A node is offered a view that another one sent, or shows its own.
  | receive (i : ι) (m : ℕ)
  | share (i : ι)
  -- A save, an adoption, a change of the catalogue, a crash or a start.
  | node (i : ι) (label : DurableView.Label)

section Steps

variable [DecidableEq ι] (g : Cluster ι)

def World.setPeer (w : World ι) (i : ι) (p : Peer) : World ι :=
  { w with peers := Function.update w.peers i p }

def Cluster.stepNode (g : Cluster ι) (i : ι) (p : Peer) (label : DurableView.Label) :
    Option DurableView.State :=
  DurableView.step (g.nodeId i) (g.seed i) p.node label

def Handler.begin (announced : Bool) (next : ClusterMetadata) : Handler :=
  if announced then .announcing next else .publishing next

def stepAdmin (w : World ι) (i : ι) (r : Request) : Option (World ι) :=
  let p := w.peers i
  p.node.memory.bind fun current =>
    match r.plan current (g.nodeId i) (g.config i).ownUrl with
    | .error _ => none
    | .ok next => some (w.setPeer i { p with handlers := p.handlers ++ [.begin r.announced next] })

def stepAnnounce (w : World ι) (i : ι) (k : ℕ) : Option (World ι) :=
  let p := w.peers i
  match p.handlers[k]? with
  | some (.announcing next) =>
      some { w.setPeer i { p with handlers := p.handlers.eraseIdx k ++ [.publishing next] } with
      circulated := next :: w.circulated }
  | _ => none

/-- `adopt_cluster` begins; a view that does not pass the checks is refused. -/
def offerTo (p : Peer) (i : ι) (v : ClusterMetadata) : Option Peer :=
  (g.stepNode i p (.offer v)).map fun node =>
    { p with
      node
      offered := if v.sanitized.validate = .ok () then v :: p.offered else p.offered }

def stepPublish (w : World ι) (i : ι) (k : ℕ) : Option (World ι) :=
  let p := w.peers i
  match p.handlers[k]? with
  | some (.publishing next) =>
    (offerTo g { p with handlers := p.handlers.eraseIdx k } i next).map fun p' => w.setPeer i p'
  | _ => none

def stepReceive (w : World ι) (i : ι) (m : ℕ) : Option (World ι) :=
  w.circulated[m]?.bind fun v => (offerTo g (w.peers i) i v).map fun p' => w.setPeer i p'

def stepShare (w : World ι) (i : ι) : Option (World ι) :=
  (w.peers i).node.memory.map fun v => { w with circulated := v :: w.circulated }

def stepNode (w : World ι) (i : ι) (label : DurableView.Label) : Option (World ι) :=
  let p := w.peers i
  match label with
  | .offer _ => none
  | .crash => (g.stepNode i p .crash).map fun node => w.setPeer i ⟨node, [], p.offered⟩
  | label => (g.stepNode i p label).map fun node => w.setPeer i { p with node }

def step (w : World ι) : Label ι → Option (World ι)
  | .admin i r => stepAdmin g w i r
  | .announce i k => stepAnnounce w i k
  | .publish i k => stepPublish g w i k
  | .receive i m => stepReceive g w i m
  | .share i => stepShare w i
  | .node i label => stepNode g w i label

def initial : World ι := ⟨fun _ => ⟨⟨⟨none, none⟩, none, [], true⟩, [], []⟩, []⟩

end Steps

section Views

def contentViews : Content → List ClusterMetadata
  | .torn => []
  | .whole v => [v]

def diskViews (d : Disk) : List ClusterMetadata :=
  (d.file.toList ++ d.tmp.toList).flatMap contentViews

def nodeViews (s : DurableView.State) : List ClusterMetadata :=
  s.memory.toList ++ diskViews s.disk ++ s.tasks.filterMap Phase.view?

def Peer.views (p : Peer) : List ClusterMetadata := nodeViews p.node ++ p.handlers.map Handler.next

def Has (vs : List ClusterMetadata) (x : ClusterMetadata) : Prop :=
  ∃ y ∈ vs, x.topology = y.topology

variable {v w x : ClusterMetadata} {vs ws : List ClusterMetadata}
  {s s' : DurableView.State} {d : Disk} {o : Outcome}

theorem has_of_mem (h : x ∈ vs) : Has vs x := ⟨x, h, rfl⟩

theorem Has.mono (h : Has vs x) (hsub : vs ⊆ ws) : Has ws x := h.imp fun _ hy => ⟨hsub hy.1, hy.2⟩

theorem Has.of_topology (h : Has vs w) (ht : x.topology = w.topology) : Has vs x :=
  h.imp fun _ hy => ⟨hy.1, ht.trans hy.2⟩

theorem mem_diskViews {c : Content} (hc : c ∈ d.file ∨ c ∈ d.tmp) (hv : v ∈ contentViews c) :
    v ∈ diskViews d := by
  apply List.mem_flatMap.mpr
  rcases hc with hc | hc
  · exact ⟨c, List.mem_append_left _ (Option.mem_toList.mpr hc), hv⟩
  · exact ⟨c, List.mem_append_right _ (Option.mem_toList.mpr hc), hv⟩

theorem mem_of_mem_diskViews (h : v ∈ diskViews d) : d.file = some (.whole v) ∨ d.tmp = some
    (.whole v) := by
  obtain ⟨c, hc, hv⟩ := List.mem_flatMap.mp h
  cases c with
  | torn => simp [contentViews] at hv
  | whole y =>
    obtain rfl : v = y := List.mem_singleton.mp hv
    exact (List.mem_append.mp hc).imp Option.mem_toList.mp Option.mem_toList.mp

theorem load_has (h : load d = .ok (some v)) : Has (diskViews d) v := by
  have hview : ∀ {c : Content}, c.view? = some v → (c ∈ d.file ∨ c ∈ d.tmp) →
    Has (diskViews d) v := by
    intro c hc hmem
    cases c with
    | torn => cases hc
    | whole y =>
      obtain ⟨-, rfl⟩ := Option.ite_none_right_eq_some.mp hc |>.imp_right Option.some.inj
      exact ⟨y, mem_diskViews hmem (List.mem_singleton.mpr rfl), rfl⟩
  unfold load at h
  split at h
  · next y hy =>
    obtain rfl : y = v := by simpa using h
    rcases Option.or_eq_some_iff.mp hy with hf | ⟨-, ht⟩
    · obtain ⟨c, hc, hcv⟩ := Option.bind_eq_some_iff.mp hf
      exact hview hcv (.inl hc)
    · obtain ⟨c, hc, hcv⟩ := Option.bind_eq_some_iff.mp ht
      exact hview hcv (.inr hc)
  · split at h <;> cases h

theorem writeAtomic_views {fault : Option Fault} (h : x ∈ diskViews (writeAtomic v fault d).1) :
    x = v ∨ x ∈ diskViews d := by
  have hold : ∀ {c : Content}, (c ∈ d.file ∨ c ∈ d.tmp) → c = .whole x → x ∈ diskViews d := by
    rintro c hc rfl
    exact mem_diskViews hc (List.mem_singleton.mpr rfl)
  match fault with
  | none =>
    rcases mem_of_mem_diskViews h with h | h
    · exact .inl (Content.whole.inj (Option.some.inj h)).symm
    · cases h
  | some .create => exact .inr h
  | some .write =>
    rcases mem_of_mem_diskViews h with h | h
    · exact .inr (hold (.inl h) rfl)
    · cases h
  | some .syncOrRename =>
    rcases mem_of_mem_diskViews h with h | h
    · exact .inr (hold (.inl h) rfl)
    · exact .inl (Content.whole.inj (Option.some.inj h)).symm

theorem save_has (h : x ∈ diskViews (save v o d).1) : Has (v :: diskViews d) x := by
  unfold save at h
  split at h
  · exact (has_of_mem h).mono (List.subset_cons_self _ _)
  · next w hw =>
    rcases writeAtomic_views h with rfl | h
    · cases hstored : stored o d with
      | none =>
        rw [hstored] at hw
        cases hw
        exact has_of_mem List.mem_cons_self
      | some existing =>
        have hexisting := (load_has (stored_eq_some.mp hstored).2).mono (List.subset_cons_self v _)
        rw [hstored, toWrite] at hw
        split at hw
        · cases hw
          exact has_of_mem List.mem_cons_self
        · split at hw
          · cases hw
            exact hexisting.of_topology rfl
          · cases hw
    · exact (has_of_mem h).mono (List.subset_cons_self _ _)

theorem memory_subset (h : s.memory = some v) : v ∈ nodeViews s :=
  List.mem_append_left _ (List.mem_append_left _ (by simp [h]))

theorem disk_subset (s : DurableView.State) : diskViews s.disk ⊆ nodeViews s := fun _ h =>
  List.mem_append_left _ (List.mem_append_right _ h)

theorem task_subset {p : Phase} (h : p ∈ s.tasks) (hv : p.view? = some v) : v ∈ nodeViews s :=
  List.mem_append_right _ (List.mem_filterMap.mpr ⟨p, h, hv⟩)

theorem mem_nodeViews (h : x ∈ nodeViews s) :
    s.memory = some x ∨ x ∈ diskViews s.disk ∨ ∃ p ∈ s.tasks, p.view? = some x := by
  rcases List.mem_append.mp h with h | h
  · rcases List.mem_append.mp h with h | h
    · exact .inl (Option.mem_toList.mp h)
    · exact .inr (.inl h)
  · exact .inr (.inr (List.mem_filterMap.mp h))

theorem after_has {i : ℕ} {next : List Phase} {p : Phase} (hp : p ∈ s.after i next)
    (hxp : p.view? = some x) (hnext : ∀ q ∈ next, q.view? = some x → Has (nodeViews s) x) :
    Has (nodeViews s) x := by
  rcases mem_after hp with hp | hp
  · exact has_of_mem (task_subset hp hxp)
  · exact hnext p hp hxp

theorem memory_has (hsame : s'.memory = s.memory) (hm : s'.memory = some x) : Has (nodeViews s) x :=
  has_of_mem (memory_subset (hsame ▸ hm))

theorem save_step_has {nodeId : NodeId} {seed : ClusterMetadata} {i : ℕ} {o : Outcome}
    (h : DurableView.step nodeId seed s (.save i o) = some s') (hx : x ∈ nodeViews s') :
    Has (nodeViews s) x := by
  simp only [DurableView.step] at h
  split at h
  · next v hi =>
    cases h
    have hv : v ∈ nodeViews s := task_subset (List.mem_of_getElem? hi) rfl
    rcases mem_nodeViews hx with hm | hd | ⟨p, hp, hxp⟩
    · exact memory_has rfl hm
    · exact (save_has hd).mono (List.cons_subset.mpr ⟨hv, disk_subset s⟩)
    · refine after_has hp hxp fun q hq hxq => ?_
      rw [List.mem_singleton.mp hq] at hxq
      obtain rfl := Option.some.inj hxq
      exact has_of_mem hv
  · next v hi =>
    cases h
    have hv : v ∈ nodeViews s := task_subset (List.mem_of_getElem? hi) rfl
    rcases mem_nodeViews hx with hm | hd | ⟨p, hp, hxp⟩
    · exact memory_has rfl hm
    · exact (save_has hd).mono (List.cons_subset.mpr ⟨hv, disk_subset s⟩)
    · exact after_has hp hxp fun q hq => absurd hq List.not_mem_nil
  · cases h

theorem adopt_step_has {nodeId : NodeId} {seed : ClusterMetadata} {i : ℕ}
    (h : DurableView.step nodeId seed s (.adopt i) = some s') (hx : x ∈ nodeViews s') :
    Has (nodeViews s) x := by
  simp only [DurableView.step] at h
  split at h
  · next v current hi hc =>
    cases h
    have hv : v ∈ nodeViews s := task_subset (List.mem_of_getElem? hi) rfl
    rcases mem_nodeViews hx with hm | hd | ⟨p, hp, hxp⟩
    · obtain rfl := Option.some.inj hm
      by_cases hvalid : v.sanitized.validate = .ok ()
      · have htop := @adopt_topology current _ hvalid
        split at htop
        · exact (has_of_mem hv).of_topology htop
        · exact (has_of_mem (memory_subset hc)).of_topology htop
      · rw [adopt_invalid hvalid]
        exact has_of_mem (memory_subset hc)
    · exact has_of_mem (disk_subset s hd)
    · refine after_has hp hxp fun q hq hxq => ?_
      split at hq
      · exact absurd hq List.not_mem_nil
      · rw [List.mem_singleton.mp hq] at hxq
        cases hxq
  · cases h

theorem update_step_has {nodeId : NodeId} {seed : ClusterMetadata} {u : CatalogUpdate}
    (h : DurableView.step nodeId seed s (.update u) = some s') (hx : x ∈ nodeViews s') :
    Has (nodeViews s) x := by
  obtain ⟨current, hc, rfl⟩ := Option.map_eq_some_iff.mp h
  rcases mem_nodeViews hx with hm | hd | ⟨p, hp, hxp⟩
  · obtain rfl := Option.some.inj hm
    exact (has_of_mem (memory_subset hc)).of_topology applyTo_topology
  · exact has_of_mem (disk_subset s hd)
  · rcases List.mem_append.mp hp with hp | hp
    · exact has_of_mem (task_subset hp hxp)
    · split at hp
      · rw [List.mem_singleton.mp hp] at hxp
        cases hxp
      · exact absurd hp List.not_mem_nil

theorem clone_step_has {nodeId : NodeId} {seed : ClusterMetadata} {i : ℕ}
    (h : DurableView.step nodeId seed s (.clone i) = some s') (hx : x ∈ nodeViews s') :
    Has (nodeViews s) x := by
  simp only [DurableView.step] at h
  split at h
  · next current hi hc =>
    cases h
    rcases mem_nodeViews hx with hm | hd | ⟨p, hp, hxp⟩
    · exact memory_has rfl hm
    · exact has_of_mem (disk_subset s hd)
    · refine after_has hp hxp fun q hq hxq => ?_
      rw [List.mem_singleton.mp hq] at hxq
      obtain rfl := Option.some.inj hxq
      exact has_of_mem (memory_subset hc)
  · cases h

theorem boot_step_has {nodeId : NodeId} {seed : ClusterMetadata} {o : Outcome}
    (h : DurableView.step nodeId seed s (.boot o) = some s') (hx : x ∈ nodeViews s') :
    Has (nodeViews s) x ∨ x.topology = seed.topology := by
  simp only [DurableView.step] at h
  split at h
  · cases h
  · split at h
    · cases h
    · next v hload =>
      cases h
      rcases mem_nodeViews hx with hm | hd | ⟨p, hp, -⟩
      · obtain rfl := Option.some.inj hm
        exact .inl ((load_has hload).mono (disk_subset s))
      · exact .inl (has_of_mem (disk_subset s hd))
      · exact absurd hp List.not_mem_nil
    · cases h
      rcases mem_nodeViews hx with hm | hd | ⟨p, hp, -⟩
      · obtain rfl := Option.some.inj hm
        exact .inr rfl
      · obtain ⟨y, hy, htop⟩ := save_has hd
        rcases List.mem_cons.mp hy with rfl | hy
        · exact .inr htop
        · exact .inl ⟨y, disk_subset s hy, htop⟩
      · exact absurd hp List.not_mem_nil

theorem offer_step_has {nodeId : NodeId} {seed : ClusterMetadata} {incoming : ClusterMetadata}
    (h : DurableView.step nodeId seed s (.offer incoming) = some s') (hx : x ∈ nodeViews s') :
    Has (nodeViews s) x ∨
      incoming.sanitized.validate = .ok () ∧ x.topology = incoming.topology := by
  obtain ⟨current, hc, rfl⟩ := Option.map_eq_some_iff.mp h
  rcases mem_nodeViews hx with hm | hd | ⟨p, hp, hxp⟩
  · exact .inl (memory_has rfl hm)
  · exact .inl (has_of_mem (disk_subset s hd))
  · rcases List.mem_append.mp hp with hp | hp
    · exact .inl (has_of_mem (task_subset hp hxp))
    · obtain ⟨hvalid, hphase⟩ := offerPhase_mem hp
      refine .inr ⟨hvalid, ?_⟩
      rcases hphase with rfl | rfl
      · obtain rfl := Option.some.inj hxp
        rfl
      · obtain rfl := Option.some.inj hxp
        rfl

/-- The views that a node's own step leaves: those from before, its seed, and what it was offered.
-/
theorem nodeStep_has {nodeId : NodeId} {seed : ClusterMetadata} {label : DurableView.Label}
    (h : DurableView.step nodeId seed s label = some s') (hx : x ∈ nodeViews s') :
    Has (nodeViews s) x ∨ x.topology = seed.topology ∨
      ∃ v, label = .offer v ∧ v.sanitized.validate = .ok () ∧ x.topology = v.topology := by
  cases label with
  | offer incoming =>
    exact (offer_step_has h hx).imp_right fun hoffered => .inr ⟨incoming, rfl, hoffered⟩
  | save i o => exact .inl (save_step_has h hx)
  | adopt i => exact .inl (adopt_step_has h hx)
  | update u => exact .inl (update_step_has h hx)
  | clone i => exact .inl (clone_step_has h hx)
  | crash =>
    cases h
    rcases mem_nodeViews hx with hm | hd | ⟨p, hp, -⟩
    · cases hm
    · exact .inl (has_of_mem (disk_subset s hd))
    · exact absurd hp List.not_mem_nil
  | boot o => exact (boot_step_has h hx).imp_right .inl

end Views

end DewDB.ViewIds
