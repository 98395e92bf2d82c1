import DewDB.QuorumReads

/-!
# Quorum reads are linearizable where the flip is fenced

The history of a key only grows, and a node that answers has applied everything that was committed
when the read began, in the group that owned the key then.
-/
namespace DewDB.Handover

open GroupLog ShardGroup HandoverPlan TransitionSystem

variable {K V : Type} [DecidableEq K] {c : Layout K} {s s' : State K V} {k : K}

section Fence

theorem pushStep_frame {a : PushAct K} (h : pushStep c s a = some s') :
    s'.src = s.src ∧ s'.dst = s.dst ∧ s'.writes = s.writes ∧ s'.plan = s.plan := by
  cases a <;> simp only [pushStep, Option.bind_eq_some_iff, Option.ite_none_right_eq_some,
    Option.some.injEq] at h <;> grind [State.setPush]

omit [DecidableEq K] in
theorem planStep_frame {a : PlanAct} (h : planStep s a = some s') :
    s'.src = s.src ∧ s'.dst = s.dst ∧ s'.writes = s.writes := by
  cases a <;> simp only [planStep, Option.bind_eq_some_iff, Option.ite_none_right_eq_some,
    Option.some.injEq] at h <;> grind

theorem Fence.step [DecidableEq V] {t : Served K V} {l : Label K V} (hf : Fence c t.handover)
    (hs : Guarded c t.handover) (hfenced : Fenced c t (.handover l))
    (h : step c t.handover l = some s') : Fence c s' := by
  have hpasses := hs.step hfenced.1 h
  cases l with
  | group side a =>
    obtain ⟨g, hg, rfl⟩ := Option.map_eq_some_iff.mp h
    cases side with
    | source => exact hf.group_source hs hg
    | destination => exact hf.group_destination hs hg hfenced.1
  | adopt side n v =>
    obtain ⟨g, hg, rfl⟩ := Option.map_eq_some_iff.mp h
    exact hf.adopt hs hg
  | write a =>
    refine hf.write hs h fun n k v ha => ?_
    subst ha
    exact hfenced.2
  | push a =>
    obtain ⟨hsrc, hdst, hwrites, hplan⟩ := pushStep_frame h
    exact hf.frame hsrc hdst hwrites (hplan ▸ id)
  | batch a =>
    refine hf.batch hs h fun i ha => ?_
    subst ha
    exact hfenced.2
  | reset a => exact hf.reset_step hs h hfenced.1
  | plan a =>
    obtain ⟨hsrc, hdst, hwrites⟩ := planStep_frame h
    exact hf.frame hsrc hdst hwrites hpasses.drift.isOver
  | cleanup n k =>
    simp only [Handover.step, Option.ite_none_right_eq_some, Option.some.injEq] at h
    obtain ⟨⟨-, hview, hk⟩, rfl⟩ := h
    exact hf.cleanup hs hk hview hfenced.2

end Fence

section History

theorem sourceWrites_mono {u v : Nat} (h : u ≤ v) : sourceWrites s u k <+: sourceWrites s v k :=
  (List.take_prefix_take_left h).filter _

theorem destinationWrites_mono {u v : Nat} (h : u ≤ v) :
    destinationWrites s u k <+: destinationWrites s v k :=
  (List.take_prefix_take_left h).filter _

theorem Drift.sourceWrites_eq (h : Drift c s s') (hs : Guarded c s) {u : Nat}
    (hu : u ≤ s.src.committed) : sourceWrites s' u k = sourceWrites s u k := by
  obtain ⟨tail, ha⟩ := h.src
  rw [sourceWrites, sourceWrites, ha.take_eq hs.source.wf hu]

theorem Drift.destinationWrites_eq (h : Drift c s s') (hs : Guarded c s) {u : Nat}
    (hu : u ≤ s.dst.committed) : destinationWrites s' u k = destinationWrites s u k := by
  obtain ⟨tail, ha, -⟩ := h.dst
  rw [destinationWrites, destinationWrites, ha.take_eq hs.dst hu]

theorem Guarded.sourceWrites_frozen (hs : Guarded c s) {u : Nat} (hu : s.frozen = some u)
    (hk : c.moves k) : sourceWrites s s.src.committed k = sourceWrites s u k := by
  have hsplit : s.src.log.take s.src.committed =
      s.src.log.take u ++ (s.src.log.drop u).take (s.src.committed - u) := by
    have := (hs.source.before u hu).1
    rw [← List.take_add]
    congr 1
    omega
  rw [sourceWrites, hsplit, List.filter_append]
  refine List.append_right_eq_self.mpr (List.filter_eq_nil_iff.mpr fun e he hpe => ?_)
  obtain ⟨hek, ho⟩ := of_decide_eq_true hpe
  exact ho (hs.source.behind u hu e (List.mem_of_mem_take he) (hek ▸ hk))

theorem Passes.sourceWrites_over (h : Passes c s s') (hs : Guarded c s) (hover : s.plan.isOver)
    (hk : c.moves k) :
    sourceWrites s' s'.src.committed k = sourceWrites s s.src.committed k := by
  have hfrozen := hs.frozen_of_completed (hs.handed hover).1
  obtain ⟨u, hu⟩ := Option.isSome_iff_exists.mp hfrozen
  rw [hs.sourceWrites_frozen hu hk,
    h.guarded.sourceWrites_frozen ((h.drift.frozen hfrozen).trans hu) hk,
    h.drift.sourceWrites_eq hs (hs.source.before u hu).1]

/-- A key that clients have written at the destination is a moved one, and the flip is everywhere.
-/
theorem Fence.of_destinationWrites (hf : Fence c s) {u : Nat} (h : destinationWrites s u k ≠ []) :
    c.moves k ∧ AllFlipped c s := by
  obtain ⟨e, he⟩ := List.exists_mem_of_ne_nil _ h
  obtain ⟨hmem, hpe⟩ := List.mem_filter.mp he
  obtain ⟨rfl, ho⟩ := of_decide_eq_true hpe
  exact hf.clients e (.inl (List.mem_of_mem_take hmem)) ho

theorem Passes.history_mono (h : Passes c s s') (hs : Guarded c s) (hf : Fence c s) :
    history s k <+: history s' k := by
  obtain ⟨ts, hsrc⟩ := h.drift.src
  obtain ⟨td, hdst, -⟩ := h.drift.dst
  by_cases hempty : destinationWrites s s.dst.committed k = []
  · rw [history, hempty, List.append_nil, ← h.drift.sourceWrites_eq hs (Nat.le_refl _)]
    exact (sourceWrites_mono hsrc.committed).trans (List.prefix_append _ _)
  · obtain ⟨hk, hall⟩ := hf.of_destinationWrites hempty
    rw [history, history, h.sourceWrites_over hs hall.1 hk,
      ← h.drift.destinationWrites_eq hs (Nat.le_refl _), List.prefix_append_right_inj]
    exact destinationWrites_mono hdst.committed

end History

section Reads

/-- What the sampled index covers, for a node that owned the key when it sampled: at the source all
that the read has seen; at the destination that too, and all that the handover brought. -/
def Covers (s : State K V) (r : Read K V) (index : Nat) : Prop :=
  match r.side with
  | .source => r.seen <+: sourceWrites s index r.key
  | .destination => s.plan.isOver ∧
    r.seen <+: sourceWrites s s.src.committed r.key ++ destinationWrites s index r.key ∧
    PinnedBy s.dst index r.key (· = final s r.key)
      (fun e => e.origin = .client ∨ e.value = final s r.key)

structure ReadOk (c : Layout K) (s : State K V) (r : Read K V) : Prop where
  member : r.side = .source → r.node ∈ c.members
  seen : r.seen <+: history s r.key
  sampled : ∀ x, r.index = some x → x.1 ≤ (s.group r.side).committed ∧
    (owns c r.side r.view r.key → Covers s r x.1)
  confirmed : r.confirmed → ∃ x, r.index = some x ∧ x.1 ≤ (s.group r.side).applied r.node
  owned : r.owned → r.confirmed ∧ owns c r.side r.view r.key

omit [DecidableEq K] in
theorem owns_destination {view : View} (h : owns c .destination view k) :
    c.moves k ∧ view.isOver := by
  simpa [owns] using h

omit [DecidableEq K] in
theorem not_allFlipped {n : Nat} (hn : n ∈ c.members) (hk : c.moves k)
    (h : owns c .source (s.src.view n) k) : ¬ AllFlipped c s := by
  intro hall
  simp [owns, hk, hall.2 n hn] at h

theorem Covers.passes {r : Read K V} {index : Nat} (h : Covers s r index) (hp : Passes c s s')
    (hs : Guarded c s) (hle : index ≤ (s.group r.side).committed)
    (howns : owns c r.side r.view r.key) : Covers s' r index := by
  obtain ⟨side, node, key, idx, confirmed, owned, seen, view⟩ := r
  cases side with
  | source =>
    simp only [Covers] at h ⊢
    rw [hp.drift.sourceWrites_eq hs hle]
    exact h
  | destination =>
    simp only [Covers] at h ⊢
    obtain ⟨hover, hseen, hpinned⟩ := h
    have hk := (owns_destination howns).1
    have hcompleted := (hs.handed hover).1
    obtain ⟨tail, ha, htail⟩ := hp.drift.dst
    refine ⟨hp.drift.isOver hover, ?_, ?_⟩
    · rw [hp.sourceWrites_over hs hover hk, hp.drift.destinationWrites_eq hs hle]
      exact hseen
    · rw [hp.drift.final_eq hs (hs.frozen_of_completed hcompleted)]
      refine hpinned.advances hle hs.dst ha fun e he hek => ?_
      rw [← hek]
      exact (htail e he (hek ▸ hk)).2 hcompleted

theorem Passes.group_committed (h : Passes c s s') (side : Side) :
    (s.group side).committed ≤ (s'.group side).committed ∧
      ∀ n, (s.group side).applied n ≤ (s'.group side).applied n := by
  obtain ⟨ts, hsrc⟩ := h.drift.src
  obtain ⟨td, hdst, -⟩ := h.drift.dst
  cases side with
  | source => exact ⟨hsrc.committed, hsrc.applied⟩
  | destination => exact ⟨hdst.committed, hdst.applied⟩

theorem ReadOk.passes {r : Read K V} (hr : ReadOk c s r) (hp : Passes c s s') (hs : Guarded c s)
    (hf : Fence c s) : ReadOk c s' r := by
  obtain ⟨hcommitted, happlied⟩ := hp.group_committed r.side
  refine ⟨hr.member, hr.seen.trans (hp.history_mono hs hf), fun x hx => ?_, fun hconf => ?_,
    hr.owned⟩
  · obtain ⟨hle, hcovers⟩ := hr.sampled x hx
    exact ⟨Nat.le_trans hle hcommitted, fun howns => (hcovers howns).passes hp hs hle howns⟩
  · obtain ⟨x, hx, hle⟩ := hr.confirmed hconf
    exact ⟨x, hx, Nat.le_trans hle (happlied _)⟩

/-- The index sampled at a leader that owns the key covers what the read has seen. -/
theorem ReadOk.sample {r : Read K V} (hr : ReadOk c s r) (hs : Guarded c s) (hf : Fence c s)
    (howns : owns c r.side ((s.group r.side).view r.node) r.key) :
    Covers s { r with
      index := some ((s.group r.side).committed, (s.group r.side).epoch),
      view := (s.group r.side).view r.node } (s.group r.side).committed := by
  obtain ⟨side, node, key, idx, confirmed, owned, seen, view⟩ := r
  have hseen := hr.seen
  cases side with
  | source =>
    have hempty : destinationWrites s s.dst.committed key = [] := by
      by_contra hne
      obtain ⟨hk, hall⟩ := hf.of_destinationWrites hne
      exact not_allFlipped (hr.member rfl) hk howns hall
    simp only [history, hempty, List.append_nil] at hseen
    exact hseen
  | destination =>
    obtain ⟨hk, hview⟩ := owns_destination howns
    have hover : s.plan.isOver := View.over_of_rank (hs.dstViews node) hview
    exact ⟨hover, hseen, (hs.handed hover).2 key hk⟩

end Reads

section Answers

/-- Past a client's write a key has client writes only, so these decide it. -/
theorem Fence.lookup_destinationWrites (hf : Fence c s) {u : Nat}
    (hne : destinationWrites s u k ≠ []) (a : List (Entry K V)) :
    lookup (s.dst.log.take u) k = lookup (a ++ destinationWrites s u k) k := by
  obtain ⟨e, he⟩ := List.exists_mem_of_ne_nil _ hne
  obtain ⟨hmem, hpe⟩ := List.mem_filter.mp he
  obtain ⟨hek, ho⟩ := of_decide_eq_true hpe
  obtain ⟨l, r, hsplit⟩ := List.append_of_mem hmem
  have horder : (l ++ e :: r).Pairwise fun e e' =>
      e.key = e'.key → e.origin = .client → e'.origin = .client :=
    hsplit ▸ hf.order.sublist (List.take_sublist _ _)
  have hlater : ∀ e' ∈ e :: r, e'.key = k →
      decide (e'.key = k ∧ e'.origin = Origin.client) = true := by
    intro e' he' hek'
    rcases List.mem_cons.mp he' with rfl | he'
    · exact hpe
    · have := (List.pairwise_cons.mp (List.pairwise_append.mp horder).2.1).1 e' he'
      exact decide_eq_true ⟨hek', this (hek.trans hek'.symm) ho⟩
  rw [lookup_append_of_mem ⟨e, he, hek⟩, destinationWrites, hsplit, List.filter_append,
    lookup_append_of_mem ⟨e, List.mem_cons_self, hek⟩,
    lookup_append_of_mem ⟨e, List.mem_filter.mpr ⟨List.mem_cons_self, hpe⟩, hek⟩,
    lookup_filter hlater]

theorem lookup_sourceWrites {u : Nat}
    (h : ∀ e ∈ s.src.log.take u, e.key = k → e.origin ≠ .cleanup) :
    lookup (sourceWrites s u k) k = lookup (s.src.log.take u) k :=
  lookup_filter fun e he hek => decide_eq_true ⟨hek, h e he hek⟩

/-- A source node that still owns the key answers from before the cleanup. -/
theorem ReadOk.fresh_source {r : Read K V} (hr : ReadOk c s r) (hs : Guarded c s) (hf : Fence c s)
    (hside : r.side = .source) (hown : r.owned) (hnow : owns c r.side (s.src.view r.node) r.key) :
    Fresh s ⟨r.key, s.src.read r.node r.key, r.seen⟩ := by
  obtain ⟨side, node, key, idx, confirmed, owned, seen, view⟩ := r
  simp only at hside hnow ⊢
  subst hside
  obtain ⟨hconf, howns⟩ := hr.owned hown
  obtain ⟨x, hx, happlied⟩ := hr.confirmed hconf
  have hcovers : seen <+: sourceWrites s x.1 key := (hr.sampled x hx).2 howns
  refine ⟨sourceWrites s (s.src.applied node) key, hcovers.trans (sourceWrites_mono happlied),
    (sourceWrites_mono (hs.source.wf.applied node)).trans (List.prefix_append _ _), ?_⟩
  refine (lookup_sourceWrites fun e he hek ho => ?_).symm
  obtain ⟨hk, hall⟩ := hf.cleanups e (.inl (List.mem_of_mem_take he)) ho
  exact not_allFlipped (hr.member rfl) (hek ▸ hk) hnow hall

/-- A destination node that owned the key when it sampled has applied the whole handover. -/
theorem ReadOk.fresh_destination {r : Read K V} (hr : ReadOk c s r) (hs : Guarded c s)
    (hf : Fence c s) (hside : r.side = .destination) (hown : r.owned) :
    Fresh s ⟨r.key, s.dst.read r.node r.key, r.seen⟩ := by
  obtain ⟨side, node, key, idx, confirmed, owned, seen, view⟩ := r
  simp only at hside ⊢
  subst hside
  obtain ⟨hconf, howns⟩ := hr.owned hown
  obtain ⟨x, hx, happlied⟩ := hr.confirmed hconf
  obtain ⟨hover, hseen, hpinned⟩ := (hr.sampled x hx).2 howns
  have hk : c.moves key := (owns_destination howns).1
  have hfrozen := hs.frozen_of_completed (hs.handed hover).1
  refine ⟨sourceWrites s s.src.committed key ++ destinationWrites s (s.dst.applied node) key,
    hseen.trans ((List.prefix_append_right_inj _).mpr (destinationWrites_mono happlied)),
    (List.prefix_append_right_inj _).mpr (destinationWrites_mono (hs.dst.applied node)), ?_⟩
  by_cases hempty : destinationWrites s (s.dst.applied node) key = []
  · obtain ⟨u, hu⟩ := Option.isSome_iff_exists.mp hfrozen
    have hvalue : s.dst.read node key = final s key := by
      obtain ⟨p, hp, hpinned⟩ := hpinned
      refine PinnedBy.lookup_eq ⟨p, Nat.le_trans hp happlied, hpinned⟩ fun e he hek hQ => ?_
      refine hQ.resolve_left fun ho => ?_
      exact List.filter_eq_nil_iff.mp hempty e he (decide_eq_true ⟨hek, ho⟩)
    rw [hvalue, hempty, List.append_nil, hs.sourceWrites_frozen hu hk, final, hu, Option.getD_some]
    refine (lookup_sourceWrites fun e he hek => ?_).symm
    exact (hs.source.before u hu).2 e he (hek ▸ hk)
  · exact hf.lookup_destinationWrites hempty _

end Answers

section Runs

variable [DecidableEq V] {t t' : Served K V}

structure ServedOk (c : Layout K) (t : Served K V) : Prop where
  guarded : Guarded c t.handover
  fence : Fence c t.handover
  reads : ∀ r ∈ t.reads, ReadOk c t.handover r
  answers : ∀ a ∈ t.answers, Fresh t.handover a

omit [DecidableEq V] in
theorem ServedOk.set_read (ht : ServedOk c t) {i : Nat} {r : Read K V}
    (hr : ReadOk c t.handover r) : ServedOk c (t.setRead i r) := by
  refine ⟨ht.guarded, ht.fence, fun r' hr' => ?_, ht.answers⟩
  rcases List.mem_or_eq_of_mem_set hr' with hr' | rfl
  · exact ht.reads r' hr'
  · exact hr

theorem ServedOk.step (ht : ServedOk c t) {l : ReadLabel K V} (hfenced : Fenced c t l)
    (h : readStep c t l = some t') : ServedOk c t' := by
  cases l with
  | handover l =>
    obtain ⟨s', hstep, rfl⟩ := Option.map_eq_some_iff.mp h
    have hp := ht.guarded.step hfenced.1 hstep
    refine ⟨hp.guarded, ht.fence.step ht.guarded hfenced hstep,
      fun r hr => (ht.reads r hr).passes hp ht.guarded ht.fence, fun a ha => ?_⟩
    obtain ⟨h, hseen, hle, hvalue⟩ := ht.answers a ha
    exact ⟨h, hseen, hle.trans (hp.history_mono ht.guarded ht.fence), hvalue⟩
  | begin side n k =>
    simp only [readStep, Option.ite_none_right_eq_some, Option.some.injEq] at h
    obtain ⟨⟨-, hmember⟩, rfl⟩ := h
    refine ⟨ht.guarded, ht.fence, fun r hr => ?_, ht.answers⟩
    rcases List.mem_append.mp hr with hr | hr
    · exact ht.reads r hr
    · rw [List.mem_singleton.mp hr]
      exact ⟨hmember, List.prefix_refl _, by simp, by simp, by simp⟩
  | sample i =>
    simp only [readStep, Option.bind_eq_some_iff, Option.ite_none_right_eq_some,
      Option.some.injEq] at h
    obtain ⟨r, hr, ⟨hindex, -⟩, rfl⟩ := h
    have hok := ht.reads r (List.mem_of_getElem? hr)
    refine ht.set_read ⟨hok.member, hok.seen, fun x hx => ?_, fun hconf => ?_, fun hown => ?_⟩
    · obtain rfl := Option.some.inj hx
      exact ⟨Nat.le_refl _, hok.sample ht.guarded ht.fence⟩
    · obtain ⟨x, hx, -⟩ := hok.confirmed hconf
      rw [hindex] at hx
      cases hx
    · obtain ⟨x, hx, -⟩ := hok.confirmed (hok.owned hown).1
      rw [hindex] at hx
      cases hx
  | confirm i =>
    simp only [readStep, Option.bind_eq_some_iff, Option.ite_none_right_eq_some,
      Option.some.injEq] at h
    obtain ⟨r, hr, x, hx, ⟨-, happlied⟩, rfl⟩ := h
    have hok := ht.reads r (List.mem_of_getElem? hr)
    exact ht.set_read ⟨hok.member, hok.seen, hok.sampled, fun _ => ⟨x, hx, happlied⟩,
      fun hown => ⟨rfl, (hok.owned hown).2⟩⟩
  | own i =>
    simp only [readStep, Option.bind_eq_some_iff, Option.ite_none_right_eq_some,
      Option.some.injEq] at h
    obtain ⟨r, hr, ⟨hconf, -⟩, rfl⟩ := h
    have hok := ht.reads r (List.mem_of_getElem? hr)
    exact ht.set_read ⟨hok.member, hok.seen, hok.sampled, hok.confirmed,
      fun _ => ⟨hconf, hfenced r hr⟩⟩
  | answer i =>
    simp only [readStep, Option.bind_eq_some_iff, Option.ite_none_right_eq_some,
      Option.some.injEq] at h
    obtain ⟨r, hr, hown, rfl⟩ := h
    have hok := ht.reads r (List.mem_of_getElem? hr)
    have hnow := hfenced r hr
    refine ⟨ht.guarded, ht.fence, ht.reads, fun a ha => ?_⟩
    rcases List.mem_append.mp ha with ha | ha
    · exact ht.answers a ha
    · rw [List.mem_singleton.mp ha]
      cases hside : r.side with
      | source =>
        refine hok.fresh_source ht.guarded ht.fence hside hown ?_
        simpa [hside, State.group] using hnow
      | destination => exact hok.fresh_destination ht.guarded ht.fence hside hown

/-- A handover that begins, with no read under way and no client write at the destination. -/
structure InitServed (t : Served K V) : Prop where
  handover : Init t.handover
  idle : t.reads = [] ∧ t.answers = []
  clients : ∀ e, e ∈ t.handover.dst.log ∨ e ∈ t.handover.dst.ever → e.origin ≠ .client

omit [DecidableEq V] in
theorem InitServed.ok (h : InitServed t) : ServedOk c t where
  guarded := h.handover.guarded
  fence := by
    refine ⟨by simp [h.handover.idle.1], fun e he ho => absurd ho (h.clients e he), ?_,
      fun e he ho => absurd ho (h.handover.uncleaned e he)⟩
    exact List.pairwise_of_forall_mem_list fun e he _ _ _ ho => absurd ho (h.clients e (.inl he))
  reads := by simp [h.idle.1]
  answers := by simp [h.idle.2]

theorem ServedOk.exclusive (ht : ServedOk c t) {l : ReadLabel K V} (hfenced : Fenced c t l)
    (h : readStep c t l = some t') : Exclusive c t l := by
  cases l with
  | handover l =>
    cases l with
    | write a =>
      cases a with
      | accept side n k v =>
        obtain ⟨s', hstep, rfl⟩ := Option.map_eq_some_iff.mp h
        simp only [Handover.step, writeStep, Option.ite_none_right_eq_some] at hstep
        have haccepts := hstep.1.2
        cases side with
        | source =>
          intro m
          by_contra howns
          obtain ⟨hk, hview⟩ := owns_destination (Bool.not_eq_false _ ▸ howns)
          have hover : t.handover.plan.isOver := View.over_of_rank (ht.guarded.dstViews m) hview
          have hrefused := not_accepts_of_rank (c := c) hk (hfenced.2 hover)
          exact absurd haccepts (by simp [State.group, hrefused])
        | destination =>
          intro m hm
          have howns : owns c .destination (t.handover.dst.view n) k := by
            rw [accepts, Bool.and_eq_true] at haccepts
            exact haccepts.1
          simp [owns, (owns_destination howns).1, hfenced.2 m hm]
      | release i => trivial
      | append i => trivial
    | _ => trivial
  | _ => trivial

instance (c : Layout K) (t : Served K V) (l : ReadLabel K V) : Decidable (Fenced c t l) := by
  rcases l with l | _ | _ | _ | _ | _
  · refine @instDecidableAnd (Calm c t.handover l) _ inferInstance ?_
    rcases l with _ | _ | (side | _ | _) | _ | (_ | _ | _) | _ | _ | _
    case write.accept => cases side <;> infer_instance
    all_goals infer_instance
  all_goals
    unfold Fenced
    infer_instance

def leftoverServed : Served Nat Nat := ⟨leftover, [], []⟩

theorem leftoverServed_init : InitServed leftoverServed where
  handover := leftover_init
  idle := ⟨rfl, rfl⟩
  clients := by simp [leftoverServed, leftover]

def handedOver : List (ReadLabel Nat Nat) :=
  List.map .handover (copyPhase ++ [Label.group .source (.commit 3)] ++ adoptFinal ++
    [Label.push (.plan 1 [0])] ++ resetPhase ++ finalCopy ++ flip)

/-- The destination adopts the flip, takes a client's write of document 0 and commits it. -/
def writtenAfter : List (ReadLabel Nat Nat) :=
  List.map .handover [.adopt .destination 10 (.flipped 0),
    .write (.accept .destination 10 0 (some 7)), .write (.append 1),
    .group .destination (.commit 4)]

def quorumRead (i : Nat) (side : Side) (n : Nat) : List (ReadLabel Nat Nat) :=
  [.begin side n 0, .sample i, .confirm i, .own i, .answer i]

end Runs

end DewDB.Handover
