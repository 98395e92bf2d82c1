import DewDB.HandoverPushes

/-!
# Nothing is lost and nothing comes back

After a reset the destination has none of the moved keys, or what is final of them; after the final
pass it has exactly that. A calm run keeps both, so once the target ring is published the
destination's committed state of a moved key is the source's.
-/
namespace DewDB.Handover

open GroupLog ShardGroup HandoverPlan TransitionSystem

variable {K V : Type} [DecidableEq K] {c : Layout K} {s s' : State K V}

section Batches

/-- What a batch appends keeps to what is final once a reset has been made. -/
theorem Guarded.batch_tail (hs : Guarded c s) {batch : MigrateBatch K V} (hb : BatchOk c s batch)
    (hcalm : c.target = s.dst.leader → batch.phase = .copy → s.scanned = false)
    (hleads : c.target = s.dst.leader) {e : Entry K V}
    (he : e ∈ batch.docs.map fun d => ⟨d.1, some d.2, .handover⟩) :
    (s.scanned → e.value = final s e.key) ∧ (s.completed → e.value = final s e.key) := by
  obtain ⟨d, hd, rfl⟩ := List.mem_map.mp he
  have hscanned : s.scanned → some d.2 = final s d.1 := fun hscanned => by
    cases hphase : batch.phase with
    | copy =>
      rw [hcalm hleads hphase] at hscanned
      cases hscanned
    | finalizing => exact ((hb.2 hphase).2 d hd).symm
  exact ⟨hscanned, fun hcompleted => hscanned (hs.completed hcompleted).1⟩

/-- A document of a final batch is held at the end of what the batch appended. -/
theorem held_of_batch {g : ShardGroup K V View} {docs : List (K × V)} {f : K → Option V}
    {Q : Entry K V → Prop} (hdocs : ∀ d ∈ docs, f d.1 = some d.2) {d : K × V} (hd : d ∈ docs)
    {n : Nat} (hn : n = g.leader) :
    let g' := g.appendAt n (docs.map fun d => ⟨d.1, some d.2, .handover⟩)
    Held g' d.1 (· = f d.1) Q g.epoch g'.log.length := by
  intro g'
  refine ⟨Nat.le_refl _, fun _ => ⟨Nat.le_refl _, ?_, by simp⟩⟩
  rw [List.take_length]
  have hlog : g'.log = g.log ++ docs.map fun d => ⟨d.1, some d.2, .handover⟩ := by
    simp [g', appendAt, hn]
  rw [hlog]
  have hmem : ∀ e ∈ docs.map (fun d => (⟨d.1, some d.2, .handover⟩ : Entry K V)), e.key = d.1 →
      e.value = f d.1 := by
    intro e he hek
    obtain ⟨d', hd', rfl⟩ := List.mem_map.mp he
    simp only at hek
    rw [← hek, hdocs d' hd']
  refine lookup_append_eq_of_mem hmem ⟨⟨d.1, some d.2, .handover⟩,
    List.mem_map.mpr ⟨d, hd, rfl⟩, rfl⟩

theorem Guarded.batch (hs : Guarded c s) {a : BatchAct} (h : batchStep c s a = some s')
    (hcalm : Calm c s (.batch a)) : Passes c s s' := by
  cases a with
  | check b =>
    simp only [batchStep, Option.bind_eq_some_iff, Option.ite_none_right_eq_some,
      Option.some.injEq] at h
    obtain ⟨batch, -, -, rfl⟩ := h
    exact hs.of_keeps ⟨rfl, rfl, rfl, rfl, rfl, rfl, rfl, rfl, rfl⟩ rfl rfl
  | append i =>
    simp only [batchStep, Option.bind_eq_some_iff, Option.some.injEq] at h
    obtain ⟨b, hi, batch, hbatch, rfl⟩ := h
    have hb := hs.batches batch (List.mem_of_getElem? hbatch)
    obtain ⟨hwf, ha⟩ := appendAt_spec s.dst c.target
      (batch.docs.map fun d => ⟨d.1, some d.2, .handover⟩) hs.dst
    have htail := hs.batch_tail hb (hcalm b hi batch hbatch)
    refine hs.of_drift ⟨⟨[], .of_eq rfl rfl rfl rfl⟩, ⟨_, ha, fun e he _ => ?_⟩,
      fun _ => rfl, List.prefix_refl _, id, id, id⟩ (hs.source.frame rfl rfl rfl) hwf hs.dstViews
      .inl .inl .inl (fun p => .inl) (fun b => .inl) ?_ (fun r hr => .inl ⟨hr, rfl⟩) .inl
    · obtain ⟨hleads, he⟩ := mem_of_mem_ite he
      obtain ⟨h₁, h₂⟩ := htail hleads he
      exact ⟨fun h => .inr (.inr (h₁ h)), fun h => .inr (h₂ h)⟩
    · intro w hw
      by_cases hleads : c.target = s.dst.leader
      · simp only [if_pos hleads] at hw
        rcases List.mem_append.mp hw with hw | hw
        · exact .inl hw
        rw [List.mem_singleton.mp hw]
        refine .inr ⟨batch, hbatch, fun hphase d hd => ⟨?_, fun h => by cases h⟩⟩
        exact held_of_batch (hb.2 hphase).2 hd hleads
      · simp only [if_neg hleads] at hw
        exact .inl hw
  | met i =>
    simp only [batchStep, Option.bind_eq_some_iff, Option.ite_none_right_eq_some,
      Option.some.injEq] at h
    obtain ⟨w, hw, ⟨hepoch, hcommitted⟩, rfl⟩ := h
    have hdrift : Drift c s { s with written := s.written.set i { w with met := true } } :=
      .of_eq rfl rfl (fun _ => rfl) (List.prefix_refl _) id id id
    refine hs.of_drift hdrift (hs.source.frame rfl rfl rfl) hs.dst hs.dstViews .inl .inl .inl
      (fun p => .inl) (fun b => .inl) (fun w' hw' => ?_) (fun r hr => .inl ⟨hr, rfl⟩) .inl
    rcases List.mem_or_eq_of_mem_set hw' with hw' | rfl
    · exact .inl hw'
    obtain ⟨batch, hbatch, hfinal⟩ := hs.written w (List.mem_of_getElem? hw)
    refine .inr ⟨batch, hbatch, fun hphase d hd => ?_⟩
    obtain ⟨hheld, -⟩ := hfinal hphase d hd
    exact ⟨hheld, fun _ => hheld.pinned hepoch hcommitted⟩

end Batches

section Resets

/-- What a reset does not list is not there, and nothing of it is staged. -/
theorem settled_of_scan (hs : Guarded c s) {keys : List K}
    (hkeys : keys.Perm (movedKeys c s.dst c.target))
    (hstaged : ∀ e ∈ s.dst.log.drop (s.dst.applied c.target), c.moves e.key = false) {k : K}
    (hk : c.moves k) (hmem : k ∉ keys) (v : Option V) : Settled s.dst k v := by
  refine ⟨s.dst.applied c.target, hs.dst.applied _, .inl ?_, fun e he hek => ?_⟩
  · rw [hkeys.mem_iff, mem_movedKeys, not_and, Bool.not_eq_true, Option.isSome_eq_false_iff,
      Option.isNone_iff_eq_none] at hmem
    exact hmem hk
  · have := hstaged e he
    rw [hek, hk] at this
    cases this

theorem Guarded.reset_scan (hs : Guarded c s) {keys : List K} (hsent : s.resetSent)
    (hopen : s.completed = false) (hkeys : keys.Perm (movedKeys c s.dst c.target))
    (hstaged : ∀ e ∈ s.dst.log.drop (s.dst.applied c.target), c.moves e.key = false) :
    Passes c s { s with reset := some ⟨keys, none⟩, scanned := true } := by
  refine hs.of_drift (.of_eq rfl rfl (fun _ => rfl) (List.prefix_refl _) id (fun _ => rfl) id)
    (hs.source.frame rfl rfl rfl) hs.dst hs.dstViews .inl (fun _ => .inr (hs.sent hsent)) .inl
    (fun p => .inl) (fun b => .inl) (fun w => .inl) ?_ .inl
  intro r hr
  rw [← Option.some.inj hr]
  refine .inr ⟨hopen, rfl, fun k hk => (mem_movedKeys.mp (hkeys.mem_iff.mp hk)).1, fun k hk => ?_,
    fun w hw => by cases hw⟩
  by_cases hmem : k ∈ keys
  · exact .inl hmem
  · exact .inr (settled_of_scan hs hkeys hstaged hk hmem _)

/-- A tombstone is appended, and the reset waits for it if its node leads. -/
theorem Guarded.reset_tombstone (hs : Guarded c s) {r : Reset K} {k : K} {reset : Option (Reset K)}
    (hr : ResetOk c s r) (hhead : r.left.head? = some k)
    (hreset : ∀ r', reset = some r' → c.target = s.dst.leader ∧
      r' = ⟨r.left,
        some (s.dst.epoch, (s.dst.log ++ [(⟨k, none, .handover⟩ : Entry K V)]).length)⟩) :
    Passes c s
      { s with dst := s.dst.appendAt c.target [⟨k, none, .handover⟩], reset := reset } := by
  obtain ⟨hwf, ha⟩ := appendAt_spec s.dst c.target [⟨k, none, .handover⟩] hs.dst
  have hdrift : Drift c s
      { s with dst := s.dst.appendAt c.target [⟨k, none, .handover⟩], reset := reset } := by
    refine ⟨⟨[], .of_eq rfl rfl rfl rfl⟩, ⟨_, ha, fun e he _ => ?_⟩, fun _ => rfl,
      List.prefix_refl _, id, id, id⟩
    obtain ⟨-, he⟩ := mem_of_mem_ite he
    rw [List.mem_singleton.mp he]
    exact ⟨fun _ => .inr (.inl rfl), fun h => by simp [hr.open_] at h⟩
  refine hs.of_drift hdrift (hs.source.frame rfl rfl rfl) hwf hs.dstViews .inl .inl .inl
    (fun p => .inl) (fun b => .inl) (fun w => .inl) ?_ .inl
  intro r' hr'
  obtain ⟨hleads, rfl⟩ := hreset r' hr'
  have hold := hr.drift hs hdrift hr.open_
  refine .inr ⟨hold.open_, hold.scanned, hold.moved, hold.settled, fun w hw k' hk' => ?_⟩
  obtain rfl := Option.some.inj hw
  obtain rfl : k = k' := Option.some.inj (hhead.symm.trans hk')
  have hlog : (s.dst.appendAt c.target [⟨k, none, .handover⟩]).log =
      s.dst.log ++ [⟨k, none, .handover⟩] := by
    simp [appendAt, hleads]
  refine ⟨Nat.le_refl _, fun _ => ?_⟩
  rw [hlog]
  refine ⟨Nat.le_refl _, .inl ?_, by simp⟩
  rw [List.take_length, lookup_concat, if_pos rfl]

theorem ResetOk.met {r : Reset K} {w : Nat × Nat} (hr : ResetOk c s r) (hw : r.waiting = some w)
    (hepoch : w.1 = s.dst.epoch) (hcommitted : w.2 ≤ s.dst.committed) :
    ResetOk c s ⟨r.left.tail, none⟩ := by
  refine ⟨hr.open_, hr.scanned, fun k hk => hr.moved k (List.mem_of_mem_tail hk), fun k hk => ?_,
    fun w hw => by cases hw⟩
  rcases hr.settled k hk with hmem | hset
  · cases hleft : r.left with
    | nil => simp [hleft] at hmem
    | cons k₀ rest =>
      rw [hleft] at hmem
      rcases List.mem_cons.mp hmem with rfl | hmem
      · exact .inr ((hr.waiting w hw k (by rw [hleft]; rfl)).pinned hepoch hcommitted)
      · exact .inl hmem
  · exact .inr hset

theorem Guarded.reset_step (hs : Guarded c s) {a : ResetAct K} (h : resetStep c s a = some s')
    (hcalm : Calm c s (.reset a)) : Passes c s s' := by
  cases a with
  | scan keys =>
    simp only [resetStep, Option.ite_none_right_eq_some, Option.some.injEq] at h
    obtain ⟨⟨hsent, -, hopen, -, -, hkeys⟩, rfl⟩ := h
    exact hs.reset_scan hsent hopen hkeys hcalm
  | tombstone =>
    simp only [resetStep, Option.bind_eq_some_iff, Option.ite_none_right_eq_some,
      Option.some.injEq] at h
    obtain ⟨r, hr, k, hk, -, rfl⟩ := h
    refine hs.reset_tombstone (hs.reset r hr) hk fun r' hr' => ?_
    by_cases hleads : c.target = s.dst.leader
    · simp only [if_pos hleads, Option.some.injEq] at hr'
      refine ⟨hleads, ?_⟩
      rw [← hr']
      simp [appendAt, hleads]
    · simp [if_neg hleads] at hr'
  | met =>
    simp only [resetStep, Option.bind_eq_some_iff, Option.ite_none_right_eq_some,
      Option.some.injEq] at h
    obtain ⟨r, hr, w, hw, ⟨hepoch, hcommitted⟩, rfl⟩ := h
    have hok := (hs.reset r hr).met hw hepoch hcommitted
    have hdrift : Drift c s { s with reset := some ⟨r.left.tail, none⟩ } :=
      .of_eq rfl rfl (fun _ => rfl) (List.prefix_refl _) id id id
    refine hs.of_drift hdrift (hs.source.frame rfl rfl rfl) hs.dst hs.dstViews .inl .inl .inl
      (fun p => .inl) (fun b => .inl) (fun w => .inl) (fun r' hr' => ?_) .inl
    rw [← Option.some.inj hr']
    exact .inr (hok.drift hs hdrift hok.open_)
  | complete =>
    simp only [resetStep, Option.bind_eq_some_iff, Option.ite_none_right_eq_some,
      Option.some.injEq] at h
    obtain ⟨r, hr, hleft, rfl⟩ := h
    have hok := hs.reset r hr
    refine hs.of_drift (.of_eq rfl rfl (fun _ => rfl) (List.prefix_refl _) (fun _ => rfl) id id)
      (hs.source.frame rfl rfl rfl) hs.dst hs.dstViews .inl .inl
      (fun _ => .inr ⟨hok.scanned, fun k hk => ?_⟩) (fun p => .inl) (fun b => .inl) (fun w => .inl)
      (fun r' hr' => by cases hr') .inl
    exact (hok.settled k hk).resolve_left (by simp [hleft])
  | drop =>
    simp only [resetStep, Option.bind_eq_some_iff, Option.some.injEq] at h
    obtain ⟨r, -, rfl⟩ := h
    exact hs.of_drift (.of_eq rfl rfl (fun _ => rfl) (List.prefix_refl _) id id id)
      (hs.source.frame rfl rfl rfl) hs.dst hs.dstViews .inl .inl .inl (fun p => .inl)
      (fun b => .inl) (fun w => .inl) (fun r' hr' => by cases hr') .inl
  | orphan i =>
    simp only [resetStep, Option.bind_eq_some_iff, Option.some.injEq] at h
    obtain ⟨k, -, rfl⟩ := h
    obtain ⟨hwf, ha⟩ := appendAt_spec s.dst c.target [⟨k, none, .handover⟩] hs.dst
    refine hs.at_destination ⟨rfl, rfl, rfl, rfl, rfl, rfl, rfl, rfl, rfl⟩ rfl ha hwf hs.dstViews
      fun e he _ => ?_
    obtain ⟨hleads, he⟩ := mem_of_mem_ite he
    rw [List.mem_singleton.mp he]
    exact ⟨fun _ => .inr (.inl rfl), fun h => by simp [hcalm hleads] at h⟩

end Resets

section Rings

theorem Guarded.set_plan (hs : Guarded c s) {plan : View} (hrank : s.plan.rank ≤ plan.rank)
    (hhanded : plan.isOver → s.plan.isOver ∨
      s.completed ∧ ∀ k, c.moves k → Copied s.dst k (final s k)) :
    Passes c s { s with plan := plan } := by
  have hover : s.plan.isOver → plan.isOver := View.over_of_rank hrank
  refine hs.of_drift (.of_eq rfl rfl (fun _ => rfl) (List.prefix_refl _) id id hover)
    ⟨hs.source.wf, fun n => Nat.le_trans (hs.source.views n) hrank, fun e he hclean => ?_,
      hs.source.before, hs.source.behind⟩
    hs.dst (fun n => Nat.le_trans (hs.dstViews n) hrank) .inl .inl .inl (fun p => .inl)
    (fun b => .inl) (fun w => .inl) (fun r hr => .inl ⟨hr, rfl⟩) hhanded
  obtain ⟨hnone, ho⟩ := hs.source.cleaned e he hclean
  exact ⟨hnone, hover ho⟩

theorem FinalPass.copied {p : Push K V} (hp : FinalPass c s p) (hs : Guarded c s)
    (hstage : p.stage = .finished) (hover : s.plan.isOver = false) :
    s.completed ∧ ∀ k, c.moves k → Copied s.dst k (final s k) := by
  have hcompleted := hp.ready (.inr hstage)
  obtain ⟨hleft, hdocs, hwaiting⟩ := hp.done hstage
  refine ⟨hcompleted, fun k hk => ?_⟩
  cases hval : final s k with
  | none =>
    have hset := (hs.completed hcompleted).2 k hk
    rw [hval] at hset
    exact hset.copied
  | some v =>
    rw [← hval]
    rcases hp.left hover k hk (by simp [hval]) with h | h | ⟨b, -, hb, -⟩ | h
    · simp [hleft] at h
    · simp [hdocs] at h
    · rw [hwaiting] at hb
      cases hb
    · exact h.2

theorem Guarded.plan_step (hs : Guarded c s) {a : PlanAct} (h : planStep s a = some s') :
    Passes c s s' := by
  cases a with
  | finalize j =>
    simp only [planStep, Option.bind_eq_some_iff, Option.ite_none_right_eq_some,
      Option.some.injEq] at h
    obtain ⟨p, -, ⟨hplan, -, -⟩, rfl⟩ := h
    exact hs.set_plan (by rw [hplan]; decide) fun h => by cases h
  | publish j =>
    simp only [planStep, Option.bind_eq_some_iff, Option.ite_none_right_eq_some,
      Option.some.injEq] at h
    obtain ⟨p, hp, ⟨hplan, hphase, hstage⟩, rfl⟩ := h
    have hok := hs.pushes p (List.mem_of_getElem? hp)
    have hfinal := hok.final hphase (by rw [hstage]; rfl)
    exact hs.set_plan (by rw [hplan]; decide) fun _ =>
      .inr (hfinal.copied hs hstage (by rw [hplan]; rfl))
  | nextRing =>
    simp only [planStep] at h
    split at h
    · rename_i n hplan
      rw [← Option.some.inj h]
      refine hs.set_plan ?_ fun _ => .inl (by rw [hplan]; rfl)
      simp only [hplan, View.rank]
      omega
    · cases h

end Rings

section Runs

variable [DecidableEq V]

theorem Guarded.step (hs : Guarded c s) {l : Label K V} (hcalm : Calm c s l)
    (h : step c s l = some s') : Passes c s s' := by
  cases l with
  | group side a =>
    obtain ⟨g, hg, rfl⟩ := Option.map_eq_some_iff.mp h
    cases side with
    | source => exact hs.group_source hg hcalm
    | destination => exact hs.group_destination hg hcalm
  | adopt side n v =>
    obtain ⟨g, hg, rfl⟩ := Option.map_eq_some_iff.mp h
    exact hs.adopt hg
  | write a => exact hs.write h hcalm
  | push a => exact hs.push h hcalm
  | batch a => exact hs.batch h hcalm
  | reset a => exact hs.reset_step h hcalm
  | plan a => exact hs.plan_step h
  | cleanup n k =>
    simp only [Handover.step, Option.ite_none_right_eq_some, Option.some.injEq] at h
    obtain ⟨⟨-, hview, -⟩, rfl⟩ := h
    exact hs.cleanup hview

/-- A handover that begins: the plan is out, the destination may hold leftovers of an earlier one.
-/
structure Init (s : State K V) : Prop where
  src : s.src.Wf
  dst : s.dst.Wf
  plan : s.plan = .copying
  views : ∀ side n, ((s.group side).view n).rank ≤ s.plan.rank
  idle : s.writes = [] ∧ s.pushes = [] ∧ s.batches = [] ∧ s.admitted = [] ∧ s.written = [] ∧
    s.resetSent = false ∧ s.reset = none ∧ s.orphans = [] ∧ s.completed = false ∧
    s.frozen = none ∧ s.scanned = false
  uncleaned : ∀ e, e ∈ s.src.log ∨ e ∈ s.src.ever → e.origin ≠ .cleanup

omit [DecidableEq V] in
theorem Init.guarded (h : Init s) : Guarded c s := by
  obtain ⟨-, hpushes, hbatches, -, hwritten, hsent, hreset, -, hcompleted, hfrozen, hscanned⟩ :=
    h.idle
  refine ⟨⟨h.src, h.views .source, fun e he ho => absurd ho (h.uncleaned e he), ?_, ?_⟩, h.dst,
    h.views .destination, ?_, ?_, ?_, ?_, ?_, ?_, ?_, ?_⟩
  all_goals simp [hpushes, hbatches, hwritten, hsent, hreset, hcompleted, hfrozen, hscanned, h.plan,
    View.isOver]

/-- What the source's writes leave for `k`, whatever the cleanup after the flip deletes. -/
def finalState (log : List (Entry K V)) (k : K) : Option V :=
  lookup (log.filter fun e => e.origin ≠ .cleanup) k

omit [DecidableEq V] in
theorem Guarded.finalState_eq (hs : Guarded c s) (hfrozen : s.frozen.isSome) {k : K}
    (hk : c.moves k) : finalState (s.src.log.take s.src.committed) k = final s k := by
  obtain ⟨u, hu⟩ := Option.isSome_iff_exists.mp hfrozen
  obtain ⟨hle, hbefore⟩ := hs.source.before u hu
  have hsplit : s.src.log.take s.src.committed =
      s.src.log.take u ++ (s.src.log.drop u).take (s.src.committed - u) := by
    rw [← List.take_add]
    congr 1
    omega
  rw [finalState, hsplit, List.filter_append, lookup_append_of_forall, lookup_filter, final, hu,
    Option.getD_some]
  · intro e he hek
    simpa using hbefore e he (hek ▸ hk)
  · intro e he hek
    obtain ⟨hmem, ho⟩ := List.mem_filter.mp he
    exact (of_decide_eq_true ho) (hs.source.behind u hu e (List.mem_of_mem_take hmem) (hek ▸ hk))

/-- In a calm run, once the target ring is published, the destination's committed state of a moved
key that no client has written there yet is the source's, and nothing of it is still to be committed
at the source. -/
theorem handover_keeps_every_key {s₀ : State K V} {as : List (Label K V)} (h₀ : Init s₀)
    (hrun : run (Handover.step c) s₀ as = some s) (hcalm : Meets (Handover.step c) (Calm c) s₀ as)
    (hover : s.plan.isOver) {k : K} (hk : c.moves k)
    (hclient : ∀ e ∈ s.dst.log, e.key = k → e.origin ≠ .client) :
    lookup (s.dst.log.take s.dst.committed) k = finalState (s.src.log.take s.src.committed) k ∧
      ∀ e ∈ s.src.log.drop s.src.committed, e.key = k → e.origin = .cleanup := by
  have hs : Guarded c s :=
    run_invariant_of_meets (fun s l s' hs hok h => (hs.step hok h).guarded) hrun hcalm h₀.guarded
  obtain ⟨hcompleted, hcopied⟩ := hs.handed hover
  have hfrozen := hs.frozen_of_completed hcompleted
  obtain ⟨u, hu⟩ := Option.isSome_iff_exists.mp hfrozen
  refine ⟨?_, fun e he hek => ?_⟩
  · rw [hs.finalState_eq hfrozen hk]
    exact PinnedBy.lookup_eq (hcopied k hk) fun e he hek hQ =>
      hQ.resolve_left (hclient e (List.mem_of_mem_take he) hek)
  · refine hs.source.behind u hu e ?_ (hek ▸ hk)
    exact List.drop_subset_drop_left _ (hs.source.before u hu).1 he

instance (c : Layout K) (s : State K V) (l : Label K V) : Decidable (Calm c s l) := by
  unfold Calm
  split <;> infer_instance

/-- Node 0 is the source group and node 10 the destination group. The source holds a deleted
document, which an earlier handover left at the destination. -/
def leftover : State Nat Nat where
  src := ⟨[⟨1, some 6, .client⟩, ⟨1, none, .client⟩], 2, fun _ => 2, 0, [0], 0,
    fun _ => .copying, []⟩
  dst := ⟨[⟨1, some 6, .handover⟩], 1, fun _ => 1, 10, [10], 0, fun _ => .copying, []⟩
  plan := .copying
  writes := []
  pushes := []
  batches := []
  admitted := []
  written := []
  resetSent := false
  reset := none
  orphans := []
  completed := false
  frozen := none
  scanned := false

def twoGroups : Layout Nat := ⟨fun _ => true, [0], 10⟩

theorem leftover_init : Init leftover where
  src := ⟨by decide, fun _ => Nat.le_refl _⟩
  dst := ⟨by decide, fun _ => Nat.le_refl _⟩
  plan := rfl
  views side n := by cases side <;> exact Nat.le_refl _
  idle := ⟨rfl, rfl, rfl, rfl, rfl, rfl, rfl, rfl, rfl, rfl, rfl⟩
  uncleaned := by simp [leftover]

/-- The bulk copy finds nothing, and a client puts document 0 before the source adopts the final
phase. -/
def copyPhase : List (Label Nat Nat) :=
  [.push (.begin 0 .copy), .push (.gate 0), .push (.plan 0 []), .push (.copy 0), .push (.finish 0),
    .plan (.finalize 0), .write (.accept .source 0 0 (some 5)), .write (.append 0),
    .write (.release 0)]

def adoptFinal : List (Label Nat Nat) :=
  [.adopt .source 0 .finalizing, .adopt .destination 10 .finalizing, .push (.begin 0 .finalizing),
    .push (.gate 1)]

def resetPhase : List (Label Nat Nat) :=
  [.push (.sendReset 1), .reset (.scan [1]), .reset .tombstone, .group .destination (.commit 2),
    .reset .met, .reset .complete, .push (.resetDone 1)]

def finalCopy : List (Label Nat Nat) :=
  [.push (.read 1 1), .push (.send 1 0), .batch (.check 0), .batch (.append 0),
    .group .destination (.commit 3), .batch (.met 0), .push (.received 1 0)]

def flip : List (Label Nat Nat) := [.push (.finish 1), .plan (.publish 1)]

/-- The client's write commits before the final pass, which then copies it. -/
theorem handover_keeps_every_key_two :
    ∃ s, run (Handover.step twoGroups) leftover (copyPhase ++ [Label.group .source (.commit 3)] ++
        adoptFinal ++ [Label.push (.plan 1 [0])] ++ resetPhase ++ finalCopy ++ flip) = some s ∧
      finalState (s.src.log.take s.src.committed) 0 = some 5 ∧
      lookup (s.dst.log.take s.dst.committed) 0 = some 5 ∧
      lookup (s.dst.log.take s.dst.committed) 1 = none := by
  have hout : (run (Handover.step twoGroups) leftover
    (copyPhase ++ [Label.group .source (.commit 3)] ++
      adoptFinal ++ [Label.push (.plan 1 [0])] ++ resetPhase ++ finalCopy ++ flip)).any (fun s =>
        s.plan.isOver && decide (∀ e ∈ s.dst.log, e.origin ≠ .client) &&
        decide (finalState (s.src.log.take s.src.committed) 0 = some 5) &&
        decide (finalState (s.src.log.take s.src.committed) 1 = none)) = true := by
    decide
  obtain ⟨s, hrun, hs⟩ := (Option.any_eq_true _ _).mp hout
  simp only [Bool.and_eq_true, decide_eq_true_eq] at hs
  obtain ⟨⟨⟨hover, hclient⟩, hzero⟩, hone⟩ := hs
  have hkeys := fun k => handover_keeps_every_key leftover_init hrun (by decide) hover
    (k := k) rfl fun e he _ => hclient e he
  exact ⟨s, hrun, hzero, (hkeys 0).1.trans hzero, (hkeys 1).1.trans hone⟩

/-- The write is acknowledged and staged when the final pass is planned, which finds nothing to
copy; it commits at the source after the flip and is nowhere at the destination. -/
theorem staged_write_lost :
    ∃ s, Init leftover ∧ run (Handover.step twoGroups) leftover (copyPhase ++ adoptFinal ++
        [Label.push (.plan 1 [])] ++ resetPhase ++ flip ++
          [Label.group .source (.commit 3)]) = some s ∧
      s.plan.isOver ∧ (∀ e ∈ s.dst.log, e.origin ≠ .client) ∧
      finalState (s.src.log.take s.src.committed) 0 = some 5 ∧
      lookup (s.dst.log.take s.dst.committed) 0 = none := by
  have hout : (run (Handover.step twoGroups) leftover (copyPhase ++ adoptFinal ++
      [Label.push (.plan 1 [])] ++ resetPhase ++ flip ++
        [Label.group .source (.commit 3)])).any (fun s =>
        s.plan.isOver && decide (∀ e ∈ s.dst.log, e.origin ≠ .client) &&
        decide (finalState (s.src.log.take s.src.committed) 0 = some 5) &&
        decide (lookup (s.dst.log.take s.dst.committed) 0 = none)) = true := by
    decide
  obtain ⟨s, hrun, hs⟩ := (Option.any_eq_true _ _).mp hout
  simp only [Bool.and_eq_true, decide_eq_true_eq] at hs
  exact ⟨s, leftover_init, hrun, hs.1.1.1, hs.1.1.2, hs.1.2, hs.2⟩

end Runs

end DewDB.Handover
