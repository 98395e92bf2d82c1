import DewDB.HandoverSteps
import Mathlib.Data.List.Dedup

/-!
# The pushes of a calm handover

A final pass reads what is final, and by the time it has finished every moved key that the source
holds is copied.
-/
namespace DewDB.Handover

open GroupLog ShardGroup HandoverPlan

variable {K V : Type} [DecidableEq K] {c : Layout K} {s s' : State K V} {p : Push K V}

section Reading

/-- A node that missed no moved key of what is frozen reads what is final, or nothing once the
cleanup has begun. -/
theorem read_final (hs : SourceOk c s) {u n : Nat} (hu : s.frozen = some u)
    (hcaught : ∀ e ∈ (s.src.log.take u).drop (s.src.applied n), c.moves e.key = false) {k : K}
    (hk : c.moves k) : s.src.read n k = final s k ∨ s.src.read n k = none ∧ s.plan.isOver := by
  have hfinal : final s k = lookup (s.src.log.take u) k := by rw [final, hu, Option.getD_some]
  rcases Nat.le_total (s.src.applied n) u with hle | hle
  · have hsplit : s.src.log.take u =
        s.src.log.take (s.src.applied n) ++ (s.src.log.take u).drop (s.src.applied n) := by
      have := List.take_append_drop (s.src.applied n) (s.src.log.take u)
      rw [List.take_take, Nat.min_eq_left hle] at this
      exact this.symm
    refine .inl ?_
    rw [hfinal, hsplit, lookup_append_of_forall, ShardGroup.read]
    intro e he hek
    have := hcaught e he
    rw [hek, hk] at this
    cases this
  · have hsplit : s.src.log.take (s.src.applied n) =
        s.src.log.take u ++ (s.src.log.drop u).take (s.src.applied n - u) := by
      rw [← List.take_add]
      congr 1
      omega
    rw [ShardGroup.read, hsplit]
    rcases lookup_append_cases (s.src.log.take u) ((s.src.log.drop u).take (s.src.applied n - u)) k
      with hval | ⟨e, he, hek, hval⟩
    · exact .inl (hval.trans hfinal.symm)
    · have hdrop := List.mem_of_mem_take he
      have hclean := hs.behind u hu e hdrop (hek ▸ hk)
      obtain ⟨hnone, hover⟩ := hs.cleaned e (.inl (List.mem_of_mem_drop hdrop)) hclean
      exact .inr ⟨hval.trans hnone, hover⟩

theorem FinalPass.read_eq (hp : FinalPass c s p) (hs : SourceOk c s) {k : K} (hk : c.moves k) :
    s.src.read p.node k = final s k ∨ s.src.read p.node k = none ∧ s.plan.isOver := by
  obtain ⟨u, hu⟩ := Option.isSome_iff_exists.mp hp.frozen
  refine read_final hs hu ?_ hk
  simpa [hu] using hp.caught

theorem mem_movedKeys {g : ShardGroup K V View} {n : Nat} {k : K} :
    k ∈ movedKeys c g n ↔ c.moves k ∧ (g.read n k).isSome := by
  simp only [movedKeys, List.mem_filter, List.mem_dedup, Bool.and_eq_true, and_iff_right_iff_imp]
  rintro ⟨-, hsome⟩
  obtain ⟨v, hv⟩ := Option.isSome_iff_exists.mp hsome
  exact exists_key_of_lookup hv

theorem mem_readDocs {g : ShardGroup K V View} {n : Nat} {keys : List K} {d : K × V} :
    d ∈ readDocs g n keys ↔ d.1 ∈ keys ∧ g.read n d.1 = some d.2 := by
  simp only [readDocs, List.mem_filterMap, Option.map_eq_some_iff]
  constructor
  · rintro ⟨k, hk, v, hv, rfl⟩
    exact ⟨hk, hv⟩
  · rintro ⟨hk, hv⟩
    exact ⟨d.1, hk, d.2, hv, rfl⟩

end Reading

section Pushes

theorem Guarded.set_push (hs : Guarded c s) {j : Nat} {p : Push K V} (hp : PushOk c s p) :
    Passes c s (s.setPush j p) := by
  have hdrift : Drift c s (s.setPush j p) :=
    .of_eq rfl rfl (fun _ => rfl) (List.prefix_refl _) id id id
  refine hs.of_drift hdrift (hs.source.frame rfl rfl rfl) hs.dst hs.dstViews .inl .inl .inl ?_
    (fun b => .inl) (fun w => .inl) (fun r hr => .inl ⟨hr, rfl⟩) .inl
  intro q hq
  rcases List.mem_or_eq_of_mem_set hq with hq | rfl
  · exact .inl hq
  · exact .inr (hp.drift hs hdrift)

theorem FinalPass.restage (hp : FinalPass c s p) {stage : Stage}
    (hready : stage = .copying ∨ stage = .finished → s.completed)
    (hdone : stage = .finished → p.left = [] ∧ p.docs = [] ∧ p.waiting = none) :
    FinalPass c s { p with stage := stage } :=
  ⟨hp.frozen, hp.caught, hp.docs, hready, hp.left, hdone⟩

theorem Guarded.push_begin (hs : Guarded c s) {n : Nat} {phase : MigrationPhase} :
    Passes c s { s with pushes := s.pushes ++ [⟨n, phase, .starting, [], [], none⟩] } := by
  refine hs.of_drift (.of_eq rfl rfl (fun _ => rfl) (List.prefix_refl _) id id id)
    (hs.source.frame rfl rfl rfl) hs.dst hs.dstViews .inl .inl .inl ?_
    (fun b => .inl) (fun w => .inl) (fun r hr => .inl ⟨hr, rfl⟩) .inl
  intro q hq
  rcases List.mem_append.mp hq with hq | hq
  · exact .inl hq
  · rw [List.mem_singleton.mp hq]
    exact .inr ⟨by simp, by simp, fun _ hstage => by cases hstage⟩

theorem Guarded.push_sendReset (hs : Guarded c s) {j : Nat} (hp : PushOk c s p)
    (hstage : p.stage = .planned) (hphase : p.phase = .finalizing) :
    Passes c s { s.setPush j { p with stage := .resetting } with resetSent := true } := by
  have hfinal := hp.final hphase (by rw [hstage]; rfl)
  have hdrift : Drift c s { s.setPush j { p with stage := .resetting } with resetSent := true } :=
    .of_eq rfl rfl (fun _ => rfl) (List.prefix_refl _) id id id
  refine hs.of_drift hdrift (hs.source.frame rfl rfl rfl) hs.dst hs.dstViews
    (fun _ => .inr hfinal.frozen) .inl .inl ?_ (fun b => .inl) (fun w => .inl)
    (fun r hr => .inl ⟨hr, rfl⟩) .inl
  intro q hq
  rcases List.mem_or_eq_of_mem_set hq with hq | rfl
  · exact .inl hq
  · refine .inr (PushOk.drift ⟨hp.left, hp.docs, fun _ _ => ?_⟩ hs hdrift)
    exact hfinal.restage (by simp) (by simp)

theorem PushOk.read (hs : Guarded c s) (hp : PushOk c s p) {m : Nat} (hstage : p.stage = .copying)
    (hdocs : p.docs = []) (hwaiting : p.waiting = none) :
    PushOk c s { p with left := p.left.drop m, docs := readDocs s.src p.node (p.left.take m) } := by
  have hmoves : ∀ d ∈ readDocs s.src p.node (p.left.take m), c.moves d.1 := fun d hd =>
    hp.left d.1 (List.mem_of_mem_take (mem_readDocs.mp hd).1)
  refine ⟨fun k hk => hp.left k (List.mem_of_mem_drop hk), hmoves, fun hphase hplanned => ?_⟩
  have hfinal := hp.final hphase hplanned
  refine ⟨hfinal.frozen, hfinal.caught, fun d hd => ?_, hfinal.ready, fun hover k hk hne => ?_,
    fun h => by simp [hstage] at h⟩
  · obtain ⟨-, hread⟩ := mem_readDocs.mp hd
    rcases hfinal.read_eq hs.source (hmoves d hd) with h | ⟨h, -⟩
    · rw [← h, hread]
    · rw [h] at hread
      cases hread
  · have hread : s.src.read p.node k = Handover.final s k := by
      rcases hfinal.read_eq hs.source hk with h | ⟨-, h⟩
      · exact h
      · rw [hover] at h
        cases h
    obtain ⟨v, hv⟩ := Option.ne_none_iff_exists'.mp hne
    rcases hfinal.left hover k hk hne with hleft | hleft | ⟨b, -, hb, -⟩ | hleft
    · rw [← List.take_append_drop m p.left] at hleft
      rcases List.mem_append.mp hleft with hleft | hleft
      · refine .inr (.inl (List.mem_map.mpr ⟨(k, v), ?_, rfl⟩))
        exact mem_readDocs.mpr ⟨hleft, hread.trans hv⟩
      · exact .inl hleft
    · simp [hdocs] at hleft
    · rw [hwaiting] at hb
      cases hb
    · exact .inr (.inr (.inr hleft))

theorem PushOk.received (hs : Guarded c s) (hp : PushOk c s p) {w : Written} (hw : w ∈ s.written)
    (hstage : p.stage = .copying) (hwaiting : p.waiting = some w.batch) (hmet : w.met) :
    PushOk c s { p with waiting := none } := by
  refine ⟨hp.left, hp.docs, fun hphase hplanned => ?_⟩
  have hfinal := hp.final hphase hplanned
  refine ⟨hfinal.frozen, hfinal.caught, hfinal.docs, hfinal.ready, fun hover k hk hne => ?_,
    fun h => by simp [hstage] at h⟩
  rcases hfinal.left hover k hk hne with hleft | hleft | hleft | hleft
  · exact .inl hleft
  · exact .inr (.inl hleft)
  · obtain ⟨b, batch, hb, hbatch, hbphase, hmem⟩ := hleft
    obtain ⟨batch', hbatch', hcopied⟩ := hs.written w hw
    rw [hwaiting, Option.some.injEq] at hb
    subst hb
    obtain rfl : batch = batch' := Option.some.inj (hbatch.symm.trans hbatch')
    obtain ⟨d, hd, rfl⟩ := List.mem_map.mp hmem
    exact .inr (.inr (.inr ⟨hfinal.ready (.inl hstage), (hcopied hbphase d hd).2 hmet⟩))
  · exact .inr (.inr (.inr hleft))

/-- A batch is sent: its documents are the push's, and the destination's reset is complete. -/
theorem Guarded.push_send (hs : Guarded c s) {j m : Nat} (hp : PushOk c s p)
    (hstage : p.stage = .copying) (hwaiting : p.waiting = none) :
    Passes c s { s.setPush j
      { p with docs := p.docs.drop (m + 1), waiting := some s.batches.length } with
      batches := s.batches ++ [⟨p.phase, p.docs.take (m + 1)⟩] } := by
  have hdrift : Drift c s { s.setPush j
      { p with docs := p.docs.drop (m + 1), waiting := some s.batches.length } with
      batches := s.batches ++ [⟨p.phase, p.docs.take (m + 1)⟩] } :=
    .of_eq rfl rfl (fun _ => rfl) (List.prefix_append _ _) id id id
  have hp' := hp.drift hs hdrift
  refine hs.of_drift hdrift (hs.source.frame rfl rfl rfl) hs.dst hs.dstViews .inl .inl .inl ?_ ?_
    (fun w => .inl) (fun r hr => .inl ⟨hr, rfl⟩) .inl
  · intro q hq
    rcases List.mem_or_eq_of_mem_set hq with hq | rfl
    · exact .inl hq
    · refine .inr ⟨hp'.left, fun d hd => hp'.docs d (List.mem_of_mem_drop hd),
        fun hphase hplanned => ?_⟩
      have hfinal := hp'.final hphase hplanned
      refine ⟨hfinal.frozen, hfinal.caught, fun d hd => hfinal.docs d (List.mem_of_mem_drop hd),
        hfinal.ready, fun hover k hk hne => ?_, fun h => by simp [hstage] at h⟩
      rcases hfinal.left hover k hk hne with hleft | hleft | ⟨b, -, hb, -⟩ | hleft
      · exact .inl hleft
      · -- a document of the push is in the batch or still to be sent
        rw [← List.take_append_drop (m + 1) p.docs, List.map_append, List.mem_append] at hleft
        rcases hleft with hleft | hleft
        · exact .inr (.inr (.inl
            ⟨s.batches.length, ⟨p.phase, p.docs.take (m + 1)⟩, rfl, by simp, hphase, hleft⟩))
        · exact .inr (.inl hleft)
      · rw [hwaiting] at hb
        cases hb
      · exact .inr (.inr (.inr hleft))
  · intro b hb
    rcases List.mem_append.mp hb with hb | hb
    · exact .inl hb
    · rw [List.mem_singleton.mp hb]
      refine .inr ⟨fun d hd => hp'.docs d (List.mem_of_mem_take hd), fun hphase => ?_⟩
      have hfinal := hp'.final hphase (by rw [hstage]; rfl)
      exact ⟨hfinal.ready (.inl hstage), fun d hd => hfinal.docs d (List.mem_of_mem_take hd)⟩

end Pushes

section Plan

/-- The source is frozen where a final pass is planned over everything of the moved keys. -/
theorem SourceOk.freeze (hs : Guarded c s) {n : Nat} (hnone : s.frozen = none)
    (hfrozen : s'.frozen = some (s.src.applied n)) (hsrc : s'.src = s.src)
    (hplan : s'.plan = s.plan)
    (hstaged : ∀ e ∈ s.src.log.drop (s.src.applied n), c.moves e.key → e.origin = .cleanup) :
    SourceOk c s' where
  wf := hsrc ▸ hs.source.wf
  views := by rw [hsrc, hplan]; exact hs.source.views
  cleaned := by rw [hsrc, hplan]; exact hs.source.cleaned
  before u hu := by
    rw [hsrc]
    obtain rfl : s.src.applied n = u := Option.some.inj (hfrozen.symm.trans hu)
    refine ⟨hs.source.wf.applied n, fun e he _ hclean => ?_⟩
    -- a cleanup comes after a flip, and a flip after a freeze
    obtain ⟨-, hover⟩ := hs.source.cleaned e (.inl (List.mem_of_mem_take he)) hclean
    have := hs.frozen_of_completed (hs.handed hover).1
    simp [hnone] at this
  behind u hu e he hk := by
    rw [hsrc] at he
    obtain rfl : s.src.applied n = u := Option.some.inj (hfrozen.symm.trans hu)
    exact hstaged e he hk

theorem Guarded.push_plan (hs : Guarded c s) {j : Nat} {keys : List K}
    (hkeys : keys.Perm (movedKeys c s.src p.node))
    (hstaged : p.phase = .finalizing →
      ∀ e ∈ s.src.log.drop (s.src.applied p.node), c.moves e.key → e.origin = .cleanup) :
    Passes c s { s.setPush j ⟨p.node, p.phase, .planned, keys, [], none⟩ with
      frozen := if p.phase = .finalizing then some (s.frozen.getD (s.src.applied p.node))
        else s.frozen } := by
  have hmoves : ∀ k ∈ keys, c.moves k := fun k hk => (mem_movedKeys.mp (hkeys.mem_iff.mp hk)).1
  by_cases hphase : p.phase = .finalizing
  · simp only [if_pos hphase]
    have hdrift : Drift c s { s.setPush j ⟨p.node, p.phase, .planned, keys, [], none⟩ with
        frozen := some (s.frozen.getD (s.src.applied p.node)) } := by
      refine .of_eq rfl rfl (fun hfrozen => ?_) (List.prefix_refl _) id id id
      obtain ⟨u, hu⟩ := Option.isSome_iff_exists.mp hfrozen
      simp [hu]
    have hsource : SourceOk c { s.setPush j ⟨p.node, p.phase, .planned, keys, [], none⟩ with
        frozen := some (s.frozen.getD (s.src.applied p.node)) } := by
      cases hu : s.frozen with
      | none => exact .freeze hs hu rfl rfl rfl (hstaged hphase)
      | some u => exact hs.source.frame rfl (by simp [hu]) rfl
    refine hs.of_drift hdrift hsource hs.dst hs.dstViews .inl .inl .inl ?_
      (fun b => .inl) (fun w => .inl) (fun r hr => .inl ⟨hr, rfl⟩) .inl
    intro q hq
    rcases List.mem_or_eq_of_mem_set hq with hq | rfl
    · exact .inl hq
    refine .inr ⟨hmoves, by simp, fun _ _ => ?_⟩
    have hcaught : ∀ e ∈ (s.src.log.take (s.frozen.getD (s.src.applied p.node))).drop
        (s.src.applied p.node), c.moves e.key = false := by
      intro e he
      refine Bool.eq_false_iff.mpr fun hk => ?_
      refine (hsource.before _ rfl).2 e (List.mem_of_mem_drop he) hk (hstaged hphase e ?_ hk)
      rw [List.drop_take] at he
      exact List.mem_of_mem_take he
    refine ⟨rfl, hcaught, by simp, by simp, fun hover k hk hne => .inl ?_, by simp⟩
    -- before the flip the index of the planning node has every moved key that is there
    rw [hkeys.mem_iff, mem_movedKeys, Option.isSome_iff_ne_none]
    rcases read_final hsource rfl hcaught hk with h | ⟨-, h⟩
    · exact ⟨hk, fun hread => hne (h.symm.trans hread)⟩
    · rw [hover] at h
      cases h
  · simp only [if_neg hphase]
    exact hs.set_push ⟨hmoves, by simp, fun h => absurd h hphase⟩

theorem Guarded.push (hs : Guarded c s) {a : PushAct K} (h : pushStep c s a = some s')
    (hcalm : Calm c s (.push a)) : Passes c s s' := by
  cases a with
  | begin n phase =>
    simp only [pushStep, Option.ite_none_right_eq_some, Option.some.injEq] at h
    obtain ⟨-, rfl⟩ := h
    exact hs.push_begin
  | gate j =>
    simp only [pushStep, Option.bind_eq_some_iff, Option.ite_none_right_eq_some,
      Option.some.injEq] at h
    obtain ⟨p, hp, -, rfl⟩ := h
    have hok := hs.pushes p (List.mem_of_getElem? hp)
    exact hs.set_push ⟨hok.left, hok.docs, fun _ hstage => by cases hstage⟩
  | plan j keys =>
    simp only [pushStep, Option.bind_eq_some_iff, Option.ite_none_right_eq_some,
      Option.some.injEq] at h
    obtain ⟨p, hp, ⟨-, -, hkeys⟩, rfl⟩ := h
    exact hs.push_plan hkeys (hcalm p hp)
  | sendReset j =>
    simp only [pushStep, Option.bind_eq_some_iff, Option.ite_none_right_eq_some,
      Option.some.injEq] at h
    obtain ⟨p, hp, ⟨hstage, hphase⟩, rfl⟩ := h
    exact hs.push_sendReset (hs.pushes p (List.mem_of_getElem? hp)) hstage hphase
  | resetDone j =>
    simp only [pushStep, Option.bind_eq_some_iff, Option.ite_none_right_eq_some,
      Option.some.injEq] at h
    obtain ⟨p, hp, ⟨hstage, hcompleted⟩, rfl⟩ := h
    have hok := hs.pushes p (List.mem_of_getElem? hp)
    refine hs.set_push ⟨hok.left, hok.docs, fun hphase _ => ?_⟩
    exact (hok.final hphase (by rw [hstage]; rfl)).restage (fun _ => hcompleted) (by simp)
  | copy j =>
    simp only [pushStep, Option.bind_eq_some_iff, Option.ite_none_right_eq_some,
      Option.some.injEq] at h
    obtain ⟨p, hp, ⟨-, hcopy⟩, rfl⟩ := h
    have hok := hs.pushes p (List.mem_of_getElem? hp)
    exact hs.set_push ⟨hok.left, hok.docs, fun hphase _ => by simp [hcopy] at hphase⟩
  | read j m =>
    simp only [pushStep, Option.bind_eq_some_iff, Option.ite_none_right_eq_some,
      Option.some.injEq] at h
    obtain ⟨p, hp, ⟨hstage, hdocs, hwaiting⟩, rfl⟩ := h
    exact hs.set_push (.read hs (hs.pushes p (List.mem_of_getElem? hp)) hstage hdocs hwaiting)
  | send j m =>
    simp only [pushStep, Option.bind_eq_some_iff, Option.ite_none_right_eq_some,
      Option.some.injEq] at h
    obtain ⟨p, hp, ⟨hstage, -, hwaiting⟩, rfl⟩ := h
    exact hs.push_send (hs.pushes p (List.mem_of_getElem? hp)) hstage hwaiting
  | received j i =>
    simp only [pushStep, Option.bind_eq_some_iff, Option.ite_none_right_eq_some,
      Option.some.injEq] at h
    obtain ⟨p, hp, w, hw, ⟨hstage, hwaiting, hmet⟩, rfl⟩ := h
    exact hs.set_push (.received hs (hs.pushes p (List.mem_of_getElem? hp))
      (List.mem_of_getElem? hw) hstage hwaiting hmet)
  | retry j =>
    simp only [pushStep, Option.bind_eq_some_iff, Option.ite_none_right_eq_some,
      Option.some.injEq] at h
    obtain ⟨p, hp, -, rfl⟩ := h
    have hok := hs.pushes p (List.mem_of_getElem? hp)
    exact hs.set_push ⟨hok.left, hok.docs, fun _ hstage => by cases hstage⟩
  | finish j =>
    simp only [pushStep, Option.bind_eq_some_iff, Option.ite_none_right_eq_some,
      Option.some.injEq] at h
    obtain ⟨p, hp, ⟨hstage, hleft, hdocs, hwaiting, -⟩, rfl⟩ := h
    have hok := hs.pushes p (List.mem_of_getElem? hp)
    refine hs.set_push ⟨hok.left, hok.docs, fun hphase _ => ?_⟩
    have hfinal := hok.final hphase (by rw [hstage]; rfl)
    exact hfinal.restage (fun _ => hfinal.ready (.inl hstage)) fun _ => ⟨hleft, hdocs, hwaiting⟩

end Plan

end DewDB.Handover
