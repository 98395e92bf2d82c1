import DewDB.HandoverSafety

/-!
# The write gate

A final pass starts once the client writes of its node have ended, and a node that has adopted the
final phase takes no more of the moved keys. Where every request lives until its append, that keeps
the appends of a handover calm.
-/
namespace DewDB.Handover

open GroupLog ShardGroup HandoverPlan TransitionSystem

variable {K V : Type} {c : Layout K} {s s' : State K V} {k : K}

/-- A source node that has adopted the final phase accepts no write of a moved key. -/
theorem not_accepts_of_rank {view : View} (hk : c.moves k)
    (hrank : View.finalizing.rank ≤ view.rank) : accepts c .source view k = false := by
  cases view with
  | owner => exact absurd hrank (by decide)
  | copying => exact absurd hrank (by decide)
  | finalizing => simp [accepts, hk]
  | flipped n => simp [accepts, owns, hk, View.isOver]

theorem adoptStep_view {plan : View} {g g' : ShardGroup K V View} {n : Nat} {v : View}
    (h : adoptStep plan g n v = some g') (m : Nat) : (g.view m).rank ≤ (g'.view m).rank := by
  simp only [adoptStep, Option.ite_none_right_eq_some, Option.some.injEq] at h
  obtain ⟨⟨hle, -⟩, rfl⟩ := h
  by_cases hm : m = n
  · subst hm
    simpa using hle
  · simp [Function.update_of_ne hm]

/-- A client write of a moved key that the source has accepted and not yet appended. -/
def Outstanding (c : Layout K) (w : Write K V) : Prop :=
  w.side = .source ∧ c.moves w.key ∧ w.appended = false

/-- A handler ends after its append. From the first final pass on only nodes that have adopted the
phase take client writes, and that pass finds none outstanding at another node. -/
def Gated [DecidableEq K] (c : Layout K) (s : State K V) : Label K V → Prop
  | .write (.append _) => True
  | .write (.release i) => ∀ w ∈ s.writes[i]?, w.appended
  | .write (.accept .source n _ _) =>
    s.frozen.isSome → View.finalizing.rank ≤ (s.src.view n).rank
  | .push (.plan j keys) => Calm c s (.push (.plan j keys)) ∧
    ∀ p ∈ s.pushes[j]?, p.phase = .finalizing →
      ∀ w ∈ s.writes, Outstanding c w → w.node = p.node
  | l => Calm c s l

/-- What the gate keeps: a push of the final phase that is past it, and the first of them that was
planned, leave no write outstanding. -/
structure GateOk (c : Layout K) (s : State K V) : Prop where
  released : ∀ w ∈ s.writes, w.gated = false → w.appended
  closed : ∀ p ∈ s.pushes, p.phase = .finalizing → p.stage ≠ .starting →
    View.finalizing.rank ≤ (s.src.view p.node).rank ∧
      ∀ w ∈ s.writes, Outstanding c w → w.node ≠ p.node
  frozen : s.frozen.isSome → ∀ w ∈ s.writes, ¬ Outstanding c w

namespace GateOk

/-- A step of the clients: what is outstanding was so before, or is new where the phase is not
known. -/
theorem of_writes (h : GateOk c s) (hpushes : s'.pushes = s.pushes) (hfrozen : s'.frozen = s.frozen)
    (hviews : ∀ n, (s.src.view n).rank ≤ (s'.src.view n).rank)
    (hreleased : ∀ w ∈ s'.writes, w.gated = false → w.appended)
    (hold : ∀ w ∈ s'.writes, Outstanding c w →
      (∃ w₀ ∈ s.writes, Outstanding c w₀ ∧ w₀.node = w.node) ∨
        s.frozen = none ∧ (s.src.view w.node).rank < View.finalizing.rank) : GateOk c s' where
  released := hreleased
  closed p hp hphase hstage := by
    rw [hpushes] at hp
    obtain ⟨hrank, hfree⟩ := h.closed p hp hphase hstage
    refine ⟨Nat.le_trans hrank (hviews _), fun w hw hout hnode => ?_⟩
    rcases hold w hw hout with ⟨w₀, hw₀, hout₀, heq⟩ | ⟨-, hlt⟩
    · exact hfree w₀ hw₀ hout₀ (heq.trans hnode)
    · rw [hnode] at hlt
      omega
  frozen hf w hw hout := by
    rw [hfrozen] at hf
    rcases hold w hw hout with ⟨w₀, hw₀, hout₀, -⟩ | ⟨hnone, -⟩
    · exact h.frozen hf w₀ hw₀ hout₀
    · simp [hnone] at hf

theorem frame (h : GateOk c s) (hwrites : s'.writes = s.writes) (hpushes : s'.pushes = s.pushes)
    (hfrozen : s'.frozen = s.frozen) (hviews : ∀ n, (s.src.view n).rank ≤ (s'.src.view n).rank) :
    GateOk c s' :=
  h.of_writes hpushes hfrozen hviews (hwrites ▸ h.released)
    fun w hw hout => .inl ⟨w, hwrites ▸ hw, hout, rfl⟩

theorem of_push (h : GateOk c s) {q : Push K V} (hwrites : s'.writes = s.writes)
    (hsrc : s'.src = s.src) (hfrozen : s'.frozen = s.frozen)
    (hpushes : ∀ p ∈ s'.pushes, p ∈ s.pushes ∨ p = q)
    (hq : q.phase = .finalizing → q.stage ≠ .starting →
      View.finalizing.rank ≤ (s.src.view q.node).rank ∧
        ∀ w ∈ s.writes, Outstanding c w → w.node ≠ q.node) : GateOk c s' where
  released := hwrites ▸ h.released
  closed p hp := by
    rw [hwrites, hsrc]
    rcases hpushes p hp with hp | rfl
    · exact h.closed p hp
    · exact hq
  frozen := by
    rw [hfrozen, hwrites]
    exact h.frozen

variable [DecidableEq K]

theorem write_step (h : GateOk c s) {a : WriteAct K V} (hgated : Gated c s (.write a))
    (hstep : writeStep c s a = some s') : GateOk c s' := by
  cases a with
  | accept side n k v =>
    simp only [writeStep, Option.ite_none_right_eq_some, Option.some.injEq] at hstep
    obtain ⟨⟨-, haccepts⟩, rfl⟩ := hstep
    refine h.of_writes rfl rfl (fun n => Nat.le_refl _) ?_ ?_
    · intro w hw hfree
      rcases List.mem_append.mp hw with hw | hw
      · exact h.released w hw hfree
      · rw [List.mem_singleton.mp hw] at hfree
        cases hfree
    · intro w hw hout
      rcases List.mem_append.mp hw with hw | hw
      · exact .inl ⟨w, hw, hout, rfl⟩
      · obtain rfl := List.mem_singleton.mp hw
        obtain ⟨hside, hk, -⟩ := hout
        obtain rfl : side = .source := hside
        -- the phase is not known to the node, or it would have refused
        have hlow : (s.src.view n).rank < View.finalizing.rank := by
          by_contra hge
          have hrefused := not_accepts_of_rank (c := c) hk (Nat.le_of_not_lt hge)
          exact absurd haccepts (by simp [State.group, hrefused])
        refine .inr ⟨?_, hlow⟩
        rw [← Option.not_isSome_iff_eq_none]
        intro hfrozen
        have := hgated hfrozen
        omega
  | release i =>
    simp only [writeStep, Option.bind_eq_some_iff, Option.some.injEq] at hstep
    obtain ⟨w₀, hw₀, rfl⟩ := hstep
    refine h.of_writes rfl rfl (fun n => Nat.le_refl _) ?_ ?_
    · intro w hw hfree
      rcases List.mem_or_eq_of_mem_set hw with hw | rfl
      · exact h.released w hw hfree
      · exact hgated w₀ hw₀
    · intro w hw hout
      rcases List.mem_or_eq_of_mem_set hw with hw | rfl
      · exact .inl ⟨w, hw, hout, rfl⟩
      · exact .inl ⟨w₀, List.mem_of_getElem? hw₀, hout, rfl⟩
  | append i =>
    simp only [writeStep, Option.bind_eq_some_iff, Option.ite_none_right_eq_some,
      Option.some.injEq] at hstep
    obtain ⟨w₀, hw₀, -, rfl⟩ := hstep
    have hset : ∀ w ∈ s.writes.set i { w₀ with appended := true }, w ∈ s.writes ∨ w.appended := by
      intro w hw
      rcases List.mem_or_eq_of_mem_set hw with hw | rfl
      · exact .inl hw
      · exact .inr rfl
    have hgate : GateOk c { s with writes := s.writes.set i { w₀ with appended := true } } := by
      refine h.of_writes rfl rfl (fun n => Nat.le_refl _) ?_ ?_
      · intro w hw hfree
        rcases hset w hw with hw | hdone
        · exact h.released w hw hfree
        · exact hdone
      · intro w hw hout
        rcases hset w hw with hw | hdone
        · exact .inl ⟨w, hw, hout, rfl⟩
        · rw [hout.2.2] at hdone
          cases hdone
    obtain ⟨side, n, k, v, gated, appended⟩ := w₀
    cases side with
    | source => exact hgate.frame rfl rfl rfl fun n => Nat.le_refl _
    | destination => exact hgate.frame rfl rfl rfl fun n => Nat.le_refl _

omit [DecidableEq K] in
theorem set_push (h : GateOk c s) {j : Nat} {p q : Push K V} (hp : s.pushes[j]? = some p)
    (hpushes : s'.pushes = s.pushes.set j q) (hnode : q.node = p.node) (hphase : q.phase = p.phase)
    (hstage : q.stage ≠ .starting → p.stage ≠ .starting) (hwrites : s'.writes = s.writes)
    (hsrc : s'.src = s.src) (hfrozen : s'.frozen = s.frozen) : GateOk c s' := by
  refine h.of_push (q := q) hwrites hsrc hfrozen ?_ ?_
  · rw [hpushes]
    exact fun r hr => List.mem_or_eq_of_mem_set hr
  · rw [hnode, hphase]
    exact fun hfinal hpast => h.closed p (List.mem_of_getElem? hp) hfinal (hstage hpast)

theorem push_step (h : GateOk c s) {a : PushAct K} (hgated : Gated c s (.push a))
    (hstep : pushStep c s a = some s') : GateOk c s' := by
  cases a with
  | begin n phase =>
    simp only [pushStep, Option.ite_none_right_eq_some, Option.some.injEq] at hstep
    obtain ⟨-, rfl⟩ := hstep
    refine h.of_push (q := ⟨n, phase, .starting, [], [], none⟩) rfl rfl rfl ?_ ?_
    · intro p hp
      rcases List.mem_append.mp hp with hp | hp
      · exact .inl hp
      · exact .inr (List.mem_singleton.mp hp)
    · intro _ hpast
      exact absurd rfl hpast
  | gate j =>
    simp only [pushStep, Option.bind_eq_some_iff, Option.ite_none_right_eq_some,
      Option.some.injEq] at hstep
    obtain ⟨p, hp, ⟨-, hview, hgate⟩, rfl⟩ := hstep
    refine h.of_push (q := { p with stage := .gated }) rfl rfl rfl ?_ ?_
    · exact fun q hq => List.mem_or_eq_of_mem_set hq
    · intro hfinal _
      constructor
      · rw [hfinal] at hview
        cases hv : s.src.view p.node with
        | finalizing => exact Nat.le_refl _
        | owner => simp [hv, View.phase] at hview
        | copying => simp [hv, View.phase] at hview
        | flipped n => simp [hv, View.phase] at hview
      · intro w hw hout hnode
        have := h.released w hw (hgate hfinal w hw hout.1 hnode)
        rw [hout.2.2] at this
        cases this
  | plan j keys =>
    simp only [pushStep, Option.bind_eq_some_iff, Option.ite_none_right_eq_some,
      Option.some.injEq] at hstep
    obtain ⟨p, hp, ⟨hstage, -, -⟩, rfl⟩ := hstep
    have hgate : GateOk c (s.setPush j ⟨p.node, p.phase, .planned, keys, [], none⟩) :=
      h.set_push hp rfl rfl rfl (fun _ => by simp [hstage]) rfl rfl rfl
    refine ⟨hgate.released, hgate.closed, fun hfrozen w hw hout => ?_⟩
    by_cases hfinal : p.phase = .finalizing
    · have hclosed := h.closed p (List.mem_of_getElem? hp) hfinal (by simp [hstage])
      exact hclosed.2 w hw hout (hgated.2 p hp hfinal w hw hout)
    · simp only [if_neg hfinal] at hfrozen
      exact h.frozen hfrozen w hw hout
  | sendReset j =>
    simp only [pushStep, Option.bind_eq_some_iff, Option.ite_none_right_eq_some,
      Option.some.injEq] at hstep
    obtain ⟨p, hp, ⟨hstage, -⟩, rfl⟩ := hstep
    exact h.set_push hp rfl rfl rfl (fun _ => by simp [hstage]) rfl rfl rfl
  | resetDone j =>
    simp only [pushStep, Option.bind_eq_some_iff, Option.ite_none_right_eq_some,
      Option.some.injEq] at hstep
    obtain ⟨p, hp, ⟨hstage, -⟩, rfl⟩ := hstep
    exact h.set_push hp rfl rfl rfl (fun _ => by simp [hstage]) rfl rfl rfl
  | copy j =>
    simp only [pushStep, Option.bind_eq_some_iff, Option.ite_none_right_eq_some,
      Option.some.injEq] at hstep
    obtain ⟨p, hp, ⟨hstage, -⟩, rfl⟩ := hstep
    exact h.set_push hp rfl rfl rfl (fun _ => by simp [hstage]) rfl rfl rfl
  | read j m =>
    simp only [pushStep, Option.bind_eq_some_iff, Option.ite_none_right_eq_some,
      Option.some.injEq] at hstep
    obtain ⟨p, hp, -, rfl⟩ := hstep
    exact h.set_push hp rfl rfl rfl id rfl rfl rfl
  | send j m =>
    simp only [pushStep, Option.bind_eq_some_iff, Option.ite_none_right_eq_some,
      Option.some.injEq] at hstep
    obtain ⟨p, hp, -, rfl⟩ := hstep
    exact h.set_push hp rfl rfl rfl id rfl rfl rfl
  | received j i =>
    simp only [pushStep, Option.bind_eq_some_iff, Option.ite_none_right_eq_some,
      Option.some.injEq] at hstep
    obtain ⟨p, hp, w, -, -, rfl⟩ := hstep
    exact h.set_push hp rfl rfl rfl id rfl rfl rfl
  | retry j =>
    simp only [pushStep, Option.bind_eq_some_iff, Option.ite_none_right_eq_some,
      Option.some.injEq] at hstep
    obtain ⟨p, hp, -, rfl⟩ := hstep
    exact h.set_push hp rfl rfl rfl (fun hpast => absurd rfl hpast) rfl rfl rfl
  | finish j =>
    simp only [pushStep, Option.bind_eq_some_iff, Option.ite_none_right_eq_some,
      Option.some.injEq] at hstep
    obtain ⟨p, hp, ⟨hstage, -⟩, rfl⟩ := hstep
    exact h.set_push hp rfl rfl rfl (fun _ => by simp [hstage]) rfl rfl rfl

variable [DecidableEq V]

theorem step (h : GateOk c s) (hs : Guarded c s) {l : Label K V} (hgated : Gated c s l)
    (hstep : Handover.step c s l = some s') : GateOk c s' := by
  cases l with
  | group side a =>
    obtain ⟨g, hg, rfl⟩ := Option.map_eq_some_iff.mp hstep
    cases side with
    | source =>
      obtain ⟨tail, -, -, hview, -⟩ := groupStep_spec hg hs.source.wf
      exact h.frame rfl rfl rfl fun n => by simp [State.setGroup, State.group, hview]
    | destination => exact h.frame rfl rfl rfl fun n => Nat.le_refl _
  | adopt side n v =>
    obtain ⟨g, hg, rfl⟩ := Option.map_eq_some_iff.mp hstep
    cases side with
    | source => exact h.frame rfl rfl rfl (adoptStep_view hg)
    | destination => exact h.frame rfl rfl rfl fun n => Nat.le_refl _
  | write a => exact h.write_step hgated hstep
  | push a => exact h.push_step hgated hstep
  | batch a =>
    have hkeep : s'.writes = s.writes ∧ s'.pushes = s.pushes ∧ s'.frozen = s.frozen ∧
        s'.src = s.src := by
      cases a <;>
        simp only [Handover.step, batchStep, Option.bind_eq_some_iff,
          Option.ite_none_right_eq_some, Option.some.injEq] at hstep
      case check => obtain ⟨batch, -, -, rfl⟩ := hstep; exact ⟨rfl, rfl, rfl, rfl⟩
      case append => obtain ⟨b, -, batch, -, rfl⟩ := hstep; exact ⟨rfl, rfl, rfl, rfl⟩
      case met => obtain ⟨w, -, -, rfl⟩ := hstep; exact ⟨rfl, rfl, rfl, rfl⟩
    obtain ⟨hwrites, hpushes, hfrozen, hsrc⟩ := hkeep
    exact h.frame hwrites hpushes hfrozen fun n => by rw [hsrc]
  | reset a =>
    have hkeep : s'.writes = s.writes ∧ s'.pushes = s.pushes ∧ s'.frozen = s.frozen ∧
        s'.src = s.src := by
      cases a <;>
        simp only [Handover.step, resetStep, Option.bind_eq_some_iff,
          Option.ite_none_right_eq_some, Option.some.injEq] at hstep
      case scan => obtain ⟨-, rfl⟩ := hstep; exact ⟨rfl, rfl, rfl, rfl⟩
      case tombstone => obtain ⟨r, -, k, -, -, rfl⟩ := hstep; exact ⟨rfl, rfl, rfl, rfl⟩
      case met => obtain ⟨r, -, w, -, -, rfl⟩ := hstep; exact ⟨rfl, rfl, rfl, rfl⟩
      case complete => obtain ⟨r, -, -, rfl⟩ := hstep; exact ⟨rfl, rfl, rfl, rfl⟩
      case drop => obtain ⟨r, -, rfl⟩ := hstep; exact ⟨rfl, rfl, rfl, rfl⟩
      case orphan => obtain ⟨k, -, rfl⟩ := hstep; exact ⟨rfl, rfl, rfl, rfl⟩
    obtain ⟨hwrites, hpushes, hfrozen, hsrc⟩ := hkeep
    exact h.frame hwrites hpushes hfrozen fun n => by rw [hsrc]
  | plan a =>
    have hkeep : ∃ plan, s' = { s with plan := plan } := by
      cases a <;>
        simp only [Handover.step, planStep, Option.bind_eq_some_iff,
          Option.ite_none_right_eq_some, Option.some.injEq] at hstep
      case finalize => obtain ⟨p, -, -, rfl⟩ := hstep; exact ⟨_, rfl⟩
      case publish => obtain ⟨p, -, -, rfl⟩ := hstep; exact ⟨_, rfl⟩
      case nextRing =>
        split at hstep
        · exact ⟨_, (Option.some.inj hstep).symm⟩
        · cases hstep
    obtain ⟨plan, rfl⟩ := hkeep
    exact h.frame rfl rfl rfl fun n => Nat.le_refl _
  | cleanup n k =>
    simp only [Handover.step, Option.ite_none_right_eq_some, Option.some.injEq] at hstep
    obtain ⟨-, rfl⟩ := hstep
    exact h.frame rfl rfl rfl fun n => Nat.le_refl _

omit [DecidableEq V] in
/-- A write that the gate let through appends before the first final pass. -/
theorem calm (h : GateOk c s) {l : Label K V} (hgated : Gated c s l)
    (happend : ∀ i, l = .write (.append i) → ∀ w ∈ s.writes[i]?, w.appended = false) :
    Calm c s l := by
  cases l with
  | write a =>
    cases a with
    | accept side n k v => trivial
    | release i => trivial
    | append i =>
      intro w hw hside _ hk
      rw [← Option.not_isSome_iff_eq_none]
      intro hfrozen
      exact h.frozen hfrozen w (List.mem_of_getElem? hw) ⟨hside, hk, happend i rfl w hw⟩
  | push a =>
    cases a with
    | plan j keys => exact hgated.1
    | _ => trivial
  | _ => exact hgated

end GateOk

theorem calm_of_gated [DecidableEq K] [DecidableEq V] {s₀ : State K V} {as : List (Label K V)}
    (h₀ : Init s₀) (hrun : run (Handover.step c) s₀ as = some s)
    (hgated : Meets (Handover.step c) (Gated c) s₀ as) : Meets (Handover.step c)
    (Calm c) s₀ as := by
  have hgate₀ : GateOk c s₀ := by
    obtain ⟨hwrites, hpushes, -⟩ := h₀.idle
    refine ⟨?_, ?_, ?_⟩
    all_goals simp [hwrites, hpushes]
  refine meets_of_run (I := fun s => Guarded c s ∧ GateOk c s) ?_ hrun hgated ⟨h₀.guarded, hgate₀⟩
  intro s l s' hs hok hstep
  have hcalm : Calm c s l := by
    apply hs.2.calm hok
    intro i hl w hw
    subst hl
    simp only [Handover.step, writeStep, Option.bind_eq_some_iff,
      Option.ite_none_right_eq_some] at hstep
    obtain ⟨w', hw', hopen, -⟩ := hstep
    obtain rfl : w' = w := Option.some.inj (hw'.symm.trans hw)
    exact hopen
  exact ⟨hcalm, (hs.1.step hcalm hstep).guarded, hs.2.step hs.1 hok hstep⟩

end DewDB.Handover
