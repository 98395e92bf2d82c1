import DewDB.HandoverInv

/-!
# The steps of a calm handover

Every calm step drifts and keeps the handover guarded. A step is judged by what it changes: what it
leaves alone follows from the drift.
-/
namespace DewDB.Handover

open GroupLog ShardGroup HandoverPlan

variable {K V : Type} {c : Layout K} {s s' : State K V}

theorem SourceOk.advances {tail : List (Entry K V)} (hs : SourceOk c s)
    (ha : Advances s.src s'.src tail) (hwf : s'.src.Wf) (hfrozen : s'.frozen = s.frozen)
    (hplan : s'.plan = s.plan) (hviews : ∀ n, (s'.src.view n).rank ≤ s'.plan.rank)
    (hcleaned : ∀ e, e ∈ tail ∨ e ∈ s'.src.ever → e ∈ s.src.ever ∨
      (e.origin = .cleanup → e.value = none ∧ s.plan.isOver))
    (hbehind : s.frozen.isSome → ∀ e ∈ tail, c.moves e.key → e.origin = .cleanup) :
    SourceOk c s' where
  wf := hwf
  views := hviews
  cleaned e he := by
    rw [hplan]
    have hold : e ∈ s.src.log ∨ e ∈ s.src.ever ∨
        (e.origin = .cleanup → e.value = none ∧ s.plan.isOver) := by
      rcases he with he | he
      · rcases ha.mem_log hs.wf he with he | he
        · exact .inl he
        · exact .inr (hcleaned e (.inl he))
      · exact .inr (hcleaned e (.inr he))
    rcases hold with he | he | he
    · exact hs.cleaned e (.inl he)
    · exact hs.cleaned e (.inr he)
    · exact he
  before u hu := by
    rw [hfrozen] at hu
    obtain ⟨hle, htake⟩ := hs.before u hu
    rw [ha.take_eq hs.wf hle]
    exact ⟨Nat.le_trans hle ha.committed, htake⟩
  behind u hu e he hk := by
    rw [hfrozen] at hu
    rcases ha.mem_drop hs.wf (hs.before u hu).1 he with he | he
    · exact hs.behind u hu e he hk
    · exact hbehind (by simp [hu]) e he hk

theorem SourceOk.frame (hs : SourceOk c s) (hsrc : s'.src = s.src) (hfrozen : s'.frozen = s.frozen)
    (hplan : s'.plan = s.plan) : SourceOk c s' where
  wf := hsrc ▸ hs.wf
  views := by rw [hsrc, hplan]; exact hs.views
  cleaned := by rw [hsrc, hplan]; exact hs.cleaned
  before := by rw [hsrc, hfrozen]; exact hs.before
  behind := by rw [hsrc, hfrozen]; exact hs.behind

variable [DecidableEq K]

structure Passes (c : Layout K) (s s' : State K V) : Prop where
  drift : Drift c s s'
  guarded : Guarded c s'

/-- A drifting step keeps the handover guarded if what it changes is in order. -/
theorem Guarded.of_drift (hs : Guarded c s) (h : Drift c s s') (source : SourceOk c s')
    (dst : s'.dst.Wf) (dstViews : ∀ n, (s'.dst.view n).rank ≤ s'.plan.rank)
    (sent : s'.resetSent → s.resetSent ∨ s'.frozen.isSome)
    (scanned : s'.scanned → s.scanned ∨ s'.frozen.isSome)
    (completed : s'.completed → s.completed ∨
      s'.scanned ∧ ∀ k, c.moves k → Settled s'.dst k (final s' k))
    (pushes : ∀ p ∈ s'.pushes, p ∈ s.pushes ∨ PushOk c s' p)
    (batches : ∀ b ∈ s'.batches, b ∈ s.batches ∨ BatchOk c s' b)
    (written : ∀ w ∈ s'.written, w ∈ s.written ∨ WrittenOk s' w)
    (reset : ∀ r, s'.reset = some r →
      s.reset = some r ∧ s'.completed = s.completed ∨ ResetOk c s' r)
    (handed : s'.plan.isOver → s.plan.isOver ∨
      s'.completed ∧ ∀ k, c.moves k → Copied s'.dst k (final s' k)) : Passes c s s' where
  drift := h
  guarded := {
    source := source
    dst := dst
    dstViews := dstViews
    sent hsent := (sent hsent).elim (fun h' => h.frozen_isSome (hs.sent h')) id
    scanned hscanned := (scanned hscanned).elim (fun h' => h.frozen_isSome (hs.scanned h')) id
    completed hcompleted := by
      rcases completed hcompleted with h' | h'
      · obtain ⟨hscanned, hsettled⟩ := hs.completed h'
        exact ⟨h.scanned hscanned, fun k hk => h.settled hs hscanned hk (hsettled k hk)⟩
      · exact h'
    pushes p hp := (pushes p hp).elim (fun h' => (hs.pushes p h').drift hs h) id
    batches b hb := (batches b hb).elim (fun h' => (hs.batches b h').drift hs h) id
    written w hw := (written w hw).elim (fun h' => (hs.written w h').drift hs h) id
    reset r hr := by
      rcases reset r hr with ⟨hr', hopen⟩ | h'
      · have hok := hs.reset r hr'
        exact hok.drift hs h (hopen.trans hok.open_)
      · exact h'
    handed hover := by
      rcases handed hover with h' | h'
      · obtain ⟨hcompleted, hcopied⟩ := hs.handed h'
        exact ⟨h.completed hcompleted, fun k hk => h.copied hs hcompleted hk (hcopied k hk)⟩
      · exact h' }

theorem Drift.of_eq (hsrc : s'.src = s.src) (hdst : s'.dst = s.dst)
    (hfrozen : s.frozen.isSome → s'.frozen = s.frozen) (hbatches : s.batches <+: s'.batches)
    (hcompleted : s.completed → s'.completed) (hscanned : s.scanned → s'.scanned)
    (hover : s.plan.isOver → s'.plan.isOver) : Drift c s s' where
  src := ⟨[], hsrc ▸ .of_eq rfl rfl rfl rfl⟩
  dst := ⟨[], hdst ▸ .of_eq rfl rfl rfl rfl, by simp⟩
  frozen := hfrozen
  batches := hbatches
  completed := hcompleted
  scanned := hscanned
  isOver := hover

/-- The parts of the state that a step of a group or of a client leaves alone. -/
structure Keeps (s s' : State K V) : Prop where
  plan : s'.plan = s.plan
  pushes : s'.pushes = s.pushes
  batches : s'.batches = s.batches
  written : s'.written = s.written
  resetSent : s'.resetSent = s.resetSent
  reset : s'.reset = s.reset
  completed : s'.completed = s.completed
  frozen : s'.frozen = s.frozen
  scanned : s'.scanned = s.scanned

theorem Keeps.drift (hk : Keeps s s') (src : ∃ tail, Advances s.src s'.src tail)
    (dst : ∃ tail, Advances s.dst s'.dst tail ∧ ∀ e ∈ tail, c.moves e.key →
      (s.scanned → e.origin = .client ∨ e.value = none ∨ e.value = final s e.key) ∧
      (s.completed → e.origin = .client ∨ e.value = final s e.key)) : Drift c s s' where
  src := src
  dst := dst
  frozen _ := hk.frozen
  batches := hk.batches ▸ List.prefix_refl _
  completed := by rw [hk.completed]; exact id
  scanned := by rw [hk.scanned]; exact id
  isOver := by rw [hk.plan]; exact id

theorem Keeps.guarded (hk : Keeps s s') (hs : Guarded c s) (h : Drift c s s')
    (source : SourceOk c s') (dst : s'.dst.Wf)
    (dstViews : ∀ n, (s'.dst.view n).rank ≤ s'.plan.rank) : Passes c s s' := by
  refine hs.of_drift h source dst dstViews ?_ ?_ ?_ ?_ ?_ ?_ ?_ ?_
  · rw [hk.resetSent]; exact .inl
  · rw [hk.scanned]; exact .inl
  · rw [hk.completed]; exact .inl
  · rw [hk.pushes]; exact fun p => .inl
  · rw [hk.batches]; exact fun b => .inl
  · rw [hk.written]; exact fun w => .inl
  · rw [hk.reset]; exact fun r hr => .inl ⟨hr, hk.completed⟩
  · rw [hk.plan]; exact .inl

theorem Guarded.at_source {tail : List (Entry K V)} (hs : Guarded c s) (hk : Keeps s s')
    (hdst : s'.dst = s.dst) (ha : Advances s.src s'.src tail) (hwf : s'.src.Wf)
    (hviews : ∀ n, (s'.src.view n).rank ≤ s.plan.rank)
    (hcleaned : ∀ e, e ∈ tail ∨ e ∈ s'.src.ever → e ∈ s.src.ever ∨
      (e.origin = .cleanup → e.value = none ∧ s.plan.isOver))
    (hbehind : s.frozen.isSome → ∀ e ∈ tail, c.moves e.key → e.origin = .cleanup) :
    Passes c s s' := by
  refine hk.guarded hs (hk.drift ⟨tail, ha⟩ ⟨[], hdst ▸ .of_eq rfl rfl rfl rfl, by simp⟩) ?_
    (hdst ▸ hs.dst) (by rw [hdst, hk.plan]; exact hs.dstViews)
  exact hs.source.advances ha hwf hk.frozen hk.plan (hk.plan ▸ hviews) hcleaned hbehind

theorem Guarded.at_destination {tail : List (Entry K V)} (hs : Guarded c s) (hk : Keeps s s')
    (hsrc : s'.src = s.src) (ha : Advances s.dst s'.dst tail) (hwf : s'.dst.Wf)
    (hviews : ∀ n, (s'.dst.view n).rank ≤ s.plan.rank)
    (htail : ∀ e ∈ tail, c.moves e.key →
      (s.scanned → e.origin = .client ∨ e.value = none ∨ e.value = final s e.key) ∧
      (s.completed → e.origin = .client ∨ e.value = final s e.key)) : Passes c s s' :=
  hk.guarded hs (hk.drift ⟨[], hsrc ▸ .of_eq rfl rfl rfl rfl⟩ ⟨tail, ha, htail⟩)
    (hs.source.frame hsrc hk.frozen hk.plan) hwf (hk.plan ▸ hviews)

section Groups

variable [DecidableEq V]

theorem groupStep_spec {g g' : ShardGroup K V View} {a : GroupAct K V} (h : groupStep g a = some g')
    (hg : g.Wf) : ∃ tail, g'.Wf ∧ Advances g g' tail ∧ g'.view = g.view ∧ g'.ever = g.ever ∧
      (tail ≠ [] → ∃ n keep, a = .elect n keep tail ∧ ∀ e ∈ tail, e ∈ g.ever) := by
  cases a with
  | commit u =>
    obtain ⟨hwf, ha⟩ := commit_spec h hg
    simp only [groupStep, commit, Option.ite_none_right_eq_some, Option.some.injEq] at h
    exact ⟨[], hwf, ha, by rw [← h.2], by rw [← h.2], by simp⟩
  | learn n u =>
    obtain ⟨hwf, ha⟩ := learn_spec h hg
    simp only [groupStep, learn, Option.ite_none_right_eq_some, Option.some.injEq] at h
    exact ⟨[], hwf, ha, by rw [← h.2], by rw [← h.2], by simp⟩
  | elect n keep tail =>
    obtain ⟨hwf, ha, hever⟩ := elect_spec h hg
    simp only [groupStep, elect, Option.ite_none_right_eq_some, Option.some.injEq] at h
    exact ⟨tail, hwf, ha, by rw [← h.2], by rw [← h.2], fun _ => ⟨n, keep, rfl, hever⟩⟩

theorem Guarded.group_source (hs : Guarded c s) {a : GroupAct K V} {g : ShardGroup K V View}
    (h : groupStep s.src a = some g) (hcalm : Calm c s (.group .source a)) :
    Passes c s { s with src := g } := by
  obtain ⟨tail, hwf, ha, hview, hever, htail⟩ := groupStep_spec h hs.source.wf
  refine hs.at_source ⟨rfl, rfl, rfl, rfl, rfl, rfl, rfl, rfl, rfl⟩ rfl ha hwf
    (fun n => by simpa [hview] using hs.source.views n) ?_ ?_
  · rintro e (he | he)
    · obtain ⟨-, -, -, hmem⟩ := htail (List.ne_nil_of_mem he)
      exact .inl (hmem e he)
    · exact .inl (hever ▸ he)
  · intro hfrozen e he
    obtain ⟨n, keep, rfl, -⟩ := htail (List.ne_nil_of_mem he)
    exact hcalm hfrozen e he

theorem Guarded.group_destination (hs : Guarded c s) {a : GroupAct K V} {g : ShardGroup K V View}
    (h : groupStep s.dst a = some g) (hcalm : Calm c s (.group .destination a)) :
    Passes c s { s with dst := g } := by
  obtain ⟨tail, hwf, ha, hview, -, htail⟩ := groupStep_spec h hs.dst
  refine hs.at_destination ⟨rfl, rfl, rfl, rfl, rfl, rfl, rfl, rfl, rfl⟩ rfl ha hwf
    (fun n => by simpa [hview] using hs.dstViews n) ?_
  intro e he hk
  obtain ⟨n, keep, rfl, -⟩ := htail (List.ne_nil_of_mem he)
  refine ⟨fun hscanned => .inl (hcalm hscanned e he hk), fun hcompleted => ?_⟩
  exact .inl (hcalm (hs.completed hcompleted).1 e he hk)

end Groups

section Views

omit [DecidableEq K] in
theorem adoptStep_spec {plan : View} {g g' : ShardGroup K V View} {n : Nat} {v : View}
    (h : adoptStep plan g n v = some g') (hg : g.Wf) (hviews : ∀ m, (g.view m).rank ≤ plan.rank) :
    g'.Wf ∧ Advances g g' [] ∧ g'.ever = g.ever ∧ ∀ m, (g'.view m).rank ≤ plan.rank := by
  simp only [adoptStep, Option.ite_none_right_eq_some, Option.some.injEq] at h
  obtain ⟨⟨-, hle⟩, rfl⟩ := h
  refine ⟨hg.of_eq rfl rfl rfl, .of_eq rfl rfl rfl rfl, rfl, fun m => ?_⟩
  by_cases hm : m = n
  · subst hm
    simpa using hle
  · simpa [Function.update_of_ne hm] using hviews m

theorem Guarded.adopt (hs : Guarded c s) {side : Side} {n : Nat} {v : View}
    {g : ShardGroup K V View}
    (h : adoptStep s.plan (s.group side) n v = some g) : Passes c s (s.setGroup side g) := by
  cases side with
  | source =>
    obtain ⟨hwf, ha, hever, hviews⟩ := adoptStep_spec h hs.source.wf hs.source.views
    exact hs.at_source ⟨rfl, rfl, rfl, rfl, rfl, rfl, rfl, rfl, rfl⟩ rfl ha hwf hviews
      (fun e he => .inl (by simpa [State.setGroup, State.group, hever] using he)) (by simp)
  | destination =>
    obtain ⟨hwf, ha, -, hviews⟩ := adoptStep_spec h hs.dst hs.dstViews
    exact hs.at_destination ⟨rfl, rfl, rfl, rfl, rfl, rfl, rfl, rfl, rfl⟩ rfl ha hwf
      hviews (by simp)

end Views

section Clients

theorem Guarded.of_keeps (hs : Guarded c s) (hk : Keeps s s') (hsrc : s'.src = s.src)
    (hdst : s'.dst = s.dst) : Passes c s s' :=
  hs.at_destination hk hsrc (.of_eq (by rw [hdst]) (by rw [hdst]) (by rw [hdst]) (by rw [hdst]))
    (hdst ▸ hs.dst) (hdst ▸ hs.dstViews) (by simp)

theorem mem_of_mem_ite {α : Type} {p : Prop} [Decidable p] {l : List α} {a : α}
    (h : a ∈ if p then l else []) : p ∧ a ∈ l := by
  by_cases hp : p
  · exact ⟨hp, by simpa [hp] using h⟩
  · simp [hp] at h

theorem Guarded.write (hs : Guarded c s) {a : WriteAct K V} (h : writeStep c s a = some s')
    (hcalm : Calm c s (.write a)) : Passes c s s' := by
  cases a with
  | accept side n k v =>
    simp only [writeStep, Option.ite_none_right_eq_some, Option.some.injEq] at h
    obtain ⟨-, rfl⟩ := h
    exact hs.of_keeps ⟨rfl, rfl, rfl, rfl, rfl, rfl, rfl, rfl, rfl⟩ rfl rfl
  | release i =>
    simp only [writeStep, Option.bind_eq_some_iff, Option.some.injEq] at h
    obtain ⟨w, -, rfl⟩ := h
    exact hs.of_keeps ⟨rfl, rfl, rfl, rfl, rfl, rfl, rfl, rfl, rfl⟩ rfl rfl
  | append i =>
    simp only [writeStep, Option.bind_eq_some_iff, Option.ite_none_right_eq_some,
      Option.some.injEq] at h
    obtain ⟨w, hw, -, rfl⟩ := h
    have hcalm' := hcalm w hw
    cases hside : w.side with
    | source =>
      obtain ⟨hwf, ha⟩ := appendAt_spec s.src w.node [⟨w.key, w.value, .client⟩] hs.source.wf
      refine hs.at_source ⟨rfl, rfl, rfl, rfl, rfl, rfl, rfl, rfl, rfl⟩ rfl ha hwf
        hs.source.views ?_ ?_
      · rintro e (he | he)
        · obtain ⟨-, he⟩ := mem_of_mem_ite he
          exact .inr fun ho => by simp [List.mem_singleton.mp he] at ho
        · rcases List.mem_append.mp he with he | he
          · exact .inl he
          · exact .inr fun ho => by simp [List.mem_singleton.mp he] at ho
      · intro hfrozen e he hk
        obtain ⟨hn, he⟩ := mem_of_mem_ite he
        obtain rfl := List.mem_singleton.mp he
        simp [hcalm' hside hn hk] at hfrozen
    | destination =>
      obtain ⟨hwf, ha⟩ := appendAt_spec s.dst w.node [⟨w.key, w.value, .client⟩] hs.dst
      refine hs.at_destination ⟨rfl, rfl, rfl, rfl, rfl, rfl, rfl, rfl, rfl⟩ rfl ha hwf
        hs.dstViews fun e he _ => ?_
      obtain ⟨-, he⟩ := mem_of_mem_ite he
      obtain rfl := List.mem_singleton.mp he
      exact ⟨fun _ => .inl rfl, fun _ => .inl rfl⟩

theorem View.over_of_rank {v w : View} (h : v.rank ≤ w.rank) (hv : v.isOver) : w.isOver := by
  cases v <;> cases w <;> simp [rank, isOver] at h hv ⊢
  all_goals omega

theorem Guarded.cleanup (hs : Guarded c s) {n : Nat} {k : K} (hview : (s.src.view n).isOver) :
    Passes c s { s with src := s.src.appendAt n [⟨k, none, .cleanup⟩] } := by
  have hover : s.plan.isOver := View.over_of_rank (hs.source.views n) hview
  obtain ⟨hwf, ha⟩ := appendAt_spec s.src n [⟨k, none, .cleanup⟩] hs.source.wf
  refine hs.at_source ⟨rfl, rfl, rfl, rfl, rfl, rfl, rfl, rfl, rfl⟩ rfl ha hwf
    hs.source.views ?_ ?_
  · rintro e (he | he)
    · obtain ⟨-, he⟩ := mem_of_mem_ite he
      exact .inr fun _ => by simp [List.mem_singleton.mp he, hover]
    · rcases List.mem_append.mp he with he | he
      · exact .inl he
      · exact .inr fun _ => by simp [List.mem_singleton.mp he, hover]
  · intro _ e he _
    obtain ⟨-, he⟩ := mem_of_mem_ite he
    rw [List.mem_singleton.mp he]

end Clients

end DewDB.Handover
