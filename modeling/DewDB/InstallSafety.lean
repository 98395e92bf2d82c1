import DewDB.CollectionInstall

/-!
# When the swap of a collection is atomic

When the staged directory opens, every point at which the install or a recovery stops leaves the old
collection in place, or the staged one marked and the old one backed up, or the staged one live.
When it does not open the undo path has points at which a recovery takes the staged directory.
-/
namespace DewDB.CollectionInstall

open TransitionSystem

variable {D : Type} {opens : Contents D → Bool}

section Invariant

variable {former : Option (Contents D)} {staged : Contents D} {s s' : State D}

def Steady (former : Option (Contents D)) (staged : Contents D) (s : State D) : Prop :=
  match s.root.live with
  | some d => former = some d.contents ∨
      d.contents = staged ∧ (s.root.old.map Dir.contents = former ∨ staged ∈ s.opened)
  | none => s.root.old.map Dir.contents = former ∧
      (∀ d ∈ s.root.tmp, d.marker = true → d.contents = staged) ∧
      (former.isSome → stagedInstallReady s.root.tmp)

/-- The staged directory is ready and the backup, if there was a collection, is in place. -/
def Swapping (former : Option (Contents D)) (staged : Contents D) (s : State D) : Prop :=
  s.root.live = none ∧ s.root.old.map Dir.contents = former ∧ s.root.tmp = some ⟨staged, true⟩

def PcOk (former : Option (Contents D)) (staged : Contents D) (s : State D) : Prop :=
  match s.pc with
  | .release | .clearOld => s.root.live.map Dir.contents = former ∧
      s.root.tmp.map Dir.contents = some staged ∧ (former = none → s.root.old = none)
  | .mark => s.root.live.map Dir.contents = former ∧
      s.root.tmp.map Dir.contents = some staged ∧ s.root.old = none
  | .backup => s.root.live.map Dir.contents = former ∧ s.root.tmp = some ⟨staged, true⟩ ∧
      s.root.old = none ∧ former.isSome
  | .swap hadOld => Swapping former staged s ∧ hadOld = former.isSome
  | .restore => Swapping former staged s ∧ former.isSome
  | .opening _ => s.root.live.map Dir.contents = some staged ∧ s.root.old.map Dir.contents = former
  | .unmark | .dropOld => s.root.live.map Dir.contents = some staged ∧ staged ∈ s.opened
  | .moveBad _ | .removeBad _ | .undo _ => False
  | .idle | .recover _ => True
  | .unmarkLive _ | .dropTmp | .openLive => s.root.live.isSome
  | .promote _ => s.root.live = none ∧ stagedInstallReady s.root.tmp
  | .clearTmp _ | .restoreOld _ => s.root.live = none ∧ stagedInstallReady s.root.tmp = false
  | .dropBackup => ∃ d ∈ s.root.live, former = some d.contents ∨ d.contents = staged ∧
      staged ∈ s.opened

structure Good (former : Option (Contents D)) (staged : Contents D) (s : State D) : Prop where
  refused : s.refused = []
  steady : Steady former staged s
  pcOk : PcOk former staged s

theorem Good.safe (h : Good former staged s) (hopens : opens staged = true) :
    Safe opens former staged s := by
  have hst := h.steady
  refine ⟨?_, by simp [h.refused], ?_⟩
  · unfold Steady at hst
    unfold settles
    cases hlive : s.root.live with
    | some d =>
      rw [hlive] at hst
      rcases hst with heq | ⟨heq, -⟩
      · exact .inl heq.symm
      · exact .inr ⟨congrArg some heq, hopens⟩
    | none =>
      rw [hlive] at hst
      obtain ⟨hold, hmark, -⟩ := hst
      dsimp only
      split
      · next hready =>
        obtain ⟨d, hd, hm⟩ := (Option.any_eq_true _ _).mp hready
        exact .inr ⟨by rw [hd, Option.map_some, hmark d hd hm], hopens⟩
      · exact .inl hold
  · intro c hc
    unfold Steady at hst
    cases hlive : s.root.live with
    | some d =>
      rw [hlive] at hst
      rcases hst with heq | ⟨-, hold | hopened⟩
      · exact .inl (by rw [Option.map_some, ← heq]; exact hc)
      · exact .inr (.inl (hold.trans hc))
      · exact .inr (.inr hopened)
    | none =>
      rw [hlive] at hst
      exact .inr (.inl (hst.1.trans hc))

theorem removed_not_ready {dir : Option (Dir D)} {out : Label}
    (h : stagedInstallReady dir = false) : stagedInstallReady (removed dir out) = false := by
  cases dir with
  | none => cases out <;> rfl
  | some d =>
    have hm : d.marker = false := h
    cases out <;> simp [stagedInstallReady, removed, hm]

theorem install_good (h : Good former staged s) (out : Label)
    (hpc : s.pc = .release ∨ s.pc = .clearOld ∨ s.pc = .mark ∨ s.pc = .backup ∨
      (∃ b, s.pc = .swap b) ∨ s.pc = .restore) : Good former staged (s.call opens out) := by
  obtain ⟨⟨live, old, tmp⟩, pc, opened, refused, promotions⟩ := s
  obtain ⟨hrefused, hsteady, hok⟩ := h
  simp only at hpc hrefused
  rcases hpc with rfl | rfl | rfl | rfl | ⟨hadOld, rfl⟩ | rfl
  · simp only [State.call]
    split
    · exact ⟨hrefused, hsteady, hok⟩
    · exact ⟨hrefused, hsteady, trivial⟩
  · obtain ⟨hlive, htmp, hold⟩ := hok
    simp only [State.call]
    split
    · next hnone =>
      have hnone : old = none := by simpa using hnone
      exact ⟨hrefused, hsteady, hlive, htmp, hnone⟩
    · next hsome =>
      have hformer : former ≠ none := by
        intro hf
        have hnone : old = none := hold hf
        simp [hnone] at hsome
      have : Steady former staged
          ⟨⟨live, removed old out, tmp⟩, .clearOld, opened, refused, promotions⟩ := by
        cases live with
        | none => exact absurd hlive.symm hformer
        | some d => exact .inl hlive.symm
      split
      · next hout =>
        subst hout
        exact ⟨hrefused, this, hlive, htmp, rfl⟩
      · exact ⟨hrefused, this, trivial⟩
  · obtain ⟨hlive, htmp, rfl⟩ := hok
    obtain ⟨⟨c, m⟩, rfl, rfl⟩ := Option.map_eq_some_iff.mp htmp
    simp only [State.call]
    split
    · cases live with
      | none =>
        obtain rfl : none = former := hlive
        exact ⟨hrefused, ⟨rfl, by simp [State.goto, State.setTmp, marked], by simp⟩,
          ⟨rfl, rfl, rfl⟩, rfl⟩
      | some d => exact ⟨hrefused, .inl hlive.symm, hlive, rfl, rfl, hlive ▸ rfl⟩
    · exact ⟨hrefused, hsteady, trivial⟩
  · obtain ⟨hlive, rfl, rfl, hsome⟩ := hok
    simp only [State.call]
    split
    · refine ⟨hrefused, ⟨hlive, ?_, fun _ => rfl⟩, ⟨rfl, hlive, rfl⟩, hsome.symm⟩
      simp [State.goto, State.setOld, State.setLive]
    · exact ⟨hrefused, hsteady, trivial⟩
  · obtain ⟨⟨rfl, hold, rfl⟩, rfl⟩ := hok
    simp only [State.call]
    split
    · exact ⟨hrefused, .inr ⟨rfl, .inl hold⟩, rfl, hold⟩
    · next hfail =>
      by_cases hf : former.isSome
      · simp only [hf, if_true]
        exact ⟨hrefused, hsteady, ⟨rfl, hold, rfl⟩, hf⟩
      · simp only [hf]
        exact ⟨hrefused, hsteady, trivial⟩
  · obtain ⟨⟨rfl, hold, rfl⟩, hsome⟩ := hok
    simp only [State.call]
    split
    · cases old with
      | none =>
        rw [← hold] at hsome
        simp at hsome
      | some d => exact ⟨hrefused, .inl hold.symm, trivial⟩
    · exact ⟨hrefused, hsteady, trivial⟩

theorem opening_good (hopens : opens staged = true) (h : Good former staged s) {out : Label}
    (hout : ∀ b, s.pc = .opening b → out = .ok)
    (hpc : (∃ b, s.pc = .opening b) ∨ s.pc = .unmark ∨ s.pc = .dropOld) :
    Good former staged (s.call opens out) := by
  obtain ⟨⟨live, old, tmp⟩, pc, opened, refused, promotions⟩ := s
  obtain ⟨hrefused, hsteady, hok⟩ := h
  simp only at hpc hrefused
  rcases hpc with ⟨hadOld, rfl⟩ | rfl | rfl
  · obtain ⟨hlive, hold⟩ := hok
    obtain ⟨⟨c, m⟩, rfl, rfl⟩ := Option.map_eq_some_iff.mp hlive
    simp only [State.call]
    rw [if_pos ⟨hout hadOld rfl, hopens⟩]
    exact ⟨hrefused, .inr ⟨rfl, .inl hold⟩, rfl, List.mem_cons_self⟩
  · obtain ⟨hlive, hopened⟩ := hok
    obtain ⟨⟨c, m⟩, rfl, rfl⟩ := Option.map_eq_some_iff.mp hlive
    simp only [State.call]
    split
    · exact ⟨hrefused, .inr ⟨rfl, .inr hopened⟩, rfl, hopened⟩
    · exact ⟨hrefused, hsteady, rfl, hopened⟩
  · obtain ⟨hlive, hopened⟩ := hok
    obtain ⟨⟨c, m⟩, rfl, rfl⟩ := Option.map_eq_some_iff.mp hlive
    exact ⟨hrefused, .inr ⟨rfl, .inr hopened⟩, trivial⟩

theorem recover_live_good (h : Good former staged s) (out : Label)
    (hpc : (∃ b, s.pc = .unmarkLive b) ∨ s.pc = .dropTmp ∨ s.pc = .openLive ∨ s.pc = .dropBackup) :
    Good former staged (s.call opens out) := by
  obtain ⟨⟨live, old, tmp⟩, pc, opened, refused, promotions⟩ := s
  obtain ⟨hrefused, hsteady, hok⟩ := h
  simp only at hpc hrefused
  rcases hpc with ⟨boot, rfl⟩ | rfl | rfl | rfl
  · obtain ⟨d, rfl⟩ := Option.isSome_iff_exists.mp hok
    simp only [State.call, State.recovered]
    split
    · split
      · exact ⟨hrefused, hsteady, rfl⟩
      · exact ⟨hrefused, hsteady, rfl⟩
    · cases boot
      · split
        · exact ⟨hrefused, hsteady, rfl⟩
        · exact ⟨hrefused, hsteady, rfl⟩
      · split
        · exact ⟨hrefused, hsteady, trivial⟩
        · exact ⟨hrefused, hsteady, trivial⟩
  · obtain ⟨d, rfl⟩ := Option.isSome_iff_exists.mp hok
    exact ⟨hrefused, hsteady, trivial⟩
  · obtain ⟨d, rfl⟩ := Option.isSome_iff_exists.mp hok
    simp only [State.call]
    split
    · rcases hsteady with hf | ⟨hc, ho⟩
      · exact ⟨hrefused, .inl hf, d, rfl, .inl hf⟩
      · have hmem : staged ∈ d.contents :: opened := hc ▸ List.mem_cons_self
        exact ⟨hrefused, .inr ⟨hc, .inr hmem⟩, d, rfl, .inr ⟨hc, hmem⟩⟩
    · exact ⟨hrefused, hsteady, trivial⟩
  · obtain ⟨d, rfl, hd⟩ := hok
    rcases hd with hf | ⟨hc, ho⟩
    · exact ⟨hrefused, .inl hf, trivial⟩
    · exact ⟨hrefused, .inr ⟨hc, .inr ho⟩, trivial⟩

/-- The calls of a recovery that finds `live` missing, or that has yet to look. -/
theorem recover_missing_good (h : Good former staged s) (out : Label)
    (hpc : ∃ b, s.pc = .recover b ∨ s.pc = .promote b ∨ s.pc = .clearTmp b ∨ s.pc = .restoreOld b) :
    Good former staged (s.call opens out) := by
  obtain ⟨⟨live, old, tmp⟩, pc, opened, refused, promotions⟩ := s
  obtain ⟨hrefused, hsteady, hok⟩ := h
  simp only at hpc hrefused
  obtain ⟨boot, hpc⟩ := hpc
  rcases hpc with rfl | rfl | rfl | rfl
  · simp only [State.call]
    split
    · next hlive => exact ⟨hrefused, hsteady, hlive⟩
    · next hlive =>
      have hnone : live = none := by simpa using hlive
      subst hnone
      split
      · next hready => exact ⟨hrefused, hsteady, rfl, hready⟩
      · next hready =>
        have hready : stagedInstallReady tmp = false := by simpa using hready
        split
        · exact ⟨hrefused, hsteady, rfl, hready⟩
        · exact ⟨hrefused, hsteady, rfl, hready⟩
  · obtain ⟨hnone, hready⟩ := hok
    have hnone : live = none := hnone
    subst hnone
    obtain ⟨hold, hmark, -⟩ := hsteady
    obtain ⟨d, rfl, hm⟩ := (Option.any_eq_true _ _).mp hready
    simp only [State.call]
    split
    · exact ⟨hrefused, .inr ⟨hmark d rfl hm, .inl hold⟩, rfl⟩
    · exact ⟨hrefused, ⟨hold, hmark, fun _ => hready⟩, trivial⟩
  · obtain ⟨hnone, hready⟩ := hok
    have hnone : live = none := hnone
    have hready : stagedInstallReady tmp = false := hready
    subst hnone
    obtain ⟨hold, hmark, himp⟩ := hsteady
    have hready' : stagedInstallReady (removed tmp out) = false := removed_not_ready hready
    refine ⟨hrefused, ⟨hold, ?_, ?_⟩, rfl, hready'⟩
    · intro d hd hm
      have : stagedInstallReady (removed tmp out) = true := (Option.any_eq_true _ _).mpr ⟨d, hd, hm⟩
      rw [hready'] at this
      simp at this
    · intro hsome
      have : stagedInstallReady tmp = true := himp hsome
      rw [hready] at this
      simp at this
  · obtain ⟨hnone, hready⟩ := hok
    have hnone : live = none := hnone
    have hready : stagedInstallReady tmp = false := hready
    subst hnone
    simp only [State.call]
    split
    · next hold =>
      -- With no staged install ready there was no collection, so there is no backup.
      obtain ⟨d, rfl⟩ := Option.isSome_iff_exists.mp hold.2
      obtain ⟨rfl, -, himp⟩ := hsteady
      have : stagedInstallReady tmp = true := himp rfl
      rw [hready] at this
      simp at this
    · exact ⟨hrefused, hsteady, trivial⟩

theorem call_good (hopens : opens staged = true) (h : Good former staged s) {out : Label}
    (hout : ∀ b, s.pc = .opening b → out = .ok) :
    Good former staged (s.call opens out) := by
  cases hpc : s.pc with
  | release => exact install_good h out (.inl hpc)
  | clearOld => exact install_good h out (.inr (.inl hpc))
  | mark => exact install_good h out (.inr (.inr (.inl hpc)))
  | backup => exact install_good h out (.inr (.inr (.inr (.inl hpc))))
  | swap b => exact install_good h out (.inr (.inr (.inr (.inr (.inl ⟨b, hpc⟩)))))
  | restore => exact install_good h out (.inr (.inr (.inr (.inr (.inr hpc)))))
  | opening b => exact opening_good hopens h hout (.inl ⟨b, hpc⟩)
  | unmark => exact opening_good hopens h hout (.inr (.inl hpc))
  | dropOld => exact opening_good hopens h hout (.inr (.inr hpc))
  | moveBad b => simpa [PcOk, hpc] using h.pcOk
  | removeBad b => simpa [PcOk, hpc] using h.pcOk
  | undo b => simpa [PcOk, hpc] using h.pcOk
  | idle => simpa only [State.call, hpc] using h
  | recover b => exact recover_missing_good h out ⟨b, .inl hpc⟩
  | promote b => exact recover_missing_good h out ⟨b, .inr (.inl hpc)⟩
  | clearTmp b => exact recover_missing_good h out ⟨b, .inr (.inr (.inl hpc))⟩
  | restoreOld b => exact recover_missing_good h out ⟨b, .inr (.inr (.inr hpc))⟩
  | unmarkLive b => exact recover_live_good h out (.inl ⟨b, hpc⟩)
  | dropTmp => exact recover_live_good h out (.inr (.inl hpc))
  | openLive => exact recover_live_good h out (.inr (.inr (.inl hpc)))
  | dropBackup => exact recover_live_good h out (.inr (.inr (.inr hpc)))

theorem step_good (hopens : opens staged = true) (h : Good former staged s) {l : Label}
    (hruns : OpenRuns s l) (hs : step opens s l = some s') : Good former staged s' := by
  cases l with
  | crash =>
    cases hs
    exact ⟨h.refused, h.steady, trivial⟩
  | boot =>
    simp only [step, Option.ite_none_right_eq_some, Option.some.injEq] at hs
    obtain ⟨-, rfl⟩ := hs
    exact ⟨h.refused, h.steady, trivial⟩
  | lookup =>
    simp only [step, Option.ite_none_right_eq_some, Option.some.injEq] at hs
    obtain ⟨-, rfl⟩ := hs
    exact ⟨h.refused, h.steady, trivial⟩
  | ok =>
    simp only [step, Option.ite_none_left_eq_some, Option.some.injEq] at hs
    exact hs.2 ▸ call_good hopens h fun _ _ => rfl
  | fail =>
    simp only [step, Option.ite_none_left_eq_some, Option.some.injEq] at hs
    exact hs.2 ▸ call_good hopens h fun b hpc => absurd hpc (hruns b)
  | partway m =>
    simp only [step, Option.ite_none_left_eq_some, Option.some.injEq] at hs
    exact hs.2 ▸ call_good hopens h fun b hpc => absurd hpc (hruns b)

end Invariant

/-- The paths when an install begins: a live collection or none, any backup, and the staged one. -/
def before (live : Option D) (old : Option (Dir D)) (staged : D) : Root D :=
  ⟨live.map fun d => ⟨.whole d, false⟩, old, some ⟨.whole staged, false⟩⟩

section Ends

variable {live : Option D} {old : Option (Dir D)} {staged : D}

theorem start_good (staged : D) (h : live.isSome ∨ old.isNone) :
    Good (former (before live old staged)) (.whole staged) (start (before live old staged)) := by
  cases live with
  | some d => exact ⟨rfl, .inl rfl, rfl, rfl, fun hf => by simp [former, before] at hf⟩
  | none =>
    have hold : old = none := by simpa using h
    subst hold
    refine ⟨rfl, ⟨rfl, ?_, by simp [former, before]⟩, rfl, rfl, fun _ => rfl⟩
    simp [start, before]

theorem lost_of_backup (opens : Contents D → Bool) (d : Dir D) (staged : D) :
    ∃ s, run (step opens) (start (before none (some d) staged)) [.ok, .ok] = some s ∧
      ¬ Safe opens (former (before none (some d) staged)) (.whole staged) s := by
  refine ⟨_, rfl, fun h => ?_⟩
  have := h.kept d.contents rfl
  simp [State.call, State.goto, State.setOld, start, before, removed] at this

theorem meets_ok {s : State D} (n : Nat) : Meets (step opens) OpenRuns s (.replicate n .ok) := by
  induction n generalizing s with
  | zero => trivial
  | succ n ih => exact ⟨trivial, fun _ _ => ih⟩

/-- The state once both renames are done, for an install over a live collection. -/
def atOpening (d staged : D) : State D :=
  ⟨⟨some ⟨.whole staged, true⟩, some ⟨.whole d, false⟩, none⟩, .opening true, [], [], []⟩

theorem run_atOpening (opens : Contents D → Bool) (d staged : D) (old : Option (Dir D)) :
    run (step opens) (start (before (some d) old staged)) (.replicate 5 .ok) =
      some (atOpening d staged) := by
  cases old <;> rfl

/-- The labels of an install whose staged directory does not open and cannot be moved away, stopped
while the directory is removed. -/
def badInstall : List Label := List.replicate 5 Label.ok ++ [Label.ok, .fail, .partway true]

theorem badInstall_runs (h : opens (.whole staged) = false) (d : D) (old : Option (Dir D)) :
    Meets (step opens) OpenRuns (start (before (some d) old staged)) badInstall ∧
      ∃ s, run (step opens) (start (before (some d) old staged)) badInstall = some s ∧
        settles s.root = some (.part staged) := by
  have hfirst := run_atOpening opens d staged old
  have hstep : step opens (atOpening d staged) .ok =
      some { (atOpening d staged).goto (.moveBad true) with refused := [.whole staged] } := by
    simp [step, State.call, State.goto, atOpening, h]
  constructor
  · apply meets_append (meets_ok 5) hfirst
    refine ⟨trivial, fun s hs => ?_⟩
    obtain rfl := Option.some.inj (hstep.symm.trans hs)
    refine ⟨fun _ hpc => Pc.noConfusion hpc, fun s hs => ?_⟩
    obtain rfl := Option.some.inj hs
    exact ⟨fun _ hpc => Pc.noConfusion hpc, fun _ _ => trivial⟩
  · refine ⟨_, run_append.mpr ⟨_, hfirst, run_cons.mpr ⟨_, hstep, rfl⟩⟩, rfl⟩

/-- With no collection before, the staged directory is live once it has been found not to open. -/
theorem newInstall_runs (h : opens (.whole staged) = false) :
    ∃ s, run (step opens) (start (before none none staged)) (.replicate 5 .ok) = some s ∧
      settles s.root = some (.whole staged) := by
  have hfirst : run (step opens) (start (before none none staged)) (.replicate 4 .ok) =
      some ⟨⟨some ⟨.whole staged, true⟩, none, none⟩, .opening false, [], [], []⟩ := rfl
  have hlast : step opens ⟨⟨some ⟨.whole staged, true⟩, none, none⟩, .opening false,
    [], [], []⟩ .ok =
      some ⟨⟨some ⟨.whole staged, true⟩, none, none⟩, .moveBad false, [], [.whole staged], []⟩ := by
    simp [step, State.call, State.goto, h]
  exact ⟨_, run_append.mpr ⟨_, hfirst, run_cons.mpr ⟨_, hlast, rfl⟩⟩, rfl⟩

end Ends

/-- For every live collection, backup and staged directory: the swap is atomic in every state that
the install, its failures, crashes and any recoveries reach exactly when the staged directory opens,
and a collection that is not live is not in the backup either. -/
theorem install_atomic_iff (live : Option D) (old : Option (Dir D)) (staged : D) :
    (∀ labels s, run (step opens) (start (before live old staged)) labels = some s →
      Meets (step opens) OpenRuns (start (before live old staged)) labels →
      Safe opens (former (before live old staged)) (.whole staged) s) ↔
    opens (.whole staged) = true ∧ (live.isSome ∨ old.isNone) := by
  constructor
  · intro hsafe
    have hback : live.isSome ∨ old.isNone := by
      rcases live with _ | d
      · rcases old with _ | b
        · exact .inr rfl
        · obtain ⟨s, hrun, hnot⟩ := lost_of_backup opens b staged
          exact absurd (hsafe _ s hrun (meets_ok 2)) hnot
      · exact .inl rfl
    refine ⟨?_, hback⟩
    by_contra hopens
    have hopens : opens (.whole staged) = false := by simpa using hopens
    rcases live with _ | d
    · have hold : old = none := by simpa using hback
      subst hold
      obtain ⟨s, hrun, hsettles⟩ := newInstall_runs hopens
      have := (hsafe _ s hrun (meets_ok 5)).settles
      simp [hsettles, former, before, hopens] at this
    · obtain ⟨hmeets, s, hrun, hsettles⟩ := badInstall_runs hopens d old
      have := (hsafe _ s hrun hmeets).settles
      simp [hsettles, former, before] at this
  · rintro ⟨hopens, hback⟩ labels s hrun hmeets
    have := run_invariant_of_meets (fun _ _ _ h hruns hs => step_good hopens h hruns hs) hrun hmeets
      (start_good staged hback)
    exact this.safe hopens

/-- The install finds that the staged collection 2 does not open and moves it back to `.tmp`, with
its marker, then the process stops. The next boot promotes it over the backup of collection 1, which
opens. -/
theorem refused_staging_promoted : ∃ s,
    run (step (· == Contents.whole 1)) (start (before (some 1) none 2))
      [.ok, .ok, .ok, .ok, .ok, .ok, .ok, .crash, .boot, .ok, .ok] = some s ∧
    s.promotions = [(.whole 2, some (.whole 1))] ∧ Contents.whole 2 ∈ s.refused ∧
    ¬ Safe (· == Contents.whole 1) (some (.whole 1)) (.whole 2) s := by
  refine ⟨_, rfl, rfl, by decide, fun h => ?_⟩
  exact absurd (h.promotions _ List.mem_cons_self (by decide) _ rfl) (by decide)

end DewDB.CollectionInstall
