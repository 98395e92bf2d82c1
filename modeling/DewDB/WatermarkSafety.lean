import DewDB.WatermarkSaves

/-!
# The watermark is never ahead of the settings it stands with

The position file is written beside an `applied.meta` that was found to be current. Where nothing
has changed the settings between that look and the moment the position is taken, the two files are
of one state of the collection, and a call that returned is covered by them.
-/
namespace DewDB.Watermark

open StorageEntry Recovery PositionSlots TransitionSystem

variable {ι V H : Type}

def Task.position : Task → ℕ
  | .applyCommitted committedLsn => committedLsn.toNat
  | _ => 0

section Facts

variable (crc : List UInt8 → UInt32) (seen : List (State ι V H)) (s : State ι V H)

/-- The settings are those of a state in which the position was reached, at a time when no batch was
half applied. -/
def OfOneState (settings : Settings H) (position : ℕ) : Prop :=
  ∃ t ∈ seen, t.IndexFree ∧ t.settings = settings ∧ position ≤ t.appliedLsn

def CallerOk : Pc → Prop
  | .checkSaved task | .waiting task => task.position ≤ s.appliedLsn
  | .loadGen task | .loadSaved task _ => task.position ≤ s.appliedLsn ∧
      task.position ≤ s.watermarkSaved
  | .returned task ok => ok = true → task.position ≤ s.watermarkSaved
  | .idle | .draining | .writing => True

def PhaseOk (task : Task) : Phase H → Prop
  | .checkSaved | .loadRich => True
  | .loadGen | .loadSaved _ => task.position ≤ s.watermarkSaved
  | .compare rich | .sampleFull rich => s.richSaved ≤ rich ∧ rich ≤ s.richGen
  | .sample rich => rich = s.richSaved
  | .savePos rich covered => rich = s.richSaved ∧ task.position ≤ covered ∧
      durable crc s ≤ covered ∧
      covered ≤ s.appliedLsn ∧ ∀ m ∈ s.appliedMeta, OfOneState seen m.settings covered
  | .notePos covered => task.position ≤ covered ∧ covered ≤ durable crc s
  | .saveFull rich record => (s.richSaved ≤ rich ∧ rich ≤ s.richGen) ∧
      task.position ≤ record.appliedLsn ∧
      durable crc s ≤ record.appliedLsn ∧ record.appliedLsn ≤ s.appliedLsn ∧
      (rich = s.richGen → record.settings = s.settings) ∧
        OfOneState seen record.settings record.appliedLsn
  | .noteRich rich covered => rich ≤ s.richGen ∧
      (rich = s.richGen → ∀ m ∈ s.appliedMeta, m.settings = s.settings) ∧
      s.appliedMeta.isSome ∧ task.position ≤ covered ∧ covered ≤ durable crc s
  | .noteSaved covered => s.appliedMeta.isSome ∧ task.position ≤ covered ∧ covered ≤ durable crc s

structure Inv : Prop where
  mem : s ∈ seen
  appliedPos : PositionSlots.Inv crc s.appliedPos
  appliedLsn_lt : s.appliedLsn < 2 ^ 64
  durable_le : durable crc s ≤ s.appliedLsn
  saved_le : s.watermarkSaved ≤ durable crc s
  richSaved_le : s.richSaved ≤ s.richGen
  current : s.richSaved = s.richGen → ∀ m ∈ s.appliedMeta, m.settings = s.settings
  fields : ∀ m ∈ s.appliedMeta, OfOneState seen m.settings (durable crc s)
  recorded : s.watermarkRecorded = true → s.appliedMeta.isSome
  pending : s.pending ≠ [] → s.watermarkRecorded = true
  highest : s.highestApplied ≠ 0 → s.watermarkRecorded = true
  drain : ∀ d ∈ s.drain, d.highest ≠ 0 → s.watermarkRecorded = true
  callers : ∀ c, CallerOk s (s.pc c)
  writer : ∀ w ∈ s.writer, w.task.position ≤ s.appliedLsn ∧ PhaseOk crc seen s w.task w.phase

end Facts

/-- What others may do while a call is on its way: the settings change only with the count. -/
structure Later (s s' : State ι V H) : Prop where
  appliedLsn : s.appliedLsn ≤ s'.appliedLsn
  watermarkSaved : s.watermarkSaved ≤ s'.watermarkSaved
  richGen : s.richGen ≤ s'.richGen
  settings : s'.richGen = s.richGen → s'.settings = s.settings

structure SameSaves (s s' : State ι V H) : Prop where
  appliedMeta : s'.appliedMeta = s.appliedMeta
  appliedPos : s'.appliedPos = s.appliedPos
  watermarkSaved : s'.watermarkSaved = s.watermarkSaved
  richSaved : s'.richSaved = s.richSaved
  watermarkRecorded : s'.watermarkRecorded = s.watermarkRecorded

section Rely

variable {crc : List UInt8 → UInt32} {seen : List (State ι V H)} {s s' : State ι V H}
  {settings : Settings H} {position : ℕ} {task : Task} {phase : Phase H} {pc : Pc}

theorem OfOneState.append (h : OfOneState seen settings position) (more : List (State ι V H)) :
    OfOneState (seen ++ more) settings position :=
  h.imp fun _ ht => ⟨List.mem_append_left _ ht.1, ht.2⟩

theorem OfOneState.mono (h : OfOneState seen settings position) {position' : ℕ}
    (hle : position' ≤ position) : OfOneState seen settings position' :=
  h.imp fun _ ht => ⟨ht.1, ht.2.1, ht.2.2.1, hle.trans ht.2.2.2⟩

theorem OfOneState.of_mem (hmem : s ∈ seen) (hfree : s.IndexFree) :
    OfOneState seen s.settings s.appliedLsn :=
  ⟨s, hmem, hfree, rfl, Nat.le_refl _⟩

theorem Later.of_eq (happlied : s'.appliedLsn = s.appliedLsn)
    (hsaved : s'.watermarkSaved = s.watermarkSaved)
    (hgen : s'.richGen = s.richGen) (hsettings : s'.settings = s.settings) : Later s s' :=
  ⟨happlied.ge, hsaved.ge, hgen.ge, fun _ => hsettings⟩

theorem CallerOk.later (h : CallerOk s pc) (hlater : Later s s') : CallerOk s' pc := by
  have happlied := hlater.appliedLsn
  have hsaved := hlater.watermarkSaved
  cases pc with
  | checkSaved task => exact Nat.le_trans h happlied
  | waiting task => exact Nat.le_trans h happlied
  | loadGen task => exact ⟨Nat.le_trans h.1 happlied, Nat.le_trans h.2 hsaved⟩
  | loadSaved task gen => exact ⟨Nat.le_trans h.1 happlied, Nat.le_trans h.2 hsaved⟩
  | returned task ok => exact fun hok => Nat.le_trans (h hok) hsaved
  | _ => trivial

theorem durable_congr (h : SameSaves s s') : durable crc s' = durable crc s := by
  rw [durable, h.appliedMeta, h.appliedPos, durable]

theorem PhaseOk.later (h : PhaseOk crc seen s task phase) (hlater : Later s s')
    (hsaves : SameSaves s s')
    (more : List (State ι V H)) : PhaseOk crc (seen ++ more) s' task phase := by
  have happlied := hlater.appliedLsn
  have hgen := hlater.richGen
  have hdurable := @durable_congr _ _ _ crc _ _ hsaves
  obtain ⟨hmeta, hpos, hsaved, hrichSaved, -⟩ := hsaves
  cases phase with
  | checkSaved => trivial
  | loadRich => trivial
  | loadGen =>
    rw [PhaseOk, hsaved]
    exact h
  | loadSaved gen =>
    rw [PhaseOk, hsaved]
    exact h
  | compare rich =>
    rw [PhaseOk, hrichSaved]
    exact ⟨h.1, Nat.le_trans h.2 hgen⟩
  | sampleFull rich =>
    rw [PhaseOk, hrichSaved]
    exact ⟨h.1, Nat.le_trans h.2 hgen⟩
  | sample rich =>
    rw [PhaseOk, hrichSaved]
    exact h
  | savePos rich covered =>
    obtain ⟨hrich, hposition, hcovered, hle, hfields⟩ := h
    rw [PhaseOk, hmeta, hdurable, hrichSaved]
    exact ⟨hrich, hposition, hcovered, Nat.le_trans hle happlied, fun m hm =>
      (hfields m hm).append more⟩
  | notePos covered =>
    rw [PhaseOk, hdurable]
    exact h
  | saveFull rich record =>
    obtain ⟨⟨hrichLe, hleGen⟩, hposition, hcovered, hle, hsettings, hfields⟩ := h
    rw [PhaseOk, hdurable, hrichSaved]
    refine ⟨⟨hrichLe, Nat.le_trans hleGen hgen⟩, hposition, hcovered, Nat.le_trans hle happlied,
      fun hrich => ?_, hfields.append more⟩
    have hsame : s'.richGen = s.richGen := Nat.le_antisymm (hrich ▸ hleGen) hgen
    rw [hlater.settings hsame]
    exact hsettings (hrich.trans hsame)
  | noteRich rich covered =>
    obtain ⟨hleGen, hsettings, hsome, hposition, hcovered⟩ := h
    rw [PhaseOk, hmeta, hdurable]
    refine ⟨Nat.le_trans hleGen hgen, fun hrich => ?_, hsome, hposition, hcovered⟩
    have hsame : s'.richGen = s.richGen := Nat.le_antisymm (hrich ▸ hleGen) hgen
    rw [hlater.settings hsame]
    exact hsettings (hrich.trans hsame)
  | noteSaved covered =>
    rw [PhaseOk, hmeta, hdurable]
    exact h

theorem Inv.other (h : Inv crc seen s) (hlater : Later s s') (hsaves : SameSaves s s')
    (happlied : s'.appliedLsn < 2 ^ 64) (hpending : s'.pending ≠ [] → s.watermarkRecorded = true)
    (hhighest : s'.highestApplied ≠ 0 → s.watermarkRecorded = true)
    (hdrain : ∀ d ∈ s'.drain, d.highest ≠ 0 → s.watermarkRecorded = true)
    (hcallers : ∀ c, CallerOk s' (s'.pc c))
    (hwriter : ∀ w ∈ s'.writer, w.task.position ≤ s'.appliedLsn ∧
      PhaseOk crc (seen ++ [s']) s' w.task w.phase) :
    Inv crc (seen ++ [s']) s' := by
  have hdurable := @durable_congr _ _ _ crc _ _ hsaves
  have hgen := hlater.richGen
  constructor
  · exact List.mem_append_right _ (List.mem_singleton_self _)
  · exact hsaves.appliedPos.symm ▸ h.appliedPos
  · exact happlied
  · exact hdurable.symm ▸ Nat.le_trans h.durable_le hlater.appliedLsn
  · rw [hsaves.watermarkSaved, hdurable]
    exact h.saved_le
  · rw [hsaves.richSaved]
    exact Nat.le_trans h.richSaved_le hgen
  · intro heq m hm
    rw [hsaves.richSaved] at heq
    rw [hsaves.appliedMeta] at hm
    have hsame : s'.richGen = s.richGen := Nat.le_antisymm (heq ▸ h.richSaved_le) hgen
    rw [hlater.settings hsame]
    exact h.current (heq.trans hsame) m hm
  · intro m hm
    rw [hsaves.appliedMeta] at hm
    rw [hdurable]
    exact (h.fields m hm).append _
  · rw [hsaves.watermarkRecorded, hsaves.appliedMeta]
    exact h.recorded
  · rw [hsaves.watermarkRecorded]
    exact hpending
  · rw [hsaves.watermarkRecorded]
    exact hhighest
  · rw [hsaves.watermarkRecorded]
    exact hdrain
  · exact hcallers
  · exact hwriter

theorem Inv.writer_later (h : Inv crc seen s) (hlater : Later s s') (hsaves : SameSaves s s')
    (hwriter : s'.writer = s.writer) (more : List (State ι V H)) :
    ∀ w ∈ s'.writer, w.task.position ≤ s'.appliedLsn ∧
      PhaseOk crc (seen ++ more) s' w.task w.phase := by
  intro w hw
  rw [hwriter] at hw
  obtain ⟨hposition, hphase⟩ := h.writer w hw
  exact ⟨Nat.le_trans hposition hlater.appliedLsn, hphase.later hlater hsaves more⟩

theorem callers_later (h : ∀ c, CallerOk s (s.pc c)) (hlater : Later s s') (hpc : s'.pc = s.pc) :
    ∀ c, CallerOk s' (s'.pc c) := by
  intro c
  rw [hpc]
  exact (h c).later hlater

theorem callers_at [DecidableEq ι] {c : ι} (h : ∀ c, CallerOk s (s.pc c)) (hlater : Later s s')
    (hpc : s'.pc = Function.update s.pc c pc) (hok : CallerOk s' pc) :
    ∀ c, CallerOk s' (s'.pc c) := by
  intro c'
  rw [hpc]
  by_cases hc : c' = c
  · rw [hc, Function.update_self]
    exact hok
  · rw [Function.update_of_ne hc]
    exact (h c').later hlater

theorem covers_le (h : s.covers task = true) : task.position ≤ s.watermarkSaved := by
  cases task with
  | applyCommitted committedLsn => exact of_decide_eq_true h
  | _ => exact Nat.zero_le _

end Rely

section Steps

variable [DecidableEq ι] {crc : List UInt8 → UInt32} {seen : List (State ι V H)}
  {s s' : State ι V H} {c : ι}

theorem Inv.at_ (h : Inv crc seen s) {pc : Pc} (hok : CallerOk s pc) : Inv crc
    (seen ++ [s.at_ c pc]) (s.at_ c pc) :=
  have hlater : Later s (s.at_ c pc) := .of_eq rfl rfl rfl rfl
  have hsaves : SameSaves s (s.at_ c pc) := ⟨rfl, rfl, rfl, rfl, rfl⟩
  h.other hlater hsaves h.appliedLsn_lt h.pending h.highest h.drain
    (callers_at h.callers hlater rfl (hok.later hlater)) (h.writer_later hlater hsaves rfl _)

theorem Inv.startDrain (h : Inv crc seen s) (committedLsn : UInt64) :
    Inv crc (seen ++ [s.startDrain c committedLsn]) (s.startDrain c committedLsn) := by
  have hlater : Later s (s.startDrain c committedLsn) := .of_eq rfl rfl rfl rfl
  have hsaves : SameSaves s (s.startDrain c committedLsn) := ⟨rfl, rfl, rfl, rfl, rfl⟩
  refine h.other hlater hsaves h.appliedLsn_lt (fun hne => h.pending fun hnil =>
    hne ?_) h.highest ?_
    (callers_at h.callers hlater rfl trivial) (h.writer_later hlater hsaves rfl _)
  · rw [State.startDrain, hnil]
    rfl
  · intro d hd hne
    obtain rfl := Option.some.inj hd
    refine h.pending fun hnil => hne ?_
    rw [hnil]
    rfl

theorem Inv.start (h : Inv crc seen s) {task : Task} (hstep : s.start c task = some s') :
    Inv crc (seen ++ [s']) s' := by
  cases task with
  | applyCommitted committedLsn =>
    rw [State.start] at hstep
    split at hstep
    · obtain rfl := Option.some.inj hstep
      exact h.startDrain committedLsn
    · cases hstep
  | recordOnce =>
    obtain rfl := Option.some.inj hstep
    exact h.at_ (Nat.zero_le _)
  | flushFull =>
    obtain rfl := Option.some.inj hstep
    exact h.at_ (Nat.zero_le _)

theorem Inv.stepDrain (h : Inv crc seen s) {d : Drain ι H} (hd : s.drain = some d) :
    Inv crc (seen ++ [s.stepDrain d]) (s.stepDrain d) := by
  have hhighest := h.drain d hd
  obtain ⟨caller, committedLsn, writes, highest, indexLocked⟩ := d
  cases writes with
  | cons w rest =>
    have hchanged := @RichWrite.apply_of_not_changed _ s.settings w
    obtain ⟨settings, changed, hw⟩ : ∃ settings changed,
      w.apply s.settings = (settings, changed) := ⟨_, _, rfl⟩
    rw [hw] at hchanged
    have hs' : s.stepDrain ⟨caller, committedLsn, w :: rest, highest, indexLocked⟩ = { s with
        settings
        richGen := if changed then s.richGen + 1 else s.richGen
        drain := some ⟨caller, committedLsn, rest, highest, indexLocked⟩ } := by
      simp only [State.stepDrain, hw]
    rw [hs']
    have hgen : s.richGen ≤ if changed = true then s.richGen + 1 else s.richGen := by
      split <;> omega
    have hsettings : (if changed = true then s.richGen + 1 else s.richGen) = s.richGen →
      settings = s.settings := by
      intro heq
      cases changed with
      | false => exact hchanged rfl
      | true => exact absurd heq (Nat.succ_ne_self _)
    have hlater : Later s { s with
        settings
        richGen := if changed then s.richGen + 1 else s.richGen
        drain := some ⟨caller, committedLsn, rest, highest, indexLocked⟩ } :=
      ⟨Nat.le_refl _, Nat.le_refl _, hgen, hsettings⟩
    refine h.other hlater ⟨rfl, rfl, rfl, rfl, rfl⟩ h.appliedLsn_lt h.pending h.highest ?_
      (callers_later h.callers hlater rfl) (h.writer_later hlater ⟨rfl, rfl, rfl, rfl, rfl⟩ rfl _)
    intro d hd
    obtain rfl := Option.some.inj hd
    exact hhighest
  | nil =>
    cases indexLocked with
    | true =>
      have hlater : Later s { s with drain := some ⟨caller, committedLsn, [], highest, false⟩ } :=
        .of_eq rfl rfl rfl rfl
      refine h.other hlater ⟨rfl, rfl, rfl, rfl, rfl⟩ h.appliedLsn_lt h.pending h.highest ?_
        (callers_later h.callers hlater rfl) (h.writer_later hlater ⟨rfl, rfl, rfl, rfl, rfl⟩ rfl _)
      intro d hd
      obtain rfl := Option.some.inj hd
      exact hhighest
    | false =>
      have hlater : Later s (s.stepDrain ⟨caller, committedLsn, [], highest, false⟩) :=
        ⟨Nat.le_max_left _ _, Nat.le_refl _, Nat.le_refl _, fun _ => rfl⟩
      have hpc : CallerOk (s.stepDrain ⟨caller, committedLsn, [], highest, false⟩)
          (.checkSaved (.applyCommitted committedLsn)) := Nat.le_max_right _ _
      refine h.other hlater ⟨rfl, rfl, rfl, rfl, rfl⟩
        (max_lt h.appliedLsn_lt committedLsn.toNat_lt) h.pending ?_
        (fun d hd => by cases hd) (callers_at h.callers hlater rfl hpc)
        (h.writer_later hlater ⟨rfl, rfl, rfl, rfl, rfl⟩ rfl _)
      intro hne
      by_cases hown : highest = 0
      · refine h.highest fun hzero => hne ?_
        rw [State.stepDrain, hown, hzero]
        rfl
      · exact hhighest hown

theorem Inv.look (h : Inv crc seen s) (hstep : s.look c = some s') : Inv crc (seen ++ [s']) s' := by
  have hcaller := h.callers c
  unfold State.look at hstep
  cases hpc : s.pc c with
  | checkSaved task =>
    rw [hpc] at hstep hcaller
    dsimp only at hstep
    split_ifs at hstep with hcovers hrecord
    · obtain rfl := Option.some.inj hstep
      exact h.at_ hcaller
    · obtain rfl := Option.some.inj hstep
      rw [hrecord]
      exact h.at_ fun _ => Nat.zero_le _
    · obtain rfl := Option.some.inj hstep
      exact h.at_ ⟨hcaller, covers_le (by simpa using hcovers)⟩
  | loadGen task =>
    rw [hpc] at hstep hcaller
    obtain rfl := Option.some.inj hstep
    exact h.at_ hcaller
  | loadSaved task gen =>
    rw [hpc] at hstep hcaller
    obtain rfl := Option.some.inj hstep
    split
    · exact h.at_ fun _ => hcaller.2
    · exact h.at_ hcaller.1
  | _ =>
    rw [hpc] at hstep
    cases hstep

theorem Inv.lock (h : Inv crc seen s) (hstep : s.lock c = some s') : Inv crc (seen ++ [s']) s' := by
  have hcaller := h.callers c
  unfold State.lock at hstep
  split at hstep
  · next task hpc hwriter =>
    rw [hpc] at hcaller
    obtain rfl := Option.some.inj hstep
    refine h.other (.of_eq rfl rfl rfl rfl) ⟨rfl, rfl, rfl, rfl, rfl⟩
      h.appliedLsn_lt h.pending h.highest h.drain ?_ ?_
    · exact callers_at h.callers (.of_eq rfl rfl rfl rfl) rfl trivial
    · intro w hw
      obtain rfl := Option.some.inj hw
      refine ⟨hcaller, ?_⟩
      dsimp only
      split <;> trivial
  · cases hstep

omit [DecidableEq ι] in
theorem Inv.goto (h : Inv crc seen s) {w : Writer ι H} (hw : s.writer = some w) {phase : Phase H}
    (hok : PhaseOk crc seen s w.task phase) : Inv crc (seen ++ [s.goto w phase])
    (s.goto w phase) := by
  have hlater : Later s (s.goto w phase) := .of_eq rfl rfl rfl rfl
  have hsaves : SameSaves s (s.goto w phase) := ⟨rfl, rfl, rfl, rfl, rfl⟩
  refine h.other hlater hsaves h.appliedLsn_lt h.pending h.highest h.drain
    (callers_later h.callers hlater rfl) ?_
  intro w' hw'
  obtain rfl := Option.some.inj hw'
  exact ⟨(h.writer w hw).1, hok.later hlater hsaves _⟩

theorem Inv.done (h : Inv crc seen s) (w : Writer ι H) {ok : Bool}
    (hok : ok = true → w.task.position ≤ s.watermarkSaved) :
    Inv crc (seen ++ [s.done w ok]) (s.done w ok) := by
  have hlater : Later s (s.done w ok) := .of_eq rfl rfl rfl rfl
  exact h.other hlater ⟨rfl, rfl, rfl, rfl, rfl⟩ h.appliedLsn_lt h.pending h.highest h.drain
    (callers_at h.callers hlater rfl hok) fun w' hw' => by cases hw'

/-- A step of the call with the lock: nothing but the saves has moved. -/
structure SameLog (s s' : State ι V H) : Prop where
  pending : s'.pending = s.pending
  settings : s'.settings = s.settings
  appliedLsn : s'.appliedLsn = s.appliedLsn
  richGen : s'.richGen = s.richGen
  drain : s'.drain = s.drain
  highestApplied : s'.highestApplied = s.highestApplied
  watermarkSaved : s.watermarkSaved ≤ s'.watermarkSaved
  watermarkRecorded : s.watermarkRecorded = true → s'.watermarkRecorded = true

omit [DecidableEq ι] in
theorem SameLog.later (h : SameLog s s') : Later s s' :=
  ⟨h.appliedLsn.ge, h.watermarkSaved, h.richGen.ge, fun _ => h.settings⟩

omit [DecidableEq ι] in
theorem Inv.saved (h : Inv crc seen s) (hlog : SameLog s s')
    (hpos : PositionSlots.Inv crc s'.appliedPos)
    (hdurable : durable crc s' ≤ s.appliedLsn) (hsaved : s'.watermarkSaved ≤ durable crc s')
    (hrich : s'.richSaved ≤ s.richGen)
    (hcurrent : s'.richSaved = s.richGen → ∀ m ∈ s'.appliedMeta, m.settings = s.settings)
    (hfields : ∀ m ∈ s'.appliedMeta, OfOneState seen m.settings (durable crc s'))
    (hrecorded : s'.watermarkRecorded = true → s'.appliedMeta.isSome)
    (hcallers : ∀ c, CallerOk s' (s'.pc c))
    (hwriter : ∀ w ∈ s'.writer, w.task.position ≤ s.appliedLsn ∧
      PhaseOk crc (seen ++ [s']) s' w.task w.phase) :
    Inv crc (seen ++ [s']) s' := by
  obtain ⟨hpending, hsettings, happlied, hgen, hdrain, hhighest, -, hrec⟩ := hlog
  constructor
  · exact List.mem_append_right _ (List.mem_singleton_self _)
  · exact hpos
  · exact happlied ▸ h.appliedLsn_lt
  · exact happlied ▸ hdurable
  · exact hsaved
  · exact hgen ▸ hrich
  · rw [hgen, hsettings]
    exact hcurrent
  · exact fun m hm => (hfields m hm).append _
  · exact hrecorded
  · exact fun hne => hrec (h.pending (hpending ▸ hne))
  · exact fun hne => hrec (h.highest (hhighest ▸ hne))
  · exact fun d hd hne => hrec (h.drain d (hdrain ▸ hd) hne)
  · exact hcallers
  · exact happlied ▸ hwriter

theorem Inv.notePos (h : Inv crc seen s) (w : Writer ι H) {covered : ℕ}
    (hposition : w.task.position ≤ covered) (hcovered : covered ≤ durable crc s) :
    Inv crc (seen ++ [{ s.done w true with watermarkSaved := max s.watermarkSaved covered }])
      { s.done w true with watermarkSaved := max s.watermarkSaved covered } := by
  have hlog : SameLog s { s.done w true with watermarkSaved := max s.watermarkSaved covered } :=
    ⟨rfl, rfl, rfl, rfl, rfl, rfl, Nat.le_max_left _ _, id⟩
  exact h.saved hlog h.appliedPos h.durable_le (max_le h.saved_le hcovered) h.richSaved_le h.current
    h.fields h.recorded
    (callers_at h.callers hlog.later rfl fun _ => hposition.trans (Nat.le_max_right _ _))
      fun w' hw' => by cases hw'

theorem Inv.noteSaved (h : Inv crc seen s) (w : Writer ι H) {covered : ℕ}
    (hsome : s.appliedMeta.isSome)
    (hposition : w.task.position ≤ covered) (hcovered : covered ≤ durable crc s) {recorded : Bool}
    (hkeeps : s.watermarkRecorded = true → recorded = true) :
    Inv crc (seen ++ [{ s.done w true with
        watermarkSaved := max s.watermarkSaved covered
        watermarkRecorded := recorded }])
      { s.done w true with
        watermarkSaved := max s.watermarkSaved covered
        watermarkRecorded := recorded } := by
  have hlog : SameLog s { s.done w true with
      watermarkSaved := max s.watermarkSaved covered
      watermarkRecorded := recorded } := ⟨rfl, rfl, rfl, rfl, rfl, rfl, Nat.le_max_left _ _, hkeeps⟩
  exact h.saved hlog h.appliedPos h.durable_le
    (max_le h.saved_le hcovered) h.richSaved_le h.current h.fields
    (fun _ => hsome) (callers_at h.callers hlog.later rfl fun _ =>
      hposition.trans (Nat.le_max_right _ _))
    fun w' hw' => by cases hw'

omit [DecidableEq ι] in
theorem Inv.noteRich (h : Inv crc seen s) {w : Writer ι H}
    (hw : s.writer = some w) {rich covered : ℕ}
    (hok : PhaseOk crc seen s w.task (.noteRich rich covered)) :
    Inv crc (seen ++ [{ s.goto w (.noteSaved covered) with richSaved := rich }])
      { s.goto w (.noteSaved covered) with richSaved := rich } := by
  obtain ⟨hle, hsettings, hsome, hposition, hcovered⟩ := hok
  have hlog : SameLog s { s.goto w (.noteSaved covered) with richSaved := rich } :=
    ⟨rfl, rfl, rfl, rfl, rfl, rfl, Nat.le_refl _, id⟩
  refine h.saved hlog h.appliedPos h.durable_le h.saved_le hle hsettings h.fields h.recorded
    (callers_later h.callers hlog.later rfl) ?_
  intro w' hw'
  obtain rfl := Option.some.inj hw'
  exact ⟨(h.writer w hw).1, hsome, hposition, hcovered⟩

omit [DecidableEq ι] in
theorem durable_saveFull {record : AppliedMeta H} (hcovered : durable crc s ≤ record.appliedLsn)
    (hmeta : s'.appliedMeta = some record) (hpos : s'.appliedPos = s.appliedPos) :
    durable crc s' = record.appliedLsn := by
  rw [durable, hmeta, hpos]
  exact max_eq_left ((Nat.le_max_right _ _).trans hcovered)

theorem Inv.saveFull (h : Inv crc seen s) {w : Writer ι H} (hw : s.writer = some w) {ok : Bool}
    (hstep : s.saveFull w ok = some s') : Inv crc (seen ++ [s']) s' := by
  have hphase := (h.writer w hw).2
  unfold State.saveFull at hstep
  split at hstep
  · next rich record hsave =>
    rw [hsave] at hphase
    obtain ⟨⟨hrichLe, hleGen⟩, hposition, hcovered, hle, hsettings, hfields⟩ := hphase
    obtain rfl := Option.some.inj hstep
    cases ok with
    | false => exact h.done w nofun
    | true =>
      have hlog : SameLog s { s.goto w (.noteRich rich record.appliedLsn)
        with appliedMeta := some record } :=
        ⟨rfl, rfl, rfl, rfl, rfl, rfl, Nat.le_refl _, id⟩
      have hdurable : durable crc
        { s.goto w (.noteRich rich record.appliedLsn) with appliedMeta := some record } =
          record.appliedLsn := durable_saveFull hcovered rfl rfl
      rw [if_pos rfl]
      refine h.saved hlog h.appliedPos (hdurable.trans_le hle)
        ((h.saved_le.trans hcovered).trans hdurable.ge) h.richSaved_le ?_ ?_
        (fun _ => rfl) (callers_later h.callers hlog.later rfl) ?_
      · intro hrich m hm
        obtain rfl := Option.some.inj hm
        exact hsettings (Nat.le_antisymm hleGen (Nat.le_trans hrich.ge hrichLe))
      · intro m hm
        obtain rfl := Option.some.inj hm
        exact hfields.mono hdurable.le
      · intro w' hw'
        obtain rfl := Option.some.inj hw'
        refine ⟨(h.writer w hw).1, hleGen, fun hrich m hm => ?_, rfl, hposition, hdurable.ge⟩
        obtain rfl := Option.some.inj hm
        exact hsettings hrich
  · cases hstep

end Steps

section Conditions

variable [DecidableEq ι] (crc : List UInt8 → UInt32)

/-- The count of changes that the position is about to be taken under. -/
def Phase.sampled : Phase H → Option ℕ
  | .sample rich => some rich
  | _ => none

def Phase.covered : Phase H → Option ℕ
  | .savePos _ covered => some covered
  | _ => none

/-- A save of the position has a sequence number left and does not leave its slot torn, unless the
newest record is in the other one and the torn one does not read as a record. -/
def SlotKept (pos : PositionSlots.State) (covered : ℕ) (torn : Option (List Bool)) : Prop :=
  ∀ last ∈ pos.seq, last + 1 < 2 ^ 64 ∧ ∀ got ∈ torn, LeftTorn crc pos.file (last + 1) covered got →
    NewestInPeer crc pos.file (last + 1) ∧ TornUnreadable crc pos.file (last + 1) covered got

/-- Nothing has changed the settings since the call that takes the position looked at the count of
changes. -/
def Undisturbed (s : State ι V H) : Op ι V H → Prop
  | .write => ∀ w ∈ s.writer, ∀ rich ∈ w.phase.sampled, s.richGen = rich
  | .savePos torn => ∀ w ∈ s.writer, ∀ covered ∈ w.phase.covered,
      SlotKept crc s.appliedPos covered torn
  | _ => True

instance (pos : PositionSlots.State) (covered : ℕ) (torn : Option (List Bool)) :
    Decidable (SlotKept crc pos covered torn) :=
  inferInstanceAs (Decidable (∀ last ∈ pos.seq, _ ∧ ∀ got ∈ torn, _ → _ ∧ _))

instance (s : State ι V H) : ∀ op, Decidable (Undisturbed crc s op)
  | .write => inferInstanceAs (Decidable (∀ w ∈ s.writer, ∀ rich ∈ w.phase.sampled, _))
  | .savePos _ => inferInstanceAs (Decidable (∀ w ∈ s.writer, ∀ covered ∈ w.phase.covered, _))
  | .stage .. | .truncate _ | .call .. | .drain | .look _ | .lock _ | .saveFull _ => isTrue trivial

end Conditions

section Runs

variable [DecidableEq ι] {crc : List UInt8 → UInt32} {seen : List (State ι V H)}
  {s s' : State ι V H} {c : ι}

omit [DecidableEq ι] in
theorem Inv.savePos (h : Inv crc seen s) {w : Writer ι H} (hw : s.writer = some w)
    {torn : Option (List Bool)}
    (hkept : ∀ covered ∈ w.phase.covered, SlotKept crc s.appliedPos covered torn)
    (hstep : s.savePos crc w torn = some s') : Inv crc (seen ++ [s']) s' := by
  have hphase := (h.writer w hw).2
  unfold State.savePos at hstep
  split at hstep
  · next rich covered hsave =>
    rw [hsave] at hphase hkept
    obtain ⟨hrich, hposition, hcovered, hle, hfields⟩ := hphase
    obtain ⟨pos, hpos, rfl⟩ := Option.map_eq_some_iff.mp hstep
    have hslot := hkept covered rfl
    have hnat : (UInt64.ofNat covered).toNat = covered :=
      UInt64.toNat_ofNat_of_lt' (hle.trans_lt h.appliedLsn_lt)
    have hgot : (torn.elim Outcome.done Outcome.failed).got = torn := by cases torn <;> rfl
    have hslotKept : Kept crc s.appliedPos
      (.save (UInt64.ofNat covered) (torn.elim .done .failed)) := by
      intro last hlast
      rw [hnat, hgot]
      exact ⟨(hslot last hlast).1, (Nat.le_max_right _ _).trans hcovered,
        fun got hgot hleft => ((hslot last hlast).2 got hgot hleft).1⟩
    have hsum : NoCollision crc s.appliedPos
      (.save (UInt64.ofNat covered) (torn.elim .done .failed)) := by
      intro last hlast
      rw [hnat, hgot]
      exact fun got hgot hleft => ((hslot last hlast).2 got hgot hleft).2
    have hposition' := positionOf_save h.appliedPos hslotKept hsum hpos
    rw [hnat] at hposition'
    have hmeta : s.appliedMeta.elim 0 AppliedMeta.appliedLsn ≤ covered :=
      (Nat.le_max_left _ _).trans hcovered
    have hold : positionOf crc s.appliedPos.file ≤ covered := (Nat.le_max_right _ _).trans hcovered
    obtain ⟨phase, hgoto⟩ : ∃ phase, phase = if torn.isNone then Phase.notePos covered
      else .sampleFull rich :=
      ⟨_, rfl⟩
    rw [← hgoto]
    have hlog : SameLog s { s.goto w phase with appliedPos := pos } :=
      ⟨rfl, rfl, rfl, rfl, rfl, rfl, Nat.le_refl _, id⟩
    have hdurable : durable crc { s.goto w phase with appliedPos := pos } =
        max (s.appliedMeta.elim 0 AppliedMeta.appliedLsn) (positionOf crc pos.file) := rfl
    have hnew : durable crc { s.goto w phase with appliedPos := pos } ≤ covered := by
      rw [hdurable]
      exact max_le hmeta (by omega)
    have hkeep : durable crc s ≤ durable crc { s.goto w phase with appliedPos := pos } := by
      rw [hdurable, durable]
      omega
    have hinv : PositionSlots.Inv crc pos := h.appliedPos.step hslotKept hsum hpos
    refine h.saved hlog hinv (hnew.trans hle) (h.saved_le.trans hkeep) h.richSaved_le h.current
      (fun m hm => (hfields m hm).mono hnew) h.recorded (callers_later h.callers hlog.later rfl) ?_
    intro w' hw'
    obtain rfl := Option.some.inj hw'
    refine ⟨(h.writer w hw).1, ?_⟩
    cases torn with
    | none =>
      obtain rfl : phase = .notePos covered := hgoto
      refine ⟨hposition, ?_⟩
      rcases hposition' with hdone | ⟨hfailed, -⟩
      · rw [hdurable, hdone]
        exact Nat.le_max_right _ _
      · exact absurd rfl hfailed
    | some got =>
      obtain rfl : phase = .sampleFull rich := hgoto
      exact ⟨hrich.ge, hrich.trans_le h.richSaved_le⟩
  · cases hstep

theorem Inv.stepWriter (h : Inv crc seen s) {w : Writer ι H} (hw : s.writer = some w)
    (hgen : ∀ rich ∈ w.phase.sampled, s.richGen = rich) (hstep : s.stepWriter w = some s') :
    Inv crc (seen ++ [s']) s' := by
  obtain ⟨htask, hphase⟩ := h.writer w hw
  unfold State.stepWriter at hstep
  cases hp : w.phase with
  | checkSaved =>
    rw [hp] at hstep
    dsimp only at hstep
    split_ifs at hstep with hcovers hrecord
    · obtain rfl := Option.some.inj hstep
      exact h.goto hw trivial
    · obtain rfl := Option.some.inj hstep
      exact h.done w fun _ => covers_le (by simpa using hcovers)
    · obtain rfl := Option.some.inj hstep
      exact h.goto hw (covers_le (by simpa using hcovers))
  | loadGen =>
    rw [hp] at hstep hphase
    obtain rfl := Option.some.inj hstep
    exact h.goto hw hphase
  | loadSaved gen =>
    rw [hp] at hstep hphase
    obtain rfl := Option.some.inj hstep
    split
    · exact h.done w fun _ => hphase
    · exact h.goto hw trivial
  | loadRich =>
    rw [hp] at hstep
    dsimp only at hstep
    split at hstep
    · obtain rfl := Option.some.inj hstep
      exact h.goto hw ⟨h.richSaved_le, Nat.le_refl _⟩
    · obtain rfl := Option.some.inj hstep
      exact h.goto hw ⟨h.richSaved_le, Nat.le_refl _⟩
  | compare rich =>
    rw [hp] at hstep hphase
    obtain rfl := Option.some.inj hstep
    split
    · next hsame => exact h.goto hw hsame
    · exact h.goto hw hphase
  | sample rich =>
    rw [hp] at hstep hphase hgen
    dsimp only at hstep
    split_ifs at hstep with hfree
    obtain rfl := Option.some.inj hstep
    have hsame : s.richSaved = s.richGen := hphase.symm.trans (hgen rich rfl).symm
    refine h.goto hw ⟨hphase, htask, h.durable_le, Nat.le_refl _, fun m hm => ?_⟩
    rw [h.current hsame m hm]
    exact .of_mem h.mem hfree
  | savePos rich covered =>
    rw [hp] at hstep hphase
    dsimp only at hstep
    split_ifs at hstep
    obtain rfl := Option.some.inj hstep
    exact h.goto hw ⟨hphase.1.ge, hphase.1.trans_le h.richSaved_le⟩
  | notePos covered =>
    rw [hp] at hstep hphase
    obtain rfl := Option.some.inj hstep
    exact h.notePos w hphase.1 hphase.2
  | sampleFull rich =>
    rw [hp] at hstep hphase
    dsimp only at hstep
    split_ifs at hstep with hfree
    obtain rfl := Option.some.inj hstep
    exact h.goto hw ⟨hphase, htask, h.durable_le, Nat.le_refl _, fun _ => rfl, .of_mem h.mem hfree⟩
  | saveFull rich record =>
    rw [hp] at hstep
    cases hstep
  | noteRich rich covered =>
    rw [hp] at hstep hphase
    obtain rfl := Option.some.inj hstep
    exact h.noteRich hw hphase
  | noteSaved covered =>
    rw [hp] at hstep hphase
    obtain rfl := Option.some.inj hstep
    exact h.noteSaved w hphase.1 hphase.2.1 hphase.2.2 fun hrecorded =>
      by rw [hrecorded, Bool.true_or]

theorem Inv.step (h : Inv crc seen s) {op : Op ι V H} (hop : Undisturbed crc s op)
    (hstep : step crc s op = some s') : Inv crc (seen ++ [s']) s' := by
  cases op with
  | stage lsn entry =>
    rw [Watermark.step] at hstep
    split_ifs at hstep with hrecorded
    obtain rfl := Option.some.inj hstep
    have hlater : Later s { s with pending := stageEntry lsn entry s.pending } :=
      .of_eq rfl rfl rfl rfl
    exact h.other hlater ⟨rfl, rfl, rfl, rfl, rfl⟩ h.appliedLsn_lt
      (fun _ => hrecorded.2) h.highest h.drain
      (callers_later h.callers hlater rfl) (h.writer_later hlater ⟨rfl, rfl, rfl, rfl, rfl⟩ rfl _)
  | truncate lsn =>
    rw [Watermark.step] at hstep
    split_ifs at hstep
    obtain rfl := Option.some.inj hstep
    have hlater : Later s { s with pending := s.pending.filter fun p => p.1 < lsn } :=
      .of_eq rfl rfl rfl rfl
    refine h.other hlater ⟨rfl, rfl, rfl, rfl, rfl⟩ h.appliedLsn_lt
      (fun hne => h.pending fun hnil => hne ?_) h.highest
      h.drain (callers_later h.callers hlater rfl)
        (h.writer_later hlater ⟨rfl, rfl, rfl, rfl, rfl⟩ rfl _)
    rw [hnil, List.filter_nil]
  | call c task =>
    rw [Watermark.step] at hstep
    split_ifs at hstep
    exact h.start hstep
  | drain =>
    obtain ⟨d, hd, rfl⟩ := Option.map_eq_some_iff.mp hstep
    exact h.stepDrain hd
  | look c => exact h.look hstep
  | lock c => exact h.lock hstep
  | write =>
    obtain ⟨w, hw, hstep⟩ := Option.bind_eq_some_iff.mp hstep
    exact h.stepWriter hw (hop w hw) hstep
  | savePos torn =>
    obtain ⟨w, hw, hstep⟩ := Option.bind_eq_some_iff.mp hstep
    exact h.savePos hw (hop w hw) hstep
  | saveFull ok =>
    obtain ⟨w, hw, hstep⟩ := Option.bind_eq_some_iff.mp hstep
    exact h.saveFull hw hstep

omit [DecidableEq ι] in
theorem Opened.inv (h : Opened crc s) : Inv crc [s] s := by
  have hfree : s.IndexFree := fun d hd => by rw [h.drain] at hd; cases hd
  have hdurable : durable crc s ≤ s.appliedLsn := by
    cases hmeta : s.appliedMeta with
    | none =>
      rw [durable, hmeta]
      exact max_le (Nat.zero_le _) h.position_le
    | some m => exact (h.appliedLsn m hmeta).ge
  have hunrecorded : s.pending ≠ [] → s.watermarkRecorded = true := by
    intro hne
    rw [h.recorded, Option.isSome_iff_ne_none]
    exact fun hnone => hne (h.pending hnone)
  constructor
  · exact List.mem_singleton_self _
  · exact h.appliedPos
  · exact h.appliedLsn_lt
  · exact hdurable
  · rw [h.watermarkSaved]
    cases s.appliedMeta with
    | none => exact Nat.zero_le _
    | some m => exact Nat.le_refl _
  · rw [h.richSaved, h.richGen]
  · exact fun _ => h.settings
  · intro m hm
    rw [h.settings m hm]
    exact (OfOneState.of_mem (List.mem_singleton_self _) hfree).mono hdurable
  · exact fun hrecorded => h.recorded ▸ hrecorded
  · exact hunrecorded
  · exact fun hne => absurd h.highestApplied hne
  · intro d hd
    rw [h.drain] at hd
    cases hd
  · intro c
    rw [h.pc c]
    trivial
  · intro w hw
    rw [h.writer] at hw
    cases hw

end Runs

end DewDB.Watermark
