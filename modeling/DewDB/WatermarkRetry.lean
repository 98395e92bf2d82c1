import DewDB.WatermarkSafety

/-!
# A later call persists

What a failed save leaves in memory is enough for a later call: with nobody else at work and saves
that succeed, a call returns, and the files then have its position and the settings of the
collection.
-/
namespace DewDB.Watermark

open StorageEntry Recovery PositionSlots TransitionSystem

variable {ι V H : Type}

def Op.Alone (c : ι) : Op ι V H → Prop
  | .call c' _ | .look c' | .lock c' => c' = c
  | .drain | .write => True
  | .savePos torn => torn = none
  | .saveFull ok => ok = true
  | .stage .. | .truncate _ => False

variable [DecidableEq ι]

/-- The call can go on alone and return, and then `applied.meta` has all changes to the settings. -/
def Returns (crc : List UInt8 → UInt32) (c : ι) (task : Task) (s : State ι V H) : Prop :=
  ∃ ops s', (∀ op ∈ ops, Op.Alone c op) ∧ run (step crc) s ops = some s' ∧
    (∃ seen, Inv crc seen s') ∧ s'.pc c = .returned task true ∧ s'.richSaved = s'.richGen

section Retry

variable {crc : List UInt8 → UInt32} {s s' : State ι V H} {c : ι} {committedLsn : UInt64}

theorem Returns.head {task : Task} {op : Op ι V H} (h : Returns crc c task s')
    (hstep : step crc s op = some s') (hop : op.Alone c) : Returns crc c task s := by
  obtain ⟨ops, t, hops, hrun, ht⟩ := h
  exact ⟨op :: ops, t, List.forall_mem_cons.mpr ⟨hop, hops⟩, run_cons.mpr ⟨s', hstep, hrun⟩, ht⟩

structure Held (crc : List UInt8 → UInt32) (c : ι) (task : Task) (phase : Phase H)
    (s : State ι V H) : Prop where
  inv : ∃ seen, Inv crc seen s
  drain : s.drain = none
  writer : s.writer = some ⟨c, task, phase⟩

variable {task : Task} {phase phase' : Phase H}

omit [DecidableEq ι] in
theorem Held.indexFree (h : Held crc c task phase s) : s.IndexFree := by
  intro d hd
  rw [h.drain] at hd
  cases hd

theorem Held.next (h : Held crc c task phase s) {op : Op ι V H} (hstep : step crc s op = some s')
    (hop : op.Alone c) (hok : Undisturbed crc s op) (hdrain : s'.drain = s.drain)
    (hwriter : s'.writer = some ⟨c, task, phase'⟩)
    (hnext : Held crc c task phase' s' → Returns crc c task s') : Returns crc c task s := by
  obtain ⟨seen, hinv⟩ := h.inv
  exact (hnext ⟨⟨_, hinv.step hok hstep⟩, hdrain.trans h.drain, hwriter⟩).head hstep hop

theorem Held.goto (h : Held crc c task phase s) (phase' : Phase H)
    (hgen : ∀ rich ∈ phase.sampled, s.richGen = rich)
    (hstep : s.stepWriter ⟨c, task, phase⟩ = some (s.goto ⟨c, task, phase⟩ phase'))
    (hnext : Held crc c task phase' (s.goto ⟨c, task, phase⟩ phase') →
      Returns crc c task (s.goto ⟨c, task, phase⟩ phase')) : Returns crc c task s := by
  have hok : Undisturbed crc s (.write : Op ι V H) := by
    intro w hw
    rw [h.writer] at hw
    obtain rfl := Option.some.inj hw
    exact hgen
  have hwrite : step crc s (.write : Op ι V H) = some (s.goto ⟨c, task, phase⟩ phase') := by
    rw [step, h.writer]
    exact hstep
  exact h.next hwrite trivial hok rfl rfl hnext

theorem Held.returns (h : Held crc c task phase s) (hphase : phase.sampled = none)
    (hstep : s.stepWriter ⟨c, task, phase⟩ = some s') (hpc : s'.pc c = .returned task true)
    (hrich : s'.richSaved = s'.richGen) : Returns crc c task s := by
  obtain ⟨seen, hinv⟩ := h.inv
  have hok : Undisturbed crc s (.write : Op ι V H) := by
    intro w hw rich hr
    rw [h.writer] at hw
    obtain rfl := Option.some.inj hw
    rw [hphase] at hr
    cases hr
  have hwrite : step crc s (.write : Op ι V H) = some s' := by
    rw [step, h.writer]
    exact hstep
  exact ⟨[.write], s', by simp [Op.Alone], by rw [run, hwrite]; rfl, ⟨_, hinv.step hok hwrite⟩, hpc,
    hrich⟩

theorem Held.sampleFull (h : Held crc c task (.sampleFull s.richGen) s) : Returns crc c task s := by
  refine h.goto (.saveFull s.richGen ⟨s.appliedLsn, s.settings⟩) nofun (if_pos h.indexFree) fun h =>
    ?_
  have hsave : step crc (s.goto ⟨c, task,
    .sampleFull s.richGen⟩ (.saveFull s.richGen ⟨s.appliedLsn, s.settings⟩))
      (.saveFull true : Op ι V H) = some { s.goto ⟨c, task, .sampleFull s.richGen⟩
        (.noteRich s.richGen s.appliedLsn) with appliedMeta := some ⟨s.appliedLsn,
          s.settings⟩ } := rfl
  refine h.next hsave rfl trivial rfl rfl fun h => ?_
  have hnote : step crc { s.goto ⟨c, task, .sampleFull s.richGen⟩
        (.noteRich s.richGen s.appliedLsn) with appliedMeta := some ⟨s.appliedLsn, s.settings⟩ }
      (.write : Op ι V H) = some
        { s.goto ⟨c, task, .sampleFull s.richGen⟩ (.noteSaved s.appliedLsn) with
        appliedMeta := some ⟨s.appliedLsn, s.settings⟩
        richSaved := s.richGen } := rfl
  refine h.next hnote trivial ?_ rfl rfl fun h => ?_
  · intro w hw rich hr
    obtain rfl := Option.some.inj hw
    cases hr
  · exact h.returns rfl rfl (Function.update_self _ _ _) rfl

/-- The position, or the full record where the position file is not open. -/
theorem Held.sample (h : Held crc c task (.sample s.richGen) s) (hrich : s.richSaved = s.richGen)
    (hseq : ∀ last ∈ s.appliedPos.seq, last + 1 < 2 ^ 64) : Returns crc c task s := by
  refine h.goto (.savePos s.richGen s.appliedLsn) (fun rich hr => Option.some.inj hr)
    (if_pos h.indexFree) fun h => ?_
  cases hopen : s.appliedPos.seq with
  | none =>
    refine h.goto (.sampleFull s.richGen) nofun (if_pos ?_) fun h => h.sampleFull
    exact Option.isNone_iff_eq_none.mpr hopen
  | some last =>
    obtain ⟨pos, hpos⟩ : ∃ pos, PositionSlots.step crc s.appliedPos
      (.save (UInt64.ofNat s.appliedLsn) .done) =
        some pos := by
      rw [PositionSlots.step, hopen]
      exact ⟨_, rfl⟩
    have hsave : step crc (s.goto ⟨c, task, .sample s.richGen⟩ (.savePos s.richGen s.appliedLsn))
        (.savePos none : Op ι V H) = some
          { s.goto ⟨c, task, .sample s.richGen⟩ (.notePos s.appliedLsn) with
          appliedPos := pos } := by
      change Option.map _ (PositionSlots.step crc s.appliedPos
        (.save (UInt64.ofNat s.appliedLsn) .done)) = _
      rw [hpos]
      rfl
    refine h.next hsave rfl ?_ rfl rfl fun h => h.returns rfl rfl (Function.update_self _ _ _) hrich
    intro w hw covered hcovered last hlast
    exact ⟨hseq last hlast, nofun⟩

theorem Held.loadRich (h : Held crc c (.applyCommitted committedLsn) .loadRich s)
    (hseq : ∀ last ∈ s.appliedPos.seq, last + 1 < 2 ^ 64) :
    Returns crc c (.applyCommitted committedLsn) s := by
  refine h.goto (.compare s.richGen) nofun rfl fun h => ?_
  by_cases hrich : s.richGen = s.richSaved
  · refine h.goto (.sample s.richGen) nofun ?_ fun h => h.sample hrich.symm hseq
    exact congrArg some (congrArg _ (if_pos hrich))
  · refine h.goto (.sampleFull s.richGen) nofun ?_ fun h => h.sampleFull
    exact congrArg some (congrArg _ (if_neg hrich))

theorem Held.checkSaved (h : Held crc c (.applyCommitted committedLsn) .checkSaved s)
    (hseq : ∀ last ∈ s.appliedPos.seq, last + 1 < 2 ^ 64) :
    Returns crc c (.applyCommitted committedLsn) s := by
  by_cases hcovers : s.covers (.applyCommitted committedLsn) = true
  · have hlook : s.stepWriter ⟨c, .applyCommitted committedLsn, .checkSaved⟩ =
        some (s.goto ⟨c, .applyCommitted committedLsn, .checkSaved⟩ .loadGen) := by
      simp only [State.stepWriter, hcovers, Bool.not_true, Bool.false_eq_true,
        reduceCtorEq, if_false]
    refine h.goto .loadGen nofun hlook fun h => h.goto (.loadSaved s.richGen) nofun rfl fun h => ?_
    by_cases hrich : s.richGen = s.richSaved
    · exact h.returns rfl (congrArg some (if_pos hrich)) (Function.update_self _ _ _) hrich.symm
    · exact h.goto .loadRich nofun (congrArg some (if_neg hrich)) fun h => h.loadRich hseq
  · have hlook : s.stepWriter ⟨c, .applyCommitted committedLsn, .checkSaved⟩ =
        some (s.goto ⟨c, .applyCommitted committedLsn, .checkSaved⟩ .loadRich) := by
      simp only [State.stepWriter, hcovers, Bool.not_false, if_true]
    exact h.goto .loadRich nofun hlook fun h => h.loadRich hseq

structure Free (crc : List UInt8 → UInt32) (c : ι) (pc : Pc) (s : State ι V H) : Prop where
  inv : ∃ seen, Inv crc seen s
  drain : s.drain = none
  writer : s.writer = none
  pc : s.pc c = pc

theorem Free.look {pc pc' : Pc} (h : Free crc c pc s) (hstep : s.look c = some (s.at_ c pc'))
    (hnext : Free crc c pc' (s.at_ c pc') → Returns crc c task (s.at_ c pc')) :
    Returns crc c task s := by
  obtain ⟨seen, hinv⟩ := h.inv
  have hfree : Free crc c pc' (s.at_ c pc') :=
    ⟨⟨_, hinv.look hstep⟩, h.drain, h.writer, Function.update_self _ _ _⟩
  have hlook : step crc s (.look c : Op ι V H) = some (s.at_ c pc') := hstep
  exact (hnext hfree).head hlook rfl

theorem Free.waiting (h : Free crc c (.waiting (.applyCommitted committedLsn)) s)
    (hseq : ∀ last ∈ s.appliedPos.seq, last + 1 < 2 ^ 64) :
    Returns crc c (.applyCommitted committedLsn) s := by
  obtain ⟨seen, hinv⟩ := h.inv
  have hlock : s.lock c = some { s.at_ c .writing with
      writer := some ⟨c, .applyCommitted committedLsn, .checkSaved⟩ } := by
    rw [State.lock, h.pc, h.writer]
    rfl
  have hheld : Held crc c (.applyCommitted committedLsn) .checkSaved { s.at_ c .writing with
      writer := some ⟨c, .applyCommitted committedLsn, .checkSaved⟩ } :=
        ⟨⟨_, hinv.lock hlock⟩, h.drain, rfl⟩
  have hstep : step crc s (.lock c : Op ι V H) = some { s.at_ c .writing with
      writer := some ⟨c, .applyCommitted committedLsn, .checkSaved⟩ } := hlock
  exact (hheld.checkSaved hseq).head hstep rfl

theorem Free.checkSaved (h : Free crc c (.checkSaved (.applyCommitted committedLsn)) s)
    (hseq : ∀ last ∈ s.appliedPos.seq, last + 1 < 2 ^ 64) :
    Returns crc c (.applyCommitted committedLsn) s := by
  by_cases hcovers : s.covers (.applyCommitted committedLsn) = true
  · have hlook : s.look c = some (s.at_ c (.loadGen (.applyCommitted committedLsn))) := by
      simp only [State.look, h.pc, hcovers, Bool.not_true, Bool.false_eq_true,
        reduceCtorEq, if_false]
    refine h.look hlook fun h => ?_
    have hload : (s.at_ c (.loadGen (.applyCommitted committedLsn))).look c =
        some ((s.at_ c (.loadGen (.applyCommitted committedLsn))).at_ c
          (.loadSaved (.applyCommitted committedLsn) s.richGen)) := by
      simp only [State.look, h.pc]
      rfl
    refine h.look hload fun h => ?_
    obtain ⟨t, ht, hrich, hpos⟩ : ∃ t, t = (s.at_ c (.loadGen (.applyCommitted committedLsn))).at_ c
        (.loadSaved (.applyCommitted committedLsn) s.richGen) ∧
          (t.richGen = s.richGen ∧ t.richSaved = s.richSaved) ∧
        t.appliedPos = s.appliedPos := ⟨_, rfl, ⟨rfl, rfl⟩, rfl⟩
    rw [← ht] at h ⊢
    by_cases hsame : s.richGen = s.richSaved
    · have hreturn : t.look c = some (t.at_ c (.returned (.applyCommitted committedLsn) true)) := by
        simp only [State.look, h.pc, hrich.2, if_pos hsame]
      refine h.look hreturn fun h => ⟨[], _, nofun, rfl, h.inv, h.pc, ?_⟩
      exact hrich.2.trans (hsame.symm.trans hrich.1.symm)
    · have hwait : t.look c = some (t.at_ c (.waiting (.applyCommitted committedLsn))) := by
        simp only [State.look, h.pc, hrich.2, if_neg hsame]
      exact h.look hwait fun h => h.waiting (hpos ▸ hseq)
  · have hlook : s.look c = some (s.at_ c (.waiting (.applyCommitted committedLsn))) := by
      simp only [State.look, h.pc, hcovers, Bool.not_false, if_true]
    exact h.look hlook fun h => h.waiting hseq

/-- The call has the `pending` lock, and nobody else is at work. -/
structure Draining (crc : List UInt8 → UInt32) (d : Drain ι H) (s : State ι V H) : Prop where
  inv : ∃ seen, Inv crc seen s
  drain : s.drain = some d
  writer : s.writer = none
  seq : ∀ last ∈ s.appliedPos.seq, last + 1 < 2 ^ 64

theorem Draining.next {d d' : Drain ι H} (h : Draining crc d s)
    (hdrain : (s.stepDrain d).drain = some d')
    (hnext : ∀ t, Draining crc d' t → Returns crc c task (t : State ι V H)) :
    Returns crc c task s := by
  obtain ⟨seen, hinv⟩ := h.inv
  have hstep : step crc s (.drain : Op ι V H) = some (s.stepDrain d) := by
    rw [step, h.drain, Option.map_some]
  have hsame : (s.stepDrain d).appliedPos = s.appliedPos ∧ (s.stepDrain d).writer = s.writer := by
    unfold State.stepDrain
    split <;> exact ⟨rfl, rfl⟩
  refine (hnext _ ⟨⟨_, hinv.stepDrain h.drain⟩, hdrain, hsame.2.trans h.writer,
    ?_⟩).head hstep trivial
  rw [hsame.1]
  exact h.seq

/-- The position moves when the index lock is gone, and then the call looks. -/
theorem Draining.moved {highest : ℕ} (h : Draining crc ⟨c, committedLsn, [], highest, false⟩ s) :
    Returns crc c (.applyCommitted committedLsn) s := by
  obtain ⟨seen, hinv⟩ := h.inv
  have hstep : step crc s (.drain : Op ι V H) = some
    (s.stepDrain ⟨c, committedLsn, [], highest, false⟩) := by
    rw [step, h.drain, Option.map_some]
  have hfree : Free crc c (.checkSaved (.applyCommitted committedLsn))
      (s.stepDrain ⟨c, committedLsn, [], highest, false⟩) :=
    ⟨⟨_, hinv.stepDrain h.drain⟩, rfl, h.writer, Function.update_self _ _ _⟩
  exact (hfree.checkSaved h.seq).head hstep trivial

theorem Draining.returns {writes : List (RichWrite H)} {highest : ℕ} {indexLocked : Bool}
    (h : Draining crc ⟨c, committedLsn, writes, highest, indexLocked⟩ s) :
    Returns crc c (.applyCommitted committedLsn) s := by
  induction writes generalizing s with
  | cons w rest ih => exact h.next rfl fun t ht => ih ht
  | nil =>
    cases indexLocked with
    | true => exact h.next rfl fun t ht => ht.moved
    | false => exact h.moved

theorem returns_of_ready (hinv : ∃ seen, Inv crc seen s) (hdrain : s.drain = none)
    (hwriter : s.writer = none)
    (hready : s.Ready c) (hseq : ∀ last ∈ s.appliedPos.seq, last + 1 < 2 ^ 64)
    (committedLsn : UInt64) : Returns crc c (.applyCommitted committedLsn) s := by
  obtain ⟨seen, hinv⟩ := hinv
  have hcall : step crc s (.call c (.applyCommitted committedLsn) : Op ι V H) =
      some (s.startDrain c committedLsn) := by
    rw [step, if_pos hready, State.start, hdrain]
    rfl
  have hdraining : ∃ d, d.caller = c ∧ d.committedLsn = committedLsn ∧
      Draining crc d (s.startDrain c committedLsn) :=
    ⟨_, rfl, rfl, ⟨_, hinv.startDrain committedLsn⟩, rfl, hwriter, hseq⟩
  obtain ⟨⟨caller, lsn, writes, highest, indexLocked⟩, rfl, rfl, h⟩ := hdraining
  exact h.returns.head hcall rfl

end Retry

/-- What the saves promise after a run. A call that has returned is covered by the position that the
files give together. The settings in the files are those of one state of the run in which that
position was reached. A call that meets nobody returns, and the files then have its position and the
settings of the collection. -/
structure Persists (crc : List UInt8 → UInt32) (s₀ : State ι V H) (ops : List (Op ι V H))
    (s : State ι V H) : Prop where
  covered : ∀ c committedLsn, s.pc c = .returned (.applyCommitted committedLsn) true →
    ∃ w, recordedWatermark crc s = .ok w ∧ min committedLsn.toNat s.highestApplied ≤ w.getD 0
  fields : ∀ w, recordedWatermark crc s = .ok (some w) →
    ∃ m, s.appliedMeta = some m ∧ OfOneState (trace (step crc) s₀ ops) m.settings w
  retried : ∀ c, s.Ready c → s.drain = none → s.writer = none →
    (∀ last ∈ s.appliedPos.seq, last + 1 < 2 ^ 64) →
    ∀ committedLsn, ∃ ops' s', (∀ op ∈ ops', op.Alone c) ∧ run (step crc) s ops' = some s' ∧
      s'.pc c = .returned (.applyCommitted committedLsn) true ∧
        committedLsn.toNat ≤ durable crc s' ∧
      ∀ m ∈ s'.appliedMeta, m.settings = s'.settings

section Waiting

variable {crc : List UInt8 → UInt32} {s s₀ : State ι V H} {ops : List (Op ι V H)}

omit [DecidableEq ι] in
theorem recordedWatermark_eq (h : PositionSlots.Inv crc s.appliedPos) :
    recordedWatermark crc s = .ok (s.appliedMeta.map fun _ => durable crc s) := by
  obtain ⟨found, hfound, -⟩ := h.survives
  have hposition : (found.map Prod.snd).getD 0 = positionOf crc s.appliedPos.file := by
    rw [positionOf, hfound]
    cases found <;> rfl
  rw [recordedWatermark, hfound]
  simp only [Except.map, hposition]
  cases hmeta : s.appliedMeta with
  | none => rfl
  | some m => rw [Option.map_some, Option.map_some, durable, hmeta, Option.elim_some]

/-- In a run in which nothing changes the settings between a call's look at the count of changes and
the moment it takes the position to save, the saves keep what they promise. -/
theorem applyCommitted_persists (h₀ : Opened crc s₀) (hrun : run (step crc) s₀ ops = some s)
    (hops : Meets (step crc) (Undisturbed crc) s₀ ops) : Persists crc s₀ ops s := by
  have hstep : ∀ seen (s : State ι V H) op s', Inv crc seen s → Undisturbed crc s op →
    step crc s op = some s' →
      Inv crc (seen ++ [s']) s' := fun _ _ _ _ h hop hs => h.step hop hs
  have h : Inv crc ([] ++ trace (step crc) s₀ ops) s := run_invariant_trace hstep hrun hops h₀.inv
  rw [List.nil_append] at h
  have hrecorded := recordedWatermark_eq h.appliedPos
  refine ⟨fun c committedLsn hpc => ⟨_, hrecorded, ?_⟩, fun w hw =>
    ?_, fun c hready hdrain hwriter hseq lsn => ?_⟩
  · have hcaller := h.callers c
    rw [hpc] at hcaller
    have hposition : committedLsn.toNat ≤ durable crc s := (hcaller rfl).trans h.saved_le
    cases hmeta : s.appliedMeta with
    | none =>
      have hzero : s.highestApplied = 0 := by
        by_contra hne
        have hsome := h.recorded (h.highest hne)
        rw [hmeta] at hsome
        cases hsome
      rw [hzero, Nat.min_zero]
      exact Nat.zero_le _
    | some m => exact (Nat.min_le_left _ _).trans hposition
  · rw [hrecorded] at hw
    obtain ⟨m, hm, hle⟩ := Option.map_eq_some_iff.mp (Except.ok.inj hw)
    exact ⟨m, hm, hle ▸ h.fields m hm⟩
  · obtain ⟨ops', s', halone, hrun', ⟨seen, h'⟩, hpc, hrich⟩ :=
      returns_of_ready ⟨_, h⟩ hdrain hwriter hready hseq lsn
    have hcaller := h'.callers c
    rw [hpc] at hcaller
    exact ⟨ops', s', halone, hrun', hpc, (hcaller rfl).trans h'.saved_le, h'.current hrich⟩

def atOne : State Bool ℕ Unit where
  pending := []
  settings := .fresh
  appliedLsn := 1
  watermarkRecorded := true
  watermarkSaved := 1
  richGen := 0
  richSaved := 0
  appliedMeta := some ⟨1, .fresh⟩
  appliedPos := PositionSlots.fresh
  drain := none
  writer := none
  pc := fun _ => .idle
  highestApplied := 0

theorem opened_atOne : Opened crc32 atOne where
  pc _ := rfl
  drain := rfl
  writer := rfl
  richGen := rfl
  richSaved := rfl
  appliedPos := inv_fresh
  position_le := by decide +kernel
  appliedLsn_lt := by decide
  recorded := rfl
  pending _ := rfl
  watermarkSaved := by decide +kernel
  appliedLsn := by decide +kernel
  settings _ hm := Option.some.inj hm ▸ rfl
  highestApplied := rfl

def twoFrames : List (Op Bool ℕ Unit) :=
  [.stage 2 (.put false "a" 0 0 none), .stage 3 (.ttl (some 60) 0)]

def upToLock (c : Bool) (committedLsn : UInt64) : List (Op Bool ℕ Unit) :=
  [.call c (.applyCommitted committedLsn), .drain, .drain, .drain, .look c, .lock c]

/-- A call of which both saves fail, and a second one. -/
theorem applyCommitted_persists_second :
    ∃ s, run (step crc32) atOne (twoFrames ++ upToLock true 2 ++ [Op.write, .write, .write, .write,
      .savePos (some []),
        .write, .saveFull false] ++ upToLock false 3 ++ [Op.write, .write, .write, .write,
          .saveFull true, .write,
        .write]) = some s ∧
      Persists crc32 atOne (twoFrames ++ upToLock true 2 ++ [Op.write, .write, .write, .write,
        .savePos (some []),
        .write, .saveFull false] ++ upToLock false 3 ++ [Op.write, .write, .write, .write,
          .saveFull true, .write,
        .write]) s := by
  obtain ⟨s, hs⟩ : ∃ s, run (step crc32) atOne
    (twoFrames ++ upToLock true 2 ++ [Op.write, .write, .write, .write,
      .savePos (some []), .write, .saveFull false] ++ upToLock false 3 ++ [Op.write, .write,
        .write, .write,
      .saveFull true, .write, .write]) = some s := Option.isSome_iff_exists.mp (by decide)
  exact ⟨s, hs, applyCommitted_persists opened_atOne hs (by decide +kernel)⟩

instance (seen : List (State Bool ℕ Unit)) (settings : Settings Unit) (position : ℕ) :
    Decidable (OfOneState seen settings position) :=
  inferInstanceAs (Decidable (∃ t ∈ seen, _ ∧ _ ∧ _))

/-- A second call sets the time to live after the first one has looked at the count of changes. The
first one saves the position of both and returns; no state at that position is without the time to
live. -/
theorem position_outruns_settings :
    Opened crc32 atOne ∧
      (run (step crc32) atOne (twoFrames ++ upToLock true 2 ++ [Op.write, .write, .write] ++
          (upToLock false 3).take 4 ++ [Op.write, .savePos none, .write])).map
        (fun s => (s.pc true, recordedWatermark crc32 s, s.appliedMeta)) =
        some (.returned (.applyCommitted 2) true, .ok (some 3), some ⟨1, .fresh⟩) ∧
      ¬OfOneState (trace (step crc32) atOne
        (twoFrames ++ upToLock true 2 ++ [Op.write, .write, .write] ++
          (upToLock false 3).take 4 ++ [Op.write, .savePos none, .write])) .fresh 3 :=
  ⟨opened_atOne, by decide +kernel, by decide⟩

end Waiting

end DewDB.Watermark
