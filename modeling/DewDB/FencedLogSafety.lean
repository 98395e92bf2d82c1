import DewDB.FencedLogRun
import DewDB.CompactionSafety

/-!
# The chain of frames, and truncation under failures

In an orderly run the log is one chain whose last frame is the tail, whatever fails on the way. A
truncation that stops anywhere leaves the log or what is in front of the cut, and healing or opening
gives just that. Two things break it: a frame that truncates to the watermark may name any term for
it, and saving the index under a pending cut records the tail that is cut away.
-/
namespace DewDB.FencedLog

open CollectionLog WalFile StorageEntry Recovery TransitionSystem
open WalWriter (WalCut CutIo RotateIo WriteIo)

section OnDisk

variable {V H : Type} [Encoded (LogEntry V H)] {limit : ℕ} {s t : Log V H}

theorem mem_layout_takeBytes {id offset n : ℕ} {cs : List (Chunk (LogEntry V H))}
    {q : Spot (LogEntry V H)}
    (h : q ∈ layout id offset (takeBytes n cs)) : q ∈ layout id offset cs := by
  induction cs generalizing offset n with
  | nil =>
    rw [takeBytes] at h
    split at h <;> simp [layout] at h
  | cons c cs ih =>
    rw [takeBytes] at h
    split at h
    · cases c with
      | torn header m => simp [layout] at h
      | frame f =>
        rw [layout] at h ⊢
        rcases List.mem_cons.mp h with rfl | h
        · exact List.mem_cons_self
        · exact List.mem_cons_of_mem _ (ih h)
    · split at h
      · simp [layout] at h
      · cases c <;> simp [Chunk.cut, tear, layout] at h

theorem mem_frames_of_healed {f : Frame (LogEntry V H)} (h : f ∈ s.healed.frames) :
    f ∈ s.frames := by
  cases hfence : s.truncationFence with
  | none =>
    rw [healed_of_unfenced hfence] at h
    exact h
  | some cut =>
    rw [healed_of_fenced hfence] at h
    obtain ⟨q, hq, rfl⟩ := List.mem_map.mp h
    refine List.mem_map.mpr ⟨q, ?_, rfl⟩
    have hq : q ∈ spots (truncatedTo cut s.coll.disk.files) := hq
    rw [truncatedTo, FsyncSafety.onFile_emptyAbove] at hq
    obtain ⟨F, hF, hqF⟩ := List.mem_flatMap.mp hq
    obtain ⟨E, hE, rfl⟩ := List.mem_map.mp hF
    refine List.mem_flatMap.mpr ⟨E, hE, ?_⟩
    unfold FsyncSafety.cutFile at hqF
    split at hqF
    · exact mem_layout_takeBytes hqF
    · split at hqF
      · exact mem_layout_takeBytes hqF
      · exact hqF

end OnDisk

section Chain

variable {V H : Type} [Encoded (LogEntry V H)] {limit : ℕ} {s t : Log V H} {ops : List (Op V H)}

structure ChainOk (s : Log V H) : Prop where
  ascending : s.frames.Pairwise fun f g => f.lsn < g.lsn
  linked : ∀ q f, q ++ [f] <+: s.frames → f.prevLsn = lsnOf q ∧ f.prevTerm = termOf q
  tail : s.coll.tail = (lsnOf s.frames, termOf s.frames)

theorem Ready.chainOk (h : Ready limit s) : ChainOk s where
  ascending := h.chained.ascending
  linked q f hq := ⟨(h.chained q f hq).1, (h.chained q f hq).2.1⟩
  tail := by rw [Coll.tail, h.tail.1, h.tail.2]

/-- An outcome other than `applied` is decided before anything is written. -/
theorem admit_refused {f : Frame (LogEntry V H)} {io : AppendIo} {o : ReplicaApply}
    (h : s.admitRawFrame limit f io = .ok (t, o)) (ho : ∀ lsn, o ≠ .applied lsn) : t = s := by
  have hwrite : ∀ {u : Log V H}, u.writeRaw limit f io = .ok (t, o) → False := by
    intro u hu
    unfold Log.writeRaw at hu
    cases hrot : u.rotateIfFull limit io.rotate with
    | error e =>
      rw [hrot] at hu
      cases hu
    | ok v =>
      rw [hrot] at hu
      simp only [Except.bind] at hu
      cases hw : v.writeFrame f io.write with
      | error e =>
        rw [hw] at hu
        cases hu
      | ok w =>
        rw [hw] at hu
        exact ho f.lsn (Prod.mk.inj (Except.ok.inj hu)).2.symm
  unfold Log.admitRawFrame at h
  dsimp only at h
  split at h
  · exact (Prod.mk.inj (Except.ok.inj h)).1.symm
  split at h
  · exact (Prod.mk.inj (Except.ok.inj h)).1.symm
  split at h
  · cases hrewind : s.rewindTo f.prevLsn f.prevTerm io.rewind with
    | error e =>
      rw [hrewind] at h
      cases h
    | ok r =>
      rw [hrewind] at h
      cases r with
      | none => exact (Prod.mk.inj (Except.ok.inj h)).1.symm
      | some u => exact (hwrite h).elim
  · split at h
    · exact (Prod.mk.inj (Except.ok.inj h)).1.symm
    · exact (hwrite h).elim

theorem LogInv.refused (h : LogInv limit s) {f : Frame (LogEntry V H)} {io : AppendIo}
    {o : ReplicaApply}
    (ht : s.appendRawFrame limit f io = .ok (t, o)) (ho : ∀ lsn, o ≠ .applied lsn) :
    t.coll.disk.files = s.healed.coll.disk.files ∧ t.coll.pending = s.coll.pending ∧
      t.coll.index = s.coll.index ∧ t.coll.tail = s.healed.coll.tail := by
  unfold Log.appendRawFrame at ht
  cases hheal : { s with coll := s.coll.recordWatermarkOnce }.healFencedCut io.heal with
  | error e =>
    rw [hheal] at ht
    cases ht
  | ok u =>
    rw [hheal] at ht
    obtain rfl := h.heal_recorded_ok hheal
    obtain rfl := admit_refused ht ho
    rw [← h.healed_pending, ← (healed_same s).2.2]
    unfold Log.prepared Coll.recordWatermarkOnce
    split <;> exact ⟨rfl, rfl, rfl, rfl⟩

theorem Ready.mem_history (h : Ready limit s) {f : Frame (LogEntry V H)} (hf : f ∈ s.frames)
    (hle : f.lsn ≤ s.coll.appliedLsn) : f ∈ s.history := by
  rw [h.kept] at hf
  rcases List.mem_append.mp hf with hf | hf
  · exact hf
  · obtain ⟨q, hq, rfl⟩ := List.mem_map.mp hf
    have hlt : s.coll.appliedLsn < q.frame.lsn := h.inv.log.staged q hq
    omega

/-- In an orderly run the log is a chain that ends in the tail, the frames up to the watermark stay,
and a frame that is refused changes nothing. -/
theorem log_stays_chained (hrun : run (step limit) Log.fresh ops = some s)
    (hok : Meets (step limit) Orderly Log.fresh ops) :
    ChainOk s.healed ∧
      (∀ more t, run (step limit) s more = some t → Meets (step limit) Orderly s more →
        ∀ f ∈ s.healed.frames, f.lsn ≤ s.coll.appliedLsn → f ∈ t.healed.frames ∧ f ∈ t.frames) ∧
      ∀ f io t o, s.appendRawFrame limit f io = .ok (t, o) → (∀ lsn, o ≠ .applied lsn) →
        t.coll.disk.files = s.healed.coll.disk.files ∧ t.coll.pending = s.coll.pending ∧
          t.coll.index = s.coll.index ∧ t.coll.tail = s.healed.coll.tail := by
  have hinv := run_inv hrun hok
  refine ⟨hinv.healed.chainOk, fun more t hmore hmeets f hf hle => ?_, fun f io t o ht ho =>
    hinv.refused ht ho⟩
  obtain ⟨hinv', hpre⟩ := run_history hinv hmore hmeets
  have hpublished : f ∈ s.history := by
    obtain ⟨hhistory, happlied, -⟩ := healed_same s
    rw [← hhistory]
    exact hinv.healed.mem_history hf (happlied.symm ▸ hle)
  have hkept : f ∈ t.healed.frames := by
    rw [hinv'.healed.kept, (healed_same t).1]
    exact List.mem_append_left _ (hpre.subset hpublished)
  exact ⟨hkept, mem_frames_of_healed hkept⟩

/-- The frame at LSN 1 is published in term 1; a frame then truncates to it and names term 2. -/
def unlinkedOps : List (Op Bool Unit) :=
  [.append (putOf "a") 1 .allDone, .applyCommitted 1, .append (putOf "b") 1 .allDone,
    .appendRawFrame ⟨3, 2, 2, 1, putOf "c"⟩ .allDone]

/-- A frame truncates to LSN 1, and the cut fails behind its record. -/
def healedOps : List (Op Bool Unit) :=
  [.append (putOf "a") 1 .allDone, .append (putOf "b") 1 .allDone, .append (putOf "c") 1 .allDone,
    .applyCommitted 1, .appendRawFrame ⟨2, 2, 1, 1, putOf "d"⟩ { AppendIo.allDone with
      rewind := .cut ⟨.emptying [], false⟩ }]

def afterLog (limit : ℕ) (ops : List (Op Bool Unit)) : Log Bool Unit :=
  (run (step limit) Log.fresh ops).getD Log.fresh

theorem run_healedOps : run (step 1) Log.fresh healedOps = some (afterLog 1 healedOps) := by decide

theorem meets_healedOps : Meets (step 1) Orderly Log.fresh healedOps := by decide

theorem log_stays_chained_fenced : (afterLog 1 healedOps).truncationFence ≠ none ∧
    ChainOk (afterLog 1 healedOps).healed :=
  ⟨by decide, (log_stays_chained run_healedOps meets_healedOps).1⟩

theorem chain_broken_at_watermark : run (step 1) Log.fresh unlinkedOps = some
    (afterLog 1 unlinkedOps) ∧
    (afterLog 1 unlinkedOps).truncationFence = none ∧ ¬ChainOk (afterLog 1 unlinkedOps) := by
  refine ⟨by decide, by decide, fun hchain => ?_⟩
  have hframes : (afterLog 1 unlinkedOps).frames = [⟨1, 1, 0, 0, putOf "a"⟩] ++
    [⟨3, 2, 2, 1, putOf "c"⟩] := by
    decide
  have hlinked := (hchain.linked [⟨1, 1, 0, 0, putOf "a"⟩] ⟨3, 2, 2, 1, putOf "c"⟩
    (by rw [hframes])).2
  exact absurd hlinked (by decide)

end Chain

section Truncation

variable {V H : Type} [Encoded (LogEntry V H)] {limit : ℕ} {s : Log V H} {ops : List (Op V H)}

structure Describes (s : Log V H) : Prop where
  unfenced : s.truncationFence = none
  cleared : s.coll.disk.cut = none
  chained : Chained s.frames
  pending : s.coll.pending = s.spots.filter fun q => s.coll.appliedLsn < q.frame.lsn
  tail : s.coll.tail = (lsnOf s.frames, termOf s.frames)
  durable : s.durableLsn = 0 ∨ ∃ f ∈ s.frames, f.lsn = s.durableLsn
  recent : RecentOk s.recentFrames s.spots

theorem Ready.describes (h : Ready limit s) : Describes s where
  unfenced := h.unfenced
  cleared := h.inv.files.noCut
  chained := h.chained
  pending := by
    obtain ⟨A, hA, hle⟩ := h.inv.log.split
    have hspots : s.spots = A ++ s.coll.pending := hA
    have hnone : A.filter (fun q => s.coll.appliedLsn < q.frame.lsn) = [] := by
      refine List.filter_eq_nil_iff.mpr fun q hq => ?_
      have : q.frame.lsn ≤ s.coll.appliedLsn := hle q hq
      simp only [decide_eq_true_eq]
      omega
    have hall : s.coll.pending.filter (fun q => s.coll.appliedLsn < q.frame.lsn) = s.coll.pending :=
      List.filter_eq_self.mpr fun q hq => decide_eq_true (h.inv.log.staged q hq)
    rw [hspots, List.filter_append, hnone, hall, List.nil_append]
  tail := h.chainOk.tail
  durable := h.durable
  recent := h.recent

def Op.appends : Op V H → Bool
  | .append _ _ _ => true
  | .appendRawFrame _ _ => true
  | _ => false

/-- Every other operation keeps the log that stands, however long a cut is pending. -/
theorem LogInv.stands (h : LogInv limit s) {op : Op V H} (happends : op.appends = false)
    (hop : Orderly s op) (hstep : step limit s op = some t) :
    t.healed.frames = s.healed.frames := by
  cases op with
  | append entry term io => cases happends
  | appendRawFrame f io => cases happends
  | applyCommitted lsn =>
    cases hstep
    rw [healed_apply h, Log.frames, Log.spots, Log.applyCommitted,
      (applyCommitted_fields s.healed.coll lsn).1]
    rfl
  | syncWal synced =>
    cases hstep
    exact (h.sync synced).2
  | saveIndex =>
    cases hstep
    have hfence : ({ s with coll := s.coll.saveIndex } : Log V H).truncationFence = none := hop.1
    rw [healed_of_unfenced hop.1, healed_of_unfenced hfence]
    rfl
  | heal carry =>
    cases hstep
    cases hheal : s.healFencedCut carry with
    | error t' => exact congrArg Log.frames (h.heal_error hheal).2
    | ok t' =>
      obtain ⟨heq, hready⟩ := h.heal_ok hheal
      rw [Log.settle, healed_of_unfenced hready.unfenced, heq]
  | reopen n =>
    have hstep : s.reopen n = some t := hstep
    rw [h.reopen_eq] at hstep
    cases hstep
    obtain ⟨hready, hframes⟩ := h.healed.reopened n
    rw [healed_of_unfenced hready.unfenced, hframes]
  | raiseNextLsn lsn =>
    cases hstep
    rw [healed_raise]
    rfl

/-- In an orderly run a frame that fails leaves the log or what is in front of its cut, and one that
is applied stands behind what the cut leaves. A leader's own frame stands behind the whole log. Any
other operation leaves the log as it stands, and healing or opening gives that log. -/
theorem truncation_atomic (hrun : run (step limit) Log.fresh ops = some s)
    (hok : Meets (step limit) Orderly Log.fresh ops) :
    (∀ entry term io, io.write.shorter (headerLen + Encoded.len entry) →
        Orderly s (.append entry term io) →
        (∀ t, s.append limit entry term io = .error t → t.healed.frames = s.healed.frames) ∧
        ∀ t, s.append limit entry term io = .ok t →
          t.frames = s.healed.frames ++ [s.healed.nextFrame entry term] ∧ Describes t) ∧
      (∀ op t, op.appends = false → Orderly s op → step limit s op = some t →
        t.healed.frames = s.healed.frames) ∧
      (∀ f io, f.prevLsn < f.lsn → io.write.shorter (frameLen f) →
        Orderly s (.appendRawFrame f io) →
        (∀ t, s.appendRawFrame limit f io = .error t →
          t.healed.frames = s.healed.frames ∨
            t.healed.frames = CollectionLog.cut f.prevLsn s.healed.frames) ∧
        (∀ t lsn, s.appendRawFrame limit f io = .ok (t, .applied lsn) →
          t.frames = CollectionLog.cut f.prevLsn s.healed.frames ++ [f] ∧ Describes t) ∧
        ∀ t o, s.appendRawFrame limit f io = .ok (t, o) → (∀ lsn, o ≠ .applied lsn) →
          t.frames = s.healed.frames ∧ Describes t) ∧
      (∀ carry t, s.healFencedCut carry = .error t → t.healed.frames = s.healed.frames) ∧
      (∀ carry t, s.healFencedCut carry = .ok t → t.frames = s.healed.frames ∧ Describes t) ∧
      ∀ n, ∃ t, s.reopen n = some t ∧ t.frames = s.healed.frames ∧ Describes t := by
  have hinv := run_inv hrun hok
  refine ⟨fun entry term io hshort hop => ?_, fun op t happends hop hstep =>
    hinv.stands happends hop hstep,
    fun f io hlt hshort hop => ?_, fun carry t ht => ?_, fun carry t ht => ?_, fun n => ?_⟩
  · obtain ⟨herr, hdone⟩ := hinv.append hshort hop
    refine ⟨fun t ht => (herr t ht).2.2, fun t ht => ?_⟩
    obtain ⟨hready, -, hframes⟩ := hdone t ht
    exact ⟨hframes, hready.describes⟩
  · obtain ⟨herr, hdone⟩ := hinv.appendRawFrame hlt hshort hop
    refine ⟨fun t ht => (herr t ht).2.2, fun t lsn ht => ?_, fun t o ht ho => ?_⟩
    · rcases hdone t _ ht with ⟨-, hnot⟩ | ⟨hready, -, -, hframes⟩
      · exact absurd rfl (hnot lsn)
      · exact ⟨hframes, hready.describes⟩
    · rcases hdone t _ ht with ⟨rfl, -⟩ | ⟨-, -, rfl, -⟩
      · obtain ⟨hready, -, hframes, -⟩ := hinv.prepared
        exact ⟨hframes, hready.describes⟩
      · exact absurd rfl (ho f.lsn)
  · rw [(hinv.heal_error ht).2]
  · obtain ⟨heq, hready⟩ := hinv.heal_ok ht
    exact ⟨congrArg Log.frames heq, hready.describes⟩
  · obtain ⟨hready, hframes⟩ := hinv.healed.reopened n
    exact ⟨_, hinv.reopen_eq n, hframes, hready.describes⟩

theorem truncation_atomic_fenced : ∃ t, (afterLog 1 healedOps).reopen 0 = some t ∧
    t.frames = (afterLog 1 healedOps).healed.frames ∧ Describes t :=
  (truncation_atomic run_healedOps meets_healedOps).2.2.2.2.2 0

/-- The index is saved while the cut is pending; the cut then succeeds and two frames are written
and published. -/
def savedOps : List (Op Bool Unit) :=
  healedOps ++ [Op.saveIndex, .appendRawFrame ⟨2, 2, 1, 1, putOf "d"⟩ .allDone,
    .appendRawFrame ⟨2, 3, 2, 2, putOf "e"⟩ .allDone, .applyCommitted 3]

/-- Opening then takes the tail from the frame that was cut away, and misses the published keys. -/
theorem truncation_tail_survives : run (step 1) Log.fresh savedOps = some (afterLog 1 savedOps) ∧
    ∃ t, (afterLog 1 savedOps).reopen 0 = some t ∧ ¬Describes t ∧
      t.coll.index ≠ (afterLog 1 savedOps).coll.index := by
  refine ⟨by decide, afterLog 1 (savedOps ++ [Op.reopen 0]), by decide, fun hdesc => ?_, by decide⟩
  have htail : (afterLog 1 (savedOps ++ [Op.reopen 0])).coll.tail ≠
      (lsnOf (afterLog 1 (savedOps ++ [Op.reopen 0])).frames,
        termOf (afterLog 1 (savedOps ++ [Op.reopen 0])).frames) := by
    decide
  exact htail hdesc.tail

end Truncation

end DewDB.FencedLog
