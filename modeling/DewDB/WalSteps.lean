import DewDB.WalSound

/-!
# The writer's operations

One lemma for each operation, over all of its outcomes: a heal, a rewind, a rotation, a write and
the appends made of them. Leaving a WAL behind is sound when nothing in it waits for an fsync.
-/
namespace DewDB.FsyncSafety

open CollectionLog WalFile WalWriter

variable {β : Type} [Encoded β]

section Steps

variable {w w' : Wal β}

theorem Core.dropAbove (hw : Core w) (lsn : ℕ) : Core (w.dropAbove lsn) where
  sorted := hw.sorted
  current := hw.current
  handle_le := hw.handle_le
  placed := fun f hf => hw.placed f (List.mem_filter.mp hf).1
  staged := by
    intro q hq
    have := List.mem_filter.mp hq
    exact List.mem_filter.mpr ⟨hw.staged q this.1, this.2⟩
  keeps := fun q hq p hp => hw.keeps q (List.mem_filter.mp hq).1 p (List.mem_filter.mp hp).1
  ordered := fun q hq q' hq' => hw.ordered q (List.mem_filter.mp hq).1 q' (List.mem_filter.mp hq').1
  log_le := fun f hf => hw.log_le f (List.mem_filter.mp hf).1
  last_le := hw.last_le
  durable_le := hw.durable_le
  left := hw.left
  durable := fun F hF f hf hlog => hw.durable F hF f hf (List.mem_filter.mp hlog).1

/-- A writer that a failed rotation left on the old WAL has nothing there that waits for an fsync.
-/
def Settled (w : Wal β) : Prop := w.handle < w.currentWalId → LeavesCovered w

theorem healFencedCut_sound (hw : Sound w) (hs : w.truncationFence.isSome → Settled w)
    (io : CutIo) : Sound (settle (w.healFencedCut io)) := by
  unfold Wal.healFencedCut
  split
  · exact hw
  · next cut hcut =>
    have hc := hw.fenced cut hcut
    refine applyCut_sound (hw.dropAbove _) ⟨hc.walId_le, ?_, ?_, ?_, hc.prev_le⟩ (fun hlt => ?_) io
    · exact fun p hp => hc.keeps p (List.mem_filter.mp hp).1
    · exact fun q hq => hc.before q (List.mem_filter.mp hq).1
    · exact fun f hf => hc.log_le f (List.mem_filter.mp hf).1
    · exact hs (by simp [hcut]) (Nat.lt_of_lt_of_le hlt hc.walId_le)

/-- A successful heal has lifted the fence, and the writer is on the WAL its id names if it moved.
-/
theorem healFencedCut_ok {io : CutIo} (h : w.healFencedCut io = .ok w') :
    w'.truncationFence = none ∧ (w' = w ∨ w'.handle = w'.currentWalId) := by
  unfold Wal.healFencedCut at h
  split at h
  · next hnone =>
    obtain rfl := Except.ok.inj h
    exact ⟨hnone, .inl rfl⟩
  · next cut hcut =>
    simp only [Wal.applyCut, Wal.shrinkWalTo] at h
    split at h
    · simp at h
    · next h' =>
      split at h'
      · simp at h'
      · split at h'
        · simp at h'
        · obtain rfl := Except.ok.inj h'
          split at h
          · simp at h
          · obtain rfl := Except.ok.inj h
            exact ⟨rfl, .inr rfl⟩

def settleRewind (w : Wal β) : Except (Wal β) (Option (Wal β)) → Wal β
  | .error w' => w'
  | .ok none => w
  | .ok (some w') => w'

theorem rewindTo_sound (hw : Sound w) (hnone : w.truncationFence = none) (hs : Settled w)
    {prevLsn : ℕ} (prevTerm : ℕ) (hlt : prevLsn < w.lastAppendedLsn) (io : RewindIo) :
    Sound (settleRewind w (w.rewindTo prevLsn prevTerm io)) := by
  unfold Wal.rewindTo
  split
  · exact hw
  split
  · exact hw
  split
  · exact hw
  split
  · exact hw
  next doomed hfind =>
  have hmem := List.mem_of_find?_eq_some hfind
  have hgt : prevLsn < doomed.frame.lsn := by simpa using List.find?_some hfind
  cases io with
  | refused => exact hw
  | cut io =>
    have hreach := (hw.free hnone).reached doomed hmem
    have hle : doomed.walId ≤ w.currentWalId := by
      rcases hreach with h | h <;> omega
    have hkept : ∀ f ∈ (w.dropAbove prevLsn).log, f ∈ w.log ∧ f.lsn ≤ prevLsn := by
      intro f hf
      simpa [Wal.dropAbove] using hf
    have hpend : ∀ q ∈ (w.dropAbove prevLsn).pending, q ∈ w.pending ∧ q.frame.lsn ≤ prevLsn := by
      intro q hq
      simpa [Wal.dropAbove] using hq
    have hcut : Cuttable (w.dropAbove prevLsn) ⟨doomed.walId, doomed.offset, prevLsn,
      prevTerm⟩ := by
      refine ⟨hle, fun p hp => ?_, fun q hq => ?_, fun f hf => (hkept f hf).2, hlt.le⟩
      · exact hw.keeps doomed hmem p (hkept p hp).1 (Nat.lt_of_le_of_lt (hkept p hp).2 hgt)
      · exact hw.ordered q (hpend q hq).1 doomed hmem (Nat.lt_of_le_of_lt (hpend q hq).2 hgt)
    have := applyCut_sound (hw.dropAbove prevLsn) hcut
      (fun h => hs (Nat.lt_of_lt_of_le h hle)) io
    cases hres : (w.dropAbove prevLsn).applyCut ⟨doomed.walId, doomed.offset, prevLsn,
      prevTerm⟩ io with
    | error w₁ =>
      rw [hres] at this
      simpa only [hres, Except.map, settleRewind, settle] using this
    | ok w₁ =>
      rw [hres] at this
      simpa only [hres, Except.map, settleRewind, settle] using this

theorem applyCut_fence {cut : WalCut} {io : CutIo} (h : w.applyCut cut io = .ok w') :
    w'.truncationFence = none ∧ w'.lastAppendedLsn = cut.prevLsn := by
  simp only [Wal.applyCut] at h
  split at h
  · simp at h
  · split at h
    · simp at h
    · obtain rfl := Except.ok.inj h
      exact ⟨rfl, rfl⟩

theorem rewindTo_fence {prevLsn prevTerm : ℕ} {io : RewindIo}
    (h : w.rewindTo prevLsn prevTerm io = .ok (some w')) :
    w'.truncationFence = none ∧ w'.lastAppendedLsn = prevLsn := by
  unfold Wal.rewindTo at h
  split at h
  · simp at h
  split at h
  · simp at h
  split at h
  · simp at h
  split at h
  · simp at h
  · split at h
    · simp at h
    · unfold Except.map at h
      split at h
      · simp at h
      · next hres =>
        obtain rfl := Option.some.inj (Except.ok.inj h)
        exact applyCut_fence hres

/-- Moving on to the next WAL, when the one left behind has nothing that waits for an fsync. -/
theorem openNextWal_sound (hw : Core w) (hnone : w.truncationFence = none)
    (hreach : ∀ q ∈ w.pending, q.walId ≤ w.currentWalId)
    (habove : ∀ F ∈ w.files, w.handle < F.id → bytes F.chunks = 0) {opened : Bool}
    (hleft : opened → LeavesCovered w) : Sound (settle (w.openNextWal opened)) := by
  cases opened with
  | false =>
    refine { hw with
      handle_le := Nat.le_succ_of_le hw.handle_le
      free := fun _ => ⟨habove, ?_, ?_⟩
      fenced := by simp [settle, Wal.openNextWal, hnone] }
    · intro heq
      have := hw.handle_le
      simp only [settle, Wal.openNextWal] at heq
      simp at heq
      omega
    · exact fun q hq => .inl (Nat.lt_succ_of_le (hreach q hq))
  | true =>
    have hlt : w.handle < w.currentWalId + 1 := Nat.lt_succ_of_le hw.handle_le
    have hnew : ∀ F ∈ openFile (w.currentWalId + 1) w.files, F ∈ w.files ∨ F.chunks = [] := by
      intro F hF
      rcases mem_openFile hF with h | rfl
      · exact .inl h
      · exact .inr rfl
    refine {
      sorted := openFile_sorted hw.sorted
      current := exists_mem_openFile _ _
      handle_le := Nat.le_refl _
      placed := ?_
      staged := hw.staged
      keeps := ?_
      ordered := hw.ordered
      log_le := hw.log_le
      last_le := hw.last_le
      durable_le := hw.durable_le
      left := ?_
      durable := ?_
      free := fun _ => ⟨?_, ?_, ?_⟩
      fenced := by simp [settle, Wal.openNextWal, hnone] }
    · intro f hf
      obtain ⟨F, hF, hmem⟩ := hw.placed f hf
      exact ⟨F, mem_openFile_of_mem hF, hmem⟩
    · intro q hq p hp hlt'
      exact (hw.keeps q hq p hp hlt').mono fun F hF =>
        ⟨F, mem_openFile_of_mem hF, rfl, List.prefix_rfl⟩
    · intro F hF _
      rcases hnew F hF with h | h
      · by_cases hid : F.id = w.handle
        · exact hleft rfl F h hid
        · exact hw.left F h hid
      · simp [File.uncovered, h]
    · intro F hF f hf hlog
      rcases hnew F hF with h | h
      · exact hw.durable F h f hf hlog
      · simp [File.uncovered, h] at hf
    · intro F hF hgt
      rcases hnew F hF with h | h
      · exact habove F h (Nat.lt_trans hlt hgt)
      · simp [h]
    · intro _ F hF hid
      simp only [settle, Wal.openNextWal, if_true] at hid ⊢
      rcases hnew F hF with h | h
      · exact habove F h (by omega)
      · simp [h]
    · exact fun q hq => .inl (Nat.lt_succ_of_le (hreach q hq))

theorem Free.walId_le (h : Free w) : ∀ q ∈ w.pending, q.walId ≤ w.currentWalId := by
  intro q hq
  rcases h.reached q hq with h | h <;> omega

omit [Encoded β] in
theorem openNextWal_fence {opened : Bool} (h : w.openNextWal opened = .ok w') :
    w'.truncationFence = w.truncationFence ∧ w'.lastAppendedLsn = w.lastAppendedLsn := by
  unfold Wal.openNextWal at h
  split at h
  · obtain rfl := Except.ok.inj h
    exact ⟨rfl, rfl⟩
  · simp at h

theorem Core.sync (hw : Core w) : Core { w with files := onFile w.handle File.sync w.files } where
  sorted := by
    rw [onFile_ids (g := File.sync) fun _ => rfl]
    exact hw.sorted
  current := by
    obtain ⟨F, hF, hid⟩ := hw.current
    exact ⟨F.sync, mem_onFile.mpr ⟨F, hF, by simp [hid]⟩, hid⟩
  handle_le := hw.handle_le
  placed := by
    intro f hf
    obtain ⟨F, hF, hmem⟩ := hw.placed f hf
    refine ⟨_, mem_onFile.mpr ⟨F, hF, rfl⟩, ?_⟩
    split <;> exact hmem
  staged := hw.staged
  keeps := by
    intro q hq p hp hlt
    refine (hw.keeps q hq p hp hlt).mono fun F hF => ⟨_, mem_onFile.mpr ⟨F, hF, rfl⟩, ?_, ?_⟩
    · split <;> rfl
    · split <;> exact List.prefix_rfl
  ordered := hw.ordered
  log_le := hw.log_le
  last_le := hw.last_le
  durable_le := hw.durable_le
  left := fun F hF hne => hw.left F (mem_of_mem_onFile hF hne fun _ => rfl) hne
  durable := by
    intro F hF f hf hlog
    obtain ⟨E, hE, rfl⟩ := mem_onFile.mp hF
    split at hf
    · simp [File.uncovered_sync] at hf
    · exact hw.durable E hE f hf hlog

theorem uncovered_onFile_sync (hw : Core w) :
    ∀ F ∈ onFile w.handle File.sync w.files, F.uncovered = [] := by
  intro F hF
  by_cases hid : F.id = w.handle
  · obtain ⟨E, -, -, rfl⟩ := eq_of_mem_onFile hF hid
    exact File.uncovered_sync E
  · exact hw.sync.left F hF hid

theorem Free.sync (h : Free w) : Free { w with files := onFile w.handle File.sync w.files } where
  above := by
    intro F hF hlt
    exact h.above F (mem_of_mem_onFile hF (Nat.ne_of_gt hlt) fun _ => rfl) hlt
  size := by
    intro heq F hF hid
    obtain ⟨E, hE, hE', rfl⟩ := eq_of_mem_onFile hF hid
    exact h.size heq E hE hE'
  reached := h.reached

theorem rotateIfFull_sound (hw : Sound w) (hnone : w.truncationFence = none) (limit : ℕ)
    (io : RotateIo) : Sound (settle (w.rotateIfFull limit io)) := by
  unfold Wal.rotateIfFull
  split
  · exact hw
  · split
    · have hfree := hw.free hnone
      exact openNextWal_sound hw.sync hnone hfree.walId_le hfree.sync.above
        fun _ F hF _ => uncovered_onFile_sync hw.toCore F hF
    · exact hw

omit [Encoded β] in
theorem rotateIfFull_fence {limit : ℕ} {io : RotateIo} (h : w.rotateIfFull limit io = .ok w') :
    w'.truncationFence = w.truncationFence ∧ w'.lastAppendedLsn = w.lastAppendedLsn := by
  unfold Wal.rotateIfFull at h
  split at h
  · obtain rfl := Except.ok.inj h
    exact ⟨rfl, rfl⟩
  · split at h
    · have := openNextWal_fence h
      exact this
    · simp at h

theorem Core.write (hw : Core w) (c : Chunk β)
    (hc : ∀ f ∈ frames [c], f ∈ w.log → w.durableLsn < f.lsn) :
    Core { w with files := onFile w.handle (File.write c) w.files } where
  sorted := by
    rw [onFile_ids (g := File.write c) fun _ => rfl]
    exact hw.sorted
  current := by
    obtain ⟨F, hF, hid⟩ := hw.current
    exact ⟨F.write c, mem_onFile.mpr ⟨F, hF, by simp [hid]⟩, hid⟩
  handle_le := hw.handle_le
  placed := by
    intro f hf
    obtain ⟨F, hF, hmem⟩ := hw.placed f hf
    refine ⟨_, mem_onFile.mpr ⟨F, hF, rfl⟩, ?_⟩
    split
    · rw [File.frames_write]
      exact List.mem_append_left _ hmem
    · exact hmem
  staged := hw.staged
  keeps := fun q hq p hp hlt => (hw.keeps q hq p hp hlt).onFile_write
  ordered := hw.ordered
  log_le := hw.log_le
  last_le := hw.last_le
  durable_le := hw.durable_le
  left := fun F hF hne => hw.left F (mem_of_mem_onFile hF hne fun _ => rfl) hne
  durable := by
    intro F hF f hf hlog
    obtain ⟨E, hE, rfl⟩ := mem_onFile.mp hF
    split at hf
    · rcases File.mem_uncovered_write hf with h | h
      · exact hw.durable E hE f h hlog
      · exact hc f h hlog
    · exact hw.durable E hE f hf hlog

theorem Free.above_write (h : Free w) (c : Chunk β) : ∀ F ∈ onFile w.handle (File.write c) w.files,
    w.handle < F.id → bytes F.chunks = 0 := by
  intro F hF hlt
  exact h.above F (mem_of_mem_onFile hF (Nat.ne_of_gt hlt) fun _ => rfl) hlt

theorem writeFrame_sound (hw : Sound w) (hnone : w.truncationFence = none) {f : Frame β}
    (hlt : w.lastAppendedLsn < f.lsn) (io : WriteIo) (hle : io = .done → f.lsn ≤ w.nextLsn)
    (hleft : ∀ n, io = .torn n true → LeavesCovered w) : Sound (settle (w.writeFrame f io)) := by
  have hfree := hw.free hnone
  cases io with
  | torn n opened =>
    have hcore : Core { w with files := onFile w.handle (File.write (tear f n)) w.files } :=
      hw.write (tear f n) (by simp [tear])
    refine openNextWal_sound hcore hnone hfree.walId_le (hfree.above_write _) fun ho F hF hid => ?_
    obtain ⟨E, hE, hE', rfl⟩ := eq_of_mem_onFile hF hid
    rw [List.eq_nil_iff_forall_not_mem]
    intro g hg
    rcases File.mem_uncovered_write hg with h | h
    · simp [hleft n (by rw [ho]) E hE hE'] at h
    · simp [tear] at h
  | done =>
    have hnew : ∀ g ∈ w.log, g.lsn < f.lsn := fun g hg => Nat.lt_of_le_of_lt (hw.log_le g hg) hlt
    have hnotin : f ∉ w.log := fun h => Nat.lt_irrefl _ (hnew f h)
    have hcore := hw.write (.frame f) (by
      intro g hg hlog
      obtain rfl : g = f := by simpa using hg
      exact absurd hlog hnotin)
    obtain ⟨C, hC, hCid⟩ := hw.current
    have hfile : C.write (.frame f) ∈ onFile w.handle (File.write (.frame f)) w.files :=
      mem_onFile.mpr ⟨C, hC, by simp [hCid]⟩
    have hfC : f ∈ (C.write (.frame f)).frames := by simp [File.frames_write]
    -- The new position has every earlier frame in front of it.
    have hkeep : ∀ p ∈ w.log, Keeps (onFile w.handle (File.write (.frame f)) w.files)
        w.currentWalId w.currentWalSize p := by
      intro p hp
      obtain ⟨F, hF, hmem⟩ := hw.placed p hp
      refine Keeps.onFile_write ⟨F, hF, ?_⟩
      have hFle : F.id ≤ w.handle := by
        by_contra hgt
        rw [File.frames, frames_eq_nil_of_bytes (hfree.above F hF (by omega))] at hmem
        simp at hmem
      rcases Nat.lt_or_ge F.id w.currentWalId with hlt' | hge
      · exact .inl ⟨hlt', hmem⟩
      · have hh := hw.handle_le
        have heq : w.handle = w.currentWalId := by omega
        have hid : F.id = w.handle := by omega
        refine .inr ⟨by omega, ?_⟩
        rw [← hfree.size heq F hF hid, takeBytes_bytes]
        exact hmem
    have hmemLog : ∀ g ∈ w.log ++ [f], g ∈ w.log ∨ g = f := by
      intro g hg
      simpa using hg
    have hmemPend : ∀ q ∈ w.pending ++ [⟨f, w.currentWalId, w.currentWalSize⟩],
        q ∈ w.pending ∨ q = ⟨f, w.currentWalId, w.currentWalSize⟩ := by
      intro q hq
      simpa using hq
    have hpend : ∀ q ∈ w.pending, q.frame.lsn < f.lsn := fun q hq => hnew _ (hw.staged q hq)
    refine {
      sorted := hcore.sorted
      current := hcore.current
      handle_le := hcore.handle_le
      placed := ?_
      staged := ?_
      keeps := ?_
      ordered := ?_
      log_le := ?_
      last_le := hle rfl
      durable_le := Nat.le_trans hw.durable_le hlt.le
      left := hcore.left
      durable := ?_
      free := fun _ => ⟨hfree.above_write _, ?_, ?_⟩
      fenced := by simp [settle, Wal.writeFrame, hnone] }
    · intro g hg
      rcases hmemLog g hg with h | rfl
      · exact hcore.placed g h
      · exact ⟨_, hfile, hfC⟩
    · intro q hq
      rcases hmemPend q hq with h | rfl
      · exact List.mem_append_left _ (hw.staged q h)
      · exact List.mem_append_right _ (List.mem_singleton_self _)
    · intro q hq p hp hpq
      rcases hmemPend q hq with h | rfl
      · rcases hmemLog p hp with h' | rfl
        · exact hcore.keeps q h p h' hpq
        · exact absurd hpq (Nat.lt_asymm (hpend q h))
      · rcases hmemLog p hp with h' | rfl
        · exact hkeep p h'
        · exact absurd hpq (Nat.lt_irrefl _)
    · intro q hq q' hq' hqq
      rcases hmemPend q hq with h | rfl
      · rcases hmemPend q' hq' with h' | rfl
        · exact hw.ordered q h q' h' hqq
        · exact hfree.reached q h
      · rcases hmemPend q' hq' with h' | rfl
        · exact absurd hqq (Nat.lt_asymm (hpend q' h'))
        · exact absurd hqq (Nat.lt_irrefl _)
    · intro g hg
      rcases hmemLog g hg with h | rfl
      · exact (hnew g h).le
      · exact Nat.le_refl _
    · intro F hF g hg hlog
      rcases hmemLog g hlog with h | rfl
      · exact hcore.durable F hF g hg h
      · exact Nat.lt_of_le_of_lt hw.durable_le hlt
    · intro heq F hF hid
      obtain ⟨E, hE, hE', rfl⟩ := eq_of_mem_onFile hF hid
      simp only [settle, Wal.writeFrame, File.write, bytes_append, bytes_cons,
        bytes_nil, Chunk.size, Nat.add_zero, hfree.size heq E hE hE']
    · intro q hq
      rcases hmemPend q hq with h | rfl
      · rcases hfree.reached q h with h | h
        · exact .inl h
        · exact .inr ⟨h.1, Nat.le_trans h.2 (Nat.le_add_right _ _)⟩
      · exact .inr ⟨rfl, Nat.le_add_right _ _⟩

theorem Free.raise (h : Free w) (n : ℕ) : Free { w with nextLsn := n } :=
  ⟨h.above, h.size, h.reached⟩

theorem Sound.raise (hw : Sound w) {n : ℕ} (hle : w.nextLsn ≤ n) : Sound
    { w with nextLsn := n } where
  toCore := { hw.toCore with last_le := Nat.le_trans hw.last_le hle }
  free := fun h => (hw.free h).raise n
  fenced := fun cut h => { hw.fenced cut h with }

/-- What a frame's write may not do: fail part-way and move on from a WAL with uncovered frames. -/
def TornLeaves (w : Wal β) : WriteIo → Prop
  | .torn _ true => LeavesCovered w
  | _ => True

omit [Encoded β] in
theorem TornLeaves.leaves {io : WriteIo} (h : TornLeaves w io) {n : ℕ} (heq : io = .torn n true) :
    LeavesCovered w := by
  subst heq
  exact h

theorem prepare_sound (hw : Sound w) (hs : w.truncationFence.isSome → Settled w) (limit : ℕ)
    (io : AppendIo) : Sound (settle (w.prepare limit io)) ∧
      ∀ w', w.prepare limit io = .ok w' → w'.truncationFence = none := by
  have hheal := healFencedCut_sound hw hs io.heal
  unfold Wal.prepare
  cases h : w.healFencedCut io.heal with
  | error w₁ =>
    rw [h, settle_error] at hheal
    exact ⟨hheal, by simp [Except.bind]⟩
  | ok w₁ =>
    rw [h, settle_ok] at hheal
    have hnone := (healFencedCut_ok h).1
    refine ⟨rotateIfFull_sound hheal hnone limit io.rotate, fun w' hw' => ?_⟩
    rw [(rotateIfFull_fence hw').1, hnone]

theorem append_sound (hw : Sound w) (hs : w.truncationFence.isSome → Settled w) {limit : ℕ}
    {io : AppendIo} (hleft : ∀ w', w.prepare limit io = .ok w' → TornLeaves w' io.write) (entry : β)
    (term : ℕ) : Sound (settle (w.append limit entry term io)) := by
  obtain ⟨hprep, hnone⟩ := prepare_sound hw hs limit io
  unfold Wal.append
  cases h : w.prepare limit io with
  | error w₁ =>
    rw [h] at hprep
    exact hprep
  | ok w₁ =>
    rw [h] at hprep
    have hlast := hprep.last_le
    exact writeFrame_sound (hprep.raise (Nat.le_succ _)) (hnone w₁ h)
      (Nat.lt_succ_of_le hlast) io.write (fun _ => Nat.le_refl _) fun n hn => (hleft w₁ h).leaves hn

/-- The state that admitting a frame leaves, and what is known when it is to be written. -/
def settleAdmit : Except (Wal β) (Wal β × Bool) → Wal β
  | .error w => w
  | .ok (w, _) => w

theorem rotate_admitted (hw : Sound w) (hnone : w.truncationFence = none) {f : Frame β}
    (hlast : w.lastAppendedLsn < f.lsn) (limit : ℕ) (io : RotateIo) :
    Sound (settleAdmit ((w.rotateIfFull limit io).map fun w => (w, true))) ∧
      ∀ w', (w.rotateIfFull limit io).map (fun w => (w, true)) = .ok (w', true) →
        w'.truncationFence = none ∧ w'.lastAppendedLsn < f.lsn := by
  have hrot := rotateIfFull_sound hw hnone limit io
  cases h : w.rotateIfFull limit io with
  | error w₁ =>
    rw [h] at hrot
    exact ⟨hrot, by simp [Except.map]⟩
  | ok w₁ =>
    rw [h] at hrot
    refine ⟨hrot, fun w' hw' => ?_⟩
    obtain rfl : w₁ = w' := by simpa [Except.map] using hw'
    obtain ⟨hf, hl⟩ := rotateIfFull_fence h
    exact ⟨hf.trans hnone, hl ▸ hlast⟩

theorem admitRawFrame_sound (hw : Sound w) {f : Frame β}
    (hs : w.truncationFence.isSome ∨ f.prevLsn < w.lastAppendedLsn → Settled w)
    (hlink : f.prevLsn < f.lsn) (limit : ℕ) (io : AppendIo) :
    Sound (settleAdmit (w.admitRawFrame limit f io)) ∧
      ∀ w', w.admitRawFrame limit f io = .ok (w', true) →
        w'.truncationFence = none ∧ w'.lastAppendedLsn < f.lsn := by
  have hheal := healFencedCut_sound hw (fun h => hs (.inl h)) io.heal
  unfold Wal.admitRawFrame
  cases h : w.healFencedCut io.heal with
  | error w₁ =>
    rw [h, settle_error] at hheal
    exact ⟨hheal, by simp [Except.bind]⟩
  | ok w₁ =>
    rw [h, settle_ok] at hheal
    obtain ⟨hnone, hmoved⟩ := healFencedCut_ok h
    simp only [Except.bind]
    split
    · exact ⟨hheal, by simp⟩
    split
    · exact ⟨hheal, by simp⟩
    next hgap =>
    split
    · next hlt =>
      have hsettled : Settled w₁ := by
        intro hlt'
        rcases hmoved with rfl | heq
        · exact hs (.inr hlt) hlt'
        · omega
      have hrew := rewindTo_sound hheal hnone hsettled f.prevTerm hlt io.rewind
      cases hr : w₁.rewindTo f.prevLsn f.prevTerm io.rewind with
      | error w₂ =>
        rw [hr] at hrew
        exact ⟨hrew, by simp⟩
      | ok r =>
        rw [hr] at hrew
        cases r with
        | none => exact ⟨hheal, by simp⟩
        | some w₂ =>
          obtain ⟨hnone₂, hlast₂⟩ := rewindTo_fence hr
          exact rotate_admitted hrew hnone₂ (hlast₂ ▸ hlink) limit io.rotate
    · next hge =>
      split
      · exact ⟨hheal, by simp⟩
      · exact rotate_admitted hheal hnone (by omega) limit io.rotate

theorem appendRawFrame_sound (hw : Sound w) {f : Frame β}
    (hs : w.truncationFence.isSome ∨ f.prevLsn < w.lastAppendedLsn → Settled w)
    (hlink : f.prevLsn < f.lsn) {limit : ℕ} {io : AppendIo}
    (hleft : ∀ w', w.admitRawFrame limit f io = .ok (w', true) → TornLeaves w' io.write) :
    Sound (settle (w.appendRawFrame limit f io)) := by
  obtain ⟨hadm, hready⟩ := admitRawFrame_sound hw hs hlink limit io
  unfold Wal.appendRawFrame
  cases h : w.admitRawFrame limit f io with
  | error w₁ =>
    rw [h] at hadm
    exact hadm
  | ok r =>
    rw [h] at hadm
    obtain ⟨w₁, b⟩ := r
    replace hadm : Sound w₁ := hadm
    cases b with
    | false => exact hadm
    | true =>
      obtain ⟨hnone, hlt⟩ := hready w₁ h
      have hl := hleft w₁ h
      cases hio : io.write with
      | done =>
        have hraised := hadm.raise (Nat.le_max_left w₁.nextLsn f.lsn)
        have := writeFrame_sound hraised hnone hlt .done (fun _ => Nat.le_max_right _ _) (by simp)
        simpa only [Except.bind, Except.map, Wal.writeFrame, hio, settle] using this
      | torn n opened =>
        rw [hio] at hl
        have := writeFrame_sound hadm hnone hlt (.torn n opened) (by simp)
          (fun m hm => hl.leaves hm)
        simpa only [Except.bind, Except.map, Wal.writeFrame, hio, settle] using this

theorem syncWal_sound (hw : Sound w) (synced : Bool) : Sound (w.syncWal synced) := by
  cases synced with
  | false => exact hw
  | true =>
    have hun := uncovered_onFile_sync hw.toCore
    refine { hw.toCore.sync with
      durable_le := Nat.max_le.mpr ⟨hw.durable_le, Nat.le_refl _⟩
      durable := fun F hF f hf => by simp [hun F hF] at hf
      free := fun h => { (hw.free h).sync with }
      fenced := ?_ }
    intro cut hcut
    have hc := hw.fenced cut hcut
    refine ⟨hc.walId_le, fun p hp => ?_, hc.before, hc.log_le, hc.prev_le⟩
    refine (hc.keeps p hp).mono fun F hF => ⟨_, mem_onFile.mpr ⟨F, hF, rfl⟩, ?_, ?_⟩
    · split <;> rfl
    · split <;> exact List.prefix_rfl

theorem applyCommitted_sound (hw : Sound w) (lsn : ℕ) : Sound (w.applyCommitted lsn) where
  sorted := hw.sorted
  current := hw.current
  handle_le := hw.handle_le
  placed := hw.placed
  staged := fun q hq => hw.staged q (List.mem_filter.mp hq).1
  keeps := fun q hq => hw.keeps q (List.mem_filter.mp hq).1
  ordered := fun q hq q' hq' => hw.ordered q (List.mem_filter.mp hq).1 q' (List.mem_filter.mp hq').1
  log_le := hw.log_le
  last_le := hw.last_le
  durable_le := hw.durable_le
  left := hw.left
  durable := hw.durable
  free := fun h =>
    ⟨(hw.free h).above, (hw.free h).size, fun q hq =>
      (hw.free h).reached q (List.mem_filter.mp hq).1⟩
  fenced := by
    intro cut hcut
    have hc := hw.fenced cut hcut
    exact ⟨hc.walId_le, hc.keeps, fun q hq => hc.before q (List.mem_filter.mp hq).1,
      hc.log_le, hc.prev_le⟩

end Steps

end DewDB.FsyncSafety
