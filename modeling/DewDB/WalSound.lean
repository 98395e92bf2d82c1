import DewDB.WalWriter

/-!
# What the writer keeps

Every frame of the log lies in some file, in front of every later staged position, so a cut at such
a position loses nothing of what it keeps. A frame that no fsync has covered lies in the WAL behind
the handle and above what is reported durable.
-/
namespace DewDB.FsyncSafety

open CollectionLog WalFile WalWriter

variable {β : Type} [Encoded β]

section Invariant

def LeavesCovered (w : Wal β) : Prop := ∀ F ∈ w.files, F.id = w.handle → F.uncovered = []

/-- The log lies in the files, every staged position has the earlier frames in front of it, and a
frame that no fsync has covered lies in the WAL behind the handle, above what is reported durable.
-/
structure Core (w : Wal β) : Prop where
  sorted : (w.files.map File.id).Pairwise (· < ·)
  current : ∃ F ∈ w.files, F.id = w.handle
  handle_le : w.handle ≤ w.currentWalId
  placed : ∀ f ∈ w.log, ∃ F ∈ w.files, f ∈ F.frames
  staged : ∀ q ∈ w.pending, q.frame ∈ w.log
  keeps : ∀ q ∈ w.pending, ∀ p ∈ w.log, p.lsn < q.frame.lsn → Keeps w.files q.walId q.offset p
  ordered : ∀ q ∈ w.pending, ∀ q' ∈ w.pending, q.frame.lsn < q'.frame.lsn →
    PosLe q.walId q.offset q'.walId q'.offset
  log_le : ∀ f ∈ w.log, f.lsn ≤ w.lastAppendedLsn
  last_le : w.lastAppendedLsn ≤ w.nextLsn
  durable_le : w.durableLsn ≤ w.lastAppendedLsn
  left : ∀ F ∈ w.files, F.id ≠ w.handle → F.uncovered = []
  durable : ∀ F ∈ w.files, ∀ f ∈ F.uncovered, f ∈ w.log → w.durableLsn < f.lsn

structure Free (w : Wal β) : Prop where
  above : ∀ F ∈ w.files, w.handle < F.id → bytes F.chunks = 0
  size : w.handle = w.currentWalId → ∀ F ∈ w.files, F.id = w.handle →
    bytes F.chunks = w.currentWalSize
  reached : ∀ q ∈ w.pending, PosLe q.walId q.offset w.currentWalId w.currentWalSize

structure Cuttable (w : Wal β) (cut : WalCut) : Prop where
  walId_le : cut.walId ≤ w.currentWalId
  keeps : ∀ p ∈ w.log, Keeps w.files cut.walId cut.offset p
  before : ∀ q ∈ w.pending, PosLe q.walId q.offset cut.walId cut.offset
  log_le : ∀ f ∈ w.log, f.lsn ≤ cut.prevLsn
  prev_le : cut.prevLsn ≤ w.lastAppendedLsn

structure Sound (w : Wal β) : Prop extends Core w where
  free : w.truncationFence = none → Free w
  fenced : ∀ cut, w.truncationFence = some cut → Cuttable w cut

end Invariant

section Cut

variable {cut : WalCut} {g : File β → File β}

structure Shrinks (cut : WalCut) (g : File β → File β) : Prop where
  id : ∀ F, (g F).id = F.id
  below : ∀ F, F.id < cut.walId → g F = F
  within : ∀ F, F.id = cut.walId → ∀ o f, o ≤ cut.offset → f ∈ frames (takeBytes o F.chunks) →
    f ∈ frames (takeBytes o (g F).chunks)
  uncovered : ∀ F, ∀ f ∈ (g F).uncovered, f ∈ F.uncovered

structure Finished (cut : WalCut) (g : File β → File β) : Prop where
  above : ∀ F, cut.walId < F.id → bytes (g F).chunks = 0
  size : ∀ F, F.id = cut.walId → bytes (g F).chunks = cut.offset
  covered : ∀ F, F.id = cut.walId → (g F).uncovered = []

/-- Empties a WAL above the cut that is `reached`, and does `h` to the cut WAL. -/
def cutFile (cut : WalCut) (reached : ℕ → Bool) (h : File β → File β) (F : File β) : File β :=
  if F.id = cut.walId then h F
  else if cut.walId < F.id ∧ reached F.id then F.setLen 0 else F

theorem onFile_emptyAbove (reached : ℕ → Bool) (h : File β → File β) (fs : List (File β)) :
    onFile cut.walId h (emptyAbove cut.walId reached fs) = fs.map (cutFile cut reached h) := by
  simp only [onFile, emptyAbove, List.map_map]
  refine List.map_congr_left fun F _ => ?_
  by_cases hF : F.id = cut.walId
  · simp [cutFile, hF]
  · by_cases hlt : cut.walId < F.id ∧ reached F.id
    · simp [cutFile, hF, hlt, File.setLen]
    · simp [cutFile, hF, hlt]

theorem emptyAbove_eq (reached : ℕ → Bool) (fs : List (File β)) :
    emptyAbove cut.walId reached fs = fs.map (cutFile cut reached fun F => F) := by
  rw [← onFile_emptyAbove]
  simp [onFile]

theorem cutFile_shrinks {reached : ℕ → Bool} {h : File β → File β} (hid : ∀ F, (h F).id = F.id)
    (hin : ∀ F o f, o ≤ cut.offset → f ∈ frames (takeBytes o F.chunks) →
      f ∈ frames (takeBytes o (h F).chunks))
    (hun : ∀ F, ∀ f ∈ (h F).uncovered, f ∈ F.uncovered) : Shrinks cut (cutFile cut reached h) := by
  constructor
  · intro F
    unfold cutFile
    split
    · exact hid F
    · split <;> rfl
  · intro F hlt
    simp [cutFile, hlt.ne, Nat.not_lt.mpr hlt.le]
  · intro F heq o f ho hf
    rw [cutFile, if_pos heq]
    exact hin F o f ho hf
  · intro F f hf
    unfold cutFile at hf
    split at hf
    · exact hun F f hf
    · split at hf
      · exact uncovered_setLen hf
      · exact hf

theorem cutFile_self_shrinks (reached : ℕ → Bool) :
    Shrinks cut (cutFile cut reached fun F : File β => F) :=
  cutFile_shrinks (fun _ => rfl) (fun _ _ _ _ h => h) fun _ _ h => h

theorem setLen_sync_shrinks (reached : ℕ → Bool) :
    Shrinks cut (cutFile cut reached fun F : File β => (F.setLen cut.offset).sync) := by
  refine cutFile_shrinks (fun _ => rfl) (fun F o f ho hf => mem_frames_takeBytes_takeBytes ho hf) ?_
  intro F f hf
  simp [File.uncovered_sync] at hf

theorem setLen_sync_finished :
    Finished cut (cutFile cut (fun _ => true) fun F : File β => (F.setLen cut.offset).sync) := by
  constructor
  · intro F hlt
    simp only [cutFile, if_neg hlt.ne', hlt, and_self, if_true]
    exact bytes_takeBytes 0 _
  · intro F heq
    rw [cutFile, if_pos heq]
    exact bytes_takeBytes _ _
  · intro F heq
    rw [cutFile, if_pos heq]
    exact File.uncovered_sync _

theorem setLen_shrinks (shortened : Bool) : Shrinks cut
    (cutFile cut (fun _ => true) fun F : File β => if shortened
      then F.setLen cut.offset else F) := by
  cases shortened with
  | false => exact cutFile_self_shrinks _
  | true =>
    exact cutFile_shrinks (fun _ => rfl) (fun F o f ho hf => mem_frames_takeBytes_takeBytes ho hf)
      fun F f hf => uncovered_setLen hf

/-- The files after a cut, wherever it stopped; past the shrinking the cut WAL is there and done. -/
theorem truncateFiles_cases (cut : WalCut) (io : CutIo) (fs : List (File β)) :
    ∃ g : File β → File β, Shrinks cut g ∧ (truncateFiles cut io fs = .error (fs.map g) ∨
      truncateFiles cut io fs = .ok (fs.map g) ∧ Finished cut g ∧ ∃ F ∈ fs, F.id = cut.walId) := by
  have full : ∃ g : File β → File β, Shrinks cut g ∧
    (truncateFiles cut .done fs = .error (fs.map g) ∨
      truncateFiles cut .done fs = .ok (fs.map g) ∧ Finished cut g ∧ ∃ F ∈ fs,
        F.id = cut.walId) := by
    by_cases hany : fs.any fun F => F.id == cut.walId
    · refine ⟨_, setLen_sync_shrinks (fun _ => true),
        .inr ⟨?_, setLen_sync_finished, by simpa using hany⟩⟩
      simp only [truncateFiles, if_pos hany, onFile_emptyAbove]
    · refine ⟨_, cutFile_self_shrinks (fun _ => true), .inl ?_⟩
      simp only [truncateFiles, if_neg hany, emptyAbove_eq]
  cases io with
  | emptying ids => exact ⟨_, cutFile_self_shrinks _, .inl (by rw [truncateFiles, emptyAbove_eq])⟩
  | shrinking shortened =>
    exact ⟨_, setLen_shrinks shortened, .inl (by rw [truncateFiles, onFile_emptyAbove])⟩
  | reopening => exact full
  | clearing => exact full
  | done => exact full

theorem Shrinks.keeps {fs : List (File β)} {w o : ℕ} {f : Frame β} (hg : Shrinks cut g)
    (hle : PosLe w o cut.walId cut.offset) (h : Keeps fs w o f) : Keeps (fs.map g) w o f := by
  obtain ⟨F, hF, h⟩ := h
  refine ⟨g F, List.mem_map_of_mem hF, ?_⟩
  rw [hg.id]
  rcases h with ⟨hlt, hf⟩ | ⟨heq, hf⟩
  · refine .inl ⟨hlt, ?_⟩
    rwa [hg.below F (by rcases hle with h | h <;> omega)]
  · refine .inr ⟨heq, ?_⟩
    rcases hle with hlt | ⟨heq', ho⟩
    · rwa [hg.below F (by omega)]
    · exact hg.within F (by omega) o f ho hf

theorem Shrinks.ids (hg : Shrinks cut g) (fs : List (File β)) :
    (fs.map g).map File.id = fs.map File.id := by
  simp only [List.map_map]
  exact List.map_congr_left fun F _ => hg.id F

theorem Core.shrink {w : Wal β} (hw : Core w) (hc : Cuttable w cut) (hg : Shrinks cut g) :
    Core { w with files := w.files.map g } where
  sorted := by
    rw [hg.ids]
    exact hw.sorted
  current := by
    obtain ⟨F, hF, hid⟩ := hw.current
    exact ⟨g F, List.mem_map_of_mem hF, (hg.id F).trans hid⟩
  handle_le := hw.handle_le
  placed := fun f hf => (hg.keeps (.inr ⟨rfl, Nat.le_refl _⟩) (hc.keeps f hf)).mem
  staged := hw.staged
  keeps := fun q hq p hp hlt => hg.keeps (hc.before q hq) (hw.keeps q hq p hp hlt)
  ordered := hw.ordered
  log_le := hw.log_le
  last_le := hw.last_le
  durable_le := hw.durable_le
  left := by
    intro F hF hne
    obtain ⟨E, hE, rfl⟩ := List.mem_map.mp hF
    rw [List.eq_nil_iff_forall_not_mem]
    intro f hf
    have := hg.uncovered E f hf
    rw [hw.left E hE (by simpa [hg.id] using hne)] at this
    simp at this
  durable := by
    intro F hF f hf hmem
    obtain ⟨E, hE, rfl⟩ := List.mem_map.mp hF
    exact hw.durable E hE f (hg.uncovered E f hf) hmem

theorem Cuttable.shrink {w : Wal β} (hc : Cuttable w cut) (hg : Shrinks cut g) :
    Cuttable { w with files := w.files.map g } cut :=
  ⟨hc.walId_le, fun p hp => hg.keeps (.inr ⟨rfl, Nat.le_refl _⟩) (hc.keeps p hp), hc.before,
    hc.log_le, hc.prev_le⟩

/-- The writer moved to the cut WAL, whose bytes and all above it are settled. -/
theorem Core.reopen {w : Wal β} (hw : Core w) (hc : Cuttable w cut) (hg : Shrinks cut g)
    (hfin : Finished cut g) (hthere : ∃ F ∈ w.files, F.id = cut.walId)
    (hleft : w.handle < cut.walId → LeavesCovered w) :
    Core { w with
      files := w.files.map g
      handle := cut.walId
      currentWalId := cut.walId
      currentWalSize := cut.offset } := by
  have hs := hw.shrink hc hg
  refine { hs with current := ?_, handle_le := Nat.le_refl _, left := ?_, durable := hs.durable }
  · obtain ⟨F, hF, hid⟩ := hthere
    exact ⟨g F, List.mem_map_of_mem hF, (hg.id F).trans hid⟩
  · intro F hF hne
    obtain ⟨E, hE, rfl⟩ := List.mem_map.mp hF
    simp only [hg.id] at hne
    rcases Nat.lt_or_gt_of_ne hne with hlt | hgt
    -- A WAL below the cut is as it was: left behind earlier, or the one the writer now leaves.
    · rw [hg.below E hlt]
      by_cases hh : E.id = w.handle
      · exact hleft (by omega) E hE hh
      · exact hw.left E hE hh
    · exact File.uncovered_eq_nil_of_bytes (hfin.above E hgt)

theorem Sound.of_fenced {w : Wal β} (hw : Core w) (hc : Cuttable w cut) :
    Sound { w with truncationFence := some cut } where
  toCore := { hw with }
  free := fun h => by simp at h
  fenced := by
    intro cut' h
    obtain rfl : cut = cut' := by simpa using h
    exact { hc with }

theorem Core.finish {w : Wal β} (hw : Core w) (hc : Cuttable w cut)
    (hun : ∀ F ∈ w.files, F.uncovered = []) :
    Core { w with
      lastAppendedLsn := cut.prevLsn
      lastAppendedTerm := cut.prevTerm
      durableLsn := cut.prevLsn
      truncationFence := none } where
  sorted := hw.sorted
  current := hw.current
  handle_le := hw.handle_le
  placed := hw.placed
  staged := hw.staged
  keeps := hw.keeps
  ordered := hw.ordered
  log_le := hc.log_le
  last_le := Nat.le_trans hc.prev_le hw.last_le
  durable_le := Nat.le_refl _
  left := hw.left
  durable := by
    intro F hF f hf
    simp [hun F hF] at hf

theorem applyCut_sound {w : Wal β} (hw : Core w) (hc : Cuttable w cut)
    (hleft : w.handle < cut.walId → LeavesCovered w) (io : CutIo) :
    Sound (settle (w.applyCut cut io)) := by
  obtain ⟨g, hg, herr | ⟨hok, hfin, hthere⟩⟩ := truncateFiles_cases cut io w.files
  · simp only [Wal.applyCut, Wal.shrinkWalTo, herr, settle]
    exact .of_fenced (hw.shrink hc hg) (hc.shrink hg)
  have hre := hw.reopen hc hg hfin hthere hleft
  have hcut : Cuttable { w with
      files := w.files.map g
      handle := cut.walId
      currentWalId := cut.walId
      currentWalSize := cut.offset } cut := { hc.shrink hg with walId_le := Nat.le_refl _ }
  have hun : ∀ F ∈ w.files.map g, F.uncovered = [] := by
    intro F hF
    by_cases hid : F.id = cut.walId
    · obtain ⟨E, -, rfl⟩ := List.mem_map.mp hF
      exact hfin.covered E (by rwa [hg.id] at hid)
    · exact hre.left F hF hid
  simp only [Wal.applyCut, Wal.shrinkWalTo, hok]
  split
  · next h =>
    split at h
    · obtain rfl := Except.error.inj h
      exact .of_fenced (hw.shrink hc hg) (hc.shrink hg)
    · simp at h
  · next h =>
    split at h
    · simp at h
    · obtain rfl := Except.ok.inj h
      split
      · exact .of_fenced hre hcut
      · refine { hre.finish hcut hun with
          free := fun _ => ⟨?_, ?_, hc.before⟩, fenced := by simp [settle] }
        · intro F hF hlt
          obtain ⟨E, -, rfl⟩ := List.mem_map.mp hF
          exact hfin.above E (by simpa [settle, hg.id] using hlt)
        · intro _ F hF hid
          obtain ⟨E, -, rfl⟩ := List.mem_map.mp hF
          exact hfin.size E (by simpa [settle, hg.id] using hid)

end Cut

end DewDB.FsyncSafety
