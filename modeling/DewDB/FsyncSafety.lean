import DewDB.WalSteps

/-!
# What has been reported durable

`sync_wal` covers one file and reports the last appended LSN, so it is right as long as the writer
never leaves a WAL behind that holds frames no fsync has covered. The normal rotation syncs first;
moving past a torn write does not.
-/
namespace DewDB.FsyncSafety

open CollectionLog WalFile WalWriter TransitionSystem

variable {β : Type} [Encoded β]

section Runs

def beforeWrite (limit : ℕ) (w : Wal β) : Op β → Option (Wal β × WriteIo)
  | .append _ _ io => (w.prepare limit io).toOption.map fun w' => (w', io.write)
  | .appendRawFrame f io =>
    match w.admitRawFrame limit f io with
    | .ok (w', true) => some (w', io.write)
    | _ => none
  | _ => none

def Cuts (w : Wal β) : Op β → Prop
  | .append _ _ _ => w.truncationFence.isSome
  | .appendRawFrame f _ => w.truncationFence.isSome ∨ f.prevLsn < w.lastAppendedLsn
  | _ => False

/-- The writer does not leave a WAL behind in which frames still wait for an fsync: neither when it
moves past a write that failed part-way, nor when it carries out a cut after a rotation has failed.
-/
def Orderly (limit : ℕ) (w : Wal β) (op : Op β) : Prop :=
  (Cuts w op → Settled w) ∧ ∀ p ∈ beforeWrite limit w op, TornLeaves p.1 p.2

theorem step_sound {limit : ℕ} (w : Wal β) (op : Op β) (w' : Wal β) (hw : Sound w)
    (hok : Orderly limit w op) (h : step limit w op = some w') : Sound w' := by
  obtain ⟨hcut, hleft⟩ := hok
  cases op with
  | append entry term io =>
    simp only [step, Option.ite_none_right_eq_some, Option.some.injEq] at h
    obtain ⟨-, rfl⟩ := h
    refine append_sound hw hcut (fun w₁ hw₁ => ?_) entry term
    exact hleft (w₁, io.write) (by simp [beforeWrite, hw₁, Except.toOption])
  | appendRawFrame f io =>
    simp only [step, Option.ite_none_right_eq_some, Option.some.injEq] at h
    obtain ⟨⟨hlink, -⟩, rfl⟩ := h
    refine appendRawFrame_sound hw hcut hlink fun w₁ hw₁ => ?_
    exact hleft (w₁, io.write) (by simp [beforeWrite, hw₁])
  | syncWal synced =>
    obtain rfl := Option.some.inj h
    exact syncWal_sound hw synced
  | applyCommitted lsn =>
    obtain rfl := Option.some.inj h
    exact applyCommitted_sound hw lsn
  | raiseNextLsn lsn =>
    obtain rfl := Option.some.inj h
    exact hw.raise (Nat.le_max_left _ _)

/-- A collection as `Collection::open` leaves it, over files of which every byte is on disk: no torn
piece, a new empty WAL, the frames above the watermark staged where they lie. -/
structure Opened (w : Wal β) : Prop where
  sorted : (w.files.map File.id).Pairwise (· < ·)
  whole : ∀ F ∈ w.files, ∀ c ∈ F.chunks, ∃ f, c = .frame f
  synced : ∀ F ∈ w.files, F.synced = F.chunks.length
  newest : ∃ F ∈ w.files, F.id = w.handle ∧ F.chunks = []
  handle : ∀ F ∈ w.files, F.id ≤ w.handle
  currentWalId : w.currentWalId = w.handle
  currentWalSize : w.currentWalSize = 0
  log : w.log = (spots w.files).map Spot.frame
  ordered : w.log.Pairwise fun f g => f.lsn < g.lsn
  pending : w.pending = (spots w.files).filter fun q => w.appliedLsn < q.frame.lsn
  last : ∀ f ∈ w.log, f.lsn ≤ w.lastAppendedLsn
  next : w.lastAppendedLsn ≤ w.nextLsn
  durable : w.durableLsn = w.lastAppendedLsn
  fence : w.truncationFence = none

omit [Encoded β] in
theorem uncovered_of_synced {F : File β} (h : F.synced = F.chunks.length) : F.uncovered = [] := by
  simp [File.uncovered, h]

omit [Encoded β] in
theorem exists_split_of_lsn_lt {S : List (Spot β)} {p q : Spot β}
    (hord : (S.map Spot.frame).Pairwise fun f g => f.lsn < g.lsn) (hp : p ∈ S) (hq : q ∈ S)
    (hlt : p.frame.lsn < q.frame.lsn) : ∃ A B, S = A ++ q :: B ∧ p ∈ A := by
  obtain ⟨A, B, rfl⟩ := List.append_of_mem hq
  refine ⟨A, B, rfl, ?_⟩
  rw [List.map_append, List.map_cons, List.pairwise_append, List.pairwise_cons] at hord
  rcases List.mem_append.mp hp with h | h
  · exact h
  · rcases List.mem_cons.mp h with rfl | h
    · exact absurd hlt (Nat.lt_irrefl _)
    · exact absurd hlt (Nat.lt_asymm (hord.2.1.1 _ (List.mem_map_of_mem h)))

theorem Opened.sound {w : Wal β} (h : Opened w) : Sound w := by
  have hpend : ∀ q ∈ w.pending, q ∈ spots w.files := by
    intro q hq
    rw [h.pending] at hq
    exact (List.mem_filter.mp hq).1
  have hspot : ∀ q ∈ spots w.files, ∃ F ∈ w.files, q.walId = F.id ∧ q.frame ∈ F.frames := by
    intro q hq
    obtain ⟨F, hF, hqF⟩ := List.mem_flatMap.mp hq
    obtain ⟨hid, -, hmem⟩ := mem_frames_of_layout hqF
    exact ⟨F, hF, hid, hmem⟩
  have hun : ∀ F ∈ w.files, F.uncovered = [] := fun F hF => uncovered_of_synced (h.synced F hF)
  have hord := h.ordered
  rw [h.log] at hord
  refine {
    sorted := h.sorted
    current := ?_
    handle_le := h.currentWalId.ge
    placed := ?_
    staged := ?_
    keeps := ?_
    ordered := ?_
    log_le := h.last
    last_le := h.next
    durable_le := h.durable.le
    left := fun F hF _ => hun F hF
    durable := fun F hF f hf => by simp [hun F hF] at hf
    free := fun _ => ⟨?_, ?_, ?_⟩
    fenced := by simp [h.fence] }
  · obtain ⟨F, hF, hid, -⟩ := h.newest
    exact ⟨F, hF, hid⟩
  · intro f hf
    rw [h.log] at hf
    obtain ⟨q, hq, rfl⟩ := List.mem_map.mp hf
    obtain ⟨F, hF, -, hmem⟩ := hspot q hq
    exact ⟨F, hF, hmem⟩
  · intro q hq
    rw [h.log]
    exact List.mem_map_of_mem (hpend q hq)
  · intro q hq p hp hlt
    rw [h.log] at hp
    obtain ⟨p', hp', rfl⟩ := List.mem_map.mp hp
    obtain ⟨A, B, hAB, hpA⟩ := exists_split_of_lsn_lt hord hp' (hpend q hq) hlt
    exact (keeps_of_spots h.sorted hAB hpA).1
  · intro q hq q' hq' hlt
    obtain ⟨A, B, hAB, hqA⟩ := exists_split_of_lsn_lt hord (hpend q hq) (hpend q' hq') hlt
    exact (keeps_of_spots h.sorted hAB hqA).2
  · intro F hF hlt
    exact absurd (h.handle F hF) (Nat.not_le.mpr hlt)
  · intro _ F hF hid
    obtain ⟨E, hE, hEid, hnil⟩ := h.newest
    obtain rfl : F = E := eq_of_id_eq h.sorted hF hE (hid.trans hEid.symm)
    simp [hnil, h.currentWalSize]
  · intro q hq
    obtain ⟨F, hF, hid, hmem⟩ := hspot q (hpend q hq)
    obtain ⟨E, hE, hEid, hnil⟩ := h.newest
    have hle := h.handle F hF
    have hne : F.id ≠ w.handle := by
      intro heq
      obtain rfl : F = E := eq_of_id_eq h.sorted hF hE (heq.trans hEid.symm)
      simp [File.frames, hnil] at hmem
    exact .inl (by rw [h.currentWalId]; omega)

/-- A crash keeps of every file at least what an fsync has covered. -/
def Crash (fs fs' : List (File β)) : Prop :=
  List.Forall₂ (fun F F' => F'.id = F.id ∧ F.chunks.take F.synced <+: F'.chunks) fs fs'

omit [Encoded β] in
theorem survives_crash {fs fs' : List (File β)} (h : Crash fs fs') {F : File β}
    (hF : F ∈ fs) {f : Frame β} (hf : f ∈ F.covered) : ∃ F' ∈ fs', f ∈ F'.frames := by
  induction h with
  | nil => simp at hF
  | cons hhead _ ih =>
    rcases List.mem_cons.mp hF with rfl | hF
    · obtain ⟨-, ds, hds⟩ := hhead
      refine ⟨_, List.mem_cons_self, ?_⟩
      rw [File.frames, ← hds, frames_append]
      exact List.mem_append_left _ hf
    · obtain ⟨F', hF', hmem⟩ := ih hF
      exact ⟨F', List.mem_cons_of_mem _ hF', hmem⟩

/-- In every orderly run a frame of the log at or below `durable_lsn` lies in bytes that a
successful fsync has covered, and is still there after any crash. -/
theorem durable_frames_covered {limit : ℕ} {w₀ w : Wal β} {ops : List (Op β)} (h₀ : Opened w₀)
    (hrun : run (step limit) w₀ ops = some w) (hok : Meets (step limit) (Orderly limit) w₀ ops) :
    ∀ f ∈ w.log, f.lsn ≤ w.durableLsn → (∃ F ∈ w.files, f ∈ F.covered) ∧
      ∀ fs', Crash w.files fs' → ∃ F' ∈ fs', f ∈ F'.frames := by
  intro f hf hle
  have hw := run_invariant_of_meets step_sound hrun hok h₀.sound
  obtain ⟨F, hF, hmem⟩ := hw.placed f hf
  have hcov : f ∈ F.covered := by
    rw [F.frames_eq, List.mem_append] at hmem
    rcases hmem with h | h
    · exact h
    · exact absurd hle (Nat.not_le.mpr (hw.durable F hF f h hf))
  exact ⟨⟨F, hF, hcov⟩, fun fs' hc => survives_crash hc hF hcov⟩

theorem Wal.fresh_opened : Opened (Wal.fresh : Wal β) := by
  constructor <;> simp [Wal.fresh, spots, File.spots, layout]

instance [DecidableEq β] (w : Wal β) : Decidable (LeavesCovered w) := by
  unfold LeavesCovered
  infer_instance

instance [DecidableEq β] (limit : ℕ) (w : Wal β) (op : Op β) : Decidable (Orderly limit w op) := by
  have : Decidable (Cuts w op) := by
    cases op <;> unfold Cuts <;> infer_instance
  have : Decidable (Settled w) := by
    unfold Settled
    infer_instance
  have : ∀ p : Wal β × WriteIo, Decidable (TornLeaves p.1 p.2) := by
    intro p
    unfold TornLeaves
    split <;> infer_instance
  unfold Orderly
  infer_instance

/-- A write tears behind a frame that is fsynced, and the writer moves on; a frame in the next WAL
is cut by another leader's, which is fsynced before one more is appended. -/
def tornAndCut : List (Op Bool) :=
  [.append true 1 .allDone, .syncWal true,
    .append false 1 { AppendIo.allDone with write := .torn 40 true },
    .append false 1 .allDone, .appendRawFrame ⟨2, 2, 1, 1, true⟩ .allDone, .syncWal true,
    .append false 2 .allDone]

theorem durable_frames_covered_synced : ∃ w : Wal Bool,
    run (step 100) Wal.fresh tornAndCut = some w ∧ w.durableLsn = 2 ∧ w.log.length = 3 ∧
      ∀ f ∈ w.log, f.lsn ≤ w.durableLsn → (∃ F ∈ w.files, f ∈ F.covered) ∧
        ∀ fs', Crash w.files fs' → ∃ F' ∈ fs', f ∈ F'.frames := by
  have hrun : (run (step 100) (Wal.fresh : Wal Bool) tornAndCut).any
      (fun w => decide (w.durableLsn = 2 ∧ w.log.length = 3)) = true := by decide
  obtain ⟨w, hw, hprop⟩ := (Option.any_eq_true _ _).mp hrun
  obtain ⟨hd, hl⟩ := of_decide_eq_true hprop
  exact ⟨w, hw, hd, hl, durable_frames_covered Wal.fresh_opened hw (by decide)⟩

/-- A frame is appended and not yet fsynced; the next write fails half-way and the writer moves on;
the fsync that follows covers the new WAL only and reports the frame durable. -/
theorem durable_frame_uncovered : ∃ (ops : List (Op Bool)) (w : Wal Bool),
    run (step 100) Wal.fresh ops = some w ∧ ∃ f ∈ w.log, f.lsn ≤ w.durableLsn ∧
      (∀ F ∈ w.files, f ∉ F.covered) ∧ ∃ fs', Crash w.files fs' ∧ ∀ F' ∈ fs', f ∉ F'.frames := by
  have hrun : run (step 100) (Wal.fresh : Wal Bool)
      [.append true 1 .allDone, .append false 1 { AppendIo.allDone with write := .torn 40 true },
        .syncWal true] =
      some ⟨[⟨1, [.frame ⟨1, 1, 0, 0, true⟩, .torn (some ⟨1, 2, 1, 1, false⟩) 40], 0⟩, ⟨2, [], 0⟩],
        2, 2, 0, 1, 1, 1, 0, [⟨⟨1, 1, 0, 0, true⟩, 1, 0⟩], none, 2, [⟨1, 1, 0, 0, true⟩]⟩ := by
    decide
  refine ⟨_, _, hrun, ⟨1, 1, 0, 0, true⟩, by simp, by simp, ?_, [⟨1, [], 0⟩, ⟨2, [], 0⟩], ?_, ?_⟩
  · decide
  · exact .cons ⟨rfl, by simp⟩ (.cons ⟨rfl, by simp⟩ .nil)
  · decide

end Runs

end DewDB.FsyncSafety
