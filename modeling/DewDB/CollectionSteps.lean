import DewDB.CollectionReopen

/-!
# The operations keep the invariant

One lemma for each operation of an open collection: recording the watermark, moving to the next WAL,
a write and a torn write, a truncation, publishing committed frames, saving the index.
-/
namespace DewDB.Recovery

open CollectionLog WalFile WalWriter StorageEntry

variable {V H : Type} [Encoded (LogEntry V H)] {c : Coll V H}
  {history : List (Frame (LogEntry V H))}

theorem Inv.persistFull (h : Inv c history) : Inv c.persistWatermarkFull history where
  files := ⟨h.files.sorted, h.files.ended, h.files.writer, h.files.above, h.files.noCut,
    h.files.named⟩
  log := ⟨h.log.split, h.log.staged, h.log.ascending, h.log.positive, h.log.unique, h.log.applied,
    h.log.term, h.log.tail, fun hm => by simp [Coll.persistWatermarkFull] at hm⟩
  index := ⟨h.index.keys, h.index.located, h.index.alive, h.index.stagedAlive, h.index.writing,
    h.index.snapshotKeys, h.index.snapshotLocated, h.index.committed⟩
  resume := ⟨h.resume.resume, h.resume.resumeLe, h.resume.replayed⟩
  watermark := h.watermark.persistFull

theorem Inv.recordOnce (h : Inv c history) : Inv c.recordWatermarkOnce history := by
  have hw := h.watermark.recordOnce
  unfold Coll.recordWatermarkOnce at hw ⊢
  split
  · exact h
  · next hflag =>
    rw [if_neg hflag] at hw
    have hfull := h.persistFull
    exact ⟨⟨hfull.files.sorted, hfull.files.ended, hfull.files.writer, hfull.files.above,
        hfull.files.noCut, hfull.files.named⟩,
      ⟨hfull.log.split, hfull.log.staged, hfull.log.ascending, hfull.log.positive, hfull.log.unique,
        hfull.log.applied, hfull.log.term, hfull.log.tail, hfull.log.unwritten⟩,
      ⟨hfull.index.keys, hfull.index.located, hfull.index.alive, hfull.index.stagedAlive,
        hfull.index.writing, hfull.index.snapshotKeys, hfull.index.snapshotLocated,
        hfull.index.committed⟩,
      ⟨hfull.resume.resume, hfull.resume.resumeLe, hfull.resume.replayed⟩, hw⟩

omit [Encoded (LogEntry V H)] in
theorem recordWatermarkOnce_meta (h : WatermarkOk c) :
    c.recordWatermarkOnce.disk.appliedMeta ≠ none := by
  unfold Coll.recordWatermarkOnce
  split
  · next hflag => exact Option.isSome_iff_ne_none.mp (h.flag hflag)
  · simp [Coll.persistWatermarkFull]

theorem Inv.moveWriter (h : Inv c history) {fs : List (File (LogEntry V H))} (id size : ℕ)
    (hfiles : FilesOk { c.setFiles fs with
      currentWalId := id
      currentWalSize := size })
    (hspots : spots fs = spots c.disk.files)
    (hreplayed : replayedAll c.disk.snapshot fs = replayedAll c.disk.snapshot c.disk.files)
    (hresume : ResumeOk c.disk.snapshot fs) (hle : c.currentWalId ≤ id) :
    Inv { c.setFiles fs with
      currentWalId := id
      currentWalSize := size } history where
  files := hfiles
  log := by
    have hlog := h.log
    exact ⟨hspots.symm ▸ hlog.split, hlog.staged, hlog.ascending, hspots.symm ▸ hlog.positive,
      hspots.symm ▸ hlog.unique, hlog.applied, hspots.symm ▸ hlog.term, hlog.tail,
      fun hm => hspots.trans (hlog.unwritten hm)⟩
  index := by
    have hsub : ∀ q ∈ spots c.disk.files, q ∈ spots fs := fun q hq => hspots.symm ▸ hq
    exact ⟨h.index.keys, fun p hp => (h.index.located p hp).of_spots hsub, h.index.alive,
      h.index.stagedAlive, Nat.lt_of_lt_of_le h.index.writing hle, h.index.snapshotKeys,
      fun p hp => (h.index.snapshotLocated p hp).of_spots hsub, h.index.committed⟩
  resume := by
    refine ⟨hresume, fun s hs => Nat.le_trans (h.resume.resumeLe s hs) hle, ?_⟩
    obtain ⟨A, hA, hrest⟩ := h.resume.replayed
    exact ⟨A, hreplayed.trans hA, hrest⟩
  watermark := ⟨h.watermark.clean, h.watermark.saved, h.watermark.slots, h.watermark.flag,
    h.watermark.unrecorded⟩

omit [Encoded (LogEntry V H)] in
theorem onFile_sync_ids (id : ℕ) (fs : List (File (LogEntry V H))) :
    (onFile id File.sync fs).map File.id = fs.map File.id := onFile_ids (g := File.sync)
    (fun _ => rfl) fs

theorem spots_sync (id : ℕ) (fs : List (File (LogEntry V H))) : spots
    (onFile id File.sync fs) = spots fs := by
  rw [← replayedAll_none, replayedAll_sync, replayedAll_none]

omit [Encoded (LogEntry V H)] in
theorem mem_onFile_sync {id : ℕ} {fs : List (File (LogEntry V H))} {F : File (LogEntry V H)}
    (hF : F ∈ onFile id File.sync fs) : ∃ E ∈ fs, F.id = E.id ∧ F.chunks = E.chunks := by
  obtain ⟨E, hE, rfl⟩ := mem_onFile.mp hF
  refine ⟨E, hE, ?_, ?_⟩
  · split <;> rfl
  · split <;> rfl

theorem Inv.sync (h : Inv c history) : Inv c.syncWal history := by
  refine h.moveWriter c.currentWalId c.currentWalSize ?_ (spots_sync _ _) (replayedAll_sync _) ?_
    (Nat.le_refl _)
  · refine ⟨?_, ?_, ?_, ?_, h.files.noCut, ?_⟩
    · simp only [Coll.setFiles, onFile_sync_ids]
      exact h.files.sorted
    · intro F hF
      obtain ⟨E, hE, -, hchunks⟩ := mem_onFile_sync hF
      rw [hchunks]
      exact h.files.ended E hE
    · obtain ⟨G, hG, hid, hwhole, hbytes⟩ := h.files.writer
      exact ⟨G.sync, mem_onFile.mpr ⟨G, hG, (if_pos hid).symm⟩, hid, hwhole, hbytes⟩
    · intro F hF hlt
      obtain ⟨E, hE, hid, hchunks⟩ := mem_onFile_sync hF
      rw [hchunks]
      exact h.files.above E hE (hid ▸ hlt)
    · intro F hF
      obtain ⟨E, hE, hid, -⟩ := mem_onFile_sync hF
      rw [hid]
      exact h.files.named E hE
  · exact h.resume.resume.onFile (fun _ => rfl) fun _ _ _ _ hb _ _ _ _ => hb

theorem spots_openFile (id : ℕ) (fs : List (File (LogEntry V H))) : spots
    (openFile id fs) = spots fs := by
  rw [← replayedAll_none, replayedAll_openFile, replayedAll_none]

/-- A WAL above the writer's is empty, so that the writer can move to it. -/
theorem FilesOk.openAbove (h : FilesOk c) {id : ℕ} (hlt : c.currentWalId < id) :
    FilesOk { c.setFiles (openFile id c.disk.files) with
      currentWalId := id
      currentWalSize := 0 } := by
  have hempty : ∀ F ∈ openFile id c.disk.files, id ≤ F.id → F.chunks = [] := by
    intro F hF hle
    rcases mem_openFile hF with hF | rfl
    · exact h.above F hF (by omega)
    · rfl
  refine ⟨openFile_sorted h.sorted, ?_, ?_, ?_, h.noCut, ?_⟩
  · intro F hF
    rcases mem_openFile hF with hF | rfl
    · exact h.ended F hF
    · exact ⟨[], by simp [Whole], .inl rfl⟩
  · obtain ⟨G, hG, hid⟩ := exists_mem_openFile id c.disk.files
    have hnil := hempty G hG (by omega)
    exact ⟨G, hG, hid, by simp [hnil, Whole], by rw [hnil]; rfl⟩
  · exact fun F hF hlt' => hempty F hF (Nat.le_of_lt hlt')
  · intro F hF
    rcases mem_openFile hF with hF | rfl
    · exact h.named F hF
    · exact Nat.lt_of_le_of_lt (Nat.zero_le _) hlt

theorem Inv.openAbove (h : Inv c history) {id : ℕ} (hlt : c.currentWalId < id) :
    Inv { c.setFiles (openFile id c.disk.files) with
      currentWalId := id
      currentWalSize := 0 } history := by
  refine h.moveWriter id 0 (h.files.openAbove hlt) (spots_openFile _ _) (replayedAll_openFile _) ?_
    (Nat.le_of_lt hlt)
  refine h.resume.resume.openFile fun s hs => ?_
  have := h.resume.resumeLe s hs
  omega

theorem Inv.next (h : Inv c history) : Inv c.openNextWal history := h.openAbove (Nat.lt_succ_self _)

theorem Inv.rotate (h : Inv c history) (limit : ℕ) : Inv (c.rotateIfFull limit) history := by
  unfold Coll.rotateIfFull
  split
  · exact h
  · exact h.sync.next

omit [Encoded (LogEntry V H)] in
theorem mem_onFile_write {id : ℕ} {fs : List (File (LogEntry V H))} {p : Chunk (LogEntry V H)}
    {F : File (LogEntry V H)} (hF : F ∈ onFile id (File.write p) fs) :
    ∃ E ∈ fs, F.id = E.id ∧ (F.chunks = E.chunks ∨ E.id = id ∧ F.chunks = E.chunks ++ [p]) := by
  obtain ⟨E, hE, rfl⟩ := mem_onFile.mp hF
  refine ⟨E, hE, ?_, ?_⟩
  · split <;> rfl
  · split
    · next hid => exact .inr ⟨hid, rfl⟩
    · exact .inl rfl

/-- The writer's WAL has no torn piece, so that what is written to it can only leave one at its end.
-/
theorem FilesOk.ended_write (h : FilesOk c) {p : Chunk (LogEntry V H)}
    (hp : ∀ ws, Whole ws → Ended (ws ++ [p])) :
    ∀ F ∈ onFile c.currentWalId (File.write p) c.disk.files, Ended F.chunks := by
  intro F hF
  obtain ⟨E, hE, -, hchunks | ⟨hid, hchunks⟩⟩ := mem_onFile_write hF
  · exact hchunks ▸ h.ended E hE
  · obtain ⟨G, hG, hGid, hwhole, -⟩ := h.writer
    have hEG : E = G := eq_of_id_eq h.sorted hE hG (hid.trans hGid.symm)
    rw [hchunks, hEG]
    exact hp _ hwhole

theorem FilesOk.above_write (h : FilesOk c) (p : Chunk (LogEntry V H)) :
    ∀ F ∈ onFile c.currentWalId (File.write p) c.disk.files, c.currentWalId < F.id →
      F.chunks = [] := by
  intro F hF hlt
  obtain ⟨E, hE, hid, hchunks | ⟨hcur, -⟩⟩ := mem_onFile_write hF
  · rw [hchunks]
    exact h.above E hE (hid ▸ hlt)
  · omega

theorem FilesOk.named_write (h : FilesOk c) (p : Chunk (LogEntry V H)) :
    ∀ F ∈ onFile c.currentWalId (File.write p) c.disk.files, 0 < F.id := by
  intro F hF
  obtain ⟨E, hE, hid, -⟩ := mem_onFile_write hF
  rw [hid]
  exact h.named E hE

theorem FilesOk.write (h : FilesOk c) (f : Frame (LogEntry V H)) : FilesOk (c.writeFrame f) := by
  refine ⟨?_, h.ended_write fun ws hw =>
    (hw.append fun p hp => ⟨f, List.mem_singleton.mp hp⟩).ended, ?_,
    h.above_write _, h.noCut, h.named_write _⟩
  · simp only [Coll.writeFrame, Coll.setFiles]
    rw [onFile_ids (g := File.write (.frame f)) fun _ => rfl]
    exact h.sorted
  · obtain ⟨G, hG, hid, hwhole, hbytes⟩ := h.writer
    refine ⟨G.write (.frame f), mem_onFile.mpr ⟨G, hG, (if_pos hid).symm⟩, hid, ?_, ?_⟩
    · exact hwhole.append fun p hp => ⟨f, List.mem_singleton.mp hp⟩
    · simp only [File.write, Coll.writeFrame, bytes_append, bytes_cons, bytes_nil,
        hbytes, Chunk.size, Nat.add_zero]

def Coll.spotOf (c : Coll V H) (f : Frame (LogEntry V H)) : Spot (LogEntry V H) :=
  ⟨f, c.currentWalId, c.currentWalSize⟩

theorem FilesOk.replayed_write (h : FilesOk c) {snapshot : Option IndexSnapshot}
    (hresume : ResumeOk snapshot c.disk.files) (hle : ∀ s ∈ snapshot, s.lastWalId ≤ c.currentWalId)
    (f : Frame (LogEntry V H)) :
    replayedAll snapshot (c.writeFrame f).disk.files =
      replayedAll snapshot c.disk.files ++ [c.spotOf f] := by
  obtain ⟨G, hG, hid, hwhole, hbytes⟩ := h.writer
  have := replayedAll_write h.sorted hresume hG (fun s hs => hid ▸ hle s hs) hwhole
    (fun F hF hlt => h.above F hF (hid ▸ hlt)) f
  rw [hid, hbytes] at this
  exact this

theorem FilesOk.spots_write (h : FilesOk c) (f : Frame (LogEntry V H)) :
    spots (c.writeFrame f).disk.files = spots c.disk.files ++ [c.spotOf f] := by
  rw [← replayedAll_none, h.replayed_write (resumeOk_none _) (by simp), replayedAll_none]

theorem LogOk.pending_write (h : LogOk c history) {f : Frame (LogEntry V H)}
    (hlt : c.lastAppendedLsn < f.lsn) : (c.writeFrame f).pending = c.pending ++ [c.spotOf f] := by
  refine stageAt_append fun p hp => ?_
  have := h.bound (h.pending_mem hp)
  simp only
  omega

theorem LogOk.write (hfiles : FilesOk c) (h : LogOk c history) {f : Frame (LogEntry V H)}
    (hlt : c.lastAppendedLsn < f.lsn) (hmeta : c.disk.appliedMeta ≠ none) :
    LogOk (c.writeFrame f) history := by
  have hspots := hfiles.spots_write f
  have hpending := h.pending_write hlt
  have hle := h.applied_le
  have hnew : ∀ {q}, q ∈ spots (c.writeFrame f).disk.files →
    q ∈ spots c.disk.files ∨ q = c.spotOf f := by
    intro q hq
    rw [hspots] at hq
    rcases List.mem_append.mp hq with hq | hq
    · exact .inl hq
    · exact .inr (List.mem_singleton.mp hq)
  constructor
  · obtain ⟨A, hA, hcommitted⟩ := h.split
    exact ⟨A, by rw [hspots, hA, hpending, List.append_assoc], hcommitted⟩
  · intro q hq
    rw [hpending] at hq
    rcases List.mem_append.mp hq with hq | hq
    · exact h.staged q hq
    · rw [List.mem_singleton.mp hq]
      exact Nat.lt_of_le_of_lt hle hlt
  · rw [hpending, List.pairwise_append]
    refine ⟨h.ascending, List.pairwise_singleton _ _, fun p hp q hq => ?_⟩
    rw [List.mem_singleton.mp hq]
    exact Nat.lt_of_le_of_lt (h.bound (h.pending_mem hp)) hlt
  · intro q hq
    rcases hnew hq with hq | rfl
    · exact h.positive q hq
    · exact Nat.lt_of_le_of_lt (Nat.zero_le _) hlt
  · intro q hq q' hq' heq
    rcases hnew hq with hq | rfl
    · rcases hnew hq' with hq' | rfl
      · exact h.unique q hq q' hq' heq
      · have := h.bound hq
        simp only [Coll.spotOf] at heq
        omega
    · rcases hnew hq' with hq' | rfl
      · have := h.bound hq'
        simp only [Coll.spotOf] at heq
        omega
      · rfl
  · exact h.applied
  · intro q hq heq
    rcases hnew hq with hq | rfl
    · exact h.term q hq heq
    · have heq : f.lsn = c.appliedLsn := heq
      omega
  · rw [hpending, List.getLast?_append, List.getLast?_singleton]
    rfl
  · exact fun hm => absurd hm hmeta

theorem Inv.write (h : Inv c history) {f : Frame (LogEntry V H)} (hlt : c.lastAppendedLsn < f.lsn)
    (hmeta : c.disk.appliedMeta ≠ none) : Inv (c.writeFrame f) history where
  files := h.files.write f
  log := h.log.write h.files hlt hmeta
  index := by
    have hsub : ∀ q ∈ spots c.disk.files, q ∈ spots (c.writeFrame f).disk.files := by
      intro q hq
      rw [h.files.spots_write]
      exact List.mem_append_left _ hq
    refine ⟨h.index.keys, fun p hp => (h.index.located p hp).of_spots hsub, h.index.alive, ?_,
      h.index.writing, h.index.snapshotKeys, fun p hp =>
        (h.index.snapshotLocated p hp).of_spots hsub,
      h.index.committed⟩
    rw [h.log.pending_write hlt]
    intro q hq
    rcases List.mem_append.mp hq with hq | hq
    · exact h.index.stagedAlive q hq
    · rw [List.mem_singleton.mp hq]
      exact h.index.writing
  resume := by
    obtain ⟨A, hA, hcommitted, hlast, hindex, hsnap⟩ := h.resume.replayed
    refine ⟨h.resume.resume.write, h.resume.resumeLe, ⟨A, ?_, hcommitted, hlast, hindex, ?_⟩⟩
    · have hreplayed := h.files.replayed_write h.resume.resume h.resume.resumeLe f
      rw [h.log.pending_write hlt, ← List.append_assoc, ← hA]
      exact hreplayed
    · rintro hnil (hle | hstaged)
      · exact hsnap hnil (.inl hle)
      · rw [h.log.pending_write hlt] at hstaged
        simp at hstaged
  watermark := ⟨h.watermark.clean, h.watermark.saved, h.watermark.slots, h.watermark.flag,
    h.watermark.unrecorded⟩

theorem replayedAll_writeTorn {snapshot : Option IndexSnapshot} {fs : List (File (LogEntry V H))}
    (h : ResumeOk snapshot fs) (id : ℕ) (f : Frame (LogEntry V H)) (n : ℕ) :
    replayedAll snapshot (onFile id (File.write (tear f n)) fs) = replayedAll snapshot fs :=
  replayedAll_onFile fun F hF _ => replayed_writeTorn (fun s hs => h s hs F hF) _ _

/-- A torn write leaves a piece that nothing reads, and the writer moves on. -/
theorem Inv.torn (h : Inv c history) (f : Frame (LogEntry V H)) {n : ℕ} (hn : 0 < n)
    (hshort : n < frameLen f) : Inv (c.writeTorn f n) history := by
  have hfiles : FilesOk (c.writeTorn f n) := by
    have hsorted : ((onFile c.currentWalId (File.write (tear f n)) c.disk.files).map
      File.id).Pairwise
        (· < ·) := by
      rw [onFile_ids (g := File.write (tear f n)) fun _ => rfl]
      exact h.files.sorted
    have hempty : ∀ F ∈ openFile (c.currentWalId + 1)
        (onFile c.currentWalId (File.write (tear f n)) c.disk.files), c.currentWalId < F.id →
          F.chunks = [] := by
      intro F hF hlt
      rcases mem_openFile hF with hF | rfl
      · exact h.files.above_write _ F hF hlt
      · rfl
    refine ⟨openFile_sorted hsorted, ?_, ?_, ?_, h.files.noCut, ?_⟩
    · intro F hF
      rcases mem_openFile hF with hF | rfl
      · refine h.files.ended_write (p := tear f n) (fun ws hw =>
          ⟨ws, hw, .inr ⟨_, n, rfl, hn, ?_⟩⟩) F hF
        intro g hg
        split at hg
        · cases hg
          exact hshort
        · cases hg
      · exact ⟨[], by simp [Whole], .inl rfl⟩
    · obtain ⟨G, hG, hid⟩ := exists_mem_openFile (c.currentWalId + 1)
        (onFile c.currentWalId (File.write (tear f n)) c.disk.files)
      have hnil := hempty G hG (by omega)
      exact ⟨G, hG, hid, by simp [hnil, Whole], by rw [hnil]; rfl⟩
    · exact fun F hF hlt => hempty F hF (Nat.lt_of_succ_lt hlt)
    · intro F hF
      rcases mem_openFile hF with hF | rfl
      · exact h.files.named_write _ F hF
      · exact Nat.succ_pos _
  refine h.moveWriter (c.currentWalId + 1) 0 hfiles ?_ ?_ ?_ (Nat.le_succ _)
  · rw [spots_openFile, ← replayedAll_none, ← replayedAll_none c.disk.files]
    exact replayedAll_writeTorn (resumeOk_none _) _ f n
  · rw [replayedAll_openFile]
    exact replayedAll_writeTorn h.resume.resume _ f n
  · refine h.resume.resume.write.openFile fun s hs => ?_
    exact Nat.ne_of_lt (Nat.lt_succ_of_le (h.resume.resumeLe s hs))

theorem boundary_of_mem {F : File (LogEntry V H)} {q : Spot (LogEntry V H)} (hq : q ∈ F.spots) :
    Boundary q.offset F.chunks := by
  obtain ⟨A, B, h⟩ := List.append_of_mem hq
  obtain ⟨as, bs, hc, hw, -, -, hoff⟩ := layout_split h
  exact ⟨as, .frame q.frame :: bs, hc, hw, by rw [hoff, Nat.zero_add]⟩

section Resume

variable {fs : List (File (LogEntry V H))} {s : IndexSnapshot}

theorem replayed_below {F : File (LogEntry V H)} (h : F.id < s.lastWalId) : replayed
    (some s) F = [] := by
  rw [replayed, resumeIn, if_pos h]

theorem replayed_above {F : File (LogEntry V H)} (h : s.lastWalId < F.id) :
    replayed (some s) F = F.spots := by
  rw [replayed, resumeIn, if_neg (by omega), if_neg (by omega)]
  exact readFrom_zero F

theorem replayed_at {F : File (LogEntry V H)} {as bs : List (Chunk (LogEntry V H))}
    (hid : F.id = s.lastWalId) (hc : F.chunks = as ++ bs) (hw : Whole as)
    (hb : bytes as = s.lastOffset) : replayed (some s) F = layout F.id s.lastOffset bs := by
  rw [replayed, resumeIn, if_neg (by omega), if_pos hid]
  dsimp only
  rw [← hb]
  exact readFrom_boundary hc hw

theorem replayedAll_from (hsorted : (fs.map File.id).Pairwise (· < ·))
    {A B : List (Spot (LogEntry V H))}
    {q : Spot (LogEntry V H)} (h : spots fs = A ++ q :: B) (hw : s.lastWalId = q.walId)
    (ho : s.lastOffset = q.offset) : replayedAll (some s) fs = q :: B := by
  rw [← replayedAll_none] at h
  obtain ⟨pre, G, post, A', B', rfl, hid, hpre, hpost, rfl, hG⟩ := replayedAll_split hsorted h
  have hB : B = B' ++ replayedAll none post := by
    have hall : replayedAll none (pre ++ G :: post) =
        replayedAll none pre ++ A' ++ q :: (B' ++ replayedAll none post) := by
      simp [replayedAll, hG]
    rw [hall] at h
    exact (List.cons.inj (List.append_cancel_left h)).2.symm
  rw [replayed_none] at hG
  obtain ⟨as, bs, hc, hwhole, rfl, -, hoff⟩ := layout_split hG
  rw [Nat.zero_add] at hoff
  have hGread : replayed (some s) G = q :: B' := by
    rw [replayed_at (hid.symm.trans hw.symm) hc hwhole (hoff.symm.trans ho.symm), ho, hoff]
    rw [File.spots, hc, layout_append_whole hwhole, Nat.zero_add] at hG
    exact List.append_cancel_left hG
  have hpre0 : pre.flatMap (replayed (some s)) = [] :=
    List.flatMap_eq_nil_iff.mpr fun F hF => replayed_below (by have := hpre F hF; omega)
  have hpost0 : post.flatMap (replayed (some s)) = replayedAll none post := by
    rw [replayedAll_none, spots]
    exact List.flatMap_congr fun F hF => replayed_above (by have := hpost F hF; omega)
  simp only [replayedAll, List.flatMap_append, List.flatMap_cons, hpre0, hGread, hB]
  simpa [replayedAll] using hpost0

theorem FilesOk.replayedAll_end (h : FilesOk c) (hw : s.lastWalId = c.currentWalId)
    (ho : s.lastOffset = c.currentWalSize) : replayedAll (some s) c.disk.files = [] := by
  obtain ⟨G, hG, hid, hwhole, hbytes⟩ := h.writer
  refine List.flatMap_eq_nil_iff.mpr fun F hF => ?_
  rcases Nat.lt_trichotomy F.id s.lastWalId with hlt | heq | hgt
  · exact replayed_below hlt
  · have hFG : F = G := eq_of_id_eq h.sorted hF hG (by omega)
    rw [replayed_at heq (List.append_nil F.chunks).symm (hFG ▸ hwhole) (by rw [hFG]; omega)]
    rfl
  · exact replayed_of_empty (h.above F hF (by omega))

end Resume

omit [Encoded (LogEntry V H)] in
theorem indexSnapshot_resume (c : Coll V H) :
    (c.pending = [] ∧ c.indexSnapshot.lastWalId = c.currentWalId ∧
      c.indexSnapshot.lastOffset = c.currentWalSize) ∨
    ∃ q ps, c.pending = q :: ps ∧ c.indexSnapshot.lastWalId = q.walId ∧
      c.indexSnapshot.lastOffset = q.offset := by
  cases hp : c.pending with
  | nil => exact .inl ⟨rfl, by simp [Coll.indexSnapshot, hp], by simp [Coll.indexSnapshot, hp]⟩
  | cons q ps => exact .inr ⟨q, ps, rfl, by simp [Coll.indexSnapshot, hp],
      by simp [Coll.indexSnapshot, hp]⟩

theorem walId_of_spots {fs : List (File (LogEntry V H))} {q : Spot (LogEntry V H)}
    (hq : q ∈ spots fs) : ∃ F ∈ fs, F.id = q.walId ∧ q ∈ F.spots := by
  obtain ⟨F, hF, hqF⟩ := List.mem_flatMap.mp hq
  exact ⟨F, hF, (walId_of_layout hqF).symm, hqF⟩

theorem FilesOk.walId_le (h : FilesOk c) {q : Spot (LogEntry V H)} (hq : q ∈ spots c.disk.files) :
    q.walId ≤ c.currentWalId := by
  obtain ⟨F, hF, hid, hqF⟩ := walId_of_spots hq
  by_contra hlt
  have hnil := h.above F hF (by omega)
  simp [File.spots, hnil, layout] at hqF

theorem Inv.saved_resumeOk (h : Inv c history) : ResumeOk (some c.indexSnapshot) c.disk.files := by
  intro s hs F hF hid
  cases hs
  rcases indexSnapshot_resume c with ⟨-, hw, ho⟩ | ⟨q, ps, hp, hw, ho⟩
  · obtain ⟨G, hG, hGid, hwhole, hbytes⟩ := h.files.writer
    have hFG : F = G := eq_of_id_eq h.files.sorted hF hG (by omega)
    rw [ho, hFG]
    exact ⟨G.chunks, [], (List.append_nil _).symm, hwhole, hbytes⟩
  · have hq : q ∈ spots c.disk.files := h.log.pending_mem (hp ▸ List.mem_cons_self)
    obtain ⟨G, hG, hGid, hqG⟩ := walId_of_spots hq
    have hFG : F = G := eq_of_id_eq h.files.sorted hF hG (by omega)
    rw [ho, hFG]
    exact boundary_of_mem hqG

theorem Inv.saved_replayed (h : Inv c history) :
    replayedAll (some c.indexSnapshot) c.disk.files = c.pending := by
  rcases indexSnapshot_resume c with ⟨hp, hw, ho⟩ | ⟨q, ps, hp, hw, ho⟩
  · rw [hp]
    exact h.files.replayedAll_end hw ho
  · obtain ⟨A, hA, -⟩ := h.log.split
    rw [hp] at hA ⊢
    exact replayedAll_from h.files.sorted hA hw ho

theorem Inv.save (h : Inv c history) : Inv c.saveIndex history where
  files := ⟨h.files.sorted, h.files.ended, h.files.writer, h.files.above, h.files.noCut,
    h.files.named⟩
  log := ⟨h.log.split, h.log.staged, h.log.ascending, h.log.positive, h.log.unique, h.log.applied,
    h.log.term, h.log.tail, h.log.unwritten⟩
  index := ⟨h.index.keys, h.index.located, h.index.alive, h.index.stagedAlive, h.index.writing,
    h.index.keys, h.index.located, fun p hp => by
      rcases List.mem_append.mp hp with hp | hp
      · exact h.index.committed p (List.mem_append_left _ hp)
      · exact h.index.committed p (List.mem_append_left _ hp)⟩
  resume := by
    refine ⟨h.saved_resumeOk, ?_, ⟨[], h.saved_replayed, by simp, by simp, rfl, ?_⟩⟩
    · intro s hs
      cases hs
      rcases indexSnapshot_resume c with ⟨-, hw, -⟩ | ⟨q, ps, hp, hw, -⟩
      · exact Nat.le_of_eq hw
      · have hle := h.files.walId_le (h.log.pending_mem (hp ▸ List.mem_cons_self : q ∈ c.pending))
        exact hw ▸ hle
    · -- A tail at or below the watermark leaves nothing staged.
      rintro - (hle | hnil)
      · have hle : c.lastAppendedLsn ≤ c.appliedLsn := hle
        have hnil : c.pending = [] := by
          refine List.eq_nil_iff_forall_not_mem.mpr fun q hq => ?_
          have hlt := h.log.staged q hq
          have := h.log.bound (h.log.pending_mem hq)
          omega
        exact h.log.tail_of_nil hnil
      · exact h.log.tail_of_nil hnil
  watermark := ⟨h.watermark.clean, h.watermark.saved, h.watermark.slots, h.watermark.flag,
    h.watermark.unrecorded⟩

section Apply

theorem foldl_publish (c : Coll V H) (qs : List (Spot (LogEntry V H))) :
    ∃ dirty, qs.foldl (fun c q => c.publish q) c = { c with
      index := qs.foldl Index.replay c.index
      settings := (qs.map fun q => q.frame.entry).foldl Settings.publish c.settings
      richDirty := dirty } := by
  induction qs generalizing c with
  | nil => exact ⟨c.richDirty, rfl⟩
  | cons q qs ih =>
    obtain ⟨dirty, hd⟩ := ih (c.publish q)
    exact ⟨dirty, hd⟩

omit [Encoded (LogEntry V H)] in
theorem persistWatermark_eq (c : Coll V H) (lsn : ℕ) :
    ∃ m p dirty saved seq, c.persistWatermark lsn = { c with
      disk := { c.disk with
        appliedMeta := m
        appliedPos := p }
      richDirty := dirty
      watermarkSaved := saved
      posSeq := seq } ∧ (m = none → c.disk.appliedMeta = none) := by
  have hsame : ∃ m p dirty saved seq, c = { c with
      disk := { c.disk with
        appliedMeta := m
        appliedPos := p }
      richDirty := dirty
      watermarkSaved := saved
      posSeq := seq } ∧ (m = none → c.disk.appliedMeta = none) := ⟨_, _, _, _, _, rfl, id⟩
  have hfull : ∃ m p dirty saved seq, c.persistWatermarkFull = { c with
      disk := { c.disk with
        appliedMeta := m
        appliedPos := p }
      richDirty := dirty
      watermarkSaved := saved
      posSeq := seq } ∧ (m = none → c.disk.appliedMeta = none) :=
    ⟨some ⟨c.appliedLsn, c.settings⟩, _, _, _, _, rfl, fun h => by cases h⟩
  unfold Coll.persistWatermark
  split
  · exact hsame
  · split
    · exact hfull
    · split
      · exact hfull
      · exact ⟨_, _, _, _, _, rfl, id⟩

omit [Encoded (LogEntry V H)] in
theorem filter_split {qs : List (Spot (LogEntry V H))}
    (h : qs.Pairwise fun q q' => q.frame.lsn < q'.frame.lsn) (lsn : ℕ) :
    qs = qs.filter (fun q => q.frame.lsn ≤ lsn) ++ qs.filter fun q => lsn < q.frame.lsn := by
  induction qs with
  | nil => rfl
  | cons q qs ih =>
    rw [List.pairwise_cons] at h
    by_cases hle : q.frame.lsn ≤ lsn
    · rw [List.filter_cons_of_pos (by simpa using hle),
        List.filter_cons_of_neg (by simpa using hle), List.cons_append, ← ih h.2]
    · have hnone : qs.filter (fun q => q.frame.lsn ≤ lsn) = [] := by
        refine List.filter_eq_nil_iff.mpr fun p hp => ?_
        have := h.1 p hp
        simp only [decide_eq_true_eq]
        omega
      rw [List.filter_cons_of_neg (by simpa using hle),
        List.filter_cons_of_pos (by simp; omega), hnone, List.nil_append]
      have := ih h.2
      rw [hnone, List.nil_append] at this
      rw [← this]

def Coll.ready (c : Coll V H) (lsn : ℕ) : List (Spot (LogEntry V H)) :=
  c.pending.filter fun q => q.frame.lsn ≤ lsn

theorem Inv.apply_below (h : Inv c history) {lsn : ℕ} (hle : lsn ≤ c.appliedLsn) :
    c.applyCommitted lsn = c := by
  have hready : c.pending.filter (fun q => q.frame.lsn ≤ lsn) = [] := by
    refine List.filter_eq_nil_iff.mpr fun q hq => ?_
    have := h.log.staged q hq
    simp only [decide_eq_true_eq]
    omega
  have hrest : c.pending.filter (fun q => lsn < q.frame.lsn) = c.pending := by
    refine List.filter_eq_self.mpr fun q hq => ?_
    have := h.log.staged q hq
    simp only [decide_eq_true_eq]
    omega
  have hmem : c.applyMemory lsn = c := by
    rw [Coll.applyMemory, hready, hrest, Nat.max_eq_left hle]
    rfl
  rw [Coll.applyCommitted, hmem, Coll.persistWatermark, if_pos]
  exact ⟨h.watermark.saved ▸ hle, h.watermark.clean⟩

theorem Inv.ready_last (h : Inv c history) {z : Spot (LogEntry V H)} (hz : z ∈ c.pending) :
    ∃ ps, c.ready z.frame.lsn = ps ++ [z] := by
  have hready : z ∈ c.ready z.frame.lsn := List.mem_filter.mpr ⟨hz, by simp⟩
  rcases List.eq_nil_or_concat (c.ready z.frame.lsn) with hnil | ⟨ps, y, hy⟩
  · rw [hnil] at hready
    simp at hready
  · rw [List.concat_eq_append] at hy
    refine ⟨ps, ?_⟩
    have hasc : (c.ready z.frame.lsn).Pairwise fun q q' => q.frame.lsn < q'.frame.lsn :=
      h.log.ascending.sublist List.filter_sublist
    have hyle : y.frame.lsn ≤ z.frame.lsn := by
      have : y ∈ c.ready z.frame.lsn := hy ▸ List.mem_append_right _ (List.mem_singleton_self y)
      exact of_decide_eq_true (List.mem_filter.mp this).2
    rw [hy] at hready hasc ⊢
    rcases List.mem_append.mp hready with hlt | heq
    · have := (List.pairwise_append.mp hasc).2.2 z hlt y (List.mem_singleton_self y)
      omega
    · rw [List.mem_singleton.mp heq]

omit [Encoded (LogEntry V H)] in
theorem committedTail_append (history : List (Frame (LogEntry V H)))
    (ps : List (Spot (LogEntry V H))) (z : Spot (LogEntry V H)) :
    committedTail (history ++ (ps ++ [z]).map Spot.frame) = (z.frame.lsn, z.frame.term) := by
  simp [committedTail, ← List.append_assoc]

theorem Inv.apply (h : Inv c history) {z : Spot (LogEntry V H)} (hz : z ∈ c.pending) :
    Inv (c.applyCommitted z.frame.lsn) (history ++ (c.ready z.frame.lsn).map Spot.frame) := by
  obtain ⟨ps, hps⟩ := h.ready_last hz
  have hlt := h.log.staged z hz
  have hzmem := h.log.pending_mem hz
  have hmeta : c.disk.appliedMeta ≠ none := by
    intro hm
    rw [h.log.unwritten hm] at hzmem
    simp at hzmem
  obtain ⟨dirty, hfold⟩ := foldl_publish c (c.ready z.frame.lsn)
  have hmem : c.applyMemory z.frame.lsn = { c with
      index := (c.ready z.frame.lsn).foldl Index.replay c.index
      settings := ((c.ready z.frame.lsn).map fun q =>
        q.frame.entry).foldl Settings.publish c.settings
      richDirty := dirty
      pending := c.pending.filter fun q => z.frame.lsn < q.frame.lsn
      appliedLsn := z.frame.lsn } := by
    rw [Coll.applyMemory, Nat.max_eq_right (Nat.le_of_lt hlt)]
    exact congrArg (fun d : Coll V H => { d with
      pending := c.pending.filter fun q => z.frame.lsn < q.frame.lsn
      appliedLsn := z.frame.lsn }) hfold
  have hwatermark : WatermarkOk (c.applyCommitted z.frame.lsn) := by
    rw [Coll.applyCommitted, hmem]
    exact h.watermark.persist hlt rfl rfl rfl rfl rfl hmeta
  obtain ⟨m, p, dirty', saved, seq, hpersist, hm⟩ :=
    persistWatermark_eq (c.applyMemory z.frame.lsn) z.frame.lsn
  have hmeta' : m ≠ none := by
    intro hnone
    have := hm hnone
    rw [hmem] at this
    exact hmeta this
  rw [Coll.applyCommitted, hpersist, hmem] at hwatermark ⊢
  have hsplit := filter_split h.log.ascending z.frame.lsn
  have hsub : ∀ q ∈ c.pending.filter (fun q => z.frame.lsn < q.frame.lsn), q ∈ c.pending :=
    fun q hq => List.mem_of_mem_filter hq
  have htail : committedTail (history ++ (c.ready z.frame.lsn).map Spot.frame) =
      (z.frame.lsn, z.frame.term) := by
    rw [hps]
    exact committedTail_append history ps z
  have hreadymem : ∀ q ∈ c.ready z.frame.lsn, q ∈ c.pending := fun q hq => List.mem_of_mem_filter hq
  have hreadyle : ∀ q ∈ c.ready z.frame.lsn, q.frame.lsn ≤ z.frame.lsn :=
    fun q hq => of_decide_eq_true (List.mem_filter.mp hq).2
  refine ⟨⟨h.files.sorted, h.files.ended, h.files.writer, h.files.above, h.files.noCut,
    h.files.named⟩, ?_, ?_, ?_, hwatermark⟩
  · refine ⟨?_, ?_, h.log.ascending.sublist List.filter_sublist, h.log.positive, h.log.unique,
      ?_, ?_, ?_, ?_⟩
    · obtain ⟨A, hA, hcommitted⟩ := h.log.split
      refine ⟨A ++ c.ready z.frame.lsn, ?_, ?_⟩
      · rw [List.append_assoc]
        exact hA.trans (congrArg (A ++ ·) hsplit)
      · intro q hq
        rcases List.mem_append.mp hq with hq | hq
        · exact Nat.le_trans (hcommitted q hq) (Nat.le_of_lt hlt)
        · exact hreadyle q hq
    · intro q hq
      exact of_decide_eq_true (List.mem_filter.mp hq).2
    · rw [htail]
    · intro q hq heq
      rw [htail, h.log.unique q hq z hzmem heq]
    · rw [htail]
      have := h.log.tail
      rw [hsplit, List.getLast?_append] at this
      have hlast : (c.pending.filter fun q => q.frame.lsn ≤ z.frame.lsn).getLast? = some z := by
        have : (c.ready z.frame.lsn).getLast? = some z := by rw [hps]; simp
        exact this
      rw [hlast] at this
      refine Eq.trans this ?_
      cases (c.pending.filter fun q => z.frame.lsn < q.frame.lsn).getLast? <;> rfl
    · exact fun hnone => absurd hnone hmeta'
  · refine ⟨Index.nodup_foldl_replay h.index.keys _, ?_, ?_, ?_, h.index.writing,
      h.index.snapshotKeys, h.index.snapshotLocated, ?_⟩
    · intro p hp
      rcases Index.mem_foldl_replay hp with hp | ⟨q, hq, hres⟩
      · exact h.index.located p hp
      · exact ⟨q, h.log.pending_mem (hreadymem q hq), hres⟩
    · intro p hp
      rcases Index.mem_foldl_replay hp with hp | ⟨q, hq, hres⟩
      · exact h.index.alive p hp
      · obtain ⟨he, -⟩ := resolve_put hres
        have := h.index.stagedAlive q (hreadymem q hq)
        rw [he, entryOf_walId]
        exact this
    · exact fun q hq => h.index.stagedAlive q (hsub q hq)
    · intro p hp
      have hold : ∀ p ∈ c.index ++ snapshotMap c.disk.snapshot, p.2.lsn ≤ z.frame.lsn :=
        fun p hp => Nat.le_trans (h.index.committed p hp) (Nat.le_of_lt hlt)
      rcases List.mem_append.mp hp with hp | hp
      · rcases Index.mem_foldl_replay hp with hp | ⟨q, hq, hres⟩
        · exact hold p (List.mem_append_left _ hp)
        · obtain ⟨he, -⟩ := resolve_put hres
          rw [he, entryOf_lsn]
          exact hreadyle q hq
      · exact hold p (List.mem_append_right _ hp)
  · refine ⟨h.resume.resume, h.resume.resumeLe, ?_⟩
    obtain ⟨A, hA, hcommitted, -, hindex, -⟩ := h.resume.replayed
    refine ⟨A ++ c.ready z.frame.lsn, ?_, ?_, ?_, ?_, ?_⟩
    · rw [List.append_assoc]
      exact hA.trans (congrArg (A ++ ·) hsplit)
    · intro q hq
      rcases List.mem_append.mp hq with hq | hq
      · exact Nat.le_trans (hcommitted q hq) (Nat.le_of_lt hlt)
      · exact hreadyle q hq
    · intro q hq
      rw [hps] at hq
      simp only [← List.append_assoc, List.getLast?_append, List.getLast?_singleton, Option.some_or,
        Option.some.injEq] at hq
      refine ⟨z, ?_, by rw [hq], rfl⟩
      rw [hps]
      exact List.mem_append_right _ (List.mem_append_right _ (List.mem_singleton_self z))
    · rw [List.foldl_append, ← hindex]
    · intro hnil
      rw [hps] at hnil
      simp at hnil

end Apply

end DewDB.Recovery
