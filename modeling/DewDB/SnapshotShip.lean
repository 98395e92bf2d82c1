import DewDB.CompactionSafety

/-!
# Installing a streamed snapshot

The stream carries the index, the watermark and every WAL up to the frozen one, those that a
compaction has retired and could not unlink included. The receiver replays all of them over the
index.
-/
namespace DewDB.Recovery

open CollectionLog WalFile WalWriter StorageEntry LastTouch TransitionSystem

variable {V H : Type} [Encoded (LogEntry V H)] {c : Coll V H}
  {history : List (Frame (LogEntry V H))}

def maxSnapshotFiles : ℕ := 10000

def Coll.shippedFiles (c : Coll V H) : List (File (LogEntry V H)) :=
  (c.freeze.1.disk.files.filter fun F => F.id ≤ c.freeze.2).map fun F =>
    { F with synced := F.chunks.length }

/-- `stream_snapshot`: the replay is to start at the first WAL. -/
def Coll.shipped (c : Coll V H) : Disk V H :=
  ⟨c.shippedFiles, some ⟨0, 0, c.lastAppendedLsn, c.lastAppendedTerm, c.index⟩,
    some ⟨c.appliedLsn, c.settings⟩, none, none⟩

/-- `receive_snapshot`: the index and the watermark count as files, and there has to be a WAL. -/
def Disk.received (d : Disk V H) : Option (Disk V H) :=
  if d.files.length + 2 ≤ maxSnapshotFiles ∧ d.files ≠ [] then some d else none

/-- Receiving and opening the stream gives the content, the staged frames, the watermark and the
tail. -/
def Reproduces (c : Coll V H) : Prop :=
  ∃ d c', c.shipped.received = some d ∧ d.openCollection = .ok c' ∧
    (∀ key, c'.view key = c.view key) ∧
    c'.pending = c.pending ∧ c'.appliedLsn = c.appliedLsn ∧ c'.tail = c.tail

def Coll.committedSpots (c : Coll V H) : List (Spot (LogEntry V H)) :=
  (spots c.disk.files).filter fun q => q.frame.lsn ≤ c.appliedLsn

def NewestLast (c : Coll V H) : Prop :=
  ∀ q, (spots c.disk.files).getLast? = some q →
    ∃ z ∈ spots c.disk.files, z.walId = q.walId ∧ z.frame.lsn = c.lastAppendedLsn

/-- When the receiver ends up with the collection: the stream is accepted, the last WAL with frames
has the newest, and the last committed frame on disk to touch a key leaves what the index says. -/
structure ShipOk (c : Coll V H) : Prop where
  fits : c.shippedFiles.length + 2 ≤ maxSnapshotFiles
  carries : c.shippedFiles ≠ []
  newest : NewestLast c
  agrees : ∀ key, Agrees (lastTouch resolve c.committedSpots key) (c.index.get key)

section Files

theorem spots_filter {fs : List (File (LogEntry V H))} {keep : File (LogEntry V H) → Bool}
    (h : ∀ F ∈ fs, keep F = false → F.chunks = []) : spots (fs.filter keep) = spots fs := by
  induction fs with
  | nil => rfl
  | cons F fs ih =>
    have ih := ih fun E hE => h E (List.mem_cons_of_mem _ hE)
    cases hk : keep F with
    | true =>
      rw [List.filter_cons_of_pos hk, spots, List.flatMap_cons, ← spots, ih]
      rfl
    | false =>
      rw [List.filter_cons_of_neg (by simp [hk]), ih]
      have hnil : F.spots = [] := by
        rw [File.spots, h F List.mem_cons_self hk]
        rfl
      rw [spots, spots, List.flatMap_cons, hnil, List.nil_append]

theorem spots_freeze (c : Coll V H) : spots c.freeze.1.disk.files = spots c.disk.files := by
  unfold Coll.freeze
  dsimp only
  split
  · exact spots_sync _ _
  · exact (spots_openFile _ _).trans (spots_sync _ _)

theorem FilesOk.above_freeze (h : FilesOk c) {F : File (LogEntry V H)}
    (hF : F ∈ c.freeze.1.disk.files) (hlt : c.freeze.2 < F.id) : F.chunks = [] := by
  have hsync : ∀ F ∈ c.syncWal.disk.files, c.currentWalId < F.id → F.chunks = [] := by
    intro F hF hlt
    obtain ⟨E, hE, hid, hchunks⟩ := mem_onFile_sync hF
    rw [hchunks]
    exact h.above E hE (by omega)
  revert hF hlt
  unfold Coll.freeze
  dsimp only
  split
  · next hidle =>
    intro hF hlt
    have hlt : c.currentWalId - 1 < F.id := hlt
    by_cases hcur : F.id = c.currentWalId
    · obtain ⟨E, hE, hid, hchunks⟩ := mem_onFile_sync hF
      obtain ⟨G, hG, hGid, hwhole, hbytes⟩ := h.writer
      have hEG : E = G := eq_of_id_eq h.sorted hE hG (by omega)
      rw [hchunks, hEG]
      have hidle : c.currentWalSize = 0 := hidle.1
      cases hcs : G.chunks with
      | nil => rfl
      | cons p ps =>
        have hp := hwhole.sizes p (hcs ▸ List.mem_cons_self)
        rw [hcs, bytes, List.map_cons, List.sum_cons] at hbytes
        omega
    · exact hsync F hF (by omega)
  · intro hF hlt
    rcases mem_openFile hF with hF | rfl
    · exact hsync F hF hlt
    · rfl

theorem FilesOk.spots_shipped (h : FilesOk c) : spots c.shippedFiles = spots c.disk.files := by
  have hmap : spots c.shippedFiles = spots (c.freeze.1.disk.files.filter fun F =>
    F.id ≤ c.freeze.2) := by
    rw [Coll.shippedFiles, spots, List.flatMap_map]
    rfl
  rw [hmap, spots_filter, spots_freeze]
  intro F hF hlt
  exact h.above_freeze hF (by simpa using hlt)

omit [Encoded (LogEntry V H)] in
theorem mem_shippedFiles {F : File (LogEntry V H)} (hF : F ∈ c.shippedFiles) :
    ∃ E ∈ c.freeze.1.disk.files, F.id = E.id ∧ F.chunks = E.chunks := by
  obtain ⟨E, hE, rfl⟩ := List.mem_map.mp hF
  exact ⟨E, List.mem_of_mem_filter hE, rfl, rfl⟩

theorem Inv.shipped_sorted (h : Inv c history) : (c.shippedFiles.map File.id).Pairwise (· < ·) := by
  have hids : c.shippedFiles.map File.id =
      (c.freeze.1.disk.files.filter fun F => F.id ≤ c.freeze.2).map File.id := by
    rw [Coll.shippedFiles, List.map_map]
    rfl
  rw [hids]
  exact h.freeze.files.sorted.sublist (List.filter_sublist.map _)

theorem replayed_shipped {F : File (LogEntry V H)} {s : IndexSnapshot} (hs : s.lastWalId = 0)
    (hF : 0 < F.id) : replayed (some s) F = F.spots := by
  rw [← readFrom_zero]
  simp only [replayed, resumeIn]
  rw [if_neg (by omega), if_neg (by omega)]

theorem Inv.named_shipped (h : Inv c history) {F : File (LogEntry V H)} (hF : F ∈ c.shippedFiles) :
    0 < F.id := by
  obtain ⟨E, hE, hid, -⟩ := mem_shippedFiles hF
  rw [hid]
  exact h.freeze.files.named E hE

theorem Inv.replayedAll_shipped (h : Inv c history) :
    replayedAll c.shipped.snapshot c.shippedFiles = spots c.disk.files := by
  rw [← h.files.spots_shipped]
  exact List.flatMap_congr fun F hF => replayed_shipped rfl (h.named_shipped hF)

end Files

section Tail

omit [Encoded (LogEntry V H)] in
theorem fileTail_mem {qs : List (Spot (LogEntry V H))} (hne : qs ≠ [])
    (hpos : ∀ q ∈ qs, 0 < q.frame.lsn) : ∃ z ∈ qs, fileTail qs = (z.frame.lsn, z.frame.term) := by
  obtain ⟨⟨-, hall⟩, hr⟩ := foldl_tail (t := (0, 0)) qs
  rcases hr with hr | ⟨q, hq, hr⟩
  · obtain ⟨q, hq⟩ := List.exists_mem_of_ne_nil qs hne
    have hle := hall q hq
    have hlt := hpos q hq
    rw [hr] at hle
    omega
  · exact ⟨q, hq, hr⟩

theorem recoveredTail_mem {snapshot : Option IndexSnapshot} {fs : List (File (LogEntry V H))}
    {q : Spot (LogEntry V H)} (hlast : (replayedAll snapshot fs).getLast? = some q)
    (hpos : ∀ p ∈ replayedAll snapshot fs, 0 < p.frame.lsn) :
    ∃ z ∈ replayedAll snapshot fs, z.walId = q.walId ∧
      recoveredTail snapshot fs = (z.frame.lsn, z.frame.term) := by
  induction fs using List.reverseRecOn with
  | nil => simp [replayedAll] at hlast
  | append_singleton fs F ih =>
    have hall : replayedAll snapshot (fs ++ [F]) = replayedAll snapshot fs ++
      replayed snapshot F := by
      simp [replayedAll]
    rw [hall] at hlast hpos ⊢
    rw [recoveredTail, List.map_append, List.foldl_append, List.map_singleton, List.foldl_cons,
      List.foldl_nil]
    by_cases hF : replayed snapshot F = []
    · rw [hF, List.append_nil] at hlast hpos ⊢
      rw [foldTail_nil]
      exact ih hlast hpos
    · rw [List.getLast?_append, List.getLast?_eq_some_getLast hF, Option.some_or] at hlast
      have hqF : q ∈ replayed snapshot F := Option.some.inj hlast ▸ List.getLast_mem hF
      obtain ⟨z, hz, htail⟩ := fileTail_mem hF fun p hp => hpos p (List.mem_append_right _ hp)
      refine ⟨z, List.mem_append_right _ hz,
        (walId_of_replayed hz).trans (walId_of_replayed hqF).symm, ?_⟩
      have := hpos z (List.mem_append_right _ hz)
      rw [foldTail, htail, if_neg (by simp only; omega)]

theorem LogOk.newest_term (h : LogOk c history) {p : Spot (LogEntry V H)}
    (hp : p ∈ spots c.disk.files)
    (hlsn : p.frame.lsn = c.lastAppendedLsn) : p.frame.term = c.lastAppendedTerm := by
  rcases List.eq_nil_or_concat c.pending with hnil | ⟨ps, z, hz⟩
  · have htail := h.tail_of_nil hnil
    have hfst : c.lastAppendedLsn = (committedTail history).1 := congrArg Prod.fst htail
    have hsnd : c.lastAppendedTerm = (committedTail history).2 := congrArg Prod.snd htail
    rw [hsnd]
    exact h.term p hp (hlsn.trans (hfst.trans h.applied.symm))
  · rw [List.concat_eq_append] at hz
    have htail := h.last_of_pending hz
    have hfst : c.lastAppendedLsn = z.frame.lsn := congrArg Prod.fst htail
    have hsnd : c.lastAppendedTerm = z.frame.term := congrArg Prod.snd htail
    have hzmem : z ∈ spots c.disk.files :=
      h.pending_mem (hz ▸ List.mem_append_right _ (List.mem_singleton_self z))
    rw [hsnd, h.unique p hp z hzmem (hlsn.trans hfst)]

/-- What the receiver takes for the tail is the source's exactly when the newest frame is in the
last WAL. -/
theorem Inv.tail_shipped_iff (h : Inv c history) :
    recoveredTail c.shipped.snapshot c.shippedFiles = c.tail ↔ NewestLast c := by
  have hall := h.replayedAll_shipped
  constructor
  · intro htail q hlast
    rw [← hall] at hlast
    obtain ⟨z, hz, hwal, heq⟩ := recoveredTail_mem hlast fun p hp => h.log.positive p (hall ▸ hp)
    rw [hall] at hz
    exact ⟨z, hz, hwal, (congrArg Prod.fst (heq.symm.trans htail))⟩
  · intro hnew
    cases hlast : (spots c.disk.files).getLast? with
    | none =>
      rw [List.getLast?_eq_none_iff, ← hall, replayedAll_eq_flatten] at hlast
      rw [recoveredTail, foldl_foldTail_nil hlast]
      rfl
    | some q =>
      obtain ⟨z, hz, hwal, hlsn⟩ := hnew q hlast
      rw [← hall] at hlast hz
      rw [recoveredTail_of_last h.shipped_sorted c.lastAppendedTerm hlast hz hwal
        (h.log.positive z (hall ▸ hz)), hlsn]
      · rfl
      · intro p hp
        rw [hlsn]
        exact h.log.bound (hall ▸ hp)
      · intro p hp heq
        exact h.log.newest_term (hall ▸ hp) (heq.trans hlsn)

end Tail

section Opened

def Coll.installed (c : Coll V H) : Coll V H := c.shipped.opened (some c.appliedLsn) 0

theorem Inv.replay_shipped (h : Inv c history) :
    (c.shipped.replay (some c.appliedLsn)).index = c.committedSpots.foldl Index.replay c.index ∧
      (c.shipped.replay (some c.appliedLsn)).pending = c.pending := by
  obtain ⟨A, hA, hcommitted⟩ := h.log.split
  have hbelow : ∀ q ∈ A, above (some c.appliedLsn) q.frame.lsn = false := by
    intro q hq
    have := hcommitted q hq
    simp only [above, Option.any_some, decide_eq_false_iff_not]
    omega
  have habove : ∀ q ∈ c.pending, above (some c.appliedLsn) q.frame.lsn = true := by
    intro q hq
    simpa [above] using h.log.staged q hq
  have hspots : c.committedSpots = A := by
    rw [Coll.committedSpots, hA, List.filter_append,
      List.filter_eq_self.mpr (by simpa using hcommitted),
      List.filter_eq_nil_iff.mpr (by simpa using h.log.staged), List.append_nil]
  have hreplay : c.shipped.replay (some c.appliedLsn) =
      (A ++ c.pending).foldl (Replayed.frame (some c.appliedLsn))
        ⟨c.index, [], c.shipped.seed⟩ := by
    rw [← hA, ← h.replayedAll_shipped]
    rfl
  rw [hreplay, hspots, List.foldl_append, foldl_frame_committed hbelow,
    foldl_frame_staged habove _ (by simpa using h.log.ascending)]
  exact ⟨rfl, List.nil_append _⟩

theorem Inv.open_shipped (h : Inv c history) : c.shipped.openCollection = .ok c.installed := by
  have hrec : c.shipped.recordedWatermark = .ok (some c.appliedLsn) := by
    simp [Disk.recordedWatermark, Disk.position, Coll.shipped, Except.map]
  have hpos : c.shipped.position = .ok none := rfl
  have hcut : c.shipped.completeRecorded = .ok c.shipped := rfl
  rw [Disk.openCollection, hrec, hpos]
  simp only [Except.bind, hcut]
  rw [if_neg]
  · rfl
  · rintro ⟨habove, hnil⟩
    rw [h.replay_shipped.2] at hnil
    -- Nothing is staged, so no frame on disk is above the watermark.
    have hle : (recoveredTail c.shipped.snapshot c.shippedFiles).1 ≤ c.appliedLsn := by
      cases hlast : (spots c.disk.files).getLast? with
      | none =>
        rw [List.getLast?_eq_none_iff, ← h.replayedAll_shipped, replayedAll_eq_flatten] at hlast
        rw [recoveredTail, foldl_foldTail_nil hlast, h.log.applied, ← h.log.tail_of_nil hnil]
        exact Nat.le_refl _
      | some q =>
        rw [← h.replayedAll_shipped] at hlast
        obtain ⟨z, hz, -, heq⟩ := recoveredTail_mem hlast fun p hp =>
          h.log.positive p (h.replayedAll_shipped ▸ hp)
        rw [heq]
        exact h.log.le_applied hnil (h.replayedAll_shipped ▸ hz)
    simp only [above, Option.any_some, decide_eq_true_eq] at habove
    exact absurd hle (Nat.not_le.mpr habove)

theorem Inv.shipped_resumeOk (h : Inv c history) : ResumeOk c.shipped.snapshot c.shippedFiles := by
  intro s hs F hF hid
  obtain rfl : _ = s := Option.some.inj hs
  have := h.named_shipped hF
  have hid : F.id = 0 := hid
  omega

theorem Inv.shipped_ended (h : Inv c history) : ∀ F ∈ c.shippedFiles, Ended F.chunks := by
  intro F hF
  obtain ⟨E, hE, -, hchunks⟩ := mem_shippedFiles hF
  rw [hchunks]
  exact h.freeze.files.ended E hE

theorem Inv.shipped_sizes (h : Inv c history) :
    ∀ F ∈ c.shippedFiles, ∀ p ∈ F.chunks, 0 < p.size := by
  intro F hF
  obtain ⟨E, hE, -, hchunks⟩ := mem_shippedFiles hF
  rw [hchunks]
  exact h.freeze.files.sizes E hE

theorem Inv.installed_spots (h : Inv c history) :
    spots c.installed.disk.files = spots c.disk.files :=
  (reopenedFiles_spots h.shipped_resumeOk h.shipped_sizes).trans h.files.spots_shipped

theorem Inv.installed_filesOk (h : Inv c history) : FilesOk c.installed := by
  refine ⟨openFile_sorted (settled_sorted h.shipped_sorted),
    reopenedFiles_ended h.shipped_resumeOk h.shipped_sizes h.shipped_ended, ?_, ?_, rfl, ?_⟩
  · have hw : ∃ G ∈ reopenedFiles c.shipped.snapshot c.shippedFiles,
        G.id = nextWalId c.shippedFiles ∧ G.chunks = [] := reopenedFiles_writer h.shipped_sorted
    obtain ⟨G, hG, hid, hnil⟩ := hw
    exact ⟨G, hG, hid, by simp [hnil, Whole], by rw [hnil]; rfl⟩
  · intro F hF hlt
    have hlt : nextWalId c.shippedFiles < F.id := hlt
    have := reopenedFiles_id_le h.shipped_sorted hF
    omega
  · intro F hF
    rcases mem_openFile hF with hF | rfl
    · obtain ⟨E, hE, rfl⟩ := List.mem_map.mp hF
      rw [settled_id]
      exact h.named_shipped hE
    · exact Nat.succ_pos _

theorem Inv.view_shipped_iff (h : Inv c history) (key : String) :
    c.installed.view key = c.view key ↔
      Agrees (lastTouch resolve c.committedSpots key) (c.index.get key) := by
  have hnamed : ∀ q ∈ spots c.disk.files, 0 < q.walId := by
    intro q hq
    obtain ⟨F, hF, hqF⟩ := List.mem_flatMap.mp hq
    rw [walId_of_layout hqF]
    exact h.files.named F hF
  refine h.view_replay_iff h.installed_filesOk (fun key => ?_) (fun key q _ hq _ => ?_)
    (fun q hq => ?_) key
  · have hindex : c.installed.index = c.committedSpots.foldl Index.replay c.index :=
      h.replay_shipped.1
    rw [hindex, Index.get_foldl]
  · rw [h.installed_spots]
    exact ⟨hq, hnamed q hq⟩
  · have hq := List.mem_of_mem_filter hq
    rw [h.installed_spots]
    exact ⟨hq, hnamed q hq, q, hq, rfl⟩

theorem Inv.reproduces_iff (h : Inv c history) : Reproduces c ↔ ShipOk c := by
  constructor
  · rintro ⟨d, c', hreceived, hopen, hview, -, -, htail⟩
    simp only [Disk.received] at hreceived
    split at hreceived
    · next hif =>
      cases hreceived
      obtain rfl : c.installed = c' := Except.ok.inj (h.open_shipped.symm.trans hopen)
      exact ⟨hif.1, hif.2, h.tail_shipped_iff.mp htail, fun key =>
        (h.view_shipped_iff key).mp (hview key)⟩
    · cases hreceived
  · intro hok
    refine ⟨c.shipped, c.installed, if_pos ⟨hok.fits, hok.carries⟩, h.open_shipped,
      fun key => (h.view_shipped_iff key).mpr (hok.agrees key), h.replay_shipped.2, rfl,
      h.tail_shipped_iff.mpr hok.newest⟩

theorem Inv.agrees_of_unsaved (h : Inv c history) (hsnap : c.disk.snapshot = none) (key : String) :
    Agrees (lastTouch resolve c.committedSpots key) (c.index.get key) := by
  obtain ⟨A, hA, hcommitted, -, hindex, -⟩ := h.resume.replayed
  rw [hsnap, replayedAll_none] at hA
  have hspots : c.committedSpots = A := by
    rw [Coll.committedSpots, hA, List.filter_append,
      List.filter_eq_self.mpr (by simpa using hcommitted),
      List.filter_eq_nil_iff.mpr (by simpa using h.log.staged), List.append_nil]
  rw [hspots, hindex, hsnap, Index.get_foldl]
  intro v hv
  rw [Option.mem_def.mp hv]
  rfl

end Opened

section Reproduction

/-- When every frozen WAL is unlinked, what is on disk is what the run has written. -/
theorem Inv.compacted_frames (h : Inv c history) {o : Output V H} {q : Spot (LogEntry V H)}
    (hq : q ∈ spots (c.compacted o []).disk.files) : q.frame ∈ o.frames := by
  obtain ⟨F, hF, hqF⟩ := List.mem_flatMap.mp hq
  obtain ⟨hF, hkeep⟩ := List.mem_filter.mp hF
  rcases mem_placeFile.mp hF with rfl | ⟨hF, -⟩
  · exact frame_of_layout hqF
  · have hlt : c.currentWalId < F.id := by simpa using hkeep
    rw [File.spots, h.started_empty hF hlt] at hqF
    simp [layout] at hqF

variable {limit : ℕ} {s : State V H} {ops : List (Op V H)}

/-- The receiver of a snapshot ends up with the source's collection exactly when the stream is
accepted, the last WAL has the newest frame and no WAL that is still there brings back what the
index has left behind. -/
theorem snapshot_reproduces (hrun : run (step limit) State.fresh ops = some s)
    (hok : Meets (step limit) Orderly State.fresh ops) : Reproduces s.coll ↔ ShipOk s.coll :=
  (run_inv hrun hok).reproduces_iff

theorem snapshot_reproduces_deleted : Reproduces (afterOps deleteOps).coll := by
  refine (snapshot_reproduces run_deleteOps meets_deleteOps).mpr ⟨by decide, by decide, ?_, ?_⟩
  · intro q hq
    have hlast : (spots (afterOps deleteOps).coll.disk.files).getLast? =
        some ⟨⟨1, 3, 1, 2, .del false "b" 0⟩, 1, 82⟩ := by decide
    rw [hlast] at hq
    cases hq
    exact ⟨⟨⟨1, 3, 1, 2, .del false "b" 0⟩, 1, 82⟩, by decide, rfl, by decide⟩
  · exact (run_inv run_deleteOps meets_deleteOps).agrees_of_unsaved (by decide)

/-- After a compaction that drops the newest frame, a delete, the receiver's tail is that of a live
key. -/
theorem snapshot_loses_tail : ∃ s, run (step 1000) State.fresh
    (deleteOps ++ [Op.compact ⟨0, 0, 0⟩ []]) = some s ∧
    Meets (step 1000) Orderly State.fresh (deleteOps ++ [Op.compact ⟨0, 0, 0⟩ []]) ∧
      ¬Reproduces s.coll := by
  have hinv := run_inv run_deleteOps meets_deleteOps
  have htail : ((afterOps deleteOps).coll.planCompaction ⟨0, 0, 0⟩).tail = none := by decide
  have hub : Unblocked (afterOps deleteOps).coll ⟨0, 0, 0⟩ := by
    intro t ht
    rw [htail] at ht
    cases ht
  obtain ⟨c', hc'⟩ := hinv.compact_some ⟨0, 0, 0⟩ (by decide) (Nat.zero_le _) []
  have hstep : step 1000 (afterOps deleteOps) (.compact ⟨0, 0, 0⟩ []) = some
    ⟨c', (afterOps deleteOps).history⟩ := by
    rw [step, hc', Option.map_some]
  refine ⟨_, run_append.mpr ⟨_, run_deleteOps, run_cons.mpr ⟨_, hstep, rfl⟩⟩,
    meets_append meets_deleteOps run_deleteOps ⟨hub, fun _ _ => trivial⟩, fun hrep => ?_⟩
  have hok : Orderly (afterOps deleteOps) (.compact ⟨0, 0, 0⟩ []) := hub
  have hinv' := step_inv hinv hok hstep
  have hnewest := (hinv'.reproduces_iff.mp hrep).newest
  obtain ⟨-, o, ho, rfl⟩ := compact_eq hc'
  have hold : ∀ p ∈ (afterOps deleteOps).coll.index, p.2.lsn ≠ 3 := by decide
  -- What is left are frames of live keys, and there is one.
  have hframes : ∀ q ∈ spots ((afterOps deleteOps).coll.compacted o []).disk.files,
    q.frame.lsn ≠ 3 := by
    intro q hq
    rcases List.mem_append.mp (hinv.compacted_frames hq) with hf | hf
    · obtain ⟨r, hr, hrq⟩ := List.mem_map.mp hf
      obtain ⟨p, -, he, hframe, hindex, -⟩ := hinv.live_spot ho hr
      have := hold _ hindex
      rw [he, entryOf_lsn, ← hframe, hrq] at this
      exact this
    · rw [(compactedWal_eq ho).2.2, htail, copyRetainedTail] at hf
      simp at hf
  have hget : (afterOps deleteOps).coll.index.get "a" =
      some (entryOf ⟨⟨1, 1, 0, 0, putOf "a"⟩, 1, 0⟩) := by decide
  rcases hinv.get_remapped ho hget (by decide) with ⟨r, hr, -⟩ | ⟨hret, -⟩
  · have hr := mem_compacted [] hr
    obtain ⟨q, hq⟩ := List.getLast?_isSome.mpr (List.ne_nil_of_mem hr) |>
      Option.isSome_iff_exists.mp
    obtain ⟨z, hz, -, hlsn⟩ := hnewest q hq
    exact hframes z hz hlsn
  · simp [htail, retained] at hret

end Reproduction

end DewDB.Recovery
