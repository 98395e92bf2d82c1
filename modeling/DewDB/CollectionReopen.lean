import DewDB.CollectionInv

/-!
# Reopening a collection

From a directory of which the invariant holds, opening succeeds. It gives the same index, staged
frames, tail and watermark, and the invariant holds again. Only the settings are folded anew.
-/
namespace DewDB.Recovery

open CollectionLog WalFile WalWriter StorageEntry

variable {V H : Type} [Encoded (LogEntry V H)] {c : Coll V H}
  {history : List (Frame (LogEntry V H))}

theorem replayed_subset {snapshot : Option IndexSnapshot} {F : File (LogEntry V H)}
    (h : ∀ s ∈ snapshot, F.id = s.lastWalId → Boundary s.lastOffset F.chunks)
    {q : Spot (LogEntry V H)} (hq : q ∈ replayed snapshot F) : q ∈ F.spots := by
  rcases replayed_cases h with ⟨-, hr⟩ | ⟨as, bs, hc, hw, -, hr⟩
  · simp [hr] at hq
  · rw [File.spots, hc, layout_append_whole hw, Nat.zero_add]
    exact List.mem_append_right _ (hr ▸ hq)

theorem replayedAll_subset {snapshot : Option IndexSnapshot} {fs : List (File (LogEntry V H))}
    (h : ResumeOk snapshot fs) {q : Spot (LogEntry V H)} (hq : q ∈ replayedAll snapshot fs) :
    q ∈ spots fs := by
  obtain ⟨F, hF, hqF⟩ := List.mem_flatMap.mp hq
  exact List.mem_flatMap.mpr ⟨F, hF, replayed_subset (fun s hs => h s hs F hF) hqF⟩

theorem LogOk.pending_mem (h : LogOk c history) {q : Spot (LogEntry V H)} (hq : q ∈ c.pending) :
    q ∈ spots c.disk.files := by
  obtain ⟨A, hA, -⟩ := h.split
  exact hA ▸ List.mem_append_right _ hq

theorem LogOk.last_of_pending (h : LogOk c history) {ps : List (Spot (LogEntry V H))}
    {z : Spot (LogEntry V H)} (hz : c.pending = ps ++ [z]) :
    c.tail = (z.frame.lsn, z.frame.term) := by
  rw [h.tail, hz, List.getLast?_append, List.getLast?_singleton]
  rfl

theorem LogOk.tail_of_nil (h : LogOk c history) (hnil : c.pending = []) :
    c.tail = committedTail history := by
  rw [h.tail, hnil]
  rfl

theorem LogOk.le_last (h : LogOk c history) {ps : List (Spot (LogEntry V H))}
    {z : Spot (LogEntry V H)}
    (hz : c.pending = ps ++ [z]) : ∀ q ∈ c.pending, q.frame.lsn ≤ z.frame.lsn := by
  intro q hq
  have hasc := h.ascending
  rw [hz] at hasc hq
  rcases List.mem_append.mp hq with hq | hq
  · exact Nat.le_of_lt ((List.pairwise_append.mp hasc).2.2 q hq z (List.mem_singleton_self z))
  · rw [List.mem_singleton.mp hq]

theorem LogOk.applied_le (h : LogOk c history) : c.appliedLsn ≤ c.lastAppendedLsn := by
  rcases List.eq_nil_or_concat c.pending with hnil | ⟨ps, z, hz⟩
  · have := congrArg Prod.fst (h.tail_of_nil hnil)
    rw [h.applied, ← this]
    exact Nat.le_refl _
  · rw [List.concat_eq_append] at hz
    have hlast := congrArg Prod.fst (h.last_of_pending hz)
    have := h.staged z (hz ▸ List.mem_append_right _ (List.mem_singleton_self z))
    simp only [Coll.tail] at hlast
    omega

theorem LogOk.bound (h : LogOk c history) {q : Spot (LogEntry V H)} (hq : q ∈ spots c.disk.files) :
    q.frame.lsn ≤ c.lastAppendedLsn := by
  obtain ⟨A, hA, hcommitted⟩ := h.split
  rw [hA] at hq
  rcases List.mem_append.mp hq with hq | hq
  · exact Nat.le_trans (hcommitted q hq) h.applied_le
  · rcases List.eq_nil_or_concat c.pending with hnil | ⟨ps, z, hz⟩
    · simp [hnil] at hq
    · rw [List.concat_eq_append] at hz
      have hlast := congrArg Prod.fst (h.last_of_pending hz)
      have := h.le_last hz q hq
      simp only [Coll.tail] at hlast
      omega

theorem replayedAll_eq_flatten (snapshot : Option IndexSnapshot) (fs : List (File (LogEntry V H))) :
    replayedAll snapshot fs = (fs.map (replayed snapshot)).flatten := by
  rw [replayedAll, List.flatMap_def]

/-- The tail is that of the last WAL with frames, when the highest frame is one of its own. -/
theorem recoveredTail_of_last {snapshot : Option IndexSnapshot} {fs : List (File (LogEntry V H))}
    (hsorted : (fs.map File.id).Pairwise (· < ·)) {q z : Spot (LogEntry V H)} (term : ℕ)
    (hlast : (replayedAll snapshot fs).getLast? = some q) (hz : z ∈ replayedAll snapshot fs)
    (hwal : z.walId = q.walId) (hpos : 0 < z.frame.lsn)
    (hle : ∀ p ∈ replayedAll snapshot fs, p.frame.lsn ≤ z.frame.lsn)
    (hterm : ∀ p ∈ replayedAll snapshot fs, p.frame.lsn = z.frame.lsn → p.frame.term = term) :
    recoveredTail snapshot fs = (z.frame.lsn, term) := by
  induction fs using List.reverseRecOn with
  | nil => simp [replayedAll] at hlast
  | append_singleton fs F ih =>
    have hall : replayedAll snapshot (fs ++ [F]) = replayedAll snapshot fs ++
      replayed snapshot F := by
      simp [replayedAll]
    rw [List.map_append, List.pairwise_append] at hsorted
    rw [hall] at hlast hz hle hterm
    rw [recoveredTail, List.map_append, List.foldl_append, List.map_singleton, List.foldl_cons,
      List.foldl_nil]
    by_cases hF : replayed snapshot F = []
    · rw [hF, List.append_nil] at hlast hz hle hterm
      rw [hF, foldTail_nil]
      exact ih hsorted.1 hlast hz hle hterm
    · rw [List.getLast?_append, List.getLast?_eq_some_getLast hF, Option.some_or] at hlast
      have hqF : q ∈ replayed snapshot F := Option.some.inj hlast ▸ List.getLast_mem hF
      have hzF : z ∈ replayed snapshot F := by
        rcases List.mem_append.mp hz with hz | hz
        · obtain ⟨E, hE, hzE⟩ := List.mem_flatMap.mp hz
          have hlt := hsorted.2.2 E.id (List.mem_map_of_mem hE) F.id (by simp)
          have hEid := walId_of_replayed hzE
          have hFid := walId_of_replayed hqF
          omega
        · exact hz
      have hft := fileTail_eq hzF hpos (fun p hp => hle p (List.mem_append_right _ hp))
        fun p hp => hterm p (List.mem_append_right _ hp)
      rw [foldTail, hft, if_neg (by simp only; omega)]

theorem Inv.recoveredTail_eq (h : Inv c history) :
    recoveredTail c.disk.snapshot c.disk.files = c.tail := by
  obtain ⟨A, hA, hcommitted, hlast, -, hsnap⟩ := h.resume.replayed
  have hmem : ∀ q ∈ replayedAll c.disk.snapshot c.disk.files, q ∈ spots c.disk.files :=
    fun q hq => replayedAll_subset h.resume.resume hq
  rcases List.eq_nil_or_concat c.pending with hnil | ⟨ps, z, hz⟩
  · rw [hnil, List.append_nil] at hA
    rcases List.eq_nil_or_concat A with rfl | ⟨B, y, rfl⟩
    · rw [replayedAll_eq_flatten] at hA
      rw [recoveredTail, foldl_foldTail_nil hA]
      rw [hsnap rfl (.inr hnil), h.log.tail_of_nil hnil]
    · obtain ⟨z, hz, hwal, hzlsn⟩ := hlast y (by simp)
      have hz : z ∈ replayedAll c.disk.snapshot c.disk.files := hA ▸ hz
      rw [recoveredTail_of_last h.files.sorted (committedTail history).2 (by rw [hA]; simp) hz hwal
        (h.log.positive z (hmem z hz)), h.log.tail_of_nil hnil, hzlsn, h.log.applied]
      · rw [hA, hzlsn]
        exact hcommitted
      · intro q hq heq
        exact h.log.term q (hmem q hq) (heq.trans hzlsn)
  · rw [List.concat_eq_append] at hz
    rw [hz, ← List.append_assoc] at hA
    have hzmem : z ∈ replayedAll c.disk.snapshot c.disk.files :=
      hA ▸ List.mem_append_right _ (List.mem_singleton_self z)
    rw [recoveredTail_of_last h.files.sorted z.frame.term (by rw [hA]; simp) hzmem rfl
      (h.log.positive z (hmem z hzmem)), h.log.last_of_pending hz]
    · intro q hq
      have := h.log.bound (hmem q hq)
      have hlast := congrArg Prod.fst (h.log.last_of_pending hz)
      simp only [Coll.tail] at hlast
      omega
    · intro q hq heq
      rw [h.log.unique q (hmem q hq) z (hmem z hzmem) heq]

theorem foldl_frame_committed {applied : Option ℕ} {qs : List (Spot (LogEntry V H))}
    (h : ∀ q ∈ qs, above applied q.frame.lsn = false) (r : Replayed V H) :
    qs.foldl (Replayed.frame applied) r =
      ⟨qs.foldl Index.replay r.index, r.pending,
        (qs.map fun q => q.frame.entry).foldl Settings.replay r.settings⟩ := by
  induction qs generalizing r with
  | nil => rfl
  | cons q qs ih =>
    have hq := h q List.mem_cons_self
    rw [List.foldl_cons, ih fun p hp => h p (List.mem_cons_of_mem _ hp), Replayed.frame, hq]
    rfl

theorem foldl_frame_staged {applied : Option ℕ} {qs : List (Spot (LogEntry V H))}
    (h : ∀ q ∈ qs, above applied q.frame.lsn = true) (r : Replayed V H)
    (hasc : (r.pending ++ qs).Pairwise fun q q' => q.frame.lsn < q'.frame.lsn) :
    qs.foldl (Replayed.frame applied) r =
      ⟨r.index, r.pending ++ qs,
        (qs.map fun q => q.frame.entry).foldl Settings.stage r.settings⟩ := by
  induction qs generalizing r with
  | nil => simp
  | cons q qs ih =>
    have hq := h q List.mem_cons_self
    have hstage : stageAt q r.pending = r.pending ++ [q] := by
      refine stageAt_append fun p hp => ?_
      exact (List.pairwise_append.mp hasc).2.2 p hp q List.mem_cons_self
    rw [List.foldl_cons, Replayed.frame, hq, if_pos rfl, ih fun p hp =>
      h p (List.mem_cons_of_mem _ hp), hstage]
    · simp
    · rw [hstage]
      simpa using hasc

/-- What a replay of the directory gives: the index and the staged frames of the collection. -/
theorem Inv.replay_eq (h : Inv c history) :
    ∃ A, replayedAll c.disk.snapshot c.disk.files = A ++ c.pending ∧
      (∀ q ∈ A, q.frame.lsn ≤ c.appliedLsn) ∧
      c.disk.replay (c.disk.appliedMeta.map fun _ => c.appliedLsn) = ⟨c.index, c.pending,
        (c.pending.map fun q => q.frame.entry).foldl Settings.stage
          ((A.map fun q => q.frame.entry).foldl Settings.replay c.disk.seed)⟩ := by
  obtain ⟨A, hA, hcommitted, -, hindex, -⟩ := h.resume.replayed
  refine ⟨A, hA, hcommitted, ?_⟩
  have hbelow : ∀ q ∈ A, above (c.disk.appliedMeta.map fun _ =>
    c.appliedLsn) q.frame.lsn = false := by
    intro q hq
    have := hcommitted q hq
    cases c.disk.appliedMeta with
    | none => rfl
    | some m =>
      simp only [above, Option.map_some, Option.any_some, decide_eq_false_iff_not]
      omega
  have habove : ∀ q ∈ c.pending, above (c.disk.appliedMeta.map fun _ =>
    c.appliedLsn) q.frame.lsn = true := by
    intro q hq
    have hlt := h.log.staged q hq
    cases hm : c.disk.appliedMeta with
    | none =>
      have := h.log.pending_mem hq
      rw [h.log.unwritten hm] at this
      simp at this
    | some m => simpa [above] using hlt
  rw [Disk.replay, hA, List.foldl_append, foldl_frame_committed hbelow,
    foldl_frame_staged habove _ (by simpa using h.log.ascending), ← hindex]
  simp

omit [Encoded (LogEntry V H)] in
theorem lt_nextWalId {fs : List (File (LogEntry V H))} (hsorted : (fs.map File.id).Pairwise (· < ·))
    {F : File (LogEntry V H)} (hF : F ∈ fs) : F.id < nextWalId fs := by
  rcases List.eq_nil_or_concat fs with rfl | ⟨pre, G, rfl⟩
  · simp at hF
  · rw [List.concat_eq_append] at hF hsorted ⊢
    have hnext : nextWalId (pre ++ [G]) = G.id + 1 := by simp [nextWalId]
    rw [List.map_append, List.pairwise_append] at hsorted
    rcases List.mem_append.mp hF with hF | hF
    · have := hsorted.2.2 _ (List.mem_map_of_mem hF) G.id (by simp)
      omega
    · rw [List.mem_singleton.mp hF]
      omega

def reopenedFiles (snapshot : Option IndexSnapshot) (fs : List (File (LogEntry V H))) :
    List (File (LogEntry V H)) :=
  openFile (nextWalId fs) (fs.map (settled snapshot))

section Files

variable {snapshot : Option IndexSnapshot} {fs : List (File (LogEntry V H))}
  (hsorted : (fs.map File.id).Pairwise (· < ·)) (hresume : ResumeOk snapshot fs)
  (hsizes : ∀ F ∈ fs, ∀ p ∈ F.chunks, 0 < p.size)

include hsorted

theorem settled_sorted : ((fs.map (settled snapshot)).map File.id).Pairwise (· < ·) := by
  have : (fs.map (settled snapshot)).map File.id = fs.map File.id := by
    rw [List.map_map]
    exact List.map_congr_left fun F _ => settled_id F
  rw [this]
  exact hsorted

theorem reopenedFiles_writer :
    ∃ G ∈ reopenedFiles snapshot fs, G.id = nextWalId fs ∧ G.chunks = [] := by
  obtain ⟨G, hG, hid⟩ := exists_mem_openFile (nextWalId fs) (fs.map (settled snapshot))
  refine ⟨G, hG, hid, ?_⟩
  rcases mem_openFile hG with hG' | rfl
  · obtain ⟨F, hF, rfl⟩ := List.mem_map.mp hG'
    have := lt_nextWalId hsorted hF
    rw [settled_id] at hid
    omega
  · rfl

theorem reopenedFiles_id_le {F : File (LogEntry V H)} (hF : F ∈ reopenedFiles snapshot fs) :
    F.id ≤ nextWalId fs := by
  rcases mem_openFile hF with hF' | rfl
  · obtain ⟨E, hE, rfl⟩ := List.mem_map.mp hF'
    rw [settled_id]
    exact Nat.le_of_lt (lt_nextWalId hsorted hE)
  · exact Nat.le_refl _

omit hsorted

include hresume hsizes

theorem reopenedFiles_spots : spots (reopenedFiles snapshot fs) = spots fs := by
  rw [← replayedAll_none, reopenedFiles, replayedAll_openFile, replayedAll_none, spots, spots,
    List.flatMap_map]
  exact List.flatMap_congr fun F hF => spots_settled (hsizes F hF) fun s hs => hresume s hs F hF

theorem reopenedFiles_replayed :
    replayedAll snapshot (reopenedFiles snapshot fs) = replayedAll snapshot fs := by
  rw [reopenedFiles, replayedAll_openFile, replayedAll, replayedAll, List.flatMap_map]
  exact List.flatMap_congr fun F hF => replayed_settled (hsizes F hF) fun s hs => hresume s hs F hF

theorem reopenedFiles_resumeOk (hnext : ∀ s ∈ snapshot, s.lastWalId ≠ nextWalId fs) :
    ResumeOk snapshot (reopenedFiles snapshot fs) := by
  refine ResumeOk.openFile (fun s hs F hF hid => ?_) hnext
  obtain ⟨E, hE, rfl⟩ := List.mem_map.mp hF
  rw [settled_id] at hid
  exact boundary_settled (hsizes E hE) (fun s hs => hresume s hs E hE) hs hid

theorem reopenedFiles_ended (hended : ∀ F ∈ fs, Ended F.chunks) :
    ∀ F ∈ reopenedFiles snapshot fs, Ended F.chunks := by
  intro F hF
  rcases mem_openFile hF with hF' | rfl
  · obtain ⟨E, hE, rfl⟩ := List.mem_map.mp hF'
    rcases settled_cases (hsizes E hE) fun s hs => hresume s hs E hE with
      ⟨-, hset⟩ | ⟨as, ws, rest, -, has, hws, -, hchunks, -⟩
    · rw [hset]
      exact hended E hE
    · rw [hchunks]
      exact (has.append hws).ended
  · exact ⟨[], by simp [Whole], .inl rfl⟩

end Files

def Coll.reopened (c : Coll V H) : Coll V H :=
  c.disk.opened (c.disk.appliedMeta.map fun _ => c.appliedLsn) c.posSeq

theorem Inv.open_eq (h : Inv c history) : c.disk.openCollection = .ok c.reopened := by
  obtain ⟨position, hpos, hseq, hrec⟩ := h.watermark.recorded
  obtain ⟨A, -, -, hreplay⟩ := h.replay_eq
  rw [Disk.openCollection, hrec, hpos]
  simp only [Except.bind, Disk.completeRecorded, h.files.noCut, hreplay, h.recoveredTail_eq, hseq]
  rw [if_neg]
  · rfl
  · rintro ⟨habove, hnil⟩
    have htail := congrArg Prod.fst (h.log.tail_of_nil hnil)
    have happlied := h.log.applied
    cases hm : c.disk.appliedMeta with
    | none => simp [hm, above] at habove
    | some m =>
      simp only [hm, above, Option.map_some, Option.any_some, decide_eq_true_eq] at habove
      simp only [Coll.tail] at htail habove
      omega

theorem Inv.reopened_applied (h : Inv c history) : c.reopened.appliedLsn = c.appliedLsn := by
  simp only [Coll.reopened, Disk.opened, h.recoveredTail_eq]
  cases hm : c.disk.appliedMeta with
  | some m => rfl
  | none =>
    have hnil : c.pending = [] := by
      refine List.eq_nil_iff_forall_not_mem.mpr fun q hq => ?_
      have := h.log.pending_mem hq
      rw [h.log.unwritten hm] at this
      simp at this
    have htail := congrArg Prod.fst (h.log.tail_of_nil hnil)
    simp only [Option.map_none, Option.getD_none]
    rw [h.log.applied, ← htail]

theorem Inv.reopened_index (h : Inv c history) : c.reopened.index = c.index := by
  obtain ⟨A, -, -, hreplay⟩ := h.replay_eq
  simp only [Coll.reopened, Disk.opened, hreplay]

theorem Inv.reopened_pending (h : Inv c history) : c.reopened.pending = c.pending := by
  obtain ⟨A, -, -, hreplay⟩ := h.replay_eq
  simp only [Coll.reopened, Disk.opened, hreplay]

theorem Inv.reopened_tail (h : Inv c history) : c.reopened.tail = c.tail := h.recoveredTail_eq

theorem Inv.reopened_spots (h : Inv c history) : spots c.reopened.disk.files = spots c.disk.files :=
  reopenedFiles_spots h.resume.resume h.files.sizes

theorem FilesOk.current_lt (h : FilesOk c) : c.currentWalId < nextWalId c.disk.files := by
  obtain ⟨G, hG, hid, -⟩ := h.writer
  exact hid ▸ lt_nextWalId h.sorted hG

theorem Inv.reopened_filesOk (h : Inv c history) : FilesOk c.reopened := by
  refine ⟨openFile_sorted (settled_sorted h.files.sorted),
    reopenedFiles_ended h.resume.resume h.files.sizes h.files.ended, ?_, ?_, h.files.noCut, ?_⟩
  · have hw : ∃ G ∈ reopenedFiles c.disk.snapshot c.disk.files,
        G.id = nextWalId c.disk.files ∧ G.chunks = [] := reopenedFiles_writer h.files.sorted
    obtain ⟨G, hG, hid, hnil⟩ := hw
    exact ⟨G, hG, hid, by simp [hnil, Whole], by rw [hnil]; rfl⟩
  · intro F hF hlt
    have hlt : nextWalId c.disk.files < F.id := hlt
    have := reopenedFiles_id_le h.files.sorted hF
    omega
  · intro F hF
    rcases mem_openFile hF with hF | rfl
    · obtain ⟨E, hE, rfl⟩ := List.mem_map.mp hF
      rw [settled_id]
      exact h.files.named E hE
    · exact Nat.succ_pos _

theorem Inv.reopened_logOk (h : Inv c history) : LogOk c.reopened history := by
  have hspots := h.reopened_spots
  have happlied := h.reopened_applied
  have hpending := h.reopened_pending
  have htail := h.reopened_tail
  constructor
  · rw [hspots, hpending, happlied]
    exact h.log.split
  · rw [hpending, happlied]
    exact h.log.staged
  · rw [hpending]
    exact h.log.ascending
  · rw [hspots]
    exact h.log.positive
  · rw [hspots]
    exact h.log.unique
  · rw [happlied]
    exact h.log.applied
  · rw [hspots, happlied]
    exact h.log.term
  · rw [htail, hpending]
    exact h.log.tail
  · intro hm
    rw [hspots]
    exact h.log.unwritten hm

theorem Located.of_spots {fs fs' : List (File (LogEntry V H))} {p : String × IndexEntry}
    (h : Located fs p) (hsub : ∀ q ∈ spots fs, q ∈ spots fs') : Located fs' p := by
  obtain ⟨q, hq, hp⟩ := h
  exact ⟨q, hsub q hq, hp⟩

theorem Inv.reopened_indexOk (h : Inv c history) : IndexOk c.reopened := by
  have hspots : ∀ q ∈ spots c.disk.files, q ∈ spots c.reopened.disk.files :=
    fun q hq => h.reopened_spots.symm ▸ hq
  constructor
  · rw [h.reopened_index]
    exact h.index.keys
  · rw [h.reopened_index]
    exact fun p hp => (h.index.located p hp).of_spots hspots
  · rw [h.reopened_index]
    exact fun p hp => Nat.lt_of_le_of_lt (Nat.zero_le _) (h.index.alive p hp)
  · rw [h.reopened_pending]
    exact fun q hq => Nat.lt_of_le_of_lt (Nat.zero_le _) (h.index.stagedAlive q hq)
  · exact Nat.lt_of_le_of_lt (Nat.zero_le _) h.files.current_lt
  · exact h.index.snapshotKeys
  · exact fun p hp => (h.index.snapshotLocated p hp).of_spots hspots
  · rw [h.reopened_index, h.reopened_applied]
    exact h.index.committed

theorem Inv.reopened_resumeInv (h : Inv c history) : ResumeInv c.reopened history := by
  have hnext : ∀ s ∈ c.disk.snapshot, s.lastWalId < nextWalId c.disk.files :=
    fun s hs => Nat.lt_of_le_of_lt (h.resume.resumeLe s hs) h.files.current_lt
  constructor
  · exact reopenedFiles_resumeOk h.resume.resume h.files.sizes fun s hs => Nat.ne_of_lt (hnext s hs)
  · exact fun s hs => Nat.le_of_lt (hnext s hs)
  · obtain ⟨A, hA, hcommitted, hlast, hindex, hsnap⟩ := h.resume.replayed
    refine ⟨A, ?_, ?_, ?_, ?_, ?_⟩
    · rw [h.reopened_pending, ← hA]
      exact reopenedFiles_replayed h.resume.resume h.files.sizes
    · rw [h.reopened_applied]
      exact hcommitted
    · rw [h.reopened_applied]
      exact hlast
    · rw [h.reopened_index]
      exact hindex
    · rw [h.reopened_applied, h.reopened_pending]
      exact hsnap

theorem Inv.reopened_watermarkOk (h : Inv c history) : WatermarkOk c.reopened := by
  obtain ⟨p, position, hp, hslots, hle, hmax⟩ := h.watermark.slots
  have happlied := h.reopened_applied
  refine ⟨rfl, ?_, ⟨p, position, ?_, hslots, ?_, ?_⟩, ?_, ?_⟩
  · rw [happlied]
    simp only [Coll.reopened, Disk.opened]
    cases hm : c.disk.appliedMeta with
    | none => exact (h.watermark.unrecorded hm).symm
    | some m => rfl
  · simp [Coll.reopened, Disk.opened, hp]
  · rw [happlied]
    exact hle
  · rw [happlied]
    exact hmax
  · intro hf
    simpa [Coll.reopened, Disk.opened] using hf
  · rw [happlied]
    exact h.watermark.unrecorded

theorem Inv.reopen (h : Inv c history) : Inv c.reopened history :=
  ⟨h.reopened_filesOk, h.reopened_logOk, h.reopened_indexOk, h.reopened_resumeInv,
    h.reopened_watermarkOk⟩

end DewDB.Recovery
