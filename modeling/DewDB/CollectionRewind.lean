import DewDB.CollectionSteps

/-!
# A truncation keeps the invariant

A frame that links below the tail drops the staged frames behind the one it links to. The cut is
made in front of the first of them, so that a replay reads what is in front of it, from the files
and from the snapshot.
-/
namespace DewDB.Recovery

open CollectionLog WalFile WalWriter StorageEntry

variable {V H : Type} [Encoded (LogEntry V H)] {c : Coll V H}
  {history : List (Frame (LogEntry V H))} {prevLsn prevTerm : ℕ} {cut : WalCut}

omit [Encoded (LogEntry V H)] in
theorem filter_le_of_split {P R : List (Spot (LogEntry V H))} {q : Spot (LogEntry V H)} {lsn : ℕ}
    (hasc : (P ++ q :: R).Pairwise fun q q' => q.frame.lsn < q'.frame.lsn)
    (hP : ∀ p ∈ P, p.frame.lsn ≤ lsn) (hq : lsn < q.frame.lsn) :
    (P ++ q :: R).filter (fun p => p.frame.lsn ≤ lsn) = P := by
  have hR : ∀ p ∈ R, lsn < p.frame.lsn := fun p hp =>
    Nat.lt_trans hq ((List.pairwise_cons.mp (List.pairwise_append.mp hasc).2.1).1 p hp)
  rw [List.filter_append, List.filter_eq_self.mpr fun p hp => decide_eq_true (hP p hp),
    List.filter_eq_nil_iff.mpr, List.append_nil]
  intro p hp
  have : lsn < p.frame.lsn := by
    rcases List.mem_cons.mp hp with rfl | hp
    · exact hq
    · exact hR p hp
  simp only [decide_eq_true_eq]
  omega

/-- A cut is made in front of a staged frame, behind the one that is linked to or at the watermark.
-/
theorem LogOk.cutAt_cases (h : LogOk c history) (hcut : c.cutAt prevLsn prevTerm = some cut) :
    ∃ P q R, c.pending = P ++ q :: R ∧ c.pending.filter (fun p => p.frame.lsn ≤ prevLsn) = P ∧
      cut = ⟨q.walId, q.offset, prevLsn, prevTerm⟩ ∧ c.appliedLsn ≤ prevLsn ∧
      (P = [] ∧ prevLsn = c.appliedLsn ∨
        ∃ ps z, P = ps ++ [z] ∧ z.frame.lsn = prevLsn ∧ z.frame.term = prevTerm) := by
  unfold Coll.cutAt at hcut
  split at hcut
  · cases hcut
  next hge =>
  split at hcut
  · cases hcut
  next hterm =>
  split at hcut
  · cases hcut
  next hstaged =>
  obtain ⟨q, hfind, rfl⟩ := Option.map_eq_some_iff.mp hcut
  obtain ⟨hq, P, R, hpending, hP⟩ := List.find?_eq_some_iff_append.mp hfind
  have hq : prevLsn < q.frame.lsn := of_decide_eq_true hq
  have hP : ∀ p ∈ P, p.frame.lsn ≤ prevLsn := fun p hp => by simpa using hP p hp
  have hasc := h.ascending
  rw [hpending] at hasc
  refine ⟨P, q, R, hpending, ?_, rfl, Nat.le_of_not_lt hge, ?_⟩
  · rw [hpending]
    exact filter_le_of_split hasc hP hq
  · cases hs : c.stagedTerm prevLsn with
    | none =>
      -- Nothing staged up to the watermark.
      have heq : prevLsn = c.appliedLsn := by
        by_contra hne
        exact hstaged ⟨by rw [hs]; rfl, hne⟩
      refine .inl ⟨List.eq_nil_iff_forall_not_mem.mpr fun p hp => ?_, heq⟩
      have := h.staged p (hpending ▸ List.mem_append_left _ hp)
      have := hP p hp
      omega
    | some t =>
      obtain ⟨z, hz, rfl⟩ := Option.map_eq_some_iff.mp hs
      have hzlsn : z.frame.lsn = prevLsn := by simpa using List.find?_some hz
      have hzterm : z.frame.term = prevTerm := by simpa [hs] using hterm
      have hzP : z ∈ P := by
        have hmem := List.mem_of_find?_eq_some hz
        rw [hpending] at hmem
        rcases List.mem_append.mp hmem with hmem | hmem
        · exact hmem
        · rcases List.mem_cons.mp hmem with rfl | hmem
          · omega
          · have := (List.pairwise_cons.mp (List.pairwise_append.mp hasc).2.1).1 z hmem
            omega
      obtain ⟨ps, y, rfl⟩ : ∃ ps y, P = ps ++ [y] := by
        rcases List.eq_nil_or_concat P with rfl | ⟨ps, y, hy⟩
        · simp at hzP
        · exact ⟨ps, y, by rw [hy, List.concat_eq_append]⟩
      refine .inr ⟨ps, z, ?_, hzlsn, hzterm⟩
      rcases List.mem_append.mp hzP with hlt | heq
      · have := (List.pairwise_append.mp (List.pairwise_append.mp hasc).1).2.2 z hlt y
          (List.mem_singleton_self y)
        have := hP y (List.mem_append_right _ (List.mem_singleton_self y))
        omega
      · rw [List.mem_singleton.mp heq]

section Snapshots

/-- The tail of a snapshot does not matter to what a replay from it reads. -/
theorem replayedAll_map {snapshot : Option IndexSnapshot} {g : IndexSnapshot → IndexSnapshot}
    (hid : ∀ s, (g s).lastWalId = s.lastWalId) (hoff : ∀ s, (g s).lastOffset = s.lastOffset)
    (fs : List (File (LogEntry V H))) :
    replayedAll (snapshot.map g) fs = replayedAll snapshot fs := by
  have hres : ∀ F : File (LogEntry V H), resumeIn (snapshot.map g) F = resumeIn snapshot F := by
    intro F
    cases snapshot with
    | none => rfl
    | some s => simp only [Option.map_some, resumeIn, hid, hoff]
  exact List.flatMap_congr fun F _ => by simp only [replayed, hres]

theorem ResumeOk.map {snapshot : Option IndexSnapshot} {g : IndexSnapshot → IndexSnapshot}
    {fs : List (File (LogEntry V H))} (h : ResumeOk snapshot fs)
    (hid : ∀ s, (g s).lastWalId = s.lastWalId) (hoff : ∀ s, (g s).lastOffset = s.lastOffset) :
    ResumeOk (snapshot.map g) fs := by
  intro s hs F hF hF'
  obtain ⟨s', hs', rfl⟩ := Option.mem_map.mp hs
  rw [hoff]
  exact h s' hs' F hF (hF'.trans (hid s'))

theorem resume_le_of_replayed {s : IndexSnapshot} (fs : List (File (LogEntry V H)))
    {q : Spot (LogEntry V H)} (hq : q ∈ replayedAll (some s) fs) : s.lastWalId ≤ q.walId := by
  obtain ⟨F, -, hq⟩ := List.mem_flatMap.mp hq
  rw [walId_of_replayed hq]
  by_contra hlt
  rw [replayed_below (by omega)] at hq
  simp at hq

end Snapshots

def loweredTail (lsn term : ℕ) (s : IndexSnapshot) : IndexSnapshot :=
  if s.lastLsn ≤ lsn then s else { s with
    lastLsn := lsn
    lastTerm := term }

omit [Encoded (LogEntry V H)] in
theorem loweredTail_eq (lsn term : ℕ) (s : IndexSnapshot) :
    (loweredTail lsn term s).lastWalId = s.lastWalId ∧
      (loweredTail lsn term s).lastOffset = s.lastOffset ∧
      (loweredTail lsn term s).map = s.map := by
  unfold loweredTail
  split
  · exact ⟨rfl, rfl, rfl⟩
  · exact ⟨rfl, rfl, rfl⟩

omit [Encoded (LogEntry V H)] in
theorem snapshotMap_lowered (snapshot : Option IndexSnapshot) (lsn term : ℕ) :
    snapshotMap (snapshot.map (loweredTail lsn term)) = snapshotMap snapshot := by
  cases snapshot with
  | none => rfl
  | some s => exact (loweredTail_eq lsn term s).2.2

omit [Encoded (LogEntry V H)] in
theorem snapshotTail_lowered (snapshot : Option IndexSnapshot) (lsn term : ℕ) :
    snapshotTail (snapshot.map (loweredTail lsn term)) =
      if (snapshotTail snapshot).1 ≤ lsn then snapshotTail snapshot else (lsn, term) := by
  cases snapshot with
  | none => rfl
  | some s =>
    by_cases hle : s.lastLsn ≤ lsn
    · simp [snapshotTail, loweredTail, hle]
    · simp [snapshotTail, loweredTail, hle]

/-- The collection that a truncation in front of `q` leaves. -/
def Coll.truncated (c : Coll V H) (P : List (Spot (LogEntry V H))) (q : Spot (LogEntry V H))
    (g : IndexSnapshot → IndexSnapshot) (tail : ℕ × ℕ) : Coll V H :=
  { c with
    disk := { c.disk with
      files := truncatedAt q c.disk.files
      snapshot := c.disk.snapshot.map g }
    pending := P
    currentWalId := q.walId
    currentWalSize := q.offset
    lastAppendedLsn := tail.1
    lastAppendedTerm := tail.2 }

theorem rewind_eq {q : Spot (LogEntry V H)} (hq : q ∈ spots c.disk.files) :
    c.rewind ⟨q.walId, q.offset, prevLsn, prevTerm⟩ =
      c.truncated (c.pending.filter fun p => p.frame.lsn ≤ prevLsn) q (loweredTail prevLsn prevTerm)
        (prevLsn, prevTerm) := by
  obtain ⟨F, hF, hid, -⟩ := walId_of_spots hq
  have hany : c.disk.files.any (fun F => F.id == q.walId) = true :=
    List.any_eq_true.mpr ⟨F, hF, beq_iff_eq.mpr hid⟩
  have htrunc : truncateFiles ⟨q.walId, q.offset, prevLsn, prevTerm⟩ .done c.disk.files =
      .ok (truncatedAt q c.disk.files) := if_pos hany
  unfold Coll.rewind
  dsimp only [Coll.rewindIndexTail, Coll.dropAbove]
  rw [htrunc]
  rfl

theorem rewind_meta (c : Coll V H) (cut : WalCut) :
    (c.rewind cut).disk.appliedMeta = c.disk.appliedMeta := by
  unfold Coll.rewind
  dsimp only
  split <;> rfl

theorem FilesOk.truncated (h : FilesOk c) {P A B : List (Spot (LogEntry V H))}
    {q : Spot (LogEntry V H)}
    (hq : spots c.disk.files = A ++ q :: B) (g : IndexSnapshot → IndexSnapshot) (tail : ℕ × ℕ) :
    FilesOk (c.truncated P q g tail) := by
  rw [← replayedAll_none] at hq
  obtain ⟨pre, G, post, A', B', hfs, hid, hpre, hpost, -, hG⟩ := replayedAll_split h.sorted hq
  have hGmem : G ∈ c.disk.files := hfs ▸ List.mem_append_right _ List.mem_cons_self
  rw [replayed_none] at hG
  obtain ⟨as, bs, hc, hwhole, -, -, hoff⟩ := layout_split hG
  rw [Nat.zero_add] at hoff
  have hsize := h.sizes G hGmem
  have hchunks : ((G.setLen q.offset).sync).chunks = as := by
    have : takeBytes (bytes as) (as ++ .frame q.frame :: bs) = as :=
      takeBytes_append fun p hp => hsize p (hc ▸ List.mem_append_right _ hp)
    rw [← hoff, ← hc] at this
    exact this
  have hsplit := truncatedAt_split (q := q) hid hpre hpost
  have hempty : ∀ F ∈ post.map (File.setLen 0), F.chunks = [] := by
    intro F hF
    obtain ⟨E, hE, rfl⟩ := List.mem_map.mp hF
    exact setLen_zero_chunks E
      (h.sizes E (hfs ▸ List.mem_append_right _ (List.mem_cons_of_mem _ hE)))
  have hfiles : (c.truncated P q g tail).disk.files =
      pre ++ (G.setLen q.offset).sync :: post.map (File.setLen 0) := by
    rw [← hsplit, ← hfs]
    rfl
  have hids : (c.truncated P q g tail).disk.files.map File.id = c.disk.files.map File.id := by
    have hmap : (post.map (File.setLen 0)).map File.id = post.map File.id := by
      rw [List.map_map]
      rfl
    rw [hfiles, hfs, List.map_append, List.map_append, List.map_cons, List.map_cons, hmap]
    rfl
  refine ⟨hids ▸ h.sorted, ?_, ?_, ?_, h.noCut, ?_⟩
  · intro F hF
    rw [hfiles] at hF
    rcases List.mem_append.mp hF with hF | hF
    · exact h.ended F (hfs ▸ List.mem_append_left _ hF)
    · rcases List.mem_cons.mp hF with rfl | hF
      · rw [hchunks]
        exact hwhole.ended
      · rw [hempty F hF]
        exact ⟨[], by simp [Whole], .inl rfl⟩
  · refine ⟨(G.setLen q.offset).sync, ?_, hid.symm, ?_, ?_⟩
    · rw [hfiles]
      exact List.mem_append_right _ List.mem_cons_self
    · rw [hchunks]
      exact hwhole
    · rw [hchunks]
      exact hoff.symm
  · intro F hF hlt
    have hlt : q.walId < F.id := hlt
    rw [hfiles] at hF
    rcases List.mem_append.mp hF with hF | hF
    · have := hpre F hF
      omega
    · rcases List.mem_cons.mp hF with rfl | hF
      · have hlt : q.walId < G.id := hlt
        omega
      · exact hempty F hF
  · intro F hF
    have hFid : F.id ∈ c.disk.files.map File.id := hids ▸ List.mem_map_of_mem hF
    obtain ⟨E, hE, hEF⟩ := List.mem_map.mp hFid
    rw [← hEF]
    exact h.named E hE

/-- A truncation in front of a staged frame, which leaves the snapshot's position and map. -/
theorem Inv.truncated (h : Inv c history) {P R : List (Spot (LogEntry V H))}
    {q : Spot (LogEntry V H)}
    (hpending : c.pending = P ++ q :: R) {g : IndexSnapshot → IndexSnapshot} {tail : ℕ × ℕ}
    (hid : ∀ s, (g s).lastWalId = s.lastWalId) (hoff : ∀ s, (g s).lastOffset = s.lastOffset)
    (hmap : snapshotMap (c.disk.snapshot.map g) = snapshotMap c.disk.snapshot)
    (htail : tail = (P.getLast?.map fun q => (q.frame.lsn, q.frame.term)).getD
      (committedTail history))
    (hblank : replayedAll c.disk.snapshot (truncatedAt q c.disk.files) = P →
      (snapshotTail (c.disk.snapshot.map g)).1 ≤ c.appliedLsn ∨ P = [] →
        snapshotTail (c.disk.snapshot.map g) = committedTail history) :
    Inv (c.truncated P q g tail) history := by
  have hqmem : q ∈ spots c.disk.files :=
    h.log.pending_mem (hpending ▸ List.mem_append_right _ List.mem_cons_self)
  obtain ⟨A, hA, hcommitted⟩ := h.log.split
  rw [hpending, ← List.append_assoc] at hA
  have hspots : spots (truncatedAt q c.disk.files) = A ++ P := by
    have := (replayedAll_truncatedAt h.files.sorted (resumeOk_none _) h.files.sizes
      (by rw [replayedAll_none]; exact hA)).1
    rwa [replayedAll_none] at this
  have hsub : ∀ p ∈ spots (truncatedAt q c.disk.files), p ∈ spots c.disk.files := by
    intro p hp
    rw [hspots] at hp
    rw [hA]
    exact List.mem_append_left _ hp
  have hPsub : ∀ p ∈ P, p ∈ c.pending := fun p hp => hpending ▸ List.mem_append_left _ hp
  obtain ⟨A', hA', hcommitted', hlast', hindex, -⟩ := h.resume.replayed
  rw [hpending, ← List.append_assoc] at hA'
  obtain ⟨hreplayed, hresume⟩ :=
    replayedAll_truncatedAt h.files.sorted h.resume.resume h.files.sizes hA'
  -- A committed frame lies in front of the cut.
  have hlocated : ∀ p : String × IndexEntry, p.2.lsn ≤ c.appliedLsn → Located c.disk.files p →
      Located (truncatedAt q c.disk.files) p := by
    intro p hple hp
    obtain ⟨r, hr, hres⟩ := hp
    refine ⟨r, ?_, hres⟩
    obtain ⟨he, -⟩ := resolve_put hres
    have hrle : r.frame.lsn ≤ c.appliedLsn := by rw [← entryOf_lsn, ← he]; exact hple
    rw [hA] at hr
    rw [hspots]
    rcases List.mem_append.mp hr with hr | hr
    · exact hr
    · have := h.log.staged r (hpending ▸ List.mem_append_right _ hr)
      omega
  refine ⟨h.files.truncated hA g tail, ?_, ?_, ?_, ?_⟩
  · refine ⟨⟨A, hspots, hcommitted⟩, fun p hp => h.log.staged p (hPsub p hp), ?_,
      fun p hp => h.log.positive p (hsub p hp),
      fun p hp p' hp' => h.log.unique p (hsub p hp) p' (hsub p' hp'), h.log.applied,
      fun p hp => h.log.term p (hsub p hp), htail, fun hm => ?_⟩
    · have hasc := h.log.ascending
      rw [hpending] at hasc
      exact (List.pairwise_append.mp hasc).1
    · have hnil := h.log.unwritten hm
      rw [hnil] at hqmem
      simp at hqmem
  · refine ⟨h.index.keys, fun p hp => hlocated p ?_ (h.index.located p hp), h.index.alive,
      fun p hp => h.index.stagedAlive p (hPsub p hp),
      h.index.stagedAlive q (hpending ▸ List.mem_append_right _ List.mem_cons_self), ?_, ?_, ?_⟩
    · exact h.index.committed p (List.mem_append_left _ hp)
    · simp only [Coll.truncated, hmap]
      exact h.index.snapshotKeys
    · simp only [Coll.truncated, hmap]
      exact fun p hp => hlocated p (h.index.committed p (List.mem_append_right _ hp))
        (h.index.snapshotLocated p hp)
    · simp only [Coll.truncated, hmap]
      exact h.index.committed
  · refine ⟨hresume.map hid hoff, ?_, ⟨A', ?_, hcommitted', hlast', ?_, ?_⟩⟩
    · intro s hs
      obtain ⟨s', hs', rfl⟩ := Option.mem_map.mp hs
      rw [hid]
      have hsome : c.disk.snapshot = some s' := hs'
      refine resume_le_of_replayed c.disk.files ?_
      rw [← hsome, hA']
      exact List.mem_append_right _ List.mem_cons_self
    · exact (replayedAll_map hid hoff _).trans hreplayed
    · simp only [Coll.truncated, hmap]
      exact hindex
    · intro hnil
      rw [hnil, List.nil_append] at hreplayed
      exact hblank hreplayed
  · exact ⟨h.watermark.clean, h.watermark.saved, h.watermark.slots, h.watermark.flag,
      h.watermark.unrecorded⟩

theorem Inv.blank (h : Inv c history) {P R : List (Spot (LogEntry V H))} {q : Spot (LogEntry V H)}
    (hpending : c.pending = P ++ q :: R)
    (hP : replayedAll c.disk.snapshot (truncatedAt q c.disk.files) = P)
    (hle : (snapshotTail c.disk.snapshot).1 ≤ c.appliedLsn) :
    snapshotTail c.disk.snapshot = committedTail history := by
  obtain ⟨A, hA, -, -, -, hsnap⟩ := h.resume.replayed
  refine hsnap ?_ (.inl hle)
  rw [hpending, ← List.append_assoc] at hA
  have hreplayed := (replayedAll_truncatedAt h.files.sorted h.resume.resume h.files.sizes hA).1
  rw [hP] at hreplayed
  exact List.self_eq_append_left.mp hreplayed

/-- A truncation to a frame that is linked to; at the watermark, that is the frame committed there.
-/
theorem Inv.rewind (h : Inv c history) (hcut : c.cutAt prevLsn prevTerm = some cut)
    (hlink : prevLsn = c.appliedLsn → prevTerm = (committedTail history).2) :
    Inv (c.rewind cut) history ∧ (c.rewind cut).tail = (prevLsn, prevTerm) := by
  obtain ⟨P, q, R, hpending, hP, rfl, hge, hcases⟩ := h.log.cutAt_cases hcut
  have hqmem : q ∈ spots c.disk.files :=
    h.log.pending_mem (hpending ▸ List.mem_append_right _ List.mem_cons_self)
  rw [rewind_eq hqmem, hP]
  refine ⟨h.truncated hpending (fun s => (loweredTail_eq prevLsn prevTerm s).1)
    (fun s => (loweredTail_eq prevLsn prevTerm s).2.1) (snapshotMap_lowered _ _ _) ?_ ?_, rfl⟩
  · rcases hcases with ⟨rfl, heq⟩ | ⟨ps, z, rfl, rfl, rfl⟩
    · rw [hlink heq, heq, h.log.applied]
      rfl
    · simp
  · intro hread hor
    rw [snapshotTail_lowered] at hor ⊢
    have heq : prevLsn = c.appliedLsn ∨ (snapshotTail c.disk.snapshot).1 ≤ c.appliedLsn := by
      rcases hor with hle | hnil
      · split at hle
        · exact .inr hle
        · exact .inl (Nat.le_antisymm hle hge)
      · rcases hcases with ⟨-, heq⟩ | ⟨ps, z, hps, -⟩
        · exact .inl heq
        · simp [hps] at hnil
    split
    · next hle =>
      refine h.blank hpending hread ?_
      rcases heq with heq | heq
      · exact heq ▸ hle
      · exact heq
    · next hgt =>
      rcases heq with heq | heq
      · rw [hlink heq, heq, h.log.applied]
      · omega

end DewDB.Recovery
