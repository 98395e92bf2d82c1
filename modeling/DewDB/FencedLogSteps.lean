import DewDB.FencedLogInv

/-!
# The operations keep the log in one chain

One lemma per operation on a log that is not fenced, and from them what an append, a truncation and
a restart leave, wherever they fail.
-/
namespace DewDB.FencedLog

open CollectionLog WalFile StorageEntry Recovery
open WalWriter (WalCut CutIo RotateIo WriteIo truncateFiles)

variable {V H : Type} [Encoded (LogEntry V H)] {limit : ℕ} {s t : Log V H}

section Chains

omit [Encoded (LogEntry V H)] in
theorem committedTail_eq (history : List (Frame (LogEntry V H))) :
    committedTail history = (lsnOf history, termOf history) := by
  rcases List.eq_nil_or_concat history with rfl | ⟨ps, z, rfl⟩
  · rfl
  · simp [committedTail]

theorem tail_of_kept {c : Coll V H} {history frames : List (Frame (LogEntry V H))}
    (h : LogOk c history) (hkept : frames = history ++ c.pending.map Spot.frame) :
    c.lastAppendedLsn = lsnOf frames ∧ c.lastAppendedTerm = termOf frames := by
  have htail : (c.lastAppendedLsn, c.lastAppendedTerm) = _ := h.tail
  rw [hkept]
  rcases List.eq_nil_or_concat c.pending with hnil | ⟨ps, z, hz⟩
  · rw [hnil] at htail ⊢
    simp only [List.getLast?_nil, Option.map_none, Option.getD_none, committedTail_eq,
      Prod.mk.injEq] at htail
    simpa using htail
  · rw [hz, List.concat_eq_append] at htail ⊢
    simp only [List.getLast?_append, List.getLast?_singleton, Option.some_or, Option.map_some,
      Option.getD_some, Prod.mk.injEq] at htail
    rw [List.map_append, ← List.append_assoc, List.map_singleton, lsnOf_concat, termOf_concat]
    exact htail

theorem Ready.tail (h : Ready limit s) :
    s.coll.lastAppendedLsn = lsnOf s.frames ∧ s.coll.lastAppendedTerm = termOf s.frames := by
  have hkept : s.frames = s.history ++ s.base.pending.map Spot.frame := h.kept
  have htail := tail_of_kept h.inv.log hkept
  exact htail

omit [Encoded (LogEntry V H)] in
theorem lsnOf_mem (fs : List (Frame (LogEntry V H))) :
    lsnOf fs = 0 ∨ ∃ f ∈ fs, f.lsn = lsnOf fs := by
  rcases List.eq_nil_or_concat fs with rfl | ⟨ps, z, rfl⟩
  · exact .inl rfl
  · exact .inr ⟨z, by simp, by simp⟩

theorem Ready.spots_ascending (h : Ready limit s) :
    s.spots.Pairwise fun q q' => q.frame.lsn < q'.frame.lsn := by
  have hasc := h.chained.ascending
  rwa [Log.frames, List.pairwise_map] at hasc

end Chains

section Recent

variable {r : RecentFrames} {qs P R : List (Spot (LogEntry V H))}
  {z : Spot (LogEntry V H)} {lsn : ℕ}

omit [Encoded (LogEntry V H)]

theorem rdropWhile_append {α : Type} {p : α → Bool} {as bs : List α} (has : ∀ a ∈ as, p a = false)
    (hbs : ∀ b ∈ bs, p b = true) : (as ++ bs).rdropWhile p = as := by
  induction bs using List.reverseRecOn with
  | nil =>
    rw [List.append_nil]
    rcases List.eq_nil_or_concat as with rfl | ⟨ps, a, rfl⟩
    · rfl
    · rw [List.concat_eq_append] at has ⊢
      rw [List.rdropWhile_concat_neg _ _ _ (by simp [has a])]
  | append_singleton bs b ih =>
    rw [← List.append_assoc, List.rdropWhile_concat_pos _ _ _ (hbs b (by simp))]
    exact ih fun b hb => hbs b (List.mem_append_left _ hb)

theorem RecentOk.push (h : RecentOk r qs)
    (hasc : (qs.filter fun q => r.floor < q.frame.lsn).Pairwise fun q q' =>
      q.frame.lsn < q'.frame.lsn)
    (hlt : ∀ q ∈ qs, q.frame.lsn < z.frame.lsn) (hfloor : r.floor < z.frame.lsn) :
    RecentOk (r.push (frameSpot z)) (qs ++ [z]) ∧ r.floor ≤ (r.push (frameSpot z)).floor ∧
      (r.push (frameSpot z)).floor ≤ z.frame.lsn := by
  have hordered : ¬(r.spots.getLast?.any fun last => (frameSpot z).lsn ≤ last.lsn) = true := by
    intro hany
    obtain ⟨last, hlast, hle⟩ := (Option.any_eq_true _ _).mp hany
    have hmem := List.mem_of_getLast? hlast
    rw [h] at hmem
    obtain ⟨q, hq, rfl⟩ := List.mem_map.mp hmem
    have := hlt q (List.mem_of_mem_filter hq)
    have hle : z.frame.lsn ≤ q.frame.lsn := of_decide_eq_true hle
    omega
  have hz : ([z].filter fun q => r.floor < q.frame.lsn) = [z] := by simp [hfloor]
  unfold RecentFrames.push
  rw [if_neg hordered]
  split
  · cases hspots : r.spots with
    | nil =>
      refine ⟨?_, Nat.le_refl _, Nat.le_of_lt hfloor⟩
      rw [RecentOk, hspots] at h
      simp only [RecentOk, List.filter_append, List.map_append, ← h, hz]
      rfl
    | cons oldest rest =>
      rw [RecentOk, hspots] at h
      obtain ⟨o, os, hos, rfl, rfl⟩ : ∃ o os, (qs.filter fun q => r.floor < q.frame.lsn) = o :: os ∧
          oldest = frameSpot o ∧ rest = os.map frameSpot := by
        cases hf : qs.filter fun q => r.floor < q.frame.lsn with
        | nil =>
          rw [hf] at h
          cases h
        | cons o os =>
          rw [hf, List.map_cons] at h
          obtain ⟨ho, hos⟩ := List.cons.inj h
          exact ⟨o, os, rfl, ho, hos⟩
      have hmem : o ∈ qs.filter fun q => r.floor < q.frame.lsn := hos ▸ List.mem_cons_self
      have holt := hlt o (List.mem_of_mem_filter hmem)
      have hfo : r.floor < o.frame.lsn := of_decide_eq_true (List.mem_filter.mp hmem).2
      refine ⟨?_, Nat.le_of_lt hfo, Nat.le_of_lt holt⟩
      have habove : (qs.filter fun q => o.frame.lsn < q.frame.lsn) = os := by
        have hcomp : (qs.filter fun q => o.frame.lsn < q.frame.lsn) =
            (qs.filter fun q => r.floor < q.frame.lsn).filter fun q =>
              o.frame.lsn < q.frame.lsn := by
          rw [List.filter_filter]
          refine List.filter_congr fun q _ => ?_
          by_cases hq : o.frame.lsn < q.frame.lsn
          · simp [hq, Nat.lt_trans hfo hq]
          · simp [hq]
        rw [hos] at hasc
        rw [hcomp, hos, List.filter_cons_of_neg (by simp), List.filter_eq_self]
        intro q hq
        exact decide_eq_true ((List.pairwise_cons.mp hasc).1 q hq)
      have hz' : ([z].filter fun q => o.frame.lsn < q.frame.lsn) = [z] := by simp [holt]
      have hfloor' : (frameSpot o).lsn = o.frame.lsn := rfl
      simp only [RecentOk, List.filter_append, List.map_append, hfloor', habove, hz']
      rfl
  · refine ⟨?_, Nat.le_refl _, Nat.le_of_lt hfloor⟩
    simp only [RecentOk, List.filter_append, List.map_append, hz]
    rw [h]
    rfl

theorem RecentOk.cut (h : RecentOk r (P ++ R)) (hP : ∀ q ∈ P, q.frame.lsn ≤ lsn)
    (hR : ∀ q ∈ R, lsn < q.frame.lsn) : RecentOk (r.cut lsn) P ∧ (r.cut lsn).floor ≤ lsn := by
  refine ⟨?_, Nat.min_le_right _ _⟩
  have hspots : (r.cut lsn).spots = (P.filter fun q => r.floor < q.frame.lsn).map frameSpot := by
    rw [RecentFrames.cut, h, List.filter_append, List.map_append]
    refine rdropWhile_append ?_ ?_
    · intro a ha
      obtain ⟨q, hq, rfl⟩ := List.mem_map.mp ha
      exact decide_eq_false (Nat.not_lt.mpr (hP q (List.mem_of_mem_filter hq)))
    · intro b hb
      obtain ⟨q, hq, rfl⟩ := List.mem_map.mp hb
      exact decide_eq_true (hR q (List.mem_of_mem_filter hq))
  rw [RecentOk, hspots]
  congr 1
  refine List.filter_congr fun q hq => ?_
  have := hP q hq
  have hmin : (r.cut lsn).floor = min r.floor lsn := rfl
  rw [hmin]
  by_cases hfloor : r.floor < q.frame.lsn
  · simp [hfloor]
  · have : ¬min r.floor lsn < q.frame.lsn := by omega
    simp [hfloor, this]

end Recent

section Writing

theorem Ready.of_same (h : Ready limit s) (hfence : t.truncationFence = none)
    (hinv : Inv t.base t.history)
    (hspots : t.spots = s.spots) (hpending : t.coll.pending = s.coll.pending)
    (hlast : t.coll.lastAppendedLsn = s.coll.lastAppendedLsn) (hhistory : t.history = s.history)
    (hhandle : t.handle ≤ t.coll.currentWalId)
    (hfull : t.handle = t.coll.currentWalId ∨ limit ≤ t.coll.currentWalSize)
    (hdurable : t.durableLsn = s.durableLsn) (hrecent : t.recentFrames = s.recentFrames)
    (hnext : s.nextLsn ≤ t.nextLsn) : Ready limit t := by
  have hframes : t.frames = s.frames := by rw [Log.frames, hspots, Log.frames]
  refine ⟨hfence, hinv, ?_, ?_, hhandle, hfull, ?_, ?_, ?_, ?_⟩
  · rw [hframes, hpending, hhistory]
    exact h.kept
  · rw [hframes]
    exact h.chained
  · rw [hlast]
    exact Nat.le_trans h.last_le hnext
  · rw [hframes, hdurable]
    exact h.durable
  · rw [hrecent, hspots]
    exact h.recent
  · rw [hrecent, hlast]
    exact h.floor_le

theorem Ready.record (h : Ready limit s) : Ready limit
    { s with coll := s.coll.recordWatermarkOnce } := by
  have hinv := h.inv.recordOnce
  have hbase : s.base.recordWatermarkOnce =
    { s.coll.recordWatermarkOnce with currentWalId := s.handle } := by
    unfold Coll.recordWatermarkOnce Log.base
    split <;> rfl
  rw [hbase] at hinv
  have hsame : s.coll.recordWatermarkOnce.disk.files = s.coll.disk.files ∧
      s.coll.recordWatermarkOnce.pending = s.coll.pending ∧
      s.coll.recordWatermarkOnce.lastAppendedLsn = s.coll.lastAppendedLsn ∧
      s.coll.recordWatermarkOnce.currentWalId = s.coll.currentWalId ∧
      s.coll.recordWatermarkOnce.currentWalSize = s.coll.currentWalSize := by
    unfold Coll.recordWatermarkOnce
    split <;> exact ⟨rfl, rfl, rfl, rfl, rfl⟩
  obtain ⟨hfiles, hpending, hlast, hid, hsize⟩ := hsame
  refine h.of_same h.unfenced hinv ?_ hpending hlast rfl ?_ ?_ rfl rfl (Nat.le_refl _)
  · simp only [Log.spots, hfiles]
  · simp only [hid]
    exact h.handle_le
  · simp only [hid, hsize]
    exact h.full

theorem Ready.sync (h : Ready limit s) :
    Ready limit { s with coll := s.coll.setFiles (onFile s.handle File.sync s.coll.disk.files) } :=
  h.of_same h.unfenced h.inv.sync (spots_sync _ _) rfl rfl rfl h.handle_le h.full rfl rfl
    (Nat.le_refl _)

theorem Ready.opened (h : Ready limit s) :
    Ready limit { s with
      coll := s.coll.openNextWal
      handle := s.coll.currentWalId + 1 } :=
  h.of_same h.unfenced (h.inv.openAbove (Nat.lt_succ_of_le h.handle_le))
    (spots_openFile _ _) rfl rfl rfl (Nat.le_refl _) (.inl rfl) rfl rfl (Nat.le_refl _)

theorem Ready.rotate_ok (h : Ready limit s) {io : RotateIo} (ht : s.rotateIfFull limit io = .ok t) :
    Ready limit t ∧ t.handle = t.coll.currentWalId ∧
      t.coll.disk.appliedMeta = s.coll.disk.appliedMeta ∧
      t.coll.tail = s.coll.tail ∧ t.nextLsn = s.nextLsn ∧ t.frames = s.frames ∧
        t.history = s.history ∧
      t.coll.appliedLsn = s.coll.appliedLsn := by
  unfold Log.rotateIfFull at ht
  split at ht
  · next hlt =>
    obtain rfl := Except.ok.inj ht
    refine ⟨h, ?_, rfl, rfl, rfl, rfl, rfl, rfl⟩
    rcases h.full with heq | hle
    · exact heq
    · omega
  · split at ht
    · unfold Log.openNextWal at ht
      split at ht
      · obtain rfl := Except.ok.inj ht
        refine ⟨h.sync.opened, rfl, rfl, rfl, rfl, ?_, rfl, rfl⟩
        exact congrArg (List.map Spot.frame) ((spots_openFile _ _).trans (spots_sync _ _))
      · cases ht
    · cases ht

theorem Ready.rotate_error (h : Ready limit s) {io : RotateIo}
    (ht : s.rotateIfFull limit io = .error t) :
    Ready limit t ∧ t.frames = s.frames ∧ t.history = s.history ∧
      t.coll.appliedLsn = s.coll.appliedLsn := by
  unfold Log.rotateIfFull at ht
  split at ht
  · cases ht
  next hlt =>
  split at ht
  · unfold Log.openNextWal at ht
    split at ht
    · cases ht
    · obtain rfl := Except.error.inj ht
      refine ⟨?_, congrArg (List.map Spot.frame) (spots_sync _ _), rfl, rfl⟩
      exact h.sync.of_same h.unfenced h.inv.sync rfl rfl rfl rfl (Nat.le_succ_of_le h.handle_le)
        (.inr (Nat.le_of_not_lt hlt)) rfl rfl (Nat.le_refl _)
  · obtain rfl := Except.error.inj ht
    exact ⟨h, rfl, rfl, rfl⟩

variable {f : Frame (LogEntry V H)}

/-- A frame that links to the tail, written by a writer on the current WAL. -/
theorem Ready.write (h : Ready limit s) (hwriter : s.handle = s.coll.currentWalId)
    (hmeta : s.coll.disk.appliedMeta ≠ none) (hprev : f.prevLsn = s.coll.lastAppendedLsn)
    (hterm : f.prevTerm = s.coll.lastAppendedTerm) (hlt : f.prevLsn < f.lsn)
    (ht : s.writeFrame f .done = .ok t) {n : ℕ} (hn : f.lsn ≤ n) :
    Ready limit { t with nextLsn := n } ∧ t.frames = s.frames ++ [f] := by
  obtain rfl := Except.ok.inj ht
  have hlt' : s.base.lastAppendedLsn < f.lsn := hprev ▸ hlt
  have hinv := h.inv.write hlt' hmeta
  have hspots : WalFile.spots (onFile s.handle (File.write (.frame f)) s.coll.disk.files) =
      s.spots ++ [⟨f, s.coll.currentWalId, s.coll.currentWalSize⟩] := by
    have := h.inv.files.spots_write f
    rw [← hwriter]
    exact this
  have hpending : ∀ q ∈ s.coll.pending, q.frame.lsn < f.lsn := fun q hq =>
    Nat.lt_of_le_of_lt (h.inv.log.bound (h.inv.log.pending_mem hq)) hlt'
  have hbelow : ∀ q ∈ s.spots, q.frame.lsn < f.lsn := fun q hq =>
    Nat.lt_of_le_of_lt (h.inv.log.bound hq) hlt'
  have hstage : stageAt ⟨f, s.coll.currentWalId, s.coll.currentWalSize⟩ s.coll.pending =
      s.coll.pending ++ [⟨f, s.coll.currentWalId, s.coll.currentWalSize⟩] := stageAt_append hpending
  have hframes : (WalFile.spots (onFile s.handle (File.write (.frame f)) s.coll.disk.files)).map
    Spot.frame =
      s.frames ++ [f] := by
    rw [hspots, List.map_append]
    rfl
  obtain ⟨hlsnOf, htermOf⟩ := h.tail
  have hrecent := h.recent.push (z := ⟨f, s.coll.currentWalId, s.coll.currentWalSize⟩)
    (h.spots_ascending.sublist List.filter_sublist) hbelow
    (Nat.lt_of_le_of_lt h.floor_le hlt')
  refine ⟨⟨h.unfenced, ?_, ?_, ?_, h.handle_le, .inl hwriter, hn, ?_, ?_, hrecent.2.2⟩, hframes⟩
  · have hbase : s.base.writeFrame f =
      { s.coll.setFiles (onFile s.handle (File.write (.frame f)) s.coll.disk.files) with
        currentWalId := s.handle
        currentWalSize := s.coll.currentWalSize + frameLen f
        lastAppendedLsn := f.lsn
        lastAppendedTerm := f.term
        pending := stageAt ⟨f, s.coll.currentWalId, s.coll.currentWalSize⟩ s.coll.pending } := by
      rw [← hwriter]
      rfl
    rw [hbase] at hinv
    exact hinv
  · refine hframes.trans ?_
    simp only [hstage, List.map_append, ← List.append_assoc, h.kept]
    rfl
  · have hchain := h.chained.concat (hprev.trans hlsnOf) (hterm.trans htermOf) hlt
    rw [← hframes] at hchain
    exact hchain
  · rcases h.durable with hzero | ⟨g, hg, heq⟩
    · exact .inl hzero
    · refine .inr ⟨g, ?_, heq⟩
      have : g ∈ s.frames ++ [f] := List.mem_append_left _ hg
      rw [← hframes] at this
      exact this
  · have := hrecent.1
    rw [← hspots] at this
    exact this

theorem Ready.torn (h : Ready limit s) (hwriter : s.handle = s.coll.currentWalId) {n : ℕ}
    (hshort : n < frameLen f) (ht : s.writeFrame f (.torn n true) = .error t) :
    Ready limit t ∧ t.frames = s.frames ∧ t.history = s.history ∧
      t.coll.appliedLsn = s.coll.appliedLsn := by
  obtain rfl := Except.error.inj ht
  cases n with
  | zero => exact ⟨h.opened, congrArg (List.map Spot.frame) (spots_openFile _ _), rfl, rfl⟩
  | succ n =>
    have hinv := h.inv.torn f (Nat.succ_pos n) hshort
    have hspots : WalFile.spots (openFile (s.coll.currentWalId + 1)
        (onFile s.handle (File.write (tear f (n + 1))) s.coll.disk.files)) = s.spots := by
      rw [spots_openFile, Log.spots, ← replayedAll_none, ← replayedAll_none s.coll.disk.files]
      exact replayedAll_writeTorn (resumeOk_none _) _ f (n + 1)
    refine ⟨h.of_same h.unfenced ?_ hspots rfl rfl rfl (Nat.le_refl _) (.inl rfl) rfl rfl
      (Nat.le_refl _),
      congrArg (List.map Spot.frame) hspots, rfl, rfl⟩
    have hbase : s.base.writeTorn f (n + 1) =
        { s.coll.setFiles (openFile (s.coll.currentWalId + 1)
            (onFile s.handle (File.write (tear f (n + 1))) s.coll.disk.files)) with
          currentWalId := s.coll.currentWalId + 1
          currentWalSize := 0 } := by
      rw [← hwriter]
      rfl
    rw [hbase] at hinv
    exact hinv

end Writing

section Truncating

variable {cut : WalCut} {prevLsn prevTerm : ℕ}

theorem spots_truncated {c : Coll V H} {history : List (Frame (LogEntry V H))} (h : Inv c history)
    {A P R : List (Spot (LogEntry V H))} {q : Spot (LogEntry V H)}
    (hA : WalFile.spots c.disk.files = A ++ c.pending)
    (hpending : c.pending = P ++ q :: R) : WalFile.spots (truncatedAt q c.disk.files) = A ++ P := by
  rw [hpending, ← List.append_assoc] at hA
  have := (replayedAll_truncatedAt h.files.sorted (resumeOk_none _) h.files.sizes
    (by rw [replayedAll_none]; exact hA)).1
  rwa [replayedAll_none] at this

/-- A cut divides the frames on disk: the published ones and the staged ones up to the LSN that is
linked to stay. -/
theorem Ready.cutAt_split (h : Ready limit s) (hcut : s.coll.cutAt prevLsn prevTerm = some cut) :
    ∃ A P q R, cut = ⟨q.walId, q.offset, prevLsn, prevTerm⟩ ∧ s.coll.pending = P ++ q :: R ∧
      s.coll.pending.filter (fun p => p.frame.lsn ≤ prevLsn) = P ∧ s.spots = (A ++ P) ++ q :: R ∧
      A.map Spot.frame = s.history ∧ (∀ p ∈ A ++ P, p.frame.lsn ≤ prevLsn) ∧
      ∀ p ∈ q :: R, prevLsn < p.frame.lsn := by
  have hcut' : s.base.cutAt prevLsn prevTerm = some cut := hcut
  obtain ⟨P, q, R, hpending, hP, rfl, hge, -⟩ := h.inv.log.cutAt_cases hcut'
  have hpending : s.coll.pending = P ++ q :: R := hpending
  have hP : s.coll.pending.filter (fun p => p.frame.lsn ≤ prevLsn) = P := hP
  obtain ⟨A, hA, hcommitted⟩ := h.inv.log.split
  have hA : s.spots = A ++ s.coll.pending := hA
  have hasc := h.spots_ascending
  rw [hA, hpending, ← List.append_assoc] at hasc
  have hq : prevLsn < q.frame.lsn := by
    by_contra hle
    have hmem : q ∈ s.coll.pending.filter fun p => p.frame.lsn ≤ prevLsn :=
      List.mem_filter.mpr ⟨hpending ▸ List.mem_append_right _ List.mem_cons_self,
        by simpa using hle⟩
    rw [hP] at hmem
    have := (List.pairwise_append.mp hasc).2.2 q (List.mem_append_right _ hmem) q List.mem_cons_self
    omega
  refine ⟨A, P, q, R, rfl, hpending, hP, by rw [hA, hpending, List.append_assoc], ?_, ?_, ?_⟩
  · have hkept := h.kept
    rw [Log.frames, hA, List.map_append] at hkept
    exact List.append_cancel_right hkept
  · intro p hp
    rcases List.mem_append.mp hp with hp | hp
    · exact Nat.le_trans (hcommitted p hp) hge
    · rw [← hP] at hp
      exact of_decide_eq_true (List.mem_filter.mp hp).2
  · intro p hp
    rcases List.mem_cons.mp hp with rfl | hp
    · exact hq
    · exact Nat.lt_trans hq ((List.pairwise_cons.mp (List.pairwise_append.mp hasc).2.1).1 p hp)

omit [Encoded (LogEntry V H)] in
theorem cut_map {as bs : List (Spot (LogEntry V H))} (has : ∀ p ∈ as, p.frame.lsn ≤ prevLsn)
    (hbs : ∀ p ∈ bs, prevLsn < p.frame.lsn) :
    CollectionLog.cut prevLsn ((as ++ bs).map Spot.frame) = as.map Spot.frame := by
  rw [CollectionLog.cut, List.map_append, List.takeWhile_append_of_pos]
  · cases bs with
    | nil => simp
    | cons b bs => simp [hbs b List.mem_cons_self]
  · intro f hf
    obtain ⟨p, hp, rfl⟩ := List.mem_map.mp hf
    exact decide_eq_true (has p hp)

/-- The log that has recorded a cut and dropped the staged frames behind it. -/
def Log.decided (s : Log V H) (cut : WalCut) : Log V H :=
  { s with coll := (recordCut (s.coll.rewindIndexTail cut.prevLsn cut.prevTerm)
    (some cut)).dropAbove cut.prevLsn }

theorem Ready.decided_base (h : Ready limit s) (hcut : s.coll.cutAt prevLsn prevTerm = some cut) :
    ((s.decided cut).carried cut).base = s.base.rewind cut := by
  obtain ⟨A, P, q, R, rfl, -, hP, hspots, -, hle, -⟩ := h.cutAt_split hcut
  have hqbase : q ∈ WalFile.spots s.base.disk.files := by
    have : q ∈ s.spots := hspots ▸ List.mem_append_right _ List.mem_cons_self
    exact this
  have hnone : s.coll.disk.cut = none := h.inv.files.noCut
  have hPP : P.filter (fun p => p.frame.lsn ≤ prevLsn) = P :=
    List.filter_eq_self.mpr fun p hp => decide_eq_true (hle p (List.mem_append_right _ hp))
  rw [rewind_eq hqbase]
  simp only [Log.base, Log.carried, cutTo, Log.decided, Coll.dropAbove, recordCut,
    Coll.setFiles, Coll.moveTo, Coll.rewindIndexTail, Coll.truncated, hP, hPP, hnone]
  rfl

theorem Ready.decided_fenced (h : Ready limit s) (hcut : s.coll.cutAt prevLsn prevTerm = some cut) :
    Fenced (s.decided cut) cut := by
  obtain ⟨A, P, q, R, rfl, -, hP, hspots, -, hle, -⟩ := h.cutAt_split hcut
  have hq : q ∈ s.spots := hspots ▸ List.mem_append_right _ List.mem_cons_self
  obtain ⟨F, hF, hid, -⟩ := walId_of_spots hq
  refine ⟨?_, h.inv.files.walId_le hq, h.handle_le, h.inv.files.sizes, ⟨F, hF, hid⟩, .inl rfl⟩
  intro p hp
  exact of_decide_eq_true (List.mem_filter.mp hp).2

theorem Ready.carried (h : Ready limit s) (hcut : s.coll.cutAt prevLsn prevTerm = some cut)
    (hlink : prevLsn = s.coll.appliedLsn → prevTerm = (committedTail s.history).2) :
    Ready limit ((s.decided cut).carried cut) ∧
      ((s.decided cut).carried cut).frames = CollectionLog.cut prevLsn s.frames := by
  have hinv : Inv ((s.decided cut).carried cut).base s.history := by
    rw [h.decided_base hcut]
    have hcut' : s.base.cutAt prevLsn prevTerm = some cut := hcut
    exact (h.inv.rewind hcut' hlink).1
  obtain ⟨A, P, q, R, rfl, hpending, hP, hsplit, hhistory, hle, hgt⟩ := h.cutAt_split hcut
  have hspots : ((s.decided ⟨q.walId, q.offset, prevLsn, prevTerm⟩).carried
      ⟨q.walId, q.offset, prevLsn, prevTerm⟩).spots = A ++ P := by
    refine spots_truncated h.inv ?_ hpending
    have : s.spots = A ++ s.coll.pending := by rw [hsplit, hpending, List.append_assoc]
    exact this
  have hframes : ((s.decided ⟨q.walId, q.offset, prevLsn, prevTerm⟩).carried
      ⟨q.walId, q.offset, prevLsn, prevTerm⟩).frames = CollectionLog.cut prevLsn s.frames := by
    rw [Log.frames, hspots, Log.frames, hsplit, cut_map hle hgt]
  have hstaged : ((s.decided ⟨q.walId, q.offset, prevLsn, prevTerm⟩).carried
      ⟨q.walId, q.offset, prevLsn, prevTerm⟩).coll.pending = P := by
    have hPP : P.filter (fun p => p.frame.lsn ≤ prevLsn) = P :=
      List.filter_eq_self.mpr fun p hp => decide_eq_true (hle p (List.mem_append_right _ hp))
    simp only [Log.carried, cutTo, Log.decided, Coll.dropAbove, recordCut,
      Coll.setFiles, Coll.moveTo, Coll.rewindIndexTail, hP, hPP]
  have hkept : ((s.decided ⟨q.walId, q.offset, prevLsn, prevTerm⟩).carried
      ⟨q.walId, q.offset, prevLsn, prevTerm⟩).frames = s.history ++
        ((s.decided ⟨q.walId, q.offset, prevLsn, prevTerm⟩).carried
          ⟨q.walId, q.offset, prevLsn, prevTerm⟩).coll.pending.map Spot.frame := by
    rw [Log.frames, hspots, hstaged, List.map_append, hhistory]
  have htail : prevLsn = lsnOf ((s.decided ⟨q.walId, q.offset, prevLsn, prevTerm⟩).carried
      ⟨q.walId, q.offset, prevLsn, prevTerm⟩).frames := (tail_of_kept hinv.log hkept).1
  have hrecent := h.recent
  rw [hsplit] at hrecent
  obtain ⟨hrecent, hfloor⟩ := hrecent.cut hle hgt
  refine ⟨⟨rfl, hinv, hkept, ?_, Nat.le_refl _, .inl rfl, ?_, ?_, ?_, hfloor⟩, hframes⟩
  · rw [hframes]
    exact h.chained.of_isPrefix (cut_isPrefix _ _)
  · have hq : q ∈ s.spots := hsplit ▸ List.mem_append_right _ List.mem_cons_self
    have hbound := h.inv.log.bound hq
    have hlt := hgt q List.mem_cons_self
    have hbound : q.frame.lsn ≤ s.coll.lastAppendedLsn := hbound
    exact Nat.le_trans (Nat.le_of_lt (Nat.lt_of_lt_of_le hlt hbound)) h.last_le
  · have hmem := lsnOf_mem ((s.decided ⟨q.walId, q.offset, prevLsn, prevTerm⟩).carried
      ⟨q.walId, q.offset, prevLsn, prevTerm⟩).frames
    rw [← htail] at hmem
    exact hmem
  · rw [hspots]
    exact hrecent

end Truncating

section Applying

variable {cut : WalCut} {lsn : ℕ}

def placedAt (c : Coll V H) (fs : List (File (LogEntry V H))) (record : Option WalCut)
    (id size last term : ℕ) : Coll V H :=
  { c with
    disk := { c.disk with
      files := fs
      cut := record }
    currentWalId := id
    currentWalSize := size
    lastAppendedLsn := last
    lastAppendedTerm := term }

theorem applyCommitted_placedAt (lsn : ℕ) (c : Coll V H) (fs : List (File (LogEntry V H)))
    (record : Option WalCut)
    (id size last term : ℕ) : (placedAt c fs record id size last term).applyCommitted lsn =
      placedAt (c.applyCommitted lsn) fs record id size last term := by
  have hpublish : ∀ (qs : List (Spot (LogEntry V H))) (c : Coll V H),
      qs.foldl (fun c q => c.publish q) (placedAt c fs record id size last term) =
        placedAt (qs.foldl (fun c q => c.publish q) c) fs record id size last term := by
    intro qs
    induction qs with
    | nil => exact fun _ => rfl
    | cons q qs ih => exact fun c => ih (c.publish q)
  have hmemory : (placedAt c fs record id size last term).applyMemory lsn =
      placedAt (c.applyMemory lsn) fs record id size last term := by
    simp only [Coll.applyMemory]
    have := hpublish (c.pending.filter fun q => q.frame.lsn ≤ lsn) c
    rw [show (placedAt c fs record id size last term).pending = c.pending from rfl, this]
    rfl
  rw [Coll.applyCommitted, hmemory, Coll.applyCommitted]
  generalize c.applyMemory lsn = d
  unfold Coll.persistWatermark
  have hsaved : (placedAt d fs record id size last term).watermarkSaved = d.watermarkSaved := rfl
  have hdirty : (placedAt d fs record id size last term).richDirty = d.richDirty := rfl
  have hpos : (placedAt d fs record id size last term).disk.appliedPos = d.disk.appliedPos := rfl
  rw [hsaved, hdirty, hpos]
  split
  · rfl
  · split
    · rfl
    · split <;> rfl

theorem applyCommitted_fields (c : Coll V H) (lsn : ℕ) :
    (c.applyCommitted lsn).disk.files = c.disk.files ∧
      (c.applyCommitted lsn).disk.cut = c.disk.cut ∧
      (c.applyCommitted lsn).pending = c.pending.filter (fun q => lsn < q.frame.lsn) ∧
      (c.applyCommitted lsn).tail = c.tail ∧ (c.applyCommitted lsn).currentWalId = c.currentWalId ∧
      (c.applyCommitted lsn).currentWalSize = c.currentWalSize ∧
      (c.applyCommitted lsn).appliedLsn = max c.appliedLsn lsn := by
  obtain ⟨m, p, dirty, saved, seq, hpersist, -⟩ := persistWatermark_eq (c.applyMemory lsn) lsn
  obtain ⟨dirty', hfold⟩ := foldl_publish c (c.pending.filter fun q => q.frame.lsn ≤ lsn)
  rw [Coll.applyCommitted, hpersist, Coll.applyMemory, hfold]
  exact ⟨rfl, rfl, rfl, rfl, rfl, rfl, rfl⟩

theorem base_applyCommitted (s : Log V H) :
    (s.applyCommitted lsn).base = s.base.applyCommitted lsn := by
  have h := applyCommitted_placedAt lsn s.coll s.coll.disk.files s.coll.disk.cut s.handle
    s.coll.currentWalSize s.coll.lastAppendedLsn s.coll.lastAppendedTerm
  obtain ⟨hfiles, hcut, -, htail, -, hsize, -⟩ := applyCommitted_fields s.coll lsn
  have hlast : (s.coll.applyCommitted lsn).lastAppendedLsn = s.coll.lastAppendedLsn :=
    congrArg Prod.fst htail
  have hterm : (s.coll.applyCommitted lsn).lastAppendedTerm = s.coll.lastAppendedTerm :=
    congrArg Prod.snd htail
  have hbase : s.base = placedAt s.coll s.coll.disk.files s.coll.disk.cut s.handle
    s.coll.currentWalSize
      s.coll.lastAppendedLsn s.coll.lastAppendedTerm := rfl
  rw [hbase, h, ← hfiles, ← hcut, ← hsize, ← hlast, ← hterm]
  rfl

theorem Ready.apply (h : Ready limit s)
    (hlsn : lsn ≤ s.coll.appliedLsn ∨ ∃ q ∈ s.coll.pending, q.frame.lsn = lsn) :
    Ready limit (s.applyCommitted lsn) := by
  have hinv : Inv (s.base.applyCommitted lsn) (s.history ++ (s.coll.ready lsn).map Spot.frame) := by
    rcases hlsn with hle | ⟨z, hz, rfl⟩
    · have hready : s.coll.ready lsn = [] := by
        refine List.filter_eq_nil_iff.mpr fun q hq => ?_
        have hlt : s.coll.appliedLsn < q.frame.lsn := h.inv.log.staged q hq
        simp only [decide_eq_true_eq]
        omega
      rw [h.inv.apply_below hle, hready, List.map_nil, List.append_nil]
      exact h.inv
    · exact h.inv.apply hz
  rw [← base_applyCommitted] at hinv
  obtain ⟨hfiles, -, hpending, htail, hid, hsize, -⟩ := applyCommitted_fields s.coll lsn
  have hspots : (s.applyCommitted lsn).spots = s.spots := by
    simp only [Log.spots, Log.applyCommitted, hfiles]
  have hframes : (s.applyCommitted lsn).frames = s.frames := by rw [Log.frames, hspots, Log.frames]
  have hlast : (s.applyCommitted lsn).coll.lastAppendedLsn = s.coll.lastAppendedLsn :=
    congrArg Prod.fst htail
  refine ⟨h.unfenced, hinv, ?_, ?_, ?_, ?_, ?_, ?_, ?_, ?_⟩
  · have hsplit := filter_split h.inv.log.ascending lsn
    have hsplit : s.coll.pending = s.coll.ready lsn ++ s.coll.pending.filter fun q =>
      lsn < q.frame.lsn := hsplit
    rw [hframes, h.kept]
    simp only [Log.applyCommitted, hpending]
    rw [List.append_assoc, ← List.map_append, ← hsplit]
  · rw [hframes]
    exact h.chained
  · simp only [Log.applyCommitted, hid]
    exact h.handle_le
  · simp only [Log.applyCommitted, hid, hsize]
    exact h.full
  · rw [hlast]
    exact h.last_le
  · rw [hframes]
    exact h.durable
  · rw [hspots]
    exact h.recent
  · rw [hlast]
    exact h.floor_le

end Applying

end DewDB.FencedLog
