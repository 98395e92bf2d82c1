import DewDB.Compaction

/-!
# What holds of an open collection

The files hold the committed frames and then the staged ones. The index names frames of the files.
What a replay from the snapshot reads is the committed frames since, from which the index follows,
and the staged ones; and the two watermark files give the position up to which frames are published.
`history` is every frame published so far.
-/
namespace DewDB.Recovery

open CollectionLog WalFile WalWriter StorageEntry

variable {V H : Type}

def committedTail (history : List (Frame (LogEntry V H))) : ℕ × ℕ :=
  (history.getLast?.map fun f => (f.lsn, f.term)).getD (0, 0)

def Coll.tail (c : Coll V H) : ℕ × ℕ := (c.lastAppendedLsn, c.lastAppendedTerm)

/-- The slots hold the last position in the slot of its number and an older one, if any, in the
other. -/
def SlotsOk (p : PosFile) (seq : ℕ) (position : Option ℕ) : Prop :=
  match position with
  | none => seq = 0 ∧ p = ⟨.empty, .empty⟩
  | some lsn =>
    let fresh := if seq % 2 = 0 then p.even else p.odd
    let older := if seq % 2 = 0 then p.odd else p.even
    fresh = .written seq lsn ∧ (older = .empty ∨ ∃ seq' lsn',
      older = .written seq' lsn' ∧ seq' < seq)

structure WatermarkOk (c : Coll V H) : Prop where
  clean : c.richDirty = false
  saved : c.watermarkSaved = c.appliedLsn
  slots : ∃ p position, c.disk.appliedPos = some p ∧ SlotsOk p c.posSeq position ∧
    position.getD 0 ≤ c.appliedLsn ∧
    ∀ m, c.disk.appliedMeta = some m → max m.appliedLsn (position.getD 0) = c.appliedLsn
  flag : c.watermarkRecorded = true → c.disk.appliedMeta.isSome
  unrecorded : c.disk.appliedMeta = none → c.appliedLsn = 0

variable [Encoded (LogEntry V H)]

def Ended (cs : List (Chunk (LogEntry V H))) : Prop :=
  ∃ ws, Whole ws ∧ (cs = ws ∨ ∃ header n, cs = ws ++ [Chunk.torn header n] ∧ 0 < n ∧
    ∀ f ∈ header, n < frameLen f)

structure FilesOk (c : Coll V H) : Prop where
  sorted : (c.disk.files.map File.id).Pairwise (· < ·)
  ended : ∀ F ∈ c.disk.files, Ended F.chunks
  writer : ∃ G ∈ c.disk.files, G.id = c.currentWalId ∧ Whole G.chunks ∧
    bytes G.chunks = c.currentWalSize
  above : ∀ F ∈ c.disk.files, c.currentWalId < F.id → F.chunks = []
  noCut : c.disk.cut = none
  named : ∀ F ∈ c.disk.files, 0 < F.id

structure LogOk (c : Coll V H) (history : List (Frame (LogEntry V H))) : Prop where
  split : ∃ A, spots c.disk.files = A ++ c.pending ∧ ∀ q ∈ A, q.frame.lsn ≤ c.appliedLsn
  staged : ∀ q ∈ c.pending, c.appliedLsn < q.frame.lsn
  ascending : c.pending.Pairwise fun q q' => q.frame.lsn < q'.frame.lsn
  positive : ∀ q ∈ spots c.disk.files, 0 < q.frame.lsn
  unique : ∀ q ∈ spots c.disk.files, ∀ q' ∈ spots c.disk.files, q.frame.lsn = q'.frame.lsn →
    q.frame = q'.frame
  applied : c.appliedLsn = (committedTail history).1
  term : ∀ q ∈ spots c.disk.files, q.frame.lsn = c.appliedLsn →
    q.frame.term = (committedTail history).2
  tail : c.tail = (c.pending.getLast?.map fun q => (q.frame.lsn, q.frame.term)).getD
    (committedTail history)
  unwritten : c.disk.appliedMeta = none → spots c.disk.files = []

def Located (fs : List (File (LogEntry V H))) (p : String × IndexEntry) : Prop :=
  ∃ q ∈ spots fs, resolve q p.1 = some (some p.2)

structure IndexOk (c : Coll V H) : Prop where
  keys : (c.index.map Prod.fst).Nodup
  located : ∀ p ∈ c.index, Located c.disk.files p
  alive : ∀ p ∈ c.index, c.retiredThrough < p.2.walId
  stagedAlive : ∀ q ∈ c.pending, c.retiredThrough < q.walId
  writing : c.retiredThrough < c.currentWalId
  snapshotKeys : ((snapshotMap c.disk.snapshot).map Prod.fst).Nodup
  snapshotLocated : ∀ p ∈ snapshotMap c.disk.snapshot, Located c.disk.files p
  committed : ∀ p ∈ c.index ++ snapshotMap c.disk.snapshot, p.2.lsn ≤ c.appliedLsn

/-- A replay from the snapshot reads committed frames, which give the index, and then the staged
ones. -/
structure ResumeInv (c : Coll V H) (history : List (Frame (LogEntry V H))) : Prop where
  resume : ResumeOk c.disk.snapshot c.disk.files
  resumeLe : ∀ s ∈ c.disk.snapshot, s.lastWalId ≤ c.currentWalId
  replayed : ∃ A, replayedAll c.disk.snapshot c.disk.files = A ++ c.pending ∧
    (∀ q ∈ A, q.frame.lsn ≤ c.appliedLsn) ∧
    (∀ q, A.getLast? = some q → ∃ z ∈ A, z.walId = q.walId ∧ z.frame.lsn = c.appliedLsn) ∧
    c.index = A.foldl Index.replay (snapshotMap c.disk.snapshot) ∧
    (A = [] → (snapshotTail c.disk.snapshot).1 ≤ c.appliedLsn ∨ c.pending = [] →
      snapshotTail c.disk.snapshot = committedTail history)

structure Inv (c : Coll V H) (history : List (Frame (LogEntry V H))) : Prop where
  files : FilesOk c
  log : LogOk c history
  index : IndexOk c
  resume : ResumeInv c history
  watermark : WatermarkOk c

section Watermark

omit [Encoded (LogEntry V H)]

theorem SlotsOk.newest {p : PosFile} {seq : ℕ} {position : Option ℕ} (h : SlotsOk p seq position) :
    p.newest = .ok (position.map fun lsn => (seq, lsn)) := by
  obtain ⟨even, odd⟩ := p
  cases position with
  | none =>
    obtain ⟨-, h⟩ := h
    cases h
    rfl
  | some lsn =>
    obtain ⟨hfresh, holder⟩ := h
    by_cases hpar : seq % 2 = 0
    · simp only [hpar, if_true] at hfresh holder
      subst hfresh
      rcases holder with rfl | ⟨seq', lsn', rfl, hlt⟩
      · rfl
      · simp only [PosFile.newest, Option.map_some]
        rw [if_neg (by omega)]
    · simp only [hpar, if_false] at hfresh holder
      subst hfresh
      rcases holder with rfl | ⟨seq', lsn', rfl, hlt⟩
      · rfl
      · simp only [PosFile.newest, Option.map_some]
        rw [if_pos (by omega)]

theorem SlotsOk.set {p : PosFile} {seq : ℕ} {position : Option ℕ}
    (h : SlotsOk p seq position) (lsn : ℕ) :
    SlotsOk (p.set (seq + 1) (.written (seq + 1) lsn)) (seq + 1) (some lsn) := by
  obtain ⟨even, odd⟩ := p
  cases position with
  | none =>
    obtain ⟨rfl, h⟩ := h
    cases h
    exact ⟨rfl, .inl rfl⟩
  | some lsn' =>
    obtain ⟨hfresh, -⟩ := h
    by_cases hpar : seq % 2 = 0
    · have hpar' : (seq + 1) % 2 ≠ 0 := by omega
      simp only [hpar, if_true] at hfresh
      subst hfresh
      simp only [SlotsOk, PosFile.set, hpar', if_false]
      exact ⟨trivial, .inr ⟨seq, lsn', rfl, by omega⟩⟩
    · have hpar' : (seq + 1) % 2 = 0 := by omega
      simp only [hpar, if_false] at hfresh
      subst hfresh
      simp only [SlotsOk, PosFile.set, hpar', if_true]
      exact ⟨trivial, .inr ⟨seq, lsn', rfl, by omega⟩⟩

theorem WatermarkOk.recorded {c : Coll V H} (h : WatermarkOk c) :
    ∃ position, c.disk.position = .ok position ∧ (position.map Prod.fst).getD 0 = c.posSeq ∧
      c.disk.recordedWatermark = .ok (c.disk.appliedMeta.map fun _ => c.appliedLsn) := by
  obtain ⟨p, position, hp, hslots, -, hmax⟩ := h.slots
  have hpos : c.disk.position = .ok (position.map fun lsn => (c.posSeq, lsn)) := by
    rw [Disk.position, hp]
    exact hslots.newest
  refine ⟨_, hpos, ?_, ?_⟩
  · cases position with
    | none => exact hslots.1.symm
    | some lsn => rfl
  · rw [Disk.recordedWatermark, hpos]
    cases hm : c.disk.appliedMeta with
    | none => rfl
    | some m =>
      have := hmax m hm
      cases position <;> simpa [Except.map] using this

theorem WatermarkOk.persistFull {c : Coll V H} (h : WatermarkOk c) :
    WatermarkOk c.persistWatermarkFull := by
  obtain ⟨p, position, hp, hslots, hle, hmax⟩ := h.slots
  refine ⟨rfl, ?_, ⟨p, position, hp, hslots, hle, ?_⟩, fun _ => rfl, fun hm => ?_⟩
  · have := h.saved
    simp only [Coll.persistWatermarkFull]
    omega
  · intro m hm
    cases hm
    exact Nat.max_eq_left hle
  · simp [Coll.persistWatermarkFull] at hm

theorem WatermarkOk.recordOnce {c : Coll V H} (h : WatermarkOk c) :
    WatermarkOk c.recordWatermarkOnce := by
  unfold Coll.recordWatermarkOnce
  split
  · exact h
  · have hfull := h.persistFull
    exact ⟨hfull.clean, hfull.saved, hfull.slots, fun _ => rfl, hfull.unrecorded⟩

theorem WatermarkOk.persist {c c' : Coll V H} (h : WatermarkOk c) {lsn : ℕ}
    (hlt : c.appliedLsn < lsn)
    (happlied : c'.appliedLsn = lsn) (hdisk : c'.disk = c.disk) (hseq : c'.posSeq = c.posSeq)
    (hsaved : c'.watermarkSaved = c.watermarkSaved)
    (hflag : c'.watermarkRecorded = c.watermarkRecorded) (hmeta : c.disk.appliedMeta ≠ none) :
    WatermarkOk (c'.persistWatermark lsn) := by
  obtain ⟨p, position, hp, hslots, hle, hmax⟩ := h.slots
  have hs := h.saved
  have hfull : WatermarkOk c'.persistWatermarkFull := by
    refine ⟨rfl, ?_, ⟨p, position, ?_, ?_, ?_, ?_⟩, fun _ => rfl, fun hm => ?_⟩
    · simp only [Coll.persistWatermarkFull]
      omega
    · simpa only [Coll.persistWatermarkFull, hdisk] using hp
    · simpa only [Coll.persistWatermarkFull, hseq] using hslots
    · simp only [Coll.persistWatermarkFull]
      omega
    · intro m hm
      cases hm
      exact Nat.max_eq_left (by simp only; omega)
    · simp [Coll.persistWatermarkFull] at hm
  unfold Coll.persistWatermark
  rw [if_neg (by omega)]
  split
  · exact hfull
  · next hdirty =>
    rw [hdisk, hp]
    have hclean : c'.richDirty = false := by simpa using hdirty
    refine ⟨hclean, ?_, ⟨_, some lsn, rfl, ?_, ?_, ?_⟩, ?_, ?_⟩
    · simp only [Coll.savePosition]
      omega
    · simp only [Coll.savePosition, hseq, happlied]
      exact hslots.set lsn
    · simp only [Coll.savePosition, Option.getD_some]
      omega
    · intro m hm
      have hm : c'.disk.appliedMeta = some m := hm
      have := hmax m (hdisk ▸ hm)
      simp only [Coll.savePosition, Option.getD_some]
      omega
    · intro hf
      have hf : c'.watermarkRecorded = true := hf
      have := h.flag (hflag ▸ hf)
      simpa [Coll.savePosition, hdisk] using this
    · intro hm
      have hm : c'.disk.appliedMeta = none := hm
      exact absurd (hdisk ▸ hm) hmeta

end Watermark

theorem Whole.ended {cs : List (Chunk (LogEntry V H))} (h : Whole cs) : Ended cs :=
  ⟨cs, h, .inl rfl⟩

theorem Ended.sizes {cs : List (Chunk (LogEntry V H))} (h : Ended cs) : ∀ p ∈ cs, 0 < p.size := by
  obtain ⟨ws, hw, rfl | ⟨header, n, rfl, hn, -⟩⟩ := h
  · exact hw.sizes
  · intro p hp
    rcases List.mem_append.mp hp with hp | hp
    · exact hw.sizes p hp
    · rw [List.mem_singleton.mp hp]
      exact hn

theorem FilesOk.sizes {c : Coll V H} (h : FilesOk c) :
    ∀ F ∈ c.disk.files, ∀ p ∈ F.chunks, 0 < p.size :=
  fun F hF => (h.ended F hF).sizes

section Tails

omit [Encoded (LogEntry V H)]

theorem foldl_tail {t : ℕ × ℕ} (qs : List (Spot (LogEntry V H))) :
    let r := qs.foldl (fun t q => if t.1 < q.frame.lsn then (q.frame.lsn, q.frame.term) else t) t
    (t.1 ≤ r.1 ∧ ∀ q ∈ qs, q.frame.lsn ≤ r.1) ∧
      (r = t ∨ ∃ q ∈ qs, r = (q.frame.lsn, q.frame.term)) := by
  induction qs generalizing t with
  | nil => simp
  | cons q qs ih =>
    simp only [List.foldl_cons]
    by_cases hlt : t.1 < q.frame.lsn
    · rw [if_pos hlt]
      obtain ⟨⟨hle, hall⟩, hr⟩ := ih (t := (q.frame.lsn, q.frame.term))
      refine ⟨⟨Nat.le_trans (Nat.le_of_lt hlt) hle, ?_⟩, .inr ?_⟩
      · intro p hp
        rcases List.mem_cons.mp hp with rfl | hp
        · exact hle
        · exact hall p hp
      · rcases hr with hr | ⟨p, hp, hr⟩
        · exact ⟨q, List.mem_cons_self, hr⟩
        · exact ⟨p, List.mem_cons_of_mem _ hp, hr⟩
    · rw [if_neg hlt]
      obtain ⟨⟨hle, hall⟩, hr⟩ := ih (t := t)
      refine ⟨⟨hle, ?_⟩, ?_⟩
      · intro p hp
        rcases List.mem_cons.mp hp with rfl | hp
        · omega
        · exact hall p hp
      · rcases hr with hr | ⟨p, hp, hr⟩
        · exact .inl hr
        · exact .inr ⟨p, List.mem_cons_of_mem _ hp, hr⟩

theorem fileTail_eq {qs : List (Spot (LogEntry V H))} {z : Spot (LogEntry V H)}
    {term : ℕ} (hz : z ∈ qs) (hpos : 0 < z.frame.lsn) (hle : ∀ q ∈ qs, q.frame.lsn ≤ z.frame.lsn)
    (hterm : ∀ q ∈ qs, q.frame.lsn = z.frame.lsn → q.frame.term = term) :
    fileTail qs = (z.frame.lsn, term) := by
  obtain ⟨⟨-, hall⟩, hr⟩ := foldl_tail (t := (0, 0)) qs
  have hzle := hall z hz
  rcases hr with hr | ⟨q, hq, hr⟩
  · rw [hr] at hzle
    simp only at hzle
    omega
  · rw [hr] at hzle
    have heq : q.frame.lsn = z.frame.lsn := Nat.le_antisymm (hle q hq) hzle
    rw [fileTail, hr, heq, hterm q hq heq]

theorem foldTail_nil (t : ℕ × ℕ) : foldTail t ([] : List (Spot (LogEntry V H))) = t := rfl

theorem foldl_foldTail_nil {qss : List (List (Spot (LogEntry V H)))} {t : ℕ × ℕ}
    (h : qss.flatten = []) : qss.foldl foldTail t = t := by
  induction qss with
  | nil => rfl
  | cons qs qss ih =>
    rw [List.flatten_cons, List.append_eq_nil_iff] at h
    rw [List.foldl_cons, h.1, foldTail_nil]
    exact ih h.2

theorem stageAt_append {ps : List (Spot (LogEntry V H))} {q : Spot (LogEntry V H)}
    (h : ∀ p ∈ ps, p.frame.lsn < q.frame.lsn) : stageAt q ps = ps ++ [q] := by
  induction ps with
  | nil => rfl
  | cons p ps ih =>
    have hp := h p List.mem_cons_self
    rw [stageAt, if_neg (by omega), if_neg (by omega), ih fun r hr =>
      h r (List.mem_cons_of_mem _ hr)]
    rfl

end Tails

end DewDB.Recovery
