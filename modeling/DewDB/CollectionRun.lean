import DewDB.CompactionCrash
import DewDB.TransitionSystem

/-!
# Runs of a collection

Appends and truncations, commits, saved indexes, snapshots that are streamed, compactions, and
crashes at any point, after which the directory is opened again. A crash of the process loses
nothing that was written; a power cut may lose staged frames.
-/
namespace DewDB.Recovery

open CollectionLog WalFile WalWriter StorageEntry TransitionSystem

variable {V H : Type}

structure State (V H : Type) where
  coll : Coll V H
  history : List (Frame (LogEntry V H))
  deriving DecidableEq

inductive Op (V H : Type) where
  | append (lsn : ℕ) (entry : LogEntry V H) (term : ℕ) (torn : Option ℕ)
  | appendRawFrame (f : Frame (LogEntry V H)) (torn : Option ℕ)
  | applyCommitted (lsn : ℕ)
  | syncWal
  | saveIndex
  | streamSnapshot
  | compact (retention : Retention) (orphaned : List ℕ)
  -- The process stops, inside a compaction or not.
  | crash (during : Option (Retention × CompactPoint))
  -- The staged frames from this LSN on are lost, except for the first bytes.
  | powerCut (lsn n : ℕ)

variable [Encoded (LogEntry V H)]

def State.fresh : State V H := ⟨(⟨[], none, none, none, none⟩ : Disk V H).opened none 0, []⟩

def State.reopen (s : State V H) (d : Disk V H) : Option (State V H) :=
  match d.openCollection with
  | .error _ => none
  | .ok c => some { s with coll := c }

/-- The LSN of an append is above the tail; a frame of another log that links to the watermark links
to the frame committed there; and what is committed is a frame of the log. -/
def step (limit : ℕ) (s : State V H) : Op V H → Option (State V H)
  | .append lsn entry term torn =>
    if s.coll.lastAppendedLsn < lsn ∧ torn.getD 0 < headerLen + Encoded.len entry then
      some { s with coll := s.coll.append limit lsn entry term torn }
    else none
  | .appendRawFrame f torn =>
    if f.prevLsn < f.lsn ∧ torn.getD 0 < frameLen f ∧
        (f.prevLsn = s.coll.appliedLsn → f.prevTerm = (committedTail s.history).2) then
      some { s with coll := s.coll.appendRawFrame limit f torn }
    else none
  | .applyCommitted lsn =>
    if lsn ≤ s.coll.appliedLsn ∨ ∃ q ∈ s.coll.pending, q.frame.lsn = lsn then
      some ⟨s.coll.applyCommitted lsn, s.history ++ (s.coll.ready lsn).map Spot.frame⟩
    else none
  | .syncWal => some { s with coll := s.coll.syncWal }
  | .saveIndex => some { s with coll := s.coll.saveIndex }
  | .streamSnapshot => some { s with coll := s.coll.freeze.1 }
  | .compact retention orphaned =>
    (s.coll.compact retention orphaned).map fun c => { s with coll := c }
  | .crash none => s.reopen s.coll.disk
  | .crash (some (retention, point)) => (s.coll.stopped retention point).bind s.reopen
  | .powerCut lsn n =>
    (s.coll.pending.find? fun q => q.frame.lsn = lsn).bind fun q =>
      if n < frameLen q.frame then s.reopen (s.coll.disk.lose q n) else none

/-- Compactions leave no live key behind in a retired WAL, and crashes inside them lose nothing. -/
def Orderly (s : State V H) : Op V H → Prop
  | .compact retention _ => Unblocked s.coll retention
  | .crash (some (retention, point)) => CrashOk s.coll retention point
  | _ => True

section Steps

variable {c : Coll V H} {history : List (Frame (LogEntry V H))} {limit : ℕ} {s s' : State V H}

theorem Inv.writeAll (h : Inv c history) {f : Frame (LogEntry V H)} {torn : Option ℕ}
    (hlt : c.lastAppendedLsn < f.lsn) (hshort : torn.getD 0 < frameLen f)
    (hmeta : c.disk.appliedMeta ≠ none) : Inv (c.writeAll f torn) history := by
  match torn with
  | none => exact h.write hlt hmeta
  | some 0 => exact h.next
  | some (n + 1) => exact h.torn f (Nat.succ_pos n) hshort

omit [Encoded (LogEntry V H)] in
theorem recordWatermarkOnce_eq (c : Coll V H) :
    c.recordWatermarkOnce.tail = c.tail ∧ c.recordWatermarkOnce.appliedLsn = c.appliedLsn ∧
      c.recordWatermarkOnce.pending = c.pending := by
  unfold Coll.recordWatermarkOnce
  split
  · exact ⟨rfl, rfl, rfl⟩
  · exact ⟨rfl, rfl, rfl⟩

omit [Encoded (LogEntry V H)] in
theorem rotateIfFull_eq (c : Coll V H) (limit : ℕ) :
    (c.rotateIfFull limit).tail = c.tail ∧ (c.rotateIfFull limit).disk.appliedMeta =
      c.disk.appliedMeta := by
  unfold Coll.rotateIfFull
  split
  · exact ⟨rfl, rfl⟩
  · exact ⟨rfl, rfl⟩

theorem Inv.append (h : Inv c history) {lsn term : ℕ} {entry : LogEntry V H} {torn : Option ℕ}
    (hlt : c.lastAppendedLsn < lsn) (hshort : torn.getD 0 < headerLen + Encoded.len entry) :
    Inv (c.append limit lsn entry term torn) history := by
  have htail : (c.recordWatermarkOnce.rotateIfFull limit).tail = c.tail :=
    (rotateIfFull_eq _ limit).1.trans (recordWatermarkOnce_eq c).1
  have hmeta : (c.recordWatermarkOnce.rotateIfFull limit).disk.appliedMeta ≠ none := by
    rw [(rotateIfFull_eq _ limit).2]
    exact recordWatermarkOnce_meta h.watermark
  refine (h.recordOnce.rotate limit).writeAll ?_ hshort hmeta
  have := congrArg Prod.fst htail
  simp only [Coll.tail] at this
  rw [this]
  exact hlt

theorem Inv.appendRawFrame (h : Inv c history) {f : Frame (LogEntry V H)} {torn : Option ℕ}
    (hlsn : f.prevLsn < f.lsn) (hshort : torn.getD 0 < frameLen f)
    (hlink : f.prevLsn = c.appliedLsn → f.prevTerm = (committedTail history).2) :
    Inv (c.appendRawFrame limit f torn) history := by
  have hmeta := recordWatermarkOnce_meta h.watermark
  have h := h.recordOnce
  obtain ⟨-, happlied, -⟩ := recordWatermarkOnce_eq c
  rw [← happlied] at hlink
  unfold Coll.appendRawFrame
  dsimp only
  generalize c.recordWatermarkOnce = c at *
  split
  · exact h
  split
  · exact h
  next hgap =>
  split
  · split
    · exact h
    · next cut hcut =>
      obtain ⟨hrew, htail⟩ := h.rewind hcut hlink
      have hrot := rotateIfFull_eq (c.rewind cut) limit
      refine (hrew.rotate limit).writeAll ?_ hshort ?_
      · have := congrArg Prod.fst (hrot.1.trans htail)
        simp only [Coll.tail] at this
        rw [this]
        exact hlsn
      · rw [hrot.2, rewind_meta]
        exact hmeta
  · next hge =>
    split
    · exact h
    · have hrot := rotateIfFull_eq c limit
      refine (h.rotate limit).writeAll ?_ hshort (by rw [hrot.2]; exact hmeta)
      have := congrArg Prod.fst hrot.1
      simp only [Coll.tail] at this
      omega

theorem Inv.freeze (h : Inv c history) : Inv c.freeze.1 history := by
  unfold Coll.freeze
  dsimp only
  split
  · exact h.sync
  · refine h.sync.openAbove ?_
    have hge : ∀ fs : List (File (LogEntry V H)), ∀ id, id ≤ Coll.nextFreeId fs id := by
      intro fs id
      unfold Coll.nextFreeId
      cases hfind : ((List.range (fs.length + 1)).map (id + ·)).find? fun i => fs.all fun F =>
        F.id != i with
      | none => exact Nat.le_refl _
      | some i =>
        obtain ⟨k, -, rfl⟩ := List.mem_map.mp (List.mem_of_find?_eq_some hfind)
        exact Nat.le_add_right _ _
    exact Nat.lt_of_lt_of_le (Nat.lt_succ_self _) (hge _ _)

theorem reopen_eq {d : Disk V H} (h : s.reopen d = some s') :
    d.openCollection = .ok s'.coll ∧ s'.history = s.history := by
  unfold State.reopen at h
  split at h
  · cases h
  · next c hc =>
    cases h
    exact ⟨hc, rfl⟩

theorem step_inv (h : Inv s.coll s.history) {op : Op V H} (hok : Orderly s op)
    (hstep : step limit s op = some s') : Inv s'.coll s'.history := by
  cases op with
  | append lsn entry term torn =>
    simp only [step] at hstep
    split at hstep
    · next hif =>
      cases hstep
      exact h.append hif.1 hif.2
    · cases hstep
  | appendRawFrame f torn =>
    simp only [step] at hstep
    split at hstep
    · next hif =>
      cases hstep
      exact h.appendRawFrame hif.1 hif.2.1 hif.2.2
    · cases hstep
  | applyCommitted lsn =>
    simp only [step] at hstep
    split at hstep
    · next hif =>
      cases hstep
      rcases hif with hle | ⟨z, hz, rfl⟩
      · have hready : s.coll.ready lsn = [] := by
          refine List.filter_eq_nil_iff.mpr fun q hq => ?_
          have := h.log.staged q hq
          simp only [decide_eq_true_eq]
          omega
        simp only [h.apply_below hle, hready, List.map_nil, List.append_nil]
        exact h
      · exact h.apply hz
    · cases hstep
  | syncWal =>
    cases hstep
    exact h.sync
  | saveIndex =>
    cases hstep
    exact h.save
  | streamSnapshot =>
    cases hstep
    exact h.freeze
  | compact retention orphaned =>
    obtain ⟨c', hc', rfl⟩ := Option.map_eq_some_iff.mp hstep
    obtain ⟨hnil, o, ho, rfl⟩ := compact_eq hc'
    exact h.compact _ ho hnil hok
  | crash during =>
    cases during with
    | none =>
      obtain ⟨hopen, hhist⟩ := reopen_eq hstep
      rw [hhist, ← Except.ok.inj (h.open_eq.symm.trans hopen)]
      exact h.reopen
    | some during =>
      obtain ⟨retention, point⟩ := during
      obtain ⟨d, hd, hstep⟩ := Option.bind_eq_some_iff.mp hstep
      obtain ⟨hopen, hhist⟩ := reopen_eq hstep
      rw [hhist]
      exact h.open_stopped hd hok hopen
  | powerCut lsn n =>
    obtain ⟨q, hq, hstep⟩ := Option.bind_eq_some_iff.mp hstep
    split at hstep
    · next hn =>
      obtain ⟨hopen, hhist⟩ := reopen_eq hstep
      rw [hhist]
      exact h.lost (List.mem_of_find?_eq_some hq) hn hopen
    · cases hstep

theorem fresh_inv : Inv (State.fresh : State V H).coll (State.fresh : State V H).history := by
  have hfiles : (State.fresh : State V H).coll.disk.files = [⟨1, [], 0⟩] := rfl
  have hspots : spots (State.fresh : State V H).coll.disk.files = [] := rfl
  refine ⟨⟨?_, ?_, ?_, ?_, rfl, ?_⟩, ⟨?_, ?_, ?_, ?_, ?_, rfl, ?_, rfl, fun _ => rfl⟩, ?_, ?_, ?_⟩
  · rw [hfiles]
    simp
  · rw [hfiles]
    simp only [List.mem_singleton, forall_eq]
    exact ⟨[], by simp [Whole], .inl rfl⟩
  · exact ⟨⟨1, [], 0⟩, by rw [hfiles]; simp, rfl, by simp [Whole], rfl⟩
  · rw [hfiles]
    simp
  · rw [hfiles]
    simp
  · exact ⟨[], rfl, by simp⟩
  · exact fun q hq => absurd hq List.not_mem_nil
  · exact List.Pairwise.nil
  · rw [hspots]
    simp
  · rw [hspots]
    simp
  · rw [hspots]
    simp
  · refine ⟨List.nodup_nil, ?_, ?_, ?_, Nat.one_pos, List.nodup_nil, ?_, ?_⟩
    · exact fun p hp => absurd hp List.not_mem_nil
    · exact fun p hp => absurd hp List.not_mem_nil
    · exact fun q hq => absurd hq List.not_mem_nil
    · exact fun p hp => absurd hp List.not_mem_nil
    · exact fun p hp => absurd hp List.not_mem_nil
  · refine ⟨?_, ?_, [], rfl, by simp, by simp, rfl, fun _ _ => rfl⟩
    · exact fun s hs => absurd hs (Option.not_mem_none s)
    · exact fun s hs => absurd hs (Option.not_mem_none s)
  · exact ⟨rfl, rfl, ⟨⟨.empty, .empty⟩, none, rfl, ⟨rfl, rfl⟩, Nat.le_refl _,
      by simp [State.fresh, Disk.opened]⟩,
      by simp [State.fresh, Disk.opened], fun _ => rfl⟩

theorem run_inv {ops : List (Op V H)} (hrun : run (step limit) State.fresh ops = some s)
    (hok : Meets (step limit) Orderly State.fresh ops) : Inv s.coll s.history :=
  run_invariant_of_meets (I := fun s => Inv s.coll s.history) (fun _ _ _ h hok hstep =>
    step_inv h hok hstep) hrun hok fresh_inv

end Steps

end DewDB.Recovery
