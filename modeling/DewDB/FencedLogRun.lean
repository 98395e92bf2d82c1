import DewDB.FencedLogSteps
import DewDB.TransitionSystem

/-!
# Runs of a log under failures

What every step preserves, from wherever the one before it failed. The steps have to link a
truncation to the frame that is committed at the watermark, to leave a torn write behind, to publish
frames of the log, and to save the index only while no cut is pending.
-/
namespace DewDB.FencedLog

open CollectionLog WalFile StorageEntry Recovery TransitionSystem
open WalWriter (WalCut CutIo RotateIo WriteIo truncateFiles)
open FsyncSafety (cutFile onFile_emptyAbove)

variable {V H : Type} [Encoded (LogEntry V H)] {limit : ℕ} {s t : Log V H} {cut : WalCut}
  {carry : Carry}

section Healing

theorem healed_of_fenced (h : s.truncationFence = some cut) : s.healed = s.carried cut := by
  rw [Log.healed, h]

theorem LogInv.heal_ok (h : LogInv limit s) (ht : s.healFencedCut carry = .ok t) :
    t = s.healed ∧ Ready limit t := by
  have heq : t = s.healed := by
    unfold Log.healFencedCut at ht
    cases hfence : s.truncationFence with
    | none =>
      rw [hfence] at ht
      rw [healed_of_unfenced hfence]
      exact (Except.ok.inj ht).symm
    | some cut =>
      rw [hfence] at ht
      dsimp only at ht
      rw [dropAbove_eq (h.fenced cut hfence).pending_le] at ht
      rw [healed_of_fenced hfence]
      exact applyCut_ok (h.fenced cut hfence).pending_le ht
  exact ⟨heq, heq ▸ h.healed⟩

theorem LogInv.heal_error (h : LogInv limit s) (ht : s.healFencedCut carry = .error t) :
    LogInv limit t ∧ t.healed = s.healed := by
  unfold Log.healFencedCut at ht
  cases hfence : s.truncationFence with
  | none =>
    rw [hfence] at ht
    cases ht
  | some cut =>
    rw [hfence] at ht
    dsimp only at ht
    rw [dropAbove_eq (h.fenced cut hfence).pending_le] at ht
    obtain ⟨htfence, hcarried, hfenced⟩ := applyCut_error (h.fenced cut hfence) ht
    have heq : t.healed = s.healed := by
      rw [healed_of_fenced htfence, healed_of_fenced hfence, hcarried]
    refine ⟨⟨heq ▸ h.healed, fun cut' hcut' => ?_⟩, heq⟩
    obtain rfl : cut = cut' := Option.some.inj (htfence.symm.trans hcut')
    exact hfenced

theorem cutTo_record (c : Coll V H) (cut : WalCut) :
    cutTo c.recordWatermarkOnce cut = (cutTo c cut).recordWatermarkOnce := by
  unfold Coll.recordWatermarkOnce
  have hflag : (cutTo c cut).watermarkRecorded = c.watermarkRecorded := rfl
  rw [hflag]
  split <;> rfl

theorem healed_record (s : Log V H) :
    ({ s with coll := s.coll.recordWatermarkOnce } : Log V H).healed =
      { s.healed with coll := s.healed.coll.recordWatermarkOnce } := by
  obtain ⟨coll, handle, fence, durableLsn, recentFrames, nextLsn, history⟩ := s
  cases fence with
  | none => rfl
  | some cut =>
    simp only [Log.healed, Log.carried]
    rw [cutTo_record]

theorem LogInv.record (h : LogInv limit s) : LogInv limit
    { s with coll := s.coll.recordWatermarkOnce } := by
  refine ⟨?_, fun cut hcut => ?_⟩
  · rw [healed_record]
    exact h.healed.record
  · have hf := h.fenced cut hcut
    have hsame : s.coll.recordWatermarkOnce.pending = s.coll.pending ∧
        s.coll.recordWatermarkOnce.disk.files = s.coll.disk.files ∧
        s.coll.recordWatermarkOnce.disk.cut = s.coll.disk.cut ∧
        s.coll.recordWatermarkOnce.currentWalId = s.coll.currentWalId := by
      unfold Coll.recordWatermarkOnce
      split <;> exact ⟨rfl, rfl, rfl, rfl⟩
    obtain ⟨hpending, hfiles, hrecord, hid⟩ := hsame
    refine ⟨?_, hf.walId_le, ?_, ?_, ?_, ?_⟩
    · simp only [hpending]
      exact hf.pending_le
    · simp only [hid]
      exact hf.handle_le
    · simp only [hfiles]
      exact hf.sizes
    · simp only [hfiles]
      exact hf.there
    · simp only [hfiles, hrecord]
      exact hf.recorded

theorem healed_apply (h : LogInv limit s) (lsn : ℕ) :
    (s.applyCommitted lsn).healed = s.healed.applyCommitted lsn := by
  cases hfence : s.truncationFence with
  | none =>
    have hfence' : (s.applyCommitted lsn).truncationFence = none := hfence
    rw [healed_of_unfenced hfence, healed_of_unfenced hfence']
  | some cut =>
    have hfence' : (s.applyCommitted lsn).truncationFence = some cut := hfence
    have hle := (h.fenced cut hfence).pending_le
    obtain ⟨hfiles, -, hpending, -⟩ := applyCommitted_fields s.coll lsn
    have hle' : ∀ q ∈ (s.coll.applyCommitted lsn).pending, q.frame.lsn ≤ cut.prevLsn := by
      intro q hq
      rw [hpending] at hq
      exact hle q (List.mem_of_mem_filter hq)
    have hcoll : cutTo (s.coll.applyCommitted lsn) cut = (cutTo s.coll cut).applyCommitted lsn := by
      have hat := applyCommitted_placedAt lsn s.coll
        (truncatedTo cut s.coll.disk.files) none cut.walId cut.offset cut.prevLsn cut.prevTerm
      have hleft : cutTo (s.coll.applyCommitted lsn) cut = placedAt (s.coll.applyCommitted lsn)
          (truncatedTo cut s.coll.disk.files) none cut.walId cut.offset cut.prevLsn
            cut.prevTerm := by
        rw [cutTo, dropAbove_eq hle', hfiles]
        rfl
      have hright : cutTo s.coll cut = placedAt s.coll
        (truncatedTo cut s.coll.disk.files) none cut.walId cut.offset
          cut.prevLsn cut.prevTerm := by
        rw [cutTo, dropAbove_eq hle]
        rfl
      rw [hleft, hright, hat]
    have hready : (cutTo s.coll cut).ready lsn = s.coll.ready lsn := by
      rw [cutTo, dropAbove_eq hle]
      rfl
    rw [healed_of_fenced hfence, healed_of_fenced hfence']
    simp only [Log.carried, Log.applyCommitted, hcoll, hready]

end Healing

section Truncating

variable {prevLsn prevTerm : ℕ}

/-- Lowering the tail of the index snapshot in front of a cut that is not made after all. -/
theorem lower_inv {c : Coll V H} {history : List (Frame (LogEntry V H))} (h : Inv c history)
    (hcut : c.cutAt prevLsn prevTerm = some cut)
    (hlink : prevLsn = c.appliedLsn → prevTerm = (committedTail history).2) :
    Inv (c.rewindIndexTail prevLsn prevTerm) history := by
  obtain ⟨P, q, R, hpending, -, -, hge, -⟩ := h.log.cutAt_cases hcut
  have hlower : ∀ s, (loweredTail prevLsn prevTerm s).lastWalId = s.lastWalId ∧
      (loweredTail prevLsn prevTerm s).lastOffset = s.lastOffset ∧
      (loweredTail prevLsn prevTerm s).map = s.map := loweredTail_eq prevLsn prevTerm
  have hsnap : (c.rewindIndexTail prevLsn prevTerm).disk.snapshot =
      c.disk.snapshot.map (loweredTail prevLsn prevTerm) := rfl
  have hmap := snapshotMap_lowered c.disk.snapshot prevLsn prevTerm
  refine ⟨⟨h.files.sorted, h.files.ended, h.files.writer, h.files.above, h.files.noCut,
    h.files.named⟩,
    ⟨h.log.split, h.log.staged, h.log.ascending, h.log.positive, h.log.unique,
      h.log.applied, h.log.term, h.log.tail, h.log.unwritten⟩, ?_, ?_,
    ⟨h.watermark.clean, h.watermark.saved, h.watermark.slots, h.watermark.flag,
      h.watermark.unrecorded⟩⟩
  · refine ⟨h.index.keys, h.index.located, h.index.alive, h.index.stagedAlive,
      h.index.writing, ?_, ?_, ?_⟩
    · rw [hsnap, hmap]
      exact h.index.snapshotKeys
    · rw [hsnap, hmap]
      exact h.index.snapshotLocated
    · rw [hsnap, hmap]
      exact h.index.committed
  · obtain ⟨A, hA, hcommitted, hlast, hindex, htail⟩ := h.resume.replayed
    refine ⟨?_, ?_, ⟨A, ?_, hcommitted, hlast, ?_, ?_⟩⟩
    · rw [hsnap]
      exact h.resume.resume.map (fun s => (hlower s).1) fun s => (hlower s).2.1
    · intro s hs
      rw [hsnap] at hs
      obtain ⟨s', hs', rfl⟩ := Option.mem_map.mp hs
      rw [(hlower s').1]
      exact h.resume.resumeLe s' hs'
    · rw [hsnap]
      exact (replayedAll_map (fun s => (hlower s).1) (fun s => (hlower s).2.1) _).trans hA
    · rw [hsnap, hmap]
      exact hindex
    · intro hnil hor
      rw [hsnap, snapshotTail_lowered] at hor ⊢
      have hstaged : ¬(c.rewindIndexTail prevLsn prevTerm).pending = [] := by
        intro hnone
        have hnone : c.pending = [] := hnone
        simp [hpending] at hnone
      have hle := hor.resolve_right hstaged
      split at hle
      · next hkept =>
        rw [if_pos hkept]
        exact htail hnil (.inl hle)
      · next hgt =>
        have heq : prevLsn = c.appliedLsn := Nat.le_antisymm hle hge
        rw [if_neg hgt, hlink heq, heq, h.log.applied]

theorem Ready.lower (h : Ready limit s) (hcut : s.coll.cutAt prevLsn prevTerm = some cut)
    (hlink : prevLsn = s.coll.appliedLsn → prevTerm = (committedTail s.history).2) :
    Ready limit { s with coll := s.coll.rewindIndexTail prevLsn prevTerm } := by
  have hcut' : s.base.cutAt prevLsn prevTerm = some cut := hcut
  exact h.of_same h.unfenced (lower_inv h.inv hcut' hlink) rfl rfl rfl rfl h.handle_le h.full rfl
    rfl (Nat.le_refl _)

/-- What a truncation leaves, wherever it stops: the log, or what of it is in front of the cut. -/
theorem Ready.rewind_error (h : Ready limit s) {io : RewindIo}
    (hlink : prevLsn = s.coll.appliedLsn → prevTerm = (committedTail s.history).2)
    (ht : s.rewindTo prevLsn prevTerm io = .error t) :
    LogInv limit t ∧ (t.healed.frames = s.frames ∨
      t.healed.frames = CollectionLog.cut prevLsn s.frames) ∧ t.history = s.history := by
  unfold Log.rewindTo at ht
  cases hcut : s.coll.cutAt prevLsn prevTerm with
  | none =>
    rw [hcut] at ht
    cases ht
  | some cut =>
    rw [hcut] at ht
    cases io with
    | unlowered =>
      obtain rfl := Except.error.inj ht
      exact ⟨h.logInv, .inl (by rw [healed_of_unfenced h.unfenced]), rfl⟩
    | unrecorded =>
      obtain rfl := Except.error.inj ht
      refine ⟨(h.lower hcut hlink).logInv, .inl ?_, rfl⟩
      rw [healed_of_unfenced (h.lower hcut hlink).unfenced]
      rfl
    | cut carry =>
      obtain ⟨A, P, q, R, rfl, -⟩ := h.cutAt_split hcut
      have ht : ((s.decided ⟨q.walId, q.offset, prevLsn, prevTerm⟩).applyCut
        ⟨q.walId, q.offset, prevLsn, prevTerm⟩ carry).map some = .error t := ht
      obtain ⟨hready, hframes⟩ := h.carried hcut hlink
      cases happly : (s.decided ⟨q.walId, q.offset, prevLsn, prevTerm⟩).applyCut
          ⟨q.walId, q.offset, prevLsn, prevTerm⟩ carry with
      | ok t' =>
        rw [happly] at ht
        cases ht
      | error t' =>
        rw [happly] at ht
        obtain rfl : t' = t := Except.error.inj ht
        obtain ⟨hfence, hcarried, hfenced⟩ := applyCut_error (h.decided_fenced hcut) happly
        have heq := (healed_of_fenced hfence).trans hcarried
        refine ⟨⟨heq ▸ hready, fun cut' hcut' => ?_⟩, .inr (by rw [heq, hframes]), ?_⟩
        · obtain rfl := Option.some.inj (hfence.symm.trans hcut')
          exact hfenced
        · have : t'.healed.history =
            (s.decided ⟨q.walId, q.offset, prevLsn, prevTerm⟩).history := by
            rw [heq]
            rfl
          rw [healed_of_fenced hfence] at this
          exact this

theorem Ready.rewind_ok (h : Ready limit s) {io : RewindIo}
    (hlink : prevLsn = s.coll.appliedLsn → prevTerm = (committedTail s.history).2)
    (ht : s.rewindTo prevLsn prevTerm io = .ok (some t)) :
    Ready limit t ∧ t.frames = CollectionLog.cut prevLsn s.frames ∧
      t.coll.tail = (prevLsn, prevTerm) ∧
      t.history = s.history ∧ t.coll.disk.appliedMeta = s.coll.disk.appliedMeta ∧
      t.coll.appliedLsn = s.coll.appliedLsn := by
  unfold Log.rewindTo at ht
  cases hcut : s.coll.cutAt prevLsn prevTerm with
  | none =>
    rw [hcut] at ht
    cases ht
  | some cut =>
    rw [hcut] at ht
    cases io with
    | unlowered => cases ht
    | unrecorded => cases ht
    | cut carry =>
      obtain ⟨A, P, q, R, rfl, -⟩ := h.cutAt_split hcut
      have ht : ((s.decided ⟨q.walId, q.offset, prevLsn, prevTerm⟩).applyCut
        ⟨q.walId, q.offset, prevLsn, prevTerm⟩ carry).map some = .ok (some t) := ht
      obtain ⟨hready, hframes⟩ := h.carried hcut hlink
      cases happly : (s.decided ⟨q.walId, q.offset, prevLsn, prevTerm⟩).applyCut
          ⟨q.walId, q.offset, prevLsn, prevTerm⟩ carry with
      | error t' =>
        rw [happly] at ht
        cases ht
      | ok t' =>
        rw [happly] at ht
        obtain rfl : t' = t := Option.some.inj (Except.ok.inj ht)
        obtain rfl := applyCut_ok (h.decided_fenced hcut).pending_le happly
        exact ⟨hready, hframes, rfl, rfl, rfl, rfl⟩

end Truncating

section Appending

variable {f : Frame (LogEntry V H)} {io : AppendIo}

def opens : WriteIo → Bool
  | .done => true
  | .torn _ opened => opened

/-- Writing a frame that links to the tail; the counter is at its LSN then, or raised to it. -/
theorem Ready.write_cases (h : Ready limit s) (hwriter : s.handle = s.coll.currentWalId)
    (hmeta : s.coll.disk.appliedMeta ≠ none) (hprev : f.prevLsn = s.coll.lastAppendedLsn)
    (hterm : f.prevTerm = s.coll.lastAppendedTerm) (hlt : f.prevLsn < f.lsn)
    (hshort : io.write.shorter (frameLen f)) (hopens : opens io.write = true) :
    (∀ t, s.writeFrame f io.write = .error t → Ready limit t ∧ t.history = s.history ∧
      t.frames = s.frames) ∧
      ∀ t, s.writeFrame f io.write = .ok t → t.history = s.history ∧ t.frames = s.frames ++ [f] ∧
        t.nextLsn = s.nextLsn ∧ ∀ n, f.lsn ≤ n → Ready limit { t with nextLsn := n } := by
  cases hw : io.write with
  | done =>
    refine ⟨fun t ht => (by cases ht), fun t ht => ⟨?_, ?_, ?_, fun n hn => ?_⟩⟩
    · rw [← Except.ok.inj ht]
    · exact (h.write hwriter hmeta hprev hterm hlt ht (Nat.le_refl _)).2
    · rw [← Except.ok.inj ht]
    · exact (h.write hwriter hmeta hprev hterm hlt ht hn).1
  | torn m opened =>
    rw [hw] at hshort hopens
    obtain rfl : opened = true := hopens
    refine ⟨fun t ht => ?_, fun t ht => (by cases ht)⟩
    obtain ⟨htorn, hframes, hhistory, -⟩ := h.torn hwriter (of_decide_eq_true hshort) ht
    exact ⟨htorn, hhistory, hframes⟩

theorem Ready.raise (h : Ready limit s) {n : ℕ} (hn : s.nextLsn ≤ n) : Ready limit
    { s with nextLsn := n } :=
  h.of_same h.unfenced h.inv rfl rfl rfl rfl h.handle_le h.full rfl rfl hn

def Log.nextFrame (s : Log V H) (entry : LogEntry V H) (term : ℕ) : Frame (LogEntry V H) :=
  ⟨term, s.nextLsn + 1, termOf s.frames, lsnOf s.frames, entry⟩

theorem Ready.append (h : Ready limit s) (hmeta : s.coll.disk.appliedMeta ≠ none)
    {entry : LogEntry V H} (term : ℕ)
    (hshort : io.write.shorter (headerLen + Encoded.len entry)) (hopens : opens io.write = true) {r}
    (hr : ((s.rotateIfFull limit io.rotate).bind fun s =>
      { s with nextLsn := s.nextLsn + 1 }.writeFrame
        ⟨term, s.nextLsn + 1, s.coll.lastAppendedTerm, s.coll.lastAppendedLsn,
          entry⟩ io.write) = r) :
    (∀ t, r = .error t → Ready limit t ∧ t.history = s.history ∧ t.frames = s.frames) ∧
      ∀ t, r = .ok t → Ready limit t ∧ t.history = s.history ∧
        t.frames = s.frames ++ [s.nextFrame entry term] := by
  subst hr
  cases hrot : s.rotateIfFull limit io.rotate with
  | error t' =>
    obtain ⟨hready, hframes, hhistory, -⟩ := h.rotate_error hrot
    refine ⟨fun t ht => ?_, fun t ht => (by cases ht)⟩
    obtain rfl : t' = t := Except.error.inj ht
    exact ⟨hready, hhistory, hframes⟩
  | ok u =>
    obtain ⟨hready, hwriter, hmeta', htail, hnext, hframes, hhistory, -⟩ := h.rotate_ok hrot
    have hraised := hready.raise (Nat.le_succ u.nextLsn)
    have hlt : u.coll.lastAppendedLsn < u.nextLsn + 1 := Nat.lt_succ_of_le hready.last_le
    obtain ⟨herr, hok⟩ := hraised.write_cases (f := ⟨term, u.nextLsn + 1, u.coll.lastAppendedTerm,
      u.coll.lastAppendedLsn, entry⟩) hwriter (hmeta'.symm ▸ hmeta) rfl rfl hlt hshort hopens
    simp only [Except.bind]
    cases hwrite : ({ u with nextLsn := u.nextLsn + 1 } : Log V H).writeFrame
        ⟨term, u.nextLsn + 1, u.coll.lastAppendedTerm, u.coll.lastAppendedLsn, entry⟩ io.write with
    | error t' =>
      obtain ⟨hready', hhistory', hframes'⟩ := herr t' hwrite
      refine ⟨fun t ht => ?_, fun t ht => (by cases ht)⟩
      obtain rfl : t' = t := Except.error.inj ht
      exact ⟨hready', hhistory'.trans hhistory, hframes'.trans hframes⟩
    | ok t' =>
      obtain ⟨hhistory', hframes', hnext', hready'⟩ := hok t' hwrite
      refine ⟨fun t ht => (by cases ht), fun t ht => ?_⟩
      obtain rfl : t' = t := Except.ok.inj ht
      refine ⟨hready' t'.nextLsn (Nat.le_of_eq hnext'.symm), hhistory'.trans hhistory, ?_⟩
      have hframe : s.nextFrame entry term = ⟨term, u.nextLsn + 1, u.coll.lastAppendedTerm,
          u.coll.lastAppendedLsn, entry⟩ := by
        rw [Log.nextFrame, hready.tail.1, hready.tail.2, hframes, hnext]
      rw [hframe, ← hframes]
      exact hframes'

/-- A frame of another log that links to the tail is written behind it, or not at all. -/
theorem Ready.writeRaw (h : Ready limit s) (hmeta : s.coll.disk.appliedMeta ≠ none)
    (hprev : f.prevLsn = s.coll.lastAppendedLsn) (hterm : f.prevTerm = s.coll.lastAppendedTerm)
    (hlt : f.prevLsn < f.lsn) (hshort : io.write.shorter (frameLen f))
    (hopens : opens io.write = true) :
    (∀ t, s.writeRaw limit f io = .error t → Ready limit t ∧ t.history = s.history ∧
      t.frames = s.frames) ∧
      ∀ t o, s.writeRaw limit f io = .ok (t, o) →
        Ready limit t ∧ t.history = s.history ∧ t.frames = s.frames ++ [f] ∧
          o = .applied f.lsn := by
  unfold Log.writeRaw
  cases hrot : s.rotateIfFull limit io.rotate with
  | error t' =>
    obtain ⟨hready, hframes, hhistory, -⟩ := h.rotate_error hrot
    refine ⟨fun t ht => ?_, fun t o ht => (by cases ht)⟩
    obtain rfl : t' = t := Except.error.inj ht
    exact ⟨hready, hhistory, hframes⟩
  | ok u =>
    obtain ⟨hready, hwriter, hmeta', htail, -, hframes, hhistory, -⟩ := h.rotate_ok hrot
    have hlast : u.coll.lastAppendedLsn = s.coll.lastAppendedLsn := congrArg Prod.fst htail
    have hlastTerm : u.coll.lastAppendedTerm = s.coll.lastAppendedTerm := congrArg Prod.snd htail
    obtain ⟨herr, hok⟩ := hready.write_cases hwriter (hmeta'.symm ▸ hmeta) (hprev.trans hlast.symm)
      (hterm.trans hlastTerm.symm) hlt hshort hopens
    simp only [Except.bind]
    cases hwrite : u.writeFrame f io.write with
    | error t' =>
      obtain ⟨hready', hhistory', hframes'⟩ := herr t' hwrite
      refine ⟨fun t ht => ?_, fun t o ht => (by cases ht)⟩
      obtain rfl : t' = t := Except.error.inj ht
      exact ⟨hready', hhistory'.trans hhistory, hframes'.trans hframes⟩
    | ok t' =>
      obtain ⟨hhistory', hframes', -, hready'⟩ := hok t' hwrite
      refine ⟨fun t ht => (by cases ht), fun t o ht => ?_⟩
      obtain ⟨rfl, rfl⟩ := Prod.mk.inj (Except.ok.inj ht)
      refine ⟨hready' _ (Nat.le_max_right _ _), hhistory'.trans hhistory, ?_, rfl⟩
      rw [← hframes]
      exact hframes'

/-- The frame makes the code truncate: it is new and links below the tail. -/
def Truncates (c : Coll V H) (f : Frame (LogEntry V H)) : Prop :=
  ¬Log.Duplicate c f ∧ f.prevLsn < c.lastAppendedLsn

instance (c : Coll V H) (f : Frame (LogEntry V H)) : Decidable (Truncates c f) :=
  inferInstanceAs (Decidable (_ ∧ _))

omit [Encoded (LogEntry V H)] in
theorem cut_last {frames : List (Frame (LogEntry V H))} (h : Chained frames) :
    CollectionLog.cut (lsnOf frames) frames = frames :=
  List.takeWhile_eq_self_iff.mpr fun _ hf => decide_eq_true (h.le_lsnOf hf)

theorem Ready.admit (h : Ready limit s) (hmeta : s.coll.disk.appliedMeta ≠ none)
    (hlt : f.prevLsn < f.lsn)
    (hshort : io.write.shorter (frameLen f)) (hopens : opens io.write = true)
    (hlink : Truncates s.coll f → f.prevLsn = s.coll.appliedLsn →
      f.prevTerm = (committedTail s.history).2) :
    (∀ t, s.admitRawFrame limit f io = .error t → LogInv limit t ∧ t.history = s.history ∧
        (t.healed.frames = s.frames ∨ t.healed.frames = CollectionLog.cut f.prevLsn s.frames)) ∧
      ∀ t o, s.admitRawFrame limit f io = .ok (t, o) →
        (t = s ∧ ∀ lsn, o ≠ .applied lsn) ∨
        (Ready limit t ∧ t.history = s.history ∧ o = .applied f.lsn ∧
          t.frames = CollectionLog.cut f.prevLsn s.frames ++ [f]) := by
  -- An outcome that is not `applied` leaves the log alone.
  have hkept : ∀ o', (∀ lsn, o' ≠ ReplicaApply.applied lsn) → ∀ t o,
      (Except.ok (s, o') : Except (Log V H) (Log V H × ReplicaApply)) = .ok (t, o) →
      (t = s ∧ ∀ lsn, o ≠ .applied lsn) ∨
      (Ready limit t ∧ t.history = s.history ∧ o = .applied f.lsn ∧
        t.frames = CollectionLog.cut f.prevLsn s.frames ++ [f]) := by
    intro o' ho' t o ht
    obtain ⟨rfl, rfl⟩ := Prod.mk.inj (Except.ok.inj ht)
    exact .inl ⟨rfl, ho'⟩
  unfold Log.admitRawFrame
  dsimp only
  split
  · exact ⟨fun t ht => (by cases ht), hkept _ (by simp)⟩
  next hnew =>
  split
  · exact ⟨fun t ht => (by cases ht), hkept _ (by simp)⟩
  next hgap =>
  split
  · next hbelow =>
    have hlink := hlink ⟨hnew, hbelow⟩
    cases hrewind : s.rewindTo f.prevLsn f.prevTerm io.rewind with
    | error t' =>
      obtain ⟨hinv, hframes, hhistory⟩ := h.rewind_error hlink hrewind
      refine ⟨fun t ht => ?_, fun t o ht => (by cases ht)⟩
      obtain rfl : t' = t := Except.error.inj ht
      exact ⟨hinv, hhistory, hframes⟩
    | ok r =>
      cases r with
      | none => exact ⟨fun t ht => (by cases ht), hkept _ (by simp)⟩
      | some u =>
        obtain ⟨hready, hframes, htail, hhistory, hmeta', -⟩ := h.rewind_ok hlink hrewind
        obtain ⟨herr, hok⟩ := hready.writeRaw (hmeta'.symm ▸ hmeta) (congrArg Prod.fst htail).symm
          (congrArg Prod.snd htail).symm hlt hshort hopens
        refine ⟨fun t ht => ?_, fun t o ht => ?_⟩
        · obtain ⟨hready', hhistory', hframes'⟩ := herr t ht
          refine ⟨hready'.logInv, hhistory'.trans hhistory, .inr ?_⟩
          rw [healed_of_unfenced hready'.unfenced, hframes', hframes]
        · obtain ⟨hready', hhistory', hframes', ho⟩ := hok t o ht
          exact .inr ⟨hready', hhistory'.trans hhistory, ho, hframes'.trans (by rw [hframes])⟩
  · next hge =>
    split
    · exact ⟨fun t ht => (by cases ht), hkept _ (by simp)⟩
    · next hterm =>
      have hprev : f.prevLsn = s.coll.lastAppendedLsn :=
        Nat.le_antisymm (Nat.le_of_not_lt hgap) (Nat.le_of_not_lt hge)
      have hcut : CollectionLog.cut f.prevLsn s.frames = s.frames := by
        rw [hprev, h.tail.1]
        exact cut_last h.chained
      obtain ⟨herr, hok⟩ := h.writeRaw hmeta hprev (not_not.mp hterm) hlt hshort hopens
      refine ⟨fun t ht => ?_, fun t o ht => ?_⟩
      · obtain ⟨hready', hhistory', hframes'⟩ := herr t ht
        refine ⟨hready'.logInv, hhistory', .inl ?_⟩
        rw [healed_of_unfenced hready'.unfenced, hframes']
      · obtain ⟨hready', hhistory', hframes', ho⟩ := hok t o ht
        exact .inr ⟨hready', hhistory', ho, hframes'.trans (by rw [hcut])⟩

end Appending

section Standing

theorem takeBytes_zero {cs : List (Chunk (LogEntry V H))} (h : ∀ p ∈ cs, 0 < p.size) :
    takeBytes 0 cs = [] := by
  cases cs with
  | nil => rfl
  | cons p ps =>
    have hpos := h p List.mem_cons_self
    rw [takeBytes, if_neg (by omega), if_pos rfl]

/-- Syncing the WAL behind the handle of a fenced log changes nothing that the cut keeps. -/
theorem Fenced.truncatedTo_sync (h : Fenced s cut) :
    truncatedTo cut (onFile s.handle File.sync s.coll.disk.files) =
      truncatedTo cut s.coll.disk.files := by
  unfold onFile
  refine truncatedTo_map (fun F _ => ?_) (fun F _ hlt => ?_) (fun F _ heq => ?_) fun F hF hgt => ?_
  · split <;> rfl
  · have := h.walId_le
    rw [if_neg (by omega)]
  · split
    · exact sync_congr rfl rfl
    · rfl
  · split
    · simp [File.setLen, File.sync, takeBytes_zero (h.sizes F hF)]
    · rfl

theorem sync_truncatedTo {fs : List (File (LogEntry V H))} {id : ℕ}
    (hdone : truncatedTo cut fs = fs)
    (hle : cut.walId ≤ id) (hsizes : ∀ F ∈ fs, ∀ p ∈ F.chunks, 0 < p.size) :
    onFile id File.sync fs = fs := by
  rw [truncatedTo, onFile_emptyAbove] at hdone
  have hfix := List.map_inj_left.mp (hdone.trans (List.map_id fs).symm)
  unfold onFile
  refine Eq.trans (List.map_congr_left fun F hF => ?_) (List.map_id fs)
  have hcut : cutFile cut (fun _ => true) (fun F => (F.setLen cut.offset).sync) F = F := hfix F hF
  split
  · next hid =>
    unfold cutFile at hcut
    by_cases heq : F.id = cut.walId
    · rw [if_pos heq] at hcut
      rw [← hcut]
      exact sync_congr rfl rfl
    · rw [if_neg heq, if_pos ⟨by omega, rfl⟩] at hcut
      have hnil : F.chunks = [] := by
        rw [← congrArg File.chunks hcut]
        exact takeBytes_zero (hsizes F hF)
      have hsynced : F.synced = 0 := by
        rw [← congrArg File.synced hcut]
        simp [File.setLen, takeBytes_zero (hsizes F hF)]
      obtain ⟨id, chunks, synced⟩ := F
      simp only at hnil hsynced
      rw [hnil, hsynced]
      rfl
  · rfl

theorem LogInv.sync (h : LogInv limit s) (synced : Bool) :
    LogInv limit (s.syncWal synced) ∧ (s.syncWal synced).healed.frames = s.healed.frames := by
  cases synced with
  | false => exact ⟨h, rfl⟩
  | true =>
    cases hfence : s.truncationFence with
    | none =>
      have hready := h.ready hfence
      have hsync := hready.sync
      have hframes : (s.syncWal true).frames = s.frames :=
        congrArg (List.map Spot.frame) (spots_sync _ _)
      have hready' : Ready limit (s.syncWal true) := by
        refine ⟨hsync.unfenced, hsync.inv, hsync.kept, hsync.chained, hsync.handle_le, hsync.full,
          hsync.last_le, ?_, hsync.recent, hsync.floor_le⟩
        rw [hframes]
        have hmax : (s.syncWal true).durableLsn = max s.durableLsn s.coll.lastAppendedLsn := rfl
        rcases Nat.le_total s.durableLsn s.coll.lastAppendedLsn with hle | hle
        · rw [hmax, Nat.max_eq_right hle, hready.tail.1]
          exact lsnOf_mem s.frames
        · rw [hmax, Nat.max_eq_left hle]
          exact hready.durable
      refine ⟨hready'.logInv, ?_⟩
      rw [healed_of_unfenced hready'.unfenced, healed_of_unfenced hfence, hframes]
    | some cut =>
      have hf := h.fenced cut hfence
      have hfence' : (s.syncWal true).truncationFence = some cut := hfence
      have hsame := hf.truncatedTo_sync
      have heq : (s.syncWal true).healed = s.healed := by
        rw [healed_of_fenced hfence, healed_of_fenced hfence']
        simp only [Log.syncWal, if_true, Log.carried, cutTo, Coll.setFiles, hsame]
        rfl
      refine ⟨⟨heq ▸ h.healed, fun cut' hcut' => ?_⟩, by rw [heq]⟩
      obtain rfl : cut = cut' := Option.some.inj (hfence'.symm.trans hcut')
      refine ⟨hf.pending_le, hf.walId_le, hf.handle_le, ?_, ?_, ?_⟩
      · intro F hF
        obtain ⟨E, hE, rfl⟩ := List.mem_map.mp hF
        split
        · exact hf.sizes E hE
        · exact hf.sizes E hE
      · obtain ⟨F, hF, hid⟩ := hf.there
        refine ⟨_, List.mem_map_of_mem hF, ?_⟩
        split
        · exact hid
        · exact hid
      · rcases hf.recorded with hrec | ⟨hrec, hdone⟩
        · exact .inl hrec
        · have hfiles : (s.syncWal true).coll.disk.files = s.coll.disk.files :=
            sync_truncatedTo hdone hf.walId_le hf.sizes
          exact .inr ⟨hrec, by rw [hfiles, hdone]⟩

/-- Saving the index needs the writer's position to be that of the handle. -/
theorem Ready.save (h : Ready limit s) (hhandle : s.handle = s.coll.currentWalId) :
    Ready limit { s with coll := s.coll.saveIndex } := by
  have hbase : s.base = s.coll := by rw [Log.base, hhandle]
  have hsaved : ({ s with coll := s.coll.saveIndex } : Log V H).base = s.base.saveIndex := by
    rw [hbase, Log.base, hhandle]
    rfl
  refine h.of_same h.unfenced ?_ rfl rfl rfl rfl h.handle_le h.full rfl rfl (Nat.le_refl _)
  rw [hsaved]
  exact h.inv.save

theorem Fenced.open_eq (h : Fenced s cut) :
    s.coll.disk.openCollection = (cutTo s.coll cut).disk.openCollection := by
  have hcomplete : s.coll.disk.completeRecorded = .ok (cutTo s.coll cut).disk := by
    rcases h.recorded with hrec | ⟨hrec, hdone⟩
    · have hany : (s.coll.disk.files.any fun F => F.id == cut.walId) = true := by
        obtain ⟨F, hF, hid⟩ := h.there
        exact List.any_eq_true.mpr ⟨F, hF, by simpa using hid⟩
      have hfiles : truncateFiles cut .done s.coll.disk.files = .ok
        (truncatedTo cut s.coll.disk.files) := by
        simp only [truncateFiles, hany, if_true]
        rfl
      rw [Disk.completeRecorded, hrec]
      simp only [hfiles]
      rfl
    · have hdisk : (cutTo s.coll cut).disk = s.coll.disk := by
        have hcut : (cutTo s.coll cut).disk = { s.coll.disk with
            files := truncatedTo cut s.coll.disk.files
            cut := none } := rfl
        rw [hcut, hdone, ← hrec]
      rw [hdisk, Disk.completeRecorded, hrec]
  have hnone : (cutTo s.coll cut).disk.completeRecorded = .ok (cutTo s.coll cut).disk := rfl
  unfold Disk.openCollection
  rw [hcomplete, hnone]
  rfl

theorem LogInv.reopen_eq (h : LogInv limit s) (n : ℕ) :
    s.reopen n = some (.ofColl s.healed.base.reopened n s.healed.history) := by
  have hopen : s.coll.disk.openCollection = .ok s.healed.base.reopened := by
    rw [← h.healed.inv.open_eq]
    cases hfence : s.truncationFence with
    | none => rw [healed_of_unfenced hfence]; rfl
    | some cut =>
      rw [healed_of_fenced hfence]
      exact (h.fenced cut hfence).open_eq
  have hhistory : s.healed.history = s.history := by
    unfold Log.healed
    split <;> rfl
  rw [Log.reopen, hopen, hhistory]

theorem Ready.reopened (h : Ready limit s) (n : ℕ) :
    Ready limit (.ofColl s.base.reopened n s.history) ∧
      (Log.ofColl s.base.reopened n s.history).frames = s.frames := by
  have hspots : (Log.ofColl s.base.reopened n s.history).spots = s.spots := h.inv.reopened_spots
  have hframes : (Log.ofColl s.base.reopened n s.history).frames = s.frames := by
    rw [Log.frames, hspots, Log.frames]
  have hpending : (Log.ofColl s.base.reopened n s.history).coll.pending = s.coll.pending :=
    h.inv.reopened_pending
  have hlast : s.base.reopened.lastAppendedLsn = s.coll.lastAppendedLsn :=
    congrArg Prod.fst h.inv.reopened_tail
  refine ⟨⟨rfl, h.inv.reopen, ?_, ?_, Nat.le_refl _, .inl rfl, Nat.le_max_right _ _, ?_, ?_,
    Nat.le_refl _⟩, hframes⟩
  · rw [hframes, hpending]
    exact h.kept
  · rw [hframes]
    exact h.chained
  · have hdurable : (Log.ofColl s.base.reopened n s.history).durableLsn = lsnOf s.frames :=
      hlast.trans h.tail.1
    rw [hdurable, hframes]
    exact lsnOf_mem s.frames
  · have hnone : s.spots.filter (fun q => s.coll.lastAppendedLsn < q.frame.lsn) = [] := by
      refine List.filter_eq_nil_iff.mpr fun q hq => ?_
      have hle : q.frame.lsn ≤ s.coll.lastAppendedLsn := h.inv.log.bound hq
      simp only [decide_eq_true_eq]
      omega
    have hfloor : (Log.ofColl s.base.reopened n s.history).recentFrames =
      ⟨s.coll.lastAppendedLsn, []⟩ := by
      rw [← hlast]
      rfl
    rw [hspots, hfloor, RecentOk, hnone]
    rfl

end Standing

section Steps

/-- What the steps of a run keep to: a frame that truncates to the watermark names the term that is
committed there, the WAL behind a torn write opens, commits are frames of the log, and the index is
saved while no cut is pending and no rotation has failed. -/
def Orderly (s : Log V H) : Op V H → Prop
  | .append _ _ io => opens io.write = true
  | .appendRawFrame f io => opens io.write = true ∧
      (Truncates s.healed.coll f → f.prevLsn = s.coll.appliedLsn →
        f.prevTerm = (committedTail s.history).2)
  | .applyCommitted lsn => lsn ≤ s.coll.appliedLsn ∨ ∃ q ∈ s.coll.pending, q.frame.lsn = lsn
  | .saveIndex => s.truncationFence = none ∧ s.handle = s.coll.currentWalId
  | _ => True

instance (s : Log V H) : ∀ op : Op V H, Decidable (Orderly s op)
  | .append _ _ io => inferInstanceAs (Decidable (opens io.write = true))
  | .appendRawFrame _ io => inferInstanceAs (Decidable (opens io.write = true ∧ _))
  | .applyCommitted _ => inferInstanceAs (Decidable (_ ∨ ∃ q ∈ s.coll.pending, _))
  | .saveIndex => inferInstanceAs (Decidable (_ ∧ _))
  | .syncWal _ => isTrue trivial
  | .heal _ => isTrue trivial
  | .reopen _ => isTrue trivial
  | .raiseNextLsn _ => isTrue trivial

theorem healed_same (s : Log V H) :
    s.healed.history = s.history ∧ s.healed.coll.appliedLsn = s.coll.appliedLsn ∧
      s.healed.coll.index = s.coll.index := by
  unfold Log.healed
  split <;> exact ⟨rfl, rfl, rfl⟩

theorem LogInv.healed_pending (h : LogInv limit s) : s.healed.coll.pending = s.coll.pending := by
  cases hfence : s.truncationFence with
  | none => rw [healed_of_unfenced hfence]
  | some cut =>
    rw [healed_of_fenced hfence, Log.carried, cutTo, dropAbove_eq (h.fenced cut hfence).pending_le]
    rfl

theorem Ready.recorded_meta (h : Ready limit s) :
    s.coll.recordWatermarkOnce.disk.appliedMeta ≠ none := by
  have hw := h.inv.watermark
  exact recordWatermarkOnce_meta ⟨hw.clean, hw.saved, hw.slots, hw.flag, hw.unrecorded⟩

/-- The log an append starts from: the cut is carried out and the watermark recorded. -/
def Log.prepared (s : Log V H) :
    Log V H := { s.healed with coll := s.healed.coll.recordWatermarkOnce }

theorem LogInv.prepared (h : LogInv limit s) :
    Ready limit s.prepared ∧ s.prepared.coll.disk.appliedMeta ≠ none ∧
      s.prepared.frames = s.healed.frames ∧ s.prepared.history = s.history := by
  refine ⟨h.healed.record, h.healed.recorded_meta, ?_, (healed_same s).1⟩
  unfold Log.prepared Log.frames Log.spots Coll.recordWatermarkOnce
  split <;> rfl

theorem LogInv.heal_recorded_ok (h : LogInv limit s)
    (ht : { s with coll := s.coll.recordWatermarkOnce }.healFencedCut carry = .ok t) :
    t = s.prepared := by
  rw [(h.record.heal_ok ht).1, healed_record]
  rfl

theorem LogInv.heal_recorded_error (h : LogInv limit s)
    (ht : { s with coll := s.coll.recordWatermarkOnce }.healFencedCut carry = .error t) :
    LogInv limit t ∧ t.healed.frames = s.healed.frames ∧ t.history = s.history := by
  obtain ⟨hinv, heq⟩ := h.record.heal_error ht
  have hprepared : t.healed = s.prepared := heq.trans (healed_record s)
  obtain ⟨-, -, hframes, hhistory⟩ := h.prepared
  exact ⟨hinv, by rw [hprepared, hframes], by rw [← (healed_same t).1, hprepared, hhistory]⟩

theorem LogInv.appendRawFrame (h : LogInv limit s) {f : Frame (LogEntry V H)} {io : AppendIo}
    (hlt : f.prevLsn < f.lsn) (hshort : io.write.shorter (frameLen f))
    (hok : Orderly s (.appendRawFrame f io)) :
    (∀ t, s.appendRawFrame limit f io = .error t → LogInv limit t ∧ t.history = s.history ∧
        (t.healed.frames = s.healed.frames ∨
          t.healed.frames = CollectionLog.cut f.prevLsn s.healed.frames)) ∧
      ∀ t o, s.appendRawFrame limit f io = .ok (t, o) →
        (t = s.prepared ∧ ∀ lsn, o ≠ .applied lsn) ∨
        (Ready limit t ∧ t.history = s.history ∧ o = .applied f.lsn ∧
          t.frames = CollectionLog.cut f.prevLsn s.healed.frames ++ [f]) := by
  obtain ⟨hopens, hlink⟩ := hok
  obtain ⟨hready, hmeta, hframes, hhistory⟩ := h.prepared
  unfold Log.appendRawFrame
  cases hheal : { s with coll := s.coll.recordWatermarkOnce }.healFencedCut io.heal with
  | error t' =>
    obtain ⟨hinv, hframes', hhistory'⟩ := h.heal_recorded_error hheal
    refine ⟨fun t ht => ?_, fun t o ht => (by cases ht)⟩
    obtain rfl : t' = t := Except.error.inj ht
    exact ⟨hinv, hhistory', .inl hframes'⟩
  | ok u =>
    obtain rfl := h.heal_recorded_ok hheal
    have hsame : s.prepared.coll.appliedLsn = s.coll.appliedLsn ∧
        (Truncates s.prepared.coll f → Truncates s.healed.coll f) := by
      rw [← (healed_same s).2.1]
      unfold Log.prepared Coll.recordWatermarkOnce
      split <;> exact ⟨rfl, fun h => h⟩
    have hadmit := hready.admit (f := f) hmeta hlt hshort hopens fun htruncates hprev =>
      hhistory.symm ▸ hlink (hsame.2 htruncates) (hprev.trans hsame.1)
    rw [hframes, hhistory] at hadmit
    exact hadmit

theorem LogInv.append (h : LogInv limit s) {entry : LogEntry V H} {term : ℕ} {io : AppendIo}
    (hshort : io.write.shorter (headerLen + Encoded.len entry))
    (hok : Orderly s (.append entry term io)) :
    (∀ t, s.append limit entry term io = .error t → LogInv limit t ∧ t.history = s.history ∧
        t.healed.frames = s.healed.frames) ∧
      ∀ t, s.append limit entry term io = .ok t → Ready limit t ∧ t.history = s.history ∧
        t.frames = s.healed.frames ++ [s.healed.nextFrame entry term] := by
  obtain ⟨hready, hmeta, hframes, hhistory⟩ := h.prepared
  unfold Log.append
  cases hheal : { s with coll := s.coll.recordWatermarkOnce }.healFencedCut io.heal with
  | error t' =>
    obtain ⟨hinv, hframes', hhistory'⟩ := h.heal_recorded_error hheal
    refine ⟨fun t ht => ?_, fun t ht => (by cases ht)⟩
    obtain rfl : t' = t := Except.error.inj ht
    exact ⟨hinv, hhistory', hframes'⟩
  | ok u =>
    obtain rfl := h.heal_recorded_ok hheal
    have hnext : s.prepared.nextFrame entry term = s.healed.nextFrame entry term := by
      rw [Log.nextFrame, Log.nextFrame, hframes, Log.prepared]
    obtain ⟨herr, hdone⟩ := hready.append hmeta term hshort hok rfl
    rw [hframes, hhistory] at herr hdone
    rw [hnext] at hdone
    refine ⟨fun t ht => ?_, hdone⟩
    obtain ⟨hready', hhistory', hframes'⟩ := herr t ht
    exact ⟨hready'.logInv, hhistory', by rw [healed_of_unfenced hready'.unfenced, hframes']⟩

theorem LogInv.apply (h : LogInv limit s) {lsn : ℕ} (hok : Orderly s (.applyCommitted lsn)) :
    LogInv limit (s.applyCommitted lsn) := by
  obtain ⟨-, happlied, -⟩ := healed_same s
  refine ⟨?_, fun cut hcut => ?_⟩
  · rw [healed_apply h]
    refine h.healed.apply ?_
    rw [happlied, h.healed_pending]
    exact hok
  · have hf := h.fenced cut hcut
    obtain ⟨hfiles, hrecord, hpending, -, hid, -⟩ := applyCommitted_fields s.coll lsn
    refine ⟨fun q hq => ?_, hf.walId_le, ?_, ?_, ?_, ?_⟩
    · have hq : q ∈ (s.coll.applyCommitted lsn).pending := hq
      rw [hpending] at hq
      exact hf.pending_le q (List.mem_of_mem_filter hq)
    · simp only [Log.applyCommitted, hid]
      exact hf.handle_le
    · simp only [Log.applyCommitted, hfiles]
      exact hf.sizes
    · simp only [Log.applyCommitted, hfiles]
      exact hf.there
    · simp only [Log.applyCommitted, hfiles, hrecord]
      exact hf.recorded

theorem healed_raise (s : Log V H) (n : ℕ) :
    ({ s with nextLsn := n } : Log V H).healed = { s.healed with nextLsn := n } := by
  obtain ⟨coll, handle, fence, durableLsn, recentFrames, nextLsn, history⟩ := s
  cases fence <;> rfl

theorem LogInv.raise (h : LogInv limit s) {n : ℕ} (hn : s.nextLsn ≤ n) :
    LogInv limit { s with nextLsn := n } := by
  refine ⟨?_, fun cut hcut => ?_⟩
  · rw [healed_raise]
    refine h.healed.raise (Nat.le_trans (Nat.le_of_eq ?_) hn)
    unfold Log.healed
    split <;> rfl
  · have hf := h.fenced cut hcut
    exact ⟨hf.pending_le, hf.walId_le, hf.handle_le, hf.sizes, hf.there, hf.recorded⟩

theorem step_inv (h : LogInv limit s) {op : Op V H} (hok : Orderly s op)
    (hstep : step limit s op = some t) : LogInv limit t ∧ s.history <+: t.history := by
  cases op with
  | append entry term io =>
    simp only [step] at hstep
    split at hstep
    · next hshort =>
      cases hstep
      obtain ⟨herr, hdone⟩ := h.append hshort hok
      cases hr : s.append limit entry term io with
      | error t' =>
        obtain ⟨hinv, hhistory, -⟩ := herr t' hr
        exact ⟨hinv, by rw [← hhistory]; exact List.prefix_refl _⟩
      | ok t' =>
        obtain ⟨hready, hhistory, -⟩ := hdone t' hr
        exact ⟨hready.logInv, by rw [← hhistory]; exact List.prefix_refl _⟩
    · cases hstep
  | appendRawFrame f io =>
    simp only [step] at hstep
    split at hstep
    · next hframe =>
      cases hstep
      obtain ⟨herr, hdone⟩ := h.appendRawFrame hframe.1 hframe.2 hok
      cases hr : s.appendRawFrame limit f io with
      | error t' =>
        obtain ⟨hinv, hhistory, -⟩ := herr t' hr
        exact ⟨hinv, by rw [← hhistory]; exact List.prefix_refl _⟩
      | ok r =>
        obtain ⟨t', o⟩ := r
        rcases hdone t' o hr with ⟨rfl, -⟩ | ⟨hready, hhistory, -, -⟩
        · obtain ⟨hready, -, -, hhistory⟩ := h.prepared
          exact ⟨hready.logInv, by rw [← hhistory]; exact List.prefix_refl _⟩
        · exact ⟨hready.logInv, by rw [← hhistory]; exact List.prefix_refl _⟩
    · cases hstep
  | applyCommitted lsn =>
    cases hstep
    exact ⟨h.apply hok, List.prefix_append _ _⟩
  | syncWal synced =>
    cases hstep
    refine ⟨(h.sync synced).1, ?_⟩
    cases synced <;> exact List.prefix_refl _
  | saveIndex =>
    cases hstep
    exact ⟨((h.ready hok.1).save hok.2).logInv, List.prefix_refl _⟩
  | heal carry =>
    cases hstep
    cases hheal : s.healFencedCut carry with
    | error t' =>
      obtain ⟨hinv, heq⟩ := h.heal_error hheal
      refine ⟨hinv, ?_⟩
      have hhistory : t'.history = s.history := by rw [← (healed_same t').1, heq, (healed_same s).1]
      simp only [Log.settle, hhistory]
      exact List.prefix_refl _
    | ok t' =>
      obtain ⟨rfl, hready⟩ := h.heal_ok hheal
      refine ⟨hready.logInv, ?_⟩
      simp only [Log.settle, (healed_same s).1]
      exact List.prefix_refl _
  | reopen n =>
    have hstep : s.reopen n = some t := hstep
    rw [h.reopen_eq] at hstep
    cases hstep
    exact ⟨(h.healed.reopened n).1.logInv, by rw [← (healed_same s).1]; exact List.prefix_refl _⟩
  | raiseNextLsn lsn =>
    cases hstep
    exact ⟨h.raise (Nat.le_max_left _ _), List.prefix_refl _⟩

theorem fresh_inv : LogInv limit (Log.fresh : Log V H) := by
  have hinv : Inv (Log.fresh : Log V H).base [] := Recovery.fresh_inv
  refine Ready.logInv ⟨rfl, hinv, rfl, ?_, Nat.le_refl _, .inl rfl, Nat.le_refl _, .inl rfl, rfl,
    Nat.le_refl _⟩
  intro q f hq
  have := List.prefix_nil.mp hq
  simp at this

theorem run_inv {ops : List (Op V H)} (hrun : run (step limit) Log.fresh ops = some s)
    (hok : Meets (step limit) Orderly Log.fresh ops) : LogInv limit s :=
  run_invariant_of_meets (fun _ _ _ h hok hstep => (step_inv h hok hstep).1) hrun hok fresh_inv

theorem run_history {ops : List (Op V H)} (h : LogInv limit s)
    (hrun : run (step limit) s ops = some t)
    (hok : Meets (step limit) Orderly s ops) : LogInv limit t ∧ s.history <+: t.history := by
  refine run_invariant_of_meets (I := fun t => LogInv limit t ∧ s.history <+: t.history) ?_ hrun hok
    ⟨h, List.prefix_refl _⟩
  intro u op u' hu hop hstep
  obtain ⟨hinv, hpre⟩ := step_inv hu.1 hop hstep
  exact ⟨hinv, hu.2.trans hpre⟩

end Steps

end DewDB.FencedLog
