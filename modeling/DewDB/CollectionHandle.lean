import DewDB.FencedLog
import DewDB.StagedReads

/-!
# A collection's handle

What the write paths hold of an open collection: its log, and whether an install has released it. A
released handle has lost what it staged and published, and refuses every append. Each append checks
the size of its record, makes sure that a watermark is on disk, takes the append lock and finishes
an unfinished truncation, before it writes its frame and stages it.
-/
namespace DewDB.CollectionHandle

open CollectionLog WalFile StorageEntry Recovery FencedLog LastTouch
open WalWriter (WalCut RotateIo WriteIo)

variable {V H : Type}

/-- `MAX_RECORD_SIZE` and `WAL_ROTATION_LIMIT`. -/
structure Limits where
  maxRecordSize : ℕ
  walRotation : ℕ

/-- How an append fares on the disk: whether a watermark can be recorded, and all that follows. -/
structure Attempt where
  recorded : Bool
  io : AppendIo

def Attempt.allDone : Attempt := ⟨true, .allDone⟩

structure Handle (V H : Type) where
  log : Log V H
  released : Bool
  deriving DecidableEq

/-- What happens to a handle. A commit publishes whether its watermark can be saved or not. -/
inductive Step (V H : Type) where
  | append (entry : LogEntry V H) (term : ℕ) (io : Attempt)
  | appendRawFrame (f : Frame (LogEntry V H)) (io : Attempt)
  | applyCommitted (lsn : ℕ) (saved : Bool)
  | syncWal (synced : Bool)
  | raiseNextLsn (lsn : ℕ)
  | releaseHandles

variable [Encoded (LogEntry V H)]

namespace Handle

variable (h : Handle V H)

/-- `record_watermark_once`; nothing changes when the watermark cannot be written. -/
def recordWatermarkOnce (recorded : Bool) : Except (Handle V H) (Handle V H) :=
  if h.log.coll.watermarkRecorded then .ok h
  else if recorded then .ok { h with log := { h.log with coll := h.log.coll.recordWatermarkOnce } }
  else .error h

def onLog {α : Type} (append : Log V H → Except (Log V H) (Log V H × α)) : Except (Handle V H)
    (Handle V H × α) :=
  if h.released then .error h
  else match append h.log with
    | .error log => .error { h with log }
    | .ok (log, a) => .ok ({ h with log }, a)

def append (limits : Limits) (entry : LogEntry V H) (term : ℕ) (io : Attempt) :
    Except (Handle V H) (Handle V H × (ℕ × ℕ)) :=
  if limits.maxRecordSize < Encoded.len entry then .error h
  else (h.recordWatermarkOnce io.recorded).bind fun h =>
    h.onLog fun log =>
      (log.append limits.walRotation entry term io.io).map fun t =>
        (t, (t.coll.lastAppendedTerm, t.coll.lastAppendedLsn))

def appendRawFrame (limits : Limits) (f : Frame (LogEntry V H)) (io : Attempt) :
    Except (Handle V H) (Handle V H × ReplicaApply) :=
  (h.recordWatermarkOnce io.recorded).bind fun h => h.onLog fun log =>
    log.appendRawFrame limits.walRotation f io.io

def applyCommitted (lsn : ℕ) (saved : Bool) : Handle V H :=
  if saved then { h with log := h.log.applyCommitted lsn }
  else { h with log := { h.log with
    coll := h.log.coll.applyMemory lsn
    history := h.log.history ++ (h.log.coll.ready lsn).map Spot.frame } }

omit [Encoded (LogEntry V H)] in
/-- The writer is parked on a tombstone, which is none of the collection's WALs. -/
def releaseHandles : Handle V H :=
  { h with
    log := { h.log with
      handle := 0
      coll := { h.log.coll with
        currentWalSize := 0
        pending := []
        index := [] } }
    released := true }

omit [Encoded (LogEntry V H)] in
def settle {α : Type} : Except (Handle V H) (Handle V H × α) → Handle V H
  | .error h => h
  | .ok (h, _) => h

end Handle

def step (limits : Limits) (h : Handle V H) : Step V H → Handle V H
  | .append entry term io => Handle.settle (h.append limits entry term io)
  | .appendRawFrame f io => Handle.settle (h.appendRawFrame limits f io)
  | .applyCommitted lsn saved => h.applyCommitted lsn saved
  | .syncWal synced => { h with log := h.log.syncWal synced }
  | .raiseNextLsn lsn => { h with log := { h.log with nextLsn := max h.log.nextLsn lsn } }
  | .releaseHandles => h.releaseHandles

def steps (limits : Limits) (h : Handle V H) (as : List (Step V H)) : Handle V H :=
  as.foldl (step limits) h

def Further : Step V H → Prop
  | .appendRawFrame _ _ => False
  | _ => True

def Holds (h : Handle V H) (key : String) (e : IndexEntry) : Prop :=
  h.log.coll.index.get key = some e ∨ ∃ q ∈ h.log.coll.pending, resolve q key = some (some e)

def Opened (h : Handle V H) : Prop :=
  ∃ (d : Disk V H) (c : Coll V H) (nextLsn : ℕ) (history : List (Frame (LogEntry V H))),
    d.openCollection = .ok c ∧ h = ⟨.ofColl c nextLsn history, false⟩

def Reached (limits : Limits) (h : Handle V H) : Prop := ∃ h₀ as, Opened h₀ ∧ h = steps limits h₀ as

section Logs

variable {s t u : Log V H} {cut : WalCut}

structure Same (s t : Log V H) : Prop where
  index : t.coll.index = s.coll.index
  settings : t.coll.settings = s.coll.settings
  pending : t.coll.pending = s.coll.pending
  nextLsn : s.nextLsn ≤ t.nextLsn

omit [Encoded (LogEntry V H)] in
theorem Same.refl (s : Log V H) : Same s s := ⟨rfl, rfl, rfl, Nat.le_refl _⟩

omit [Encoded (LogEntry V H)] in
theorem Same.trans (h : Same s t) (h' : Same t u) : Same s u :=
  ⟨h'.index.trans h.index, h'.settings.trans h.settings, h'.pending.trans h.pending,
    h.nextLsn.trans h'.nextLsn⟩

/-- What is staged is in the order of the log, and none of it is above a cut that is still to be
made. -/
structure Tidy (s : Log V H) : Prop where
  ascending : Ascending s.coll.pending
  below : ∀ cut, s.truncationFence = some cut → ∀ q ∈ s.coll.pending, q.frame.lsn ≤ cut.prevLsn

omit [Encoded (LogEntry V H)] in
theorem Tidy.of_unfenced (h : Ascending s.coll.pending)
    (hfence : s.truncationFence = none) : Tidy s := by
  constructor
  · exact h
  · intro cut hcut
    rw [hfence] at hcut
    cases hcut

omit [Encoded (LogEntry V H)] in
theorem Tidy.of_same (h : Tidy s) (hsame : Same s t)
    (hfence : t.truncationFence = s.truncationFence) : Tidy t := by
  constructor
  · rw [hsame.pending]
    exact h.ascending
  · rw [hsame.pending, hfence]
    exact h.below

omit [Encoded (LogEntry V H)] in
theorem Same.record (s : Log V H) : Same s { s with coll := s.coll.recordWatermarkOnce } := by
  have h : s.coll.recordWatermarkOnce.index = s.coll.index ∧
      s.coll.recordWatermarkOnce.settings = s.coll.settings ∧
      s.coll.recordWatermarkOnce.pending = s.coll.pending := by
    unfold Coll.recordWatermarkOnce Coll.persistWatermarkFull
    split <;> exact ⟨rfl, rfl, rfl⟩
  exact ⟨h.1, h.2.1, h.2.2, Nat.le_refl _⟩

theorem applyCut_cases (s : Log V H) (cut : WalCut) (carry : Carry) :
    (∃ t, s.applyCut cut carry = .error t ∧ Same s t ∧ t.truncationFence = some cut) ∨
    ∃ t, s.applyCut cut carry = .ok t ∧ Same s t ∧ t.nextLsn = s.nextLsn ∧
      t.truncationFence = none := by
  unfold Log.applyCut
  split
  · exact .inl ⟨_, rfl, ⟨rfl, rfl, rfl, Nat.le_refl _⟩, rfl⟩
  · dsimp only
    split
    · exact .inl ⟨_, rfl, ⟨rfl, rfl, rfl, Nat.le_refl _⟩, rfl⟩
    · split
      · apply Or.inl
        split
        · exact ⟨_, rfl, ⟨rfl, rfl, rfl, Nat.le_refl _⟩, rfl⟩
        · exact ⟨_, rfl, ⟨rfl, rfl, rfl, Nat.le_refl _⟩, rfl⟩
      · exact .inr ⟨_, rfl, ⟨rfl, rfl, rfl, Nat.le_refl _⟩, rfl, rfl⟩

theorem Tidy.heal (h : Tidy s) (carry : Carry) :
    (∃ t, s.healFencedCut carry = .error t ∧ Same s t ∧ Tidy t) ∨
    ∃ t, s.healFencedCut carry = .ok t ∧ Same s t ∧ t.nextLsn = s.nextLsn ∧
      t.truncationFence = none := by
  unfold Log.healFencedCut
  cases hcut : s.truncationFence with
  | none => exact .inr ⟨s, rfl, .refl s, rfl, hcut⟩
  | some cut =>
    have hdrop : Same s { s with coll := s.coll.dropAbove cut.prevLsn } := by
      constructor
      · rfl
      · rfl
      · apply List.filter_eq_self.mpr
        intro q hq
        exact decide_eq_true (h.below cut hcut q hq)
      · exact Nat.le_refl _
    dsimp only
    rcases applyCut_cases { s with coll := s.coll.dropAbove cut.prevLsn } cut carry with
      ⟨t, ht, hsame, hfence⟩ | ⟨t, ht, hsame, hlsn, hfence⟩
    · have hsame := hdrop.trans hsame
      exact .inl ⟨t, ht, hsame, h.of_same hsame (hfence.trans hcut.symm)⟩
    · exact .inr ⟨t, ht, hdrop.trans hsame, hlsn, hfence⟩

omit [Encoded (LogEntry V H)] in
theorem openNextWal_cases (s : Log V H) (opened : Bool) :
    ∃ t, (s.openNextWal opened = .error t ∨ s.openNextWal opened = .ok t) ∧ Same s t ∧
      t.nextLsn = s.nextLsn ∧ t.truncationFence = s.truncationFence := by
  cases opened with
  | true => exact ⟨_, .inr rfl, ⟨rfl, rfl, rfl, Nat.le_refl _⟩, rfl, rfl⟩
  | false => exact ⟨_, .inl rfl, ⟨rfl, rfl, rfl, Nat.le_refl _⟩, rfl, rfl⟩

omit [Encoded (LogEntry V H)] in
theorem rotateIfFull_cases (s : Log V H) (limit : ℕ) (io : RotateIo) :
    ∃ t, (s.rotateIfFull limit io = .error t ∨ s.rotateIfFull limit io = .ok t) ∧ Same s t ∧
      t.nextLsn = s.nextLsn ∧ t.truncationFence = s.truncationFence := by
  unfold Log.rotateIfFull
  split
  · exact ⟨s, .inr rfl, .refl s, rfl, rfl⟩
  · split
    · obtain ⟨t, ht, hsame, hlsn, hfence⟩ := openNextWal_cases { s with
        coll := s.coll.setFiles (onFile s.handle File.sync s.coll.disk.files) } io.opened
      exact ⟨t, ht, ⟨hsame.index, hsame.settings, hsame.pending, hsame.nextLsn⟩, hlsn, hfence⟩
    · exact ⟨s, .inl rfl, .refl s, rfl, rfl⟩

structure Stages (s : Log V H) (f : Frame (LogEntry V H)) (t : Log V H) : Prop where
  index : t.coll.index = s.coll.index
  settings : t.coll.settings = s.coll.settings
  pending : ∃ walId offset, t.coll.pending = stageAt ⟨f, walId, offset⟩ s.coll.pending
  nextLsn : s.nextLsn ≤ t.nextLsn
  last : t.coll.lastAppendedTerm = f.term ∧ t.coll.lastAppendedLsn = f.lsn

omit [Encoded (LogEntry V H)] in
theorem Same.stages (h : Same s t) {f : Frame (LogEntry V H)} (hs : Stages t f u) :
    Stages s f u := by
  obtain ⟨walId, offset, hpending⟩ := hs.pending
  exact ⟨hs.index.trans h.index, hs.settings.trans h.settings,
    ⟨walId, offset, h.pending ▸ hpending⟩, h.nextLsn.trans hs.nextLsn, hs.last⟩

omit [Encoded (LogEntry V H)] in
theorem Stages.tidy {f : Frame (LogEntry V H)} (hs : Stages s f t) (h : Tidy s)
    (hfence : t.truncationFence = none) : Tidy t := by
  obtain ⟨walId, offset, hpending⟩ := hs.pending
  apply Tidy.of_unfenced _ hfence
  rw [hpending]
  exact h.ascending.stageAt _

theorem writeFrame_cases (s : Log V H) (f : Frame (LogEntry V H)) (io : WriteIo) :
    (∃ t, s.writeFrame f io = .error t ∧ Same s t ∧ t.truncationFence = s.truncationFence) ∨
    ∃ t, s.writeFrame f io = .ok t ∧ Stages s f t ∧ t.nextLsn = s.nextLsn ∧
      t.truncationFence = s.truncationFence := by
  cases io with
  | done => exact .inr ⟨_, rfl, ⟨rfl, rfl, ⟨_, _, rfl⟩, Nat.le_refl _, ⟨rfl, rfl⟩⟩, rfl, rfl⟩
  | torn n opened =>
    apply Or.inl
    dsimp only [Log.writeFrame]
    generalize (if n = 0 then s.coll.disk.files
      else onFile s.handle (File.write (tear f n)) s.coll.disk.files) = fs
    obtain ⟨t, ht, hsame, -, hfence⟩ :=
      openNextWal_cases { s with coll := s.coll.setFiles fs } opened
    have hsame : Same s t := ⟨hsame.index, hsame.settings, hsame.pending, hsame.nextLsn⟩
    rcases ht with ht | ht
    · exact ⟨t, by rw [ht]; rfl, hsame, hfence⟩
    · exact ⟨t, by rw [ht]; rfl, hsame, hfence⟩

/-- Rotates when the WAL is full, and writes the frame under an LSN of the counter. -/
def rotateWrite (s : Log V H) (limit n : ℕ) (io : AppendIo) (f : Log V H → Frame (LogEntry V H)) :
    Except (Log V H) (Log V H) :=
  (s.rotateIfFull limit io.rotate).bind fun s =>
    { s with nextLsn := s.nextLsn + n }.writeFrame (f s) io.write

theorem Tidy.rotateWrite (h : Tidy s) (hfence : s.truncationFence = none) (limit n : ℕ)
    (io : AppendIo) (f : Log V H → Frame (LogEntry V H)) :
    (∃ t, rotateWrite s limit n io f = .error t ∧ Same s t ∧ Tidy t) ∨
    ∃ t u, rotateWrite s limit n io f = .ok t ∧ u.nextLsn = s.nextLsn ∧ Stages s (f u) t ∧ Tidy t ∧
      t.nextLsn = s.nextLsn + n := by
  obtain ⟨u, hu, hsame, hlsn, hkeep⟩ := rotateIfFull_cases s limit io.rotate
  unfold CollectionHandle.rotateWrite
  rcases hu with hu | hu
  · exact .inl ⟨u, by rw [hu]; rfl, hsame, h.of_same hsame hkeep⟩
  · have hraised : Same s { u with nextLsn := u.nextLsn + n } :=
      ⟨hsame.index, hsame.settings, hsame.pending, hsame.nextLsn.trans (Nat.le_add_right _ _)⟩
    rw [hu]
    rcases writeFrame_cases { u with nextLsn := u.nextLsn + n } (f u) io.write with
      ⟨t, ht, hwrite, hfence'⟩ | ⟨t, ht, hstages, hlsn', hfence'⟩
    · exact .inl ⟨t, ht, hraised.trans hwrite,
        h.of_same (hraised.trans hwrite) (hfence'.trans hkeep)⟩
    · have hstages := hraised.stages hstages
      have hn : t.nextLsn = s.nextLsn + n := by rw [hlsn', hlsn]
      exact .inr ⟨t, u, ht, hlsn, hstages, hstages.tidy h (hfence'.trans (hkeep.trans hfence)), hn⟩

/-- The leader's append stages one frame under the next LSN, or changes nothing that is staged. -/
theorem Tidy.append (h : Tidy s) (limit : ℕ) (entry : LogEntry V H) (term : ℕ) (io : AppendIo) :
    (∃ t, s.append limit entry term io = .error t ∧ Same s t ∧ Tidy t) ∨
    ∃ t f, s.append limit entry term io = .ok t ∧ Stages s f t ∧ Tidy t ∧ f.entry = entry ∧
      f.term = term ∧ f.lsn = s.nextLsn + 1 ∧ t.nextLsn = s.nextLsn + 1 := by
  have hrecord := Same.record s
  have hs : Tidy { s with coll := s.coll.recordWatermarkOnce } := h.of_same hrecord rfl
  unfold Log.append
  rcases hs.heal io.heal with ⟨t, ht, hsame, htidy⟩ | ⟨t, ht, hsame, hlsn, hfence⟩
  · rw [ht]
    exact .inl ⟨t, rfl, hrecord.trans hsame, htidy⟩
  · have hsame := hrecord.trans hsame
    rw [ht]
    have ht : Tidy t := Tidy.of_unfenced (hsame.pending ▸ h.ascending) hfence
    rcases ht.rotateWrite hfence limit 1 io
      (fun s => ⟨term, s.nextLsn + 1, s.coll.lastAppendedTerm, s.coll.lastAppendedLsn, entry⟩) with
      ⟨u, hu, hwrite, hu'⟩ | ⟨u, v, hu, hlsn', hstages, hu', hn⟩
    · exact .inl ⟨u, hu, hsame.trans hwrite, hu'⟩
    · have hlsn : t.nextLsn = s.nextLsn := hlsn
      rw [hlsn] at hlsn' hn
      exact .inr ⟨u, _, hu, hsame.stages hstages, hu', rfl, rfl, congrArg (· + 1) hlsn', hn⟩

theorem Tidy.rewind (h : Tidy s) (hfence : s.truncationFence = none) (prevLsn prevTerm : ℕ)
    (io : FencedLog.RewindIo) :
    (∃ t, s.rewindTo prevLsn prevTerm io = .error t ∧ Tidy t ∧ s.nextLsn ≤ t.nextLsn) ∨
    s.rewindTo prevLsn prevTerm io = .ok none ∨
    ∃ t, s.rewindTo prevLsn prevTerm io = .ok (some t) ∧ Tidy t ∧ t.truncationFence = none ∧
      s.nextLsn ≤ t.nextLsn := by
  unfold Log.rewindTo
  cases hcut : s.coll.cutAt prevLsn prevTerm with
  | none => exact .inr (.inl rfl)
  | some cut =>
    cases io with
    | unlowered => exact .inl ⟨s, rfl, h, Nat.le_refl _⟩
    | unrecorded => exact .inl ⟨_, rfl, .of_unfenced h.ascending hfence, Nat.le_refl _⟩
    | cut carry =>
      have hprev : cut.prevLsn = prevLsn := by
        unfold Coll.cutAt at hcut
        split at hcut
        · cases hcut
        split at hcut
        · cases hcut
        split at hcut
        · cases hcut
        obtain ⟨q, -, rfl⟩ := Option.map_eq_some_iff.mp hcut
        rfl
      dsimp only
      generalize hd : ({ s with coll :=
        (recordCut (s.coll.rewindIndexTail prevLsn prevTerm) (some cut)).dropAbove prevLsn } :
          Log V H) = d
      have hpending : d.coll.pending = s.coll.pending.filter fun q =>
        q.frame.lsn ≤ prevLsn := hd ▸ rfl
      have hlsn : d.nextLsn = s.nextLsn := hd ▸ rfl
      have hasc : Ascending d.coll.pending := hpending ▸ h.ascending.filter _
      rcases applyCut_cases d cut carry with ⟨t, ht, hsame, hcut'⟩ | ⟨t, ht, hsame, -, hcut'⟩
      · apply Or.inl
        refine ⟨t, by rw [ht]; rfl, ⟨hsame.pending ▸ hasc, ?_⟩, hlsn ▸ hsame.nextLsn⟩
        intro cut' hfence' q hq
        obtain rfl : cut = cut' := Option.some.inj (hcut'.symm.trans hfence')
        rw [hsame.pending, hpending] at hq
        rw [hprev]
        exact of_decide_eq_true (List.mem_filter.mp hq).2
      · exact .inr (.inr ⟨t, by rw [ht]; rfl, .of_unfenced (hsame.pending ▸ hasc) hcut', hcut',
          hlsn ▸ hsame.nextLsn⟩)

theorem Tidy.writeRaw (h : Tidy s) (hfence : s.truncationFence = none) (limit : ℕ)
    (f : Frame (LogEntry V H)) (io : AppendIo) :
    Tidy (Log.settle ((s.writeRaw limit f io).map Prod.fst)) ∧
      s.nextLsn ≤ (Log.settle ((s.writeRaw limit f io).map Prod.fst)).nextLsn := by
  have heq : s.writeRaw limit f io =
      (CollectionHandle.rotateWrite s limit 0 io fun _ => f).map fun s =>
        ({ s with nextLsn := max s.nextLsn f.lsn }, .applied f.lsn) := by
    unfold Log.writeRaw CollectionHandle.rotateWrite
    cases s.rotateIfFull limit io.rotate <;> rfl
  rw [heq]
  rcases h.rotateWrite hfence limit 0 io (fun _ => f) with
    ⟨t, ht, hsame, htidy⟩ | ⟨t, u, ht, -, hstages, htidy, hn⟩
  · rw [ht]
    exact ⟨htidy, hsame.nextLsn⟩
  · rw [ht]
    exact ⟨⟨htidy.ascending, htidy.below⟩, hstages.nextLsn.trans (Nat.le_max_left _ _)⟩

theorem Tidy.appendRawFrame (h : Tidy s) (limit : ℕ) (f : Frame (LogEntry V H)) (io : AppendIo) :
    Tidy (Log.settle ((s.appendRawFrame limit f io).map Prod.fst)) ∧
      s.nextLsn ≤ (Log.settle ((s.appendRawFrame limit f io).map Prod.fst)).nextLsn := by
  have hs : Tidy { s with coll := s.coll.recordWatermarkOnce } := h.of_same (.record s) rfl
  unfold Log.appendRawFrame
  rcases hs.heal io.heal with ⟨t, ht, hsame, htidy⟩ | ⟨t, ht, hsame, hlsn, hfence⟩
  · rw [ht]
    exact ⟨htidy, hsame.nextLsn⟩
  have htidy : Tidy t := Tidy.of_unfenced (hsame.pending ▸ hs.ascending) hfence
  have hle : s.nextLsn ≤ t.nextLsn := hsame.nextLsn
  rw [ht]
  change Tidy (Log.settle ((t.admitRawFrame limit f io).map Prod.fst)) ∧
    s.nextLsn ≤ (Log.settle ((t.admitRawFrame limit f io).map Prod.fst)).nextLsn
  unfold Log.admitRawFrame
  dsimp only
  split
  · exact ⟨htidy, hle⟩
  split
  · exact ⟨htidy, hle⟩
  split
  · rcases htidy.rewind hfence f.prevLsn f.prevTerm io.rewind with
      ⟨u, hu, hu', hlsn'⟩ | hu | ⟨u, hu, hu', hfence', hlsn'⟩
    · rw [hu]
      exact ⟨hu', hle.trans hlsn'⟩
    · rw [hu]
      exact ⟨htidy, hle⟩
    · rw [hu]
      have hraw := hu'.writeRaw hfence' limit f io
      exact ⟨hraw.1, hle.trans (hlsn'.trans hraw.2)⟩
  split
  · exact ⟨htidy, hle⟩
  · have hraw := htidy.writeRaw hfence limit f io
    exact ⟨hraw.1, hle.trans hraw.2⟩

structure Publishes (s : Log V H) (lsn : ℕ) (t : Log V H) : Prop where
  published : Published s.coll lsn t.coll
  fence : t.truncationFence = s.truncationFence
  nextLsn : t.nextLsn = s.nextLsn

theorem Publishes.tidy {lsn : ℕ} (hs : Publishes s lsn t) (h : Tidy s) : Tidy t := by
  have hpending := hs.published.pending
  constructor
  · rw [hpending]
    exact h.ascending.filter _
  · intro cut hcut q hq
    rw [hpending] at hq
    exact h.below cut (hs.fence ▸ hcut) q (List.mem_of_mem_filter hq)

end Logs

section Handles

variable {h t : Handle V H} (limits : Limits)

theorem applyCommitted_publishes (h : Handle V H) (lsn : ℕ) (saved : Bool) :
    Publishes h.log lsn (h.applyCommitted lsn saved).log := by
  unfold Handle.applyCommitted
  cases saved with
  | true => exact ⟨Commits.published (.inr rfl), rfl, rfl⟩
  | false => exact ⟨Commits.published (.inl rfl), rfl, rfl⟩

omit [Encoded (LogEntry V H)] in
theorem recordWatermarkOnce_cases (h : Handle V H) (recorded : Bool) :
    h.recordWatermarkOnce recorded = .error h ∨
    ∃ t, h.recordWatermarkOnce recorded = .ok t ∧ Same h.log t.log ∧
      t.log.truncationFence = h.log.truncationFence ∧ t.log.nextLsn = h.log.nextLsn ∧
        t.released = h.released := by
  unfold Handle.recordWatermarkOnce
  split
  · exact .inr ⟨h, rfl, .refl _, rfl, rfl, rfl⟩
  · split
    · exact .inr ⟨_, rfl, .record _, rfl, rfl, rfl⟩
    · exact .inl rfl

omit [Encoded (LogEntry V H)] in
theorem onLog_released {α : Type} (hrel : h.released = true)
    (append : Log V H → Except (Log V H) (Log V H × α)) : h.onLog append = .error h := by
  rw [Handle.onLog, if_pos hrel]

omit [Encoded (LogEntry V H)] in
theorem onLog_error {α : Type} {append : Log V H → Except (Log V H) (Log V H × α)} {log : Log V H}
    (hrel : h.released = false) (hlog : append h.log = .error log) :
    h.onLog append = .error { h with log } := by
  simp only [Handle.onLog, hrel, hlog, Bool.false_eq_true, if_false]

omit [Encoded (LogEntry V H)] in
theorem onLog_ok {α : Type} {append : Log V H → Except (Log V H) (Log V H × α)}
    {log : Log V H} {a : α}
    (hrel : h.released = false) (hlog : append h.log = .ok (log, a)) :
    h.onLog append = .ok ({ h with log }, a) := by
  simp only [Handle.onLog, hrel, hlog, Bool.false_eq_true, if_false]

/-- An append of the handle changes nothing that is staged, or stages its frame under the next LSN.
-/
theorem append_cases (htidy : Tidy h.log) (entry : LogEntry V H) (term : ℕ) (io : Attempt) :
    (∃ t, h.append limits entry term io = .error t ∧ Same h.log t.log ∧ Tidy t.log ∧
      t.released = h.released) ∨
    ∃ t f, h.append limits entry term io = .ok (t, (term, h.log.nextLsn + 1)) ∧
      Stages h.log f t.log ∧
      Tidy t.log ∧ f.entry = entry ∧ f.term = term ∧ f.lsn = h.log.nextLsn + 1 ∧
      t.log.nextLsn = h.log.nextLsn + 1 ∧ h.released = false ∧ t.released = false := by
  unfold Handle.append
  split
  · exact .inl ⟨h, rfl, .refl _, htidy, rfl⟩
  rcases recordWatermarkOnce_cases h io.recorded with hr | ⟨u, hr, hsame, hfence, hlsn, hrel⟩
  · rw [hr]
    exact .inl ⟨h, rfl, .refl _, htidy, rfl⟩
  have hu : Tidy u.log := htidy.of_same hsame hfence
  rw [hr]
  dsimp only [Except.bind]
  cases hreleased : u.released with
  | true => exact .inl ⟨u, onLog_released hreleased _, hsame, hu, hrel⟩
  | false =>
    rcases hu.append limits.walRotation entry term io.io with
      ⟨v, hv, hkeep, hv'⟩ | ⟨v, f, hv, hstages, hv', hentry, hterm, hflsn, hvlsn⟩
    · apply Or.inl
      refine ⟨{ u with log := v }, onLog_error hreleased ?_, hsame.trans hkeep, hv', hrel⟩
      simp only [hv, Except.map]
    · rw [← hlsn]
      apply Or.inr
      refine ⟨{ u with log := v }, f, onLog_ok hreleased ?_, hsame.stages hstages, hv', hentry,
        hterm, hflsn, hvlsn, hrel.symm.trans hreleased, hreleased⟩
      simp only [hv, Except.map, hstages.last.1, hstages.last.2, hterm, hflsn]

theorem step_tidy (htidy : Tidy h.log) (a : Step V H) :
    Tidy (step limits h a).log ∧ h.log.nextLsn ≤ (step limits h a).log.nextLsn := by
  cases a with
  | append entry term io =>
    simp only [step]
    rcases append_cases limits htidy entry term io
      with ⟨t, ht, hsame, ht', -⟩ | ⟨t, f, ht, hstages, ht', -⟩
    · rw [ht]
      exact ⟨ht', hsame.nextLsn⟩
    · rw [ht]
      exact ⟨ht', hstages.nextLsn⟩
  | appendRawFrame f io =>
    simp only [step, Handle.appendRawFrame]
    rcases recordWatermarkOnce_cases h io.recorded with hr | ⟨u, hr, hsame, hfence, -⟩
    · rw [hr]
      exact ⟨htidy, Nat.le_refl _⟩
    have hu : Tidy u.log := htidy.of_same hsame hfence
    have hraw := hu.appendRawFrame limits.walRotation f io.io
    rw [hr]
    dsimp only [Except.bind]
    cases hreleased : u.released with
    | true =>
      rw [onLog_released hreleased]
      exact ⟨hu, hsame.nextLsn⟩
    | false =>
      cases hv : u.log.appendRawFrame limits.walRotation f io.io with
      | error v =>
        rw [hv] at hraw
        rw [onLog_error hreleased hv]
        exact ⟨hraw.1, hsame.nextLsn.trans hraw.2⟩
      | ok v =>
        rw [hv] at hraw
        obtain ⟨v, answer⟩ := v
        rw [onLog_ok hreleased hv]
        exact ⟨hraw.1, hsame.nextLsn.trans hraw.2⟩
  | applyCommitted lsn saved =>
    have hpub := applyCommitted_publishes h lsn saved
    exact ⟨hpub.tidy htidy, Nat.le_of_eq hpub.nextLsn.symm⟩
  | syncWal synced =>
    simp only [step, Log.syncWal]
    split
    · exact ⟨⟨htidy.ascending, htidy.below⟩, Nat.le_refl _⟩
    · exact ⟨htidy, Nat.le_refl _⟩
  | raiseNextLsn lsn => exact ⟨⟨htidy.ascending, htidy.below⟩, Nat.le_max_left _ _⟩
  | releaseHandles =>
    constructor
    · exact ⟨List.Pairwise.nil, fun cut _ q hq => absurd hq List.not_mem_nil⟩
    · exact Nat.le_refl _

theorem steps_tidy (as : List (Step V H)) (htidy : Tidy h.log) :
    Tidy (steps limits h as).log ∧ h.log.nextLsn ≤ (steps limits h as).log.nextLsn := by
  induction as generalizing h with
  | nil => exact ⟨htidy, Nat.le_refl _⟩
  | cons a as ih =>
    obtain ⟨hstep, hle⟩ := step_tidy limits htidy a
    obtain ⟨hrest, hle'⟩ := ih hstep
    exact ⟨hrest, hle.trans hle'⟩

variable {limits} in
theorem Reached.tidy (hr : Reached limits h) : Tidy h.log := by
  obtain ⟨_, as, ⟨d, c, nextLsn, history, hopen, rfl⟩, rfl⟩ := hr
  apply (steps_tidy limits as _).1
  exact .of_unfenced (openCollection_ascending hopen) rfl

theorem lsn_of_resolve {q : Spot (LogEntry V H)} {key : String} {e : IndexEntry}
    (he : resolve q key = some (some e)) : e.lsn = q.frame.lsn := by
  rw [(resolve_put he).1]
  exact entryOf_lsn q

theorem holds_of_same {key : String} {e : IndexEntry} (hsame : Same h.log t.log) :
    Holds t key e ↔ Holds h key e := by
  unfold Holds
  rw [hsame.index, hsame.pending]

theorem holds_of_stages {f : Frame (LogEntry V H)} (hs : Stages h.log f t.log) {key : String}
    {e : IndexEntry} (hholds : Holds t key e) : Holds h key e ∨ e.lsn = f.lsn := by
  obtain ⟨walId, offset, hpending⟩ := hs.pending
  rcases hholds with hget | ⟨q, hq, he⟩
  · rw [hs.index] at hget
    exact .inl (.inl hget)
  · rw [hpending] at hq
    rcases mem_stageAt hq with rfl | hq
    · exact .inr (lsn_of_resolve he)
    · exact .inl (.inr ⟨q, hq, he⟩)

theorem holds_of_published {lsn : ℕ} (hp : Published h.log.coll lsn t.log.coll) {key : String}
    {e : IndexEntry} (hholds : Holds t key e) : Holds h key e := by
  rcases hholds with hget | ⟨q, hq, he⟩
  · rw [hp.index, Index.get_foldl] at hget
    cases htouch : lastTouch resolve (h.log.coll.ready lsn) key with
    | none =>
      rw [htouch] at hget
      exact .inl hget
    | some r =>
      rw [htouch] at hget
      obtain rfl : r = some e := hget
      obtain ⟨as, q, bs, hready, hq, -⟩ := lastTouch_eq_some.mp htouch
      have hmem : q ∈ h.log.coll.ready lsn := by
        rw [hready]
        exact List.mem_append_right _ List.mem_cons_self
      exact .inr ⟨q, List.mem_of_mem_filter hmem, hq⟩
  · rw [hp.pending] at hq
    exact .inr ⟨q, List.mem_of_mem_filter hq, he⟩

theorem holds_of_step (htidy : Tidy h.log) {a : Step V H} (ha : Further a) {key : String}
    {e : IndexEntry}
    (hholds : Holds (step limits h a) key e) : Holds h key e ∨ h.log.nextLsn < e.lsn := by
  cases a with
  | append entry term io =>
    simp only [step] at hholds
    rcases append_cases limits htidy entry term io
      with ⟨t, ht, hsame, -⟩ | ⟨t, f, ht, hs, -, -, -, hf, -⟩
    · rw [ht] at hholds
      exact .inl ((holds_of_same hsame).mp hholds)
    · rw [ht] at hholds
      rcases holds_of_stages hs hholds with hholds | hlsn
      · exact .inl hholds
      · exact .inr (by omega)
  | appendRawFrame f io => exact ha.elim
  | applyCommitted lsn saved =>
      exact .inl (holds_of_published (applyCommitted_publishes h lsn saved).published hholds)
  | syncWal synced =>
    simp only [step, Log.syncWal] at hholds
    split at hholds
    · exact .inl hholds
    · exact .inl hholds
  | raiseNextLsn lsn => exact .inl hholds
  | releaseHandles =>
    rcases hholds with hget | ⟨q, hq, -⟩
    · cases hget
    · cases hq

end Handles

end DewDB.CollectionHandle
