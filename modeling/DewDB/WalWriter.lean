import DewDB.WalFile
import DewDB.TransitionSystem

/-!
# The WAL writer of a collection

Appends go to the file behind `handle`, which is the WAL `currentWalId` unless a rotation failed:
then the id is already raised and the handle is still the old one. A write that fails part-way is
left behind by moving to the next WAL. A truncation is recorded as a cut; when it fails part-way the
collection is fenced, and the next append carries the same cut out first. Every write, fsync, open
and removal comes with its outcome. `log` is the collection's log: what was appended and not
truncated.
-/
namespace DewDB.WalWriter

open CollectionLog WalFile

variable {β : Type}

structure WalCut where
  walId : ℕ
  offset : ℕ
  prevLsn : ℕ
  prevTerm : ℕ
  deriving DecidableEq

structure Wal (β : Type) where
  files : List (File β)
  handle : ℕ
  currentWalId : ℕ
  currentWalSize : ℕ
  lastAppendedLsn : ℕ
  lastAppendedTerm : ℕ
  durableLsn : ℕ
  appliedLsn : ℕ
  pending : List (Spot β)
  truncationFence : Option WalCut
  nextLsn : ℕ
  log : List (Frame β)
  deriving DecidableEq

/-- How far carrying out a cut gets: the WALs emptied when it stops there, whether the cut WAL was
shortened before it stops, the files done but the writer not reopened, the record not removed. -/
inductive CutIo where
  | emptying (ids : List ℕ)
  | shrinking (shortened : Bool)
  | reopening
  | clearing
  | done
  deriving DecidableEq

structure RotateIo where
  synced : Bool
  opened : Bool

/-- A write is complete, or stops after `bytes`, and then the next WAL is opened or not. -/
inductive WriteIo where
  | done
  | torn (bytes : ℕ) (opened : Bool)

/-- Deciding a cut fails when the index tail or the cut record cannot be written. -/
inductive RewindIo where
  | refused
  | cut (io : CutIo)

structure AppendIo where
  heal : CutIo
  rewind : RewindIo
  rotate : RotateIo
  write : WriteIo

def Wal.fresh : Wal β := ⟨[⟨1, [], 0⟩], 1, 1, 0, 0, 0, 0, 0, [], none, 0, []⟩

def AppendIo.allDone : AppendIo := ⟨.done, .cut .done, ⟨true, true⟩, .done⟩

def settle : Except (Wal β) (Wal β) → Wal β
  | .error w => w
  | .ok w => w

@[simp] theorem settle_error (w : Wal β) : settle (.error w) = w := rfl

@[simp] theorem settle_ok (w : Wal β) : settle (.ok w) = w := rfl

/-- The state a drained apply leaves: `committed_lsn` and what it publishes. -/
def Wal.applyCommitted (w : Wal β) (committedLsn : ℕ) : Wal β :=
  { w with
    pending := w.pending.filter fun q => committedLsn < q.frame.lsn
    appliedLsn := max w.appliedLsn committedLsn }

/-- What a truncation to `prevLsn` leaves of the staged frames and of the log. -/
def Wal.dropAbove (w : Wal β) (prevLsn : ℕ) : Wal β :=
  { w with
    pending := w.pending.filter fun q => q.frame.lsn ≤ prevLsn
    log := w.log.filter fun f => f.lsn ≤ prevLsn }

def Wal.stagedTerm (w : Wal β) (lsn : ℕ) : Option ℕ :=
  (w.pending.find? fun q => q.frame.lsn = lsn).map fun q => q.frame.term

/-- `sync_data` covers the file behind the handle and reports the last appended LSN. -/
def Wal.syncWal (w : Wal β) (synced : Bool) : Wal β :=
  if synced then
    { w with
      files := onFile w.handle File.sync w.files
      durableLsn := max w.durableLsn w.lastAppendedLsn }
  else w

def Wal.openNextWal (w : Wal β) (opened : Bool) : Except (Wal β) (Wal β) :=
  if opened then
    .ok { w with
      files := openFile (w.currentWalId + 1) w.files
      handle := w.currentWalId + 1
      currentWalId := w.currentWalId + 1
      currentWalSize := 0 }
  else .error { w with currentWalId := w.currentWalId + 1 }

def Wal.rotatePastTornWrite (w : Wal β) (opened : Bool) : Wal β := settle (w.openNextWal opened)

def Wal.rotateIfFull (limit : ℕ) (w : Wal β) (io : RotateIo) : Except (Wal β) (Wal β) :=
  if w.currentWalSize < limit then .ok w
  else if io.synced then
    { w with files := onFile w.handle File.sync w.files }.openNextWal io.opened
  else .error w

variable [Encoded β]

/-- Empties the WALs above the cut that `reached` names. -/
def emptyAbove (walId : ℕ) (reached : ℕ → Bool) (fs : List (File β)) : List (File β) :=
  fs.map fun F => if walId < F.id ∧ reached F.id then F.setLen 0 else F

/-- Empties every WAL above the cut, then shrinks the cut WAL, which has to be there. -/
def truncateFiles (cut : WalCut) (io : CutIo) (fs : List (File β)) :
    Except (List (File β)) (List (File β)) :=
  match io with
  | .emptying ids => .error (emptyAbove cut.walId (fun id => id ∈ ids) fs)
  | .shrinking shortened =>
    .error (onFile cut.walId (fun F => if shortened then F.setLen cut.offset else F)
      (emptyAbove cut.walId (fun _ => true) fs))
  | _ =>
    if fs.any fun F => F.id == cut.walId then
      .ok (onFile cut.walId (fun F => (F.setLen cut.offset).sync)
        (emptyAbove cut.walId (fun _ => true) fs))
    else .error (emptyAbove cut.walId (fun _ => true) fs)

def Wal.shrinkWalTo (w : Wal β) (cut : WalCut) (io : CutIo) : Except (Wal β) (Wal β) :=
  match truncateFiles cut io w.files with
  | .error fs => .error { w with files := fs }
  | .ok fs =>
    if io = .reopening then .error { w with files := fs }
    else .ok { w with
      files := fs
      handle := cut.walId
      currentWalId := cut.walId
      currentWalSize := cut.offset }

/-- Carries a recorded cut out and lifts the fence, or fences the collection. -/
def Wal.applyCut (w : Wal β) (cut : WalCut) (io : CutIo) : Except (Wal β) (Wal β) :=
  match w.shrinkWalTo cut io with
  | .error w' => .error { w' with truncationFence := some cut }
  | .ok w' =>
    if io = .clearing then .error { w' with truncationFence := some cut }
    else .ok { w' with
      lastAppendedLsn := cut.prevLsn
      lastAppendedTerm := cut.prevTerm
      durableLsn := cut.prevLsn
      truncationFence := none }

def Wal.healFencedCut (w : Wal β) (io : CutIo) : Except (Wal β) (Wal β) :=
  match w.truncationFence with
  | none => .ok w
  | some cut => (w.dropAbove cut.prevLsn).applyCut cut io

/-- Drops what is above `prevLsn`, which has to be staged in `prevTerm` or be the watermark. `none`
is a divergence that nothing can be dropped for. -/
def Wal.rewindTo (w : Wal β) (prevLsn prevTerm : ℕ) (io : RewindIo) :
    Except (Wal β) (Option (Wal β)) :=
  if prevLsn < w.appliedLsn then .ok none
  else if (w.stagedTerm prevLsn).any (fun t => t != prevTerm) then .ok none
  else if (w.stagedTerm prevLsn).isNone ∧ prevLsn ≠ w.appliedLsn then .ok none
  else match w.pending.find? fun q => prevLsn < q.frame.lsn with
    | none => .ok none
    | some doomed =>
      match io with
      | .refused => .error w
      | .cut io =>
        ((w.dropAbove prevLsn).applyCut ⟨doomed.walId, doomed.offset, prevLsn,
          prevTerm⟩ io).map some

/-- Writes a frame to the file behind the handle and stages it at the writer's position. -/
def Wal.writeFrame (w : Wal β) (f : Frame β) : WriteIo → Except (Wal β) (Wal β)
  | .done =>
    .ok { w with
      files := onFile w.handle (File.write (.frame f)) w.files
      currentWalSize := w.currentWalSize + frameLen f
      lastAppendedLsn := f.lsn
      lastAppendedTerm := f.term
      pending := w.pending ++ [⟨f, w.currentWalId, w.currentWalSize⟩]
      log := w.log ++ [f] }
  | .torn n opened =>
    .error ({ w with files := onFile w.handle (File.write (tear f n)) w.files }.rotatePastTornWrite
      opened)

/-- What `append` does before it takes an LSN. -/
def Wal.prepare (limit : ℕ) (w : Wal β) (io : AppendIo) : Except (Wal β) (Wal β) :=
  (w.healFencedCut io.heal).bind fun w => w.rotateIfFull limit io.rotate

/-- The leader's own append. The LSN is taken even when the write fails. -/
def Wal.append (limit : ℕ) (w : Wal β) (entry : β) (term : ℕ) (io : AppendIo) :
    Except (Wal β) (Wal β) :=
  (w.prepare limit io).bind fun w =>
    { w with nextLsn := w.nextLsn + 1 }.writeFrame
      ⟨term, w.nextLsn + 1, w.lastAppendedTerm, w.lastAppendedLsn, entry⟩ io.write

/-- What `append_raw_frame` does before it writes; `false` when it answers without writing (a
duplicate, a gap or a divergence). -/
def Wal.admitRawFrame (limit : ℕ) (w : Wal β) (f : Frame β) (io : AppendIo) :
    Except (Wal β) (Wal β × Bool) :=
  (w.healFencedCut io.heal).bind fun w =>
    if f.lsn ≤ w.lastAppendedLsn ∧ (f.lsn ≤ w.appliedLsn ∨ w.stagedTerm f.lsn = some f.term) then
      .ok (w, false)
    else if w.lastAppendedLsn < f.prevLsn then .ok (w, false)
    else if f.prevLsn < w.lastAppendedLsn then
      (w.rewindTo f.prevLsn f.prevTerm io.rewind).bind fun
        | none => .ok (w, false)
        | some w => (w.rotateIfFull limit io.rotate).map fun w => (w, true)
    else if f.prevTerm ≠ w.lastAppendedTerm then .ok (w, false)
    else (w.rotateIfFull limit io.rotate).map fun w => (w, true)

def Wal.appendRawFrame (limit : ℕ) (w : Wal β) (f : Frame β) (io : AppendIo) :
    Except (Wal β) (Wal β) :=
  (w.admitRawFrame limit f io).bind fun
    | (w, false) => .ok w
    | (w, true) =>
      (w.writeFrame f io.write).map fun w => { w with nextLsn := max w.nextLsn f.lsn }

inductive Op (β : Type) where
  | append (entry : β) (term : ℕ) (io : AppendIo)
  | appendRawFrame (f : Frame β) (io : AppendIo)
  | syncWal (synced : Bool)
  | applyCommitted (committedLsn : ℕ)
  -- Another collection of the node takes LSNs from the same counter.
  | raiseNextLsn (lsn : ℕ)

def WriteIo.shorter : WriteIo → ℕ → Bool
  | .done, _ => true
  | .torn n _, len => n < len

/-- One operation. A frame links to an earlier LSN, and a torn write is shorter than its frame. -/
def step (limit : ℕ) (w : Wal β) : Op β → Option (Wal β)
  | .append entry term io =>
    if io.write.shorter (headerLen + Encoded.len entry) then
      some (settle (w.append limit entry term io))
    else none
  | .appendRawFrame f io =>
    if f.prevLsn < f.lsn ∧ io.write.shorter (frameLen f) then
      some (settle (w.appendRawFrame limit f io))
    else none
  | .syncWal synced => some (w.syncWal synced)
  | .applyCommitted lsn => some (w.applyCommitted lsn)
  | .raiseNextLsn lsn => some { w with nextLsn := max w.nextLsn lsn }

end DewDB.WalWriter
