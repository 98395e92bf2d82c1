import Mathlib.Data.List.DropRight
import DewDB.CollectionRun

/-!
# A collection's log under failures

The operations that write the log, with the outcome of every write, fsync, open and removal. A
truncation records its cut before a byte moves. When it fails part-way the collection is fenced, the
next append carries the same cut out first, and opening after a crash does so too. Beside the files
there are the staged frames, the tail, the durable LSN and the positions of the newest frames.
-/
namespace DewDB.FencedLog

open CollectionLog WalFile StorageEntry Recovery
open WalWriter (WalCut CutIo RotateIo WriteIo truncateFiles emptyAbove)

variable {V H : Type}

structure FrameSpot where
  lsn : ℕ
  term : ℕ
  walId : ℕ
  offset : ℕ
  deriving DecidableEq

/-- Every frame above `floor` is in `spots`. -/
structure RecentFrames where
  floor : ℕ
  spots : List FrameSpot
  deriving DecidableEq

def recentFramesMax : ℕ := 4096

def RecentFrames.push (r : RecentFrames) (spot : FrameSpot) : RecentFrames :=
  if r.spots.getLast?.any fun last => spot.lsn ≤ last.lsn then ⟨spot.lsn, []⟩
  else if r.spots.length = recentFramesMax then
    match r.spots with
    | [] => ⟨r.floor, [spot]⟩
    | oldest :: rest => ⟨oldest.lsn, rest ++ [spot]⟩
  else ⟨r.floor, r.spots ++ [spot]⟩

def RecentFrames.cut (r : RecentFrames) (prevLsn : ℕ) : RecentFrames :=
  ⟨min r.floor prevLsn, r.spots.rdropWhile fun last => prevLsn < last.lsn⟩

/-- How far carrying a cut out gets. When the record cannot be cleared it may be unlinked all the
same. -/
structure Carry where
  io : CutIo
  unlinked : Bool

/-- Deciding a cut fails at the tail of the index snapshot, or behind it at the record. -/
inductive RewindIo where
  | unlowered
  | unrecorded
  | cut (carry : Carry)

structure AppendIo where
  heal : Carry
  rewind : RewindIo
  rotate : RotateIo
  write : WriteIo

def AppendIo.allDone : AppendIo := ⟨⟨.done, true⟩, .cut ⟨.done, true⟩, ⟨true, true⟩, .done⟩

/-- The collection with what the writer keeps in memory, and every frame it has published. The WAL
behind `handle` is the current one unless a rotation failed. -/
structure Log (V H : Type) where
  coll : Coll V H
  handle : ℕ
  truncationFence : Option WalCut
  durableLsn : ℕ
  recentFrames : RecentFrames
  nextLsn : ℕ
  history : List (Frame (LogEntry V H))
  deriving DecidableEq

def recordCut (c : Coll V H) (cut : Option WalCut) : Coll V H :=
  { c with disk := { c.disk with cut := cut } }

def Log.ofColl (c : Coll V H) (nextLsn : ℕ) (history : List (Frame (LogEntry V H))) : Log V H :=
  ⟨c, c.currentWalId, none, c.lastAppendedLsn, ⟨c.lastAppendedLsn, []⟩,
    max nextLsn c.lastAppendedLsn, history⟩

namespace Log

variable (s : Log V H)

def syncWal (synced : Bool) : Log V H :=
  if synced then
    { s with
      coll := s.coll.setFiles (onFile s.handle File.sync s.coll.disk.files)
      durableLsn := max s.durableLsn s.coll.lastAppendedLsn }
  else s

def openNextWal (opened : Bool) : Except (Log V H) (Log V H) :=
  if opened then
    .ok { s with
      coll := s.coll.openNextWal
      handle := s.coll.currentWalId + 1 }
  else .error { s with coll := { s.coll with currentWalId := s.coll.currentWalId + 1 } }

def rotateIfFull (limit : ℕ) (io : RotateIo) : Except (Log V H) (Log V H) :=
  if s.coll.currentWalSize < limit then .ok s
  else if io.synced then
    { s with coll := s.coll.setFiles (onFile s.handle File.sync s.coll.disk.files) }.openNextWal
      io.opened
  else .error s

def settle : Except (Log V H) (Log V H) → Log V H
  | .error s => s
  | .ok s => s

variable [Encoded (LogEntry V H)]

def applyCommitted (lsn : ℕ) : Log V H :=
  { s with
    coll := s.coll.applyCommitted lsn
    history := s.history ++ (s.coll.ready lsn).map Spot.frame }

/-- Carries a recorded cut out and lifts the fence, or fences the collection. -/
def applyCut (cut : WalCut) (carry : Carry) : Except (Log V H) (Log V H) :=
  match truncateFiles cut carry.io s.coll.disk.files with
  | .error fs => .error { s with
      coll := s.coll.setFiles fs
      truncationFence := some cut }
  | .ok fs =>
    if carry.io = .reopening then .error { s with
      coll := s.coll.setFiles fs
      truncationFence := some cut }
    else
      let c := { s.coll.setFiles fs with
        currentWalId := cut.walId
        currentWalSize := cut.offset }
      if carry.io = .clearing then .error { s with
        coll := if carry.unlinked then recordCut c none else c
        handle := cut.walId
        truncationFence := some cut }
      else .ok { s with
        coll := (recordCut c none).moveTo cut
        handle := cut.walId
        truncationFence := none
        durableLsn := cut.prevLsn
        recentFrames := s.recentFrames.cut cut.prevLsn }

def healFencedCut (carry : Carry) : Except (Log V H) (Log V H) :=
  match s.truncationFence with
  | none => .ok s
  | some cut => { s with coll := s.coll.dropAbove cut.prevLsn }.applyCut cut carry

/-- `none` is a divergence that nothing can be dropped for. -/
def rewindTo (prevLsn prevTerm : ℕ) (io : RewindIo) : Except (Log V H) (Option (Log V H)) :=
  match s.coll.cutAt prevLsn prevTerm with
  | none => .ok none
  | some cut =>
    match io with
    | .unlowered => .error s
    | .unrecorded => .error { s with coll := s.coll.rewindIndexTail prevLsn prevTerm }
    | .cut carry =>
      ({ s with coll := (recordCut (s.coll.rewindIndexTail prevLsn prevTerm)
        (some cut)).dropAbove prevLsn }.applyCut cut carry).map some

/-- Writes a frame to the WAL behind the handle and stages it at the writer's position. -/
def writeFrame (f : Frame (LogEntry V H)) : WriteIo → Except (Log V H) (Log V H)
  | .done => .ok { s with
      coll := { s.coll.setFiles (onFile s.handle (File.write (.frame f)) s.coll.disk.files) with
        currentWalSize := s.coll.currentWalSize + frameLen f
        lastAppendedLsn := f.lsn
        lastAppendedTerm := f.term
        pending := stageAt ⟨f, s.coll.currentWalId, s.coll.currentWalSize⟩ s.coll.pending }
      recentFrames := s.recentFrames.push ⟨f.lsn, f.term, s.coll.currentWalId,
        s.coll.currentWalSize⟩ }
  | .torn n opened =>
    let fs := if n = 0 then s.coll.disk.files
      else onFile s.handle (File.write (tear f n)) s.coll.disk.files
    .error (settle ({ s with coll := s.coll.setFiles fs }.openNextWal opened))

/-- The leader's own append. The LSN is taken even when the write fails. -/
def append (limit : ℕ) (entry : LogEntry V H) (term : ℕ) (io : AppendIo) : Except
    (Log V H) (Log V H) :=
  ({ s with coll := s.coll.recordWatermarkOnce }.healFencedCut io.heal).bind fun s =>
    (s.rotateIfFull limit io.rotate).bind fun s =>
      { s with nextLsn := s.nextLsn + 1 }.writeFrame
        ⟨term, s.nextLsn + 1, s.coll.lastAppendedTerm, s.coll.lastAppendedLsn, entry⟩ io.write

/-- Rotates, writes a frame of another log and raises the node's counter to its LSN. -/
def writeRaw (limit : ℕ) (f : Frame (LogEntry V H)) (io : AppendIo) : Except (Log V H)
    (Log V H × ReplicaApply) :=
  (s.rotateIfFull limit io.rotate).bind fun s =>
    (s.writeFrame f io.write).map fun s =>
      ({ s with nextLsn := max s.nextLsn f.lsn }, .applied f.lsn)

/-- The frame is there already: published, or staged in its term. -/
def Duplicate (c : Coll V H) (f : Frame (LogEntry V H)) : Prop :=
  f.lsn ≤ c.lastAppendedLsn ∧ (f.lsn ≤ c.appliedLsn ∨ c.stagedTerm f.lsn = some f.term)

instance (c : Coll V H) (f : Frame (LogEntry V H)) : Decidable (Duplicate c f) :=
  inferInstanceAs (Decidable (_ ∧ _))

/-- What `append_raw_frame` does once a fenced cut is healed. -/
def admitRawFrame (limit : ℕ) (f : Frame (LogEntry V H)) (io : AppendIo) :
    Except (Log V H) (Log V H × ReplicaApply) :=
  let last := s.coll.lastAppendedLsn
  let lastTerm := s.coll.lastAppendedTerm
  if Duplicate s.coll f then .ok (s, .duplicate last)
  else if last < f.prevLsn then .ok (s, .gap last lastTerm)
  else if f.prevLsn < last then
    (s.rewindTo f.prevLsn f.prevTerm io.rewind).bind fun
      | none => .ok (s, .divergent last lastTerm)
      | some s => s.writeRaw limit f io
  else if f.prevTerm ≠ lastTerm then .ok (s, .divergent last lastTerm)
  else s.writeRaw limit f io

def appendRawFrame (limit : ℕ) (f : Frame (LogEntry V H)) (io : AppendIo) :
    Except (Log V H) (Log V H × ReplicaApply) :=
  ({ s with coll := s.coll.recordWatermarkOnce }.healFencedCut io.heal).bind fun s =>
    s.admitRawFrame limit f io

/-- The process stops and the directory is opened again; the counter starts from what the node's
other collections hold. -/
def reopen (nextLsn : ℕ) : Option (Log V H) :=
  match s.coll.disk.openCollection with
  | .error _ => none
  | .ok c => some (ofColl c nextLsn s.history)

end Log

inductive Op (V H : Type) where
  | append (entry : LogEntry V H) (term : ℕ) (io : AppendIo)
  | appendRawFrame (f : Frame (LogEntry V H)) (io : AppendIo)
  | applyCommitted (lsn : ℕ)
  | syncWal (synced : Bool)
  | saveIndex
  | heal (carry : Carry)
  | reopen (nextLsn : ℕ)
  -- Another collection of the node takes LSNs from the same counter.
  | raiseNextLsn (lsn : ℕ)

variable [Encoded (LogEntry V H)]

def Log.fresh : Log V H := .ofColl ((⟨[], none, none, none, none⟩ : Disk V H).opened none 0) 0 []

/-- A torn write is shorter than its frame, and a frame links to an earlier LSN. -/
def step (limit : ℕ) (s : Log V H) : Op V H → Option (Log V H)
  | .append entry term io =>
    if io.write.shorter (headerLen + Encoded.len entry)
      then some (Log.settle (s.append limit entry term io))
    else none
  | .appendRawFrame f io =>
    if f.prevLsn < f.lsn ∧ io.write.shorter (frameLen f) then
      some (Log.settle ((s.appendRawFrame limit f io).map Prod.fst))
    else none
  | .applyCommitted lsn => some (s.applyCommitted lsn)
  | .syncWal synced => some (s.syncWal synced)
  | .saveIndex => some { s with coll := s.coll.saveIndex }
  | .heal carry => some (Log.settle (s.healFencedCut carry))
  | .reopen nextLsn => s.reopen nextLsn
  | .raiseNextLsn lsn => some { s with nextLsn := max s.nextLsn lsn }

end DewDB.FencedLog
