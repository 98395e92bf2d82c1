import DewDB.StorageEntry
import DewDB.WalWriter

/-!
# Opening a collection

The directory of a collection holds its WAL files, the index snapshot, the two watermark files and,
while a truncation is unfinished, the record of the cut. Opening finishes a recorded cut, loads the
snapshot and replays the frames from where it says: those up to the watermark are published, those
above it are staged. What follows a torn piece is cut off, and the writer starts a new WAL.
-/
namespace DewDB.Recovery

open CollectionLog WalFile WalWriter StorageEntry

/-- One of the two slots of `applied.appliedPos`. -/
inductive Slot where
  | empty
  | damaged
  | written (seq appliedLsn : ℕ)
  deriving DecidableEq

/-- `applied.appliedPos`: the slots are written in turn, so that a tear leaves the other one. -/
structure PosFile where
  even : Slot
  odd : Slot
  deriving DecidableEq

inductive Refusal where
  | unreadablePosition
  | missingWal
  | lostTail
  deriving DecidableEq

def PosFile.newest : PosFile → Except Refusal (Option (ℕ × ℕ))
  | ⟨.written seq lsn, .written seq' lsn'⟩ =>
      .ok (some (if seq ≤ seq' then (seq', lsn') else (seq, lsn)))
  | ⟨.written seq lsn, _⟩ => .ok (some (seq, lsn))
  | ⟨_, .written seq lsn⟩ => .ok (some (seq, lsn))
  | ⟨.empty, .empty⟩ => .ok none
  | ⟨_, _⟩ => .error .unreadablePosition

def PosFile.set (p : PosFile) (seq : ℕ) (slot : Slot) : PosFile :=
  if seq % 2 = 0 then { p with even := slot } else { p with odd := slot }

structure AppliedMeta (H : Type) where
  appliedLsn : ℕ
  settings : Settings H
  deriving DecidableEq

structure IndexSnapshot where
  lastWalId : ℕ
  lastOffset : ℕ
  lastLsn : ℕ
  lastTerm : ℕ
  map : Index
  deriving DecidableEq

structure Disk (V H : Type) where
  files : List (File (LogEntry V H))
  snapshot : Option IndexSnapshot
  appliedMeta : Option (AppliedMeta H)
  appliedPos : Option PosFile
  cut : Option WalCut
  deriving DecidableEq

/-- An open collection. `richDirty` says that the settings have changed since `applied.appliedMeta`
was written. -/
structure Coll (V H : Type) where
  disk : Disk V H
  currentWalId : ℕ
  currentWalSize : ℕ
  lastAppendedLsn : ℕ
  lastAppendedTerm : ℕ
  index : Index
  pending : List (Spot (LogEntry V H))
  appliedLsn : ℕ
  settings : Settings H
  watermarkRecorded : Bool
  watermarkSaved : ℕ
  richDirty : Bool
  posSeq : ℕ
  retiredThrough : ℕ
  deriving DecidableEq

variable {V H : Type}

def Disk.position (d : Disk V H) : Except Refusal (Option (ℕ × ℕ)) :=
  match d.appliedPos with
  | none => .ok none
  | some p => p.newest

def Disk.recordedWatermark (d : Disk V H) : Except Refusal (Option ℕ) :=
  d.position.map fun pos => d.appliedMeta.map fun m => max m.appliedLsn ((pos.map Prod.snd).getD 0)

/-- The frame is above the watermark; without one everything is replayed as committed. -/
def above (applied : Option ℕ) (lsn : ℕ) : Bool := applied.any fun w => w < lsn

def stageAt (q : Spot (LogEntry V H)) : List (Spot (LogEntry V H)) → List (Spot (LogEntry V H))
  | [] => [q]
  | p :: ps =>
    if q.frame.lsn < p.frame.lsn then q :: p :: ps
    else if q.frame.lsn = p.frame.lsn then q :: ps
    else p :: stageAt q ps

def fileTail (qs : List (Spot (LogEntry V H))) : ℕ × ℕ :=
  qs.foldl (fun t q => if t.1 < q.frame.lsn then (q.frame.lsn, q.frame.term) else t) (0, 0)

def foldTail (tail : ℕ × ℕ) (qs : List (Spot (LogEntry V H))) : ℕ × ℕ :=
  if (fileTail qs).1 = 0 then tail else fileTail qs

structure Replayed (V H : Type) where
  index : Index
  pending : List (Spot (LogEntry V H))
  settings : Settings H

variable [Encoded (LogEntry V H)]

def Replayed.frame (applied : Option ℕ) (r : Replayed V H) (q : Spot (LogEntry V H)) :
    Replayed V H :=
  if above applied q.frame.lsn then
    { r with
      pending := stageAt q r.pending
      settings := r.settings.stage q.frame.entry }
  else
    { r with
      index := r.index.replay q
      settings := r.settings.replay q.frame.entry }

/-- What is left behind the first `n` bytes; what starts inside a piece cannot be read as a frame.
-/
def dropBytes : ℕ → List (Chunk (LogEntry V H)) → List (Chunk (LogEntry V H))
  | _, [] => []
  | n, c :: cs =>
    if n = 0 then c :: cs
    else if c.size ≤ n then dropBytes (n - c.size) cs
    else .torn none (c.size - n) :: cs

def startIn (F : File (LogEntry V H)) (offset : ℕ) : ℕ :=
  if bytes F.chunks < offset then 0 else offset

def readFrom (F : File (LogEntry V H)) (offset : ℕ) : List (Spot (LogEntry V H)) :=
  layout F.id (startIn F offset) (dropBytes (startIn F offset) F.chunks)

/-- Where a replay starts in the file; `none` when the snapshot is past it. -/
def resumeIn (snapshot : Option IndexSnapshot) (F : File (LogEntry V H)) : Option ℕ :=
  match snapshot with
  | none => some 0
  | some s => if F.id < s.lastWalId then none else if F.id = s.lastWalId
      then some s.lastOffset else some 0

def replayed (snapshot : Option IndexSnapshot) (F : File (LogEntry V H)) :
    List (Spot (LogEntry V H)) :=
  match resumeIn snapshot F with
  | none => []
  | some offset => readFrom F offset

def replayedAll (snapshot : Option IndexSnapshot) (fs : List (File (LogEntry V H))) :
    List (Spot (LogEntry V H)) :=
  fs.flatMap (replayed snapshot)

def settled (snapshot : Option IndexSnapshot) (F : File (LogEntry V H)) : File (LogEntry V H) :=
  match resumeIn snapshot F with
  | none => F
  | some offset =>
    let valid := startIn F offset + ((readFrom F offset).map fun q => frameLen q.frame).sum
    if valid < bytes F.chunks then F.setLen valid else F

def snapshotTail (snapshot : Option IndexSnapshot) : ℕ × ℕ :=
  (snapshot.map fun s => (s.lastLsn, s.lastTerm)).getD (0, 0)

def snapshotMap (snapshot : Option IndexSnapshot) : Index :=
  (snapshot.map IndexSnapshot.map).getD []

def recoveredTail (snapshot : Option IndexSnapshot) (fs : List (File (LogEntry V H))) : ℕ × ℕ :=
  (fs.map (replayed snapshot)).foldl foldTail (snapshotTail snapshot)

def Disk.seed (d : Disk V H) : Settings H :=
  match d.appliedMeta with
  | none => .fresh
  | some m => { m.settings with config := m.settings.config.map Configuration.canonicalized }

/-- Replays the files over the snapshot and the recorded settings. -/
def Disk.replay (d : Disk V H) (applied : Option ℕ) : Replayed V H :=
  (replayedAll d.snapshot d.files).foldl (Replayed.frame applied)
    ⟨snapshotMap d.snapshot, [], d.seed⟩

/-- Finishes a cut that the process that decided it did not live to finish. -/
def Disk.completeRecorded (d : Disk V H) : Except Refusal (Disk V H) :=
  match d.cut with
  | none => .ok d
  | some cut =>
    match truncateFiles cut .done d.files with
    | .error _ => .error .missingWal
    | .ok fs => .ok { d with
        files := fs
        cut := none }

def nextWalId (fs : List (File (LogEntry V H))) : ℕ := (fs.getLast?.map File.id).getD 0 + 1

/-- The collection that opening a directory with these watermarks and no recorded cut gives. -/
def Disk.opened (d : Disk V H) (applied : Option ℕ) (posSeq : ℕ) : Coll V H :=
  let r := d.replay applied
  let tail := recoveredTail d.snapshot d.files
  { disk := { d with
      files := openFile (nextWalId d.files) (d.files.map (settled d.snapshot))
      appliedPos := some (d.appliedPos.getD ⟨.empty, .empty⟩) }
    currentWalId := nextWalId d.files
    currentWalSize := 0
    lastAppendedLsn := tail.1
    lastAppendedTerm := tail.2
    index := r.index
    pending := r.pending
    appliedLsn := applied.getD tail.1
    settings := r.settings
    watermarkRecorded := applied.isSome
    watermarkSaved := applied.getD 0
    richDirty := false
    posSeq := posSeq
    retiredThrough := 0 }

/-- `Collection::open`. -/
def Disk.openCollection (d : Disk V H) : Except Refusal (Coll V H) :=
  d.recordedWatermark.bind fun applied => d.position.bind fun pos =>
    d.completeRecorded.bind fun d =>
      if above applied (recoveredTail d.snapshot d.files).1 ∧ (d.replay applied).pending = [] then
        .error .lostTail
      else .ok (d.opened applied ((pos.map Prod.fst).getD 0))

end DewDB.Recovery
