import DewDB.Recovery

/-!
# The operations of a collection

Appending a frame, truncating the log to where another one continues it, publishing committed frames
and recording how far they go, saving the index. Nothing fails here except a write, which leaves a
torn piece and moves on to the next WAL; a crash is a matter of the machines that use the
operations.
-/
namespace DewDB.Recovery

open CollectionLog WalFile WalWriter StorageEntry

variable {V H : Type}

namespace Coll

variable (c : Coll V H)

def setFiles (fs : List (File (LogEntry V H))) : Coll V H :=
  { c with disk := { c.disk with files := fs } }

/-- Writes `applied.meta`. -/
def persistWatermarkFull : Coll V H :=
  { c with
    disk := { c.disk with appliedMeta := some ⟨c.appliedLsn, c.settings⟩ }
    richDirty := false
    watermarkSaved := max c.watermarkSaved c.appliedLsn }

def recordWatermarkOnce : Coll V H :=
  if c.watermarkRecorded then c else { c.persistWatermarkFull with watermarkRecorded := true }

def savePosition (p : PosFile) : Coll V H :=
  { c with
    disk := { c.disk with
      appliedPos := some (p.set (c.posSeq + 1) (.written (c.posSeq + 1) c.appliedLsn)) }
    posSeq := c.posSeq + 1
    watermarkSaved := max c.watermarkSaved c.appliedLsn }

def persistWatermark (through : ℕ) : Coll V H :=
  if through ≤ c.watermarkSaved ∧ c.richDirty = false then c
  else if c.richDirty then c.persistWatermarkFull
  else match c.disk.appliedPos with
    | none => c.persistWatermarkFull
    | some p => c.savePosition p

def stagedTerm (lsn : ℕ) : Option ℕ :=
  (c.pending.find? fun q => q.frame.lsn = lsn).map fun q => q.frame.term

/-- `sync_data` on the WAL being written. -/
def syncWal : Coll V H := c.setFiles (onFile c.currentWalId File.sync c.disk.files)

def openNextWal : Coll V H :=
  { c.setFiles (openFile (c.currentWalId + 1) c.disk.files) with
    currentWalId := c.currentWalId + 1
    currentWalSize := 0 }

def rotateIfFull (limit : ℕ) : Coll V H :=
  if c.currentWalSize < limit then c else c.syncWal.openNextWal

/-- Lowers the tail of the index snapshot before the log is truncated below it. -/
def rewindIndexTail (lsn term : ℕ) : Coll V H :=
  { c with disk := { c.disk with snapshot := c.disk.snapshot.map fun s =>
      if s.lastLsn ≤ lsn then s else { s with
        lastLsn := lsn
        lastTerm := term } } }

/-- The cut that a truncation to `prevLsn` makes: it has to be staged in `prevTerm` or be the
watermark, and something above it has to be staged. -/
def cutAt (prevLsn prevTerm : ℕ) : Option WalCut :=
  if prevLsn < c.appliedLsn then none
  else if (c.stagedTerm prevLsn).any (fun t => t != prevTerm) then none
  else if (c.stagedTerm prevLsn).isNone ∧ prevLsn ≠ c.appliedLsn then none
  else (c.pending.find? fun q => prevLsn < q.frame.lsn).map fun q =>
    ⟨q.walId, q.offset, prevLsn, prevTerm⟩

def dropAbove (prevLsn : ℕ) : Coll V H :=
  { c with pending := c.pending.filter fun q => q.frame.lsn ≤ prevLsn }

def moveTo (cut : WalCut) : Coll V H :=
  { c with
    currentWalId := cut.walId
    currentWalSize := cut.offset
    lastAppendedLsn := cut.prevLsn
    lastAppendedTerm := cut.prevTerm }

/-- What saving the index writes: a replay resumes at the oldest frame the index does not reflect.
-/
def indexSnapshot : IndexSnapshot :=
  let resume := (c.pending.head?.map fun q => (q.walId, q.offset)).getD
    (c.currentWalId, c.currentWalSize)
  ⟨resume.1, resume.2, c.lastAppendedLsn, c.lastAppendedTerm, c.index⟩

def nextFreeId (fs : List (File (LogEntry V H))) (id : ℕ) : ℕ :=
  (((List.range (fs.length + 1)).map (id + ·)).find? fun i => fs.all fun F => F.id != i).getD id

/-- The rotation of `stream_snapshot`, with the WAL up to which is streamed. An idle WAL stays. -/
def freeze : Coll V H × ℕ :=
  let c := c.syncWal
  if c.currentWalSize = 0 ∧ 1 < c.currentWalId then (c, c.currentWalId - 1)
  else
    let id := nextFreeId c.disk.files (c.currentWalId + 1)
    ({ c.setFiles (openFile id c.disk.files) with
      currentWalId := id
      currentWalSize := 0 }, c.currentWalId)

def saveIndex : Coll V H := { c with disk := { c.disk with snapshot := some (c.indexSnapshot) } }

variable [Encoded (LogEntry V H)]

def writeFrame (f : Frame (LogEntry V H)) : Coll V H :=
  { c.setFiles (onFile c.currentWalId (File.write (.frame f)) c.disk.files) with
    currentWalSize := c.currentWalSize + frameLen f
    lastAppendedLsn := f.lsn
    lastAppendedTerm := f.term
    pending := stageAt ⟨f, c.currentWalId, c.currentWalSize⟩ c.pending }

/-- A write that stops after `n` bytes; `rotate_past_torn_write`. -/
def writeTorn (f : Frame (LogEntry V H)) (n : ℕ) : Coll V H :=
  (c.setFiles (onFile c.currentWalId (File.write (tear f n)) c.disk.files)).openNextWal

/-- `write_all`: of the whole frame, or of its first bytes when the write fails. -/
def writeAll (f : Frame (LogEntry V H)) : Option ℕ → Coll V H
  | none => c.writeFrame f
  | some 0 => c.openNextWal
  | some (n + 1) => c.writeTorn f (n + 1)

/-- Carries a cut out: `rewind_to` and `apply_cut`. -/
def rewind (cut : WalCut) : Coll V H :=
  let c := (c.rewindIndexTail cut.prevLsn cut.prevTerm).dropAbove cut.prevLsn
  match truncateFiles cut .done c.disk.files with
  | .error _ => c
  | .ok fs => (c.setFiles fs).moveTo cut

/-- The leader's own append, with the LSN it takes from the node's counter. -/
def append (limit lsn : ℕ) (entry : LogEntry V H) (term : ℕ) (torn : Option ℕ) : Coll V H :=
  let c := c.recordWatermarkOnce.rotateIfFull limit
  c.writeAll ⟨term, lsn, c.lastAppendedTerm, c.lastAppendedLsn, entry⟩ torn

/-- A frame of another node's log: written behind the one it links to. A duplicate, a gap and a
divergence are answered without writing. -/
def appendRawFrame (limit : ℕ) (f : Frame (LogEntry V H)) (torn : Option ℕ) : Coll V H :=
  let c := c.recordWatermarkOnce
  if f.lsn ≤ c.lastAppendedLsn ∧ (f.lsn ≤ c.appliedLsn ∨ c.stagedTerm f.lsn = some f.term) then c
  else if c.lastAppendedLsn < f.prevLsn then c
  else if f.prevLsn < c.lastAppendedLsn then
    match c.cutAt f.prevLsn f.prevTerm with
    | none => c
    | some cut => ((c.rewind cut).rotateIfFull limit).writeAll f torn
  else if f.prevTerm ≠ c.lastAppendedTerm then c
  else (c.rotateIfFull limit).writeAll f torn

/-- One staged frame of `apply_committed`. -/
def publish (q : Spot (LogEntry V H)) : Coll V H :=
  { c with
    index := c.index.replay q
    settings := c.settings.publish q.frame.entry
    richDirty := c.richDirty || c.settings.bumps q.frame.entry }

/-- `apply_committed` up to where it records the watermark. -/
def applyMemory (committedLsn : ℕ) : Coll V H :=
  { (c.pending.filter fun q => q.frame.lsn ≤ committedLsn).foldl (fun c q => c.publish q) c with
    pending := c.pending.filter fun q => committedLsn < q.frame.lsn
    appliedLsn := max c.appliedLsn committedLsn }

def applyCommitted (committedLsn : ℕ) : Coll V H :=
  (c.applyMemory committedLsn).persistWatermark committedLsn

end Coll

end DewDB.Recovery
