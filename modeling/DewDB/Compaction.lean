import DewDB.WalReplay

/-!
# Compaction

The WALs up to the one being written are frozen. Live keys are rewritten one by one, in the order of
their positions, into the WAL `N + 1`; the tail that a replication target still needs follows them
as it stands, up to a piece whose header can be read and whose payload cannot. The index is pointed
at the new positions and saved, and the frozen WALs are unlinked, as far as that succeeds. Writes go
on in the WAL `N + 2`.
-/
namespace DewDB.Recovery

open CollectionLog WalFile WalWriter StorageEntry

variable {V H : Type}

structure Retention where
  aboveLsn : ℕ
  maxBytes : ℕ
  minReclaimBytes : ℕ

structure FrozenWal where
  id : ℕ
  size : ℕ
  firstLsn : ℕ

structure TailStart where
  walId : ℕ
  offset : ℕ
  bytes : ℕ
  deriving DecidableEq

def TailStart.covers (t : TailStart) (walId offset : ℕ) : Bool :=
  decide (t.walId < walId ∨ t.walId = walId ∧ t.offset ≤ offset)

structure Plan where
  tail : Option TailStart
  reclaimable : ℕ

def firstHeader : List (Chunk (LogEntry V H)) → Option (Frame (LogEntry V H))
  | .frame f :: _ => some f
  | .torn header _ :: _ => header
  | [] => none

/-- The first WAL that reaches above the LSN, with those behind it. -/
def keepFrom (lastLsn aboveLsn : ℕ) : List FrozenWal → Option (FrozenWal × List FrozenWal)
  | [] => none
  | w :: wals =>
    if aboveLsn < (wals.head?.map FrozenWal.firstLsn).getD (lastLsn + 1) then some (w, wals)
    else keepFrom lastLsn aboveLsn wals

def sizes (wals : List FrozenWal) : ℕ := (wals.map FrozenWal.size).sum

variable [Encoded (LogEntry V H)]

/-- Offset and LSN of every header that can be read, with the end of the last frame they announce.
-/
def frameOffsets (offset : ℕ) : List (Chunk (LogEntry V H)) → List (ℕ × ℕ) × ℕ
  | .frame f :: cs =>
    let r := frameOffsets (offset + frameLen f) cs
    ((offset, f.lsn) :: r.1, r.2)
  | .torn (some f) _ :: _ => ([(offset, f.lsn)], offset + frameLen f)
  | _ => ([], offset)

/-- `None` when a WAL does not start with a readable header. -/
def frozenWals (retiredThrough frozenThrough : ℕ) (fs : List (File (LogEntry V H))) :
    Option (List FrozenWal) :=
  (fs.filter fun F => retiredThrough < F.id ∧ F.id ≤ frozenThrough ∧
    bytes F.chunks ≠ 0).mapM fun F =>
    (firstHeader F.chunks).map fun f => ⟨F.id, bytes F.chunks, f.lsn⟩

def offsetsOf (fs : List (File (LogEntry V H))) (id : ℕ) : List (ℕ × ℕ) × ℕ :=
  ((fs.find? fun F => F.id = id).map fun F => frameOffsets 0 F.chunks).getD ([], 0)

def trimmed (fs : List (File (LogEntry V H))) (maxBytes : ℕ) : List FrozenWal → Option TailStart
  | [] => none
  | w :: wals =>
    if maxBytes < sizes wals then trimmed fs maxBytes wals
    else
      let want := w.size - (maxBytes - sizes wals)
      let offset := (((offsetsOf fs w.id).1.map Prod.fst).find? fun o => want ≤ o).getD
        (offsetsOf fs w.id).2
      some ⟨w.id, offset, w.size - offset + sizes wals⟩

def planTail (fs : List (File (LogEntry V H))) (wals : List FrozenWal)
    (last : FrozenWal) (lastLsn : ℕ) (retention : Retention) : Option TailStart :=
  let frozenEnd : TailStart := ⟨last.id, last.size, 0⟩
  if retention.maxBytes = 0 then none
  else if lastLsn ≤ retention.aboveLsn then some frozenEnd
  else match keepFrom lastLsn retention.aboveLsn wals with
    | none => some frozenEnd
    | some (w, rest) =>
      let offset := (((offsetsOf fs w.id).1.filter fun o =>
        retention.aboveLsn < o.2).map Prod.fst).min?.getD (offsetsOf fs w.id).2
      let start : TailStart := ⟨w.id, offset, w.size - offset + sizes rest⟩
      if start.bytes ≤ retention.maxBytes then some start
      else some ((trimmed fs retention.maxBytes (w :: rest)).getD start)

def retained (tail : Option TailStart) (e : IndexEntry) : Bool :=
  tail.any fun t => t.covers e.walId e.offset

def Coll.planCompaction (c : Coll V H) (retention : Retention) : Plan :=
  match frozenWals c.retiredThrough c.currentWalId c.disk.files with
  | none => ⟨none, 0⟩
  | some wals =>
    match wals.getLast? with
    | none => ⟨none, 0⟩
    | some last =>
      let tail := planTail c.disk.files wals last c.lastAppendedLsn retention
      let kept := ((c.index.filter fun p => p.2.walId ≤ c.currentWalId ∧
        retained tail p.2 = false).map fun p => headerLen + p.2.len).sum
      ⟨tail, sizes wals - kept - (tail.map TailStart.bytes).getD 0⟩

def frameAt (fs : List (File (LogEntry V H))) (walId offset : ℕ) : Option (Frame (LogEntry V H)) :=
  (fs.find? fun F => F.id = walId).bind fun F =>
    match dropBytes offset F.chunks with
    | .frame f :: _ => some f
    | _ => none

def LogEntry.isPut : LogEntry V H → Bool
  | .put .. => true
  | _ => false

def sourceOrder (p p' : String × IndexEntry) : Bool :=
  decide (p.2.walId < p'.2.walId ∨ p.2.walId = p'.2.walId ∧ p.2.offset ≤ p'.2.offset)

/-- The live entries to rewrite, in the order of their positions. -/
def Coll.frozenIndex (c : Coll V H) (frozenThrough : ℕ) (tail : Option TailStart) :
    List (String × IndexEntry) :=
  (c.index.filter fun p => p.2.walId ≤ frozenThrough ∧
    retained tail p.2 = false).mergeSort sourceOrder

/-- Reads the frames of the live entries; one that does not resolve to a put stops the run. -/
def readLive (fs : List (File (LogEntry V H))) (ps : List (String × IndexEntry)) :
    Option (List (String × IndexEntry × Frame (LogEntry V H))) :=
  ps.mapM fun p => (frameAt fs p.2.walId p.2.offset).bind fun f =>
    if LogEntry.isPut f.entry then some (p.1, p.2, f) else none

def placed (id offset : ℕ) : List (String × IndexEntry × Frame (LogEntry V H)) →
    List (String × IndexEntry × IndexEntry)
  | [] => []
  | (key, e, f) :: rs => (key, e, entryOf ⟨f, id, offset⟩) :: placed id (offset + frameLen f) rs

/-- The frames of a file to its end, and whether a frame with a readable header and no readable
payload ends the tail there. -/
def copyFile (id offset : ℕ) : List (Chunk (LogEntry V H)) → List (Spot (LogEntry V H)) × Bool
  | [] => ([], false)
  | .frame f :: cs =>
    let r := copyFile id (offset + frameLen f) cs
    (⟨f, id, offset⟩ :: r.1, r.2)
  | .torn _ n :: _ => ([], decide (headerLen ≤ n))

def copyFiles (t : TailStart) : List (File (LogEntry V H)) → List (Spot (LogEntry V H))
  | [] => []
  | F :: fs =>
    let start := if F.id = t.walId then t.offset else 0
    let r := copyFile F.id start (dropBytes start F.chunks)
    if r.2 then r.1 else r.1 ++ copyFiles t fs

def copyRetainedTail (fs : List (File (LogEntry V H))) (frozenThrough : ℕ) :
    Option TailStart → List (Spot (LogEntry V H))
  | none => []
  | some t => copyFiles t (fs.filter fun F => t.walId ≤ F.id ∧ F.id ≤ frozenThrough)

def movedTo (offset : ℕ) : List (Spot (LogEntry V H)) → List (Spot (LogEntry V H) × ℕ)
  | [] => []
  | q :: qs => (q, offset) :: movedTo (offset + frameLen q.frame) qs

/-- A rewritten key gets its new entry, unless it has been written since. -/
def remapRelocated (m : Index) (rs : List (String × IndexEntry × IndexEntry)) : Index :=
  rs.foldl (fun m r =>
    if (m.get r.1).any fun e => e.walId = r.2.1.walId ∧ e.offset = r.2.1.offset
      then m.insert r.1 r.2.2
    else m) m

def remapMoved (compactId : ℕ) (moved : List (Spot (LogEntry V H) × ℕ)) (m : Index) : Index :=
  m.map fun p =>
    match moved.find? fun r => r.1.walId = p.2.walId ∧ r.1.offset = p.2.offset with
    | none => p
    | some r => (p.1, { p.2 with
        walId := compactId
        offset := r.2 })

def placeFile (G : File (LogEntry V H)) (fs : List (File (LogEntry V H))) :
    List (File (LogEntry V H)) :=
  (fs.filter fun F => F.id < G.id) ++ G :: fs.filter fun F => G.id < F.id

structure Output (V H : Type) where
  live : List (String × IndexEntry × Frame (LogEntry V H))
  tail : List (Spot (LogEntry V H))

def Output.frames (o : Output V H) : List (Frame (LogEntry V H)) :=
  o.live.map (fun r => r.2.2) ++ o.tail.map Spot.frame

def Output.chunks (o : Output V H) : List (Chunk (LogEntry V H)) := o.frames.map .frame

namespace Coll

variable (c : Coll V H)

/-- The checks, the plan and the move to the WAL `N + 2`; `none` when the run is refused. -/
def startCompaction (retention : Retention) : Option (Coll V H × Plan) :=
  if c.pending ≠ [] then none
  else
    let plan := c.planCompaction retention
    if plan.reclaimable < retention.minReclaimBytes then none
    else
      let c := c.persistWatermarkFull.syncWal
      some ({ c.setFiles (openFile (c.currentWalId + 2) c.disk.files) with
        currentWalId := c.currentWalId + 2
        currentWalSize := 0 }, plan)

/-- What the run writes; `none` when a live key does not resolve to a put. -/
def compactedWal (frozenThrough : ℕ) (plan : Plan) : Option (Output V H) :=
  (readLive c.disk.files (c.frozenIndex frozenThrough plan.tail)).map fun live =>
    ⟨live, copyRetainedTail c.disk.files frozenThrough plan.tail⟩

def renameCompacted (frozenThrough : ℕ) (o : Output V H) : Coll V H :=
  c.setFiles (placeFile ⟨frozenThrough + 1, o.chunks, o.chunks.length⟩ c.disk.files)

/-- The index follows the frames, and the frozen WALs are retired. -/
def remapIndex (frozenThrough : ℕ) (o : Output V H) : Coll V H :=
  { c with
    index := remapMoved (frozenThrough + 1)
      (movedTo (o.live.map fun r => frameLen r.2.2).sum o.tail)
      (remapRelocated c.index (placed (frozenThrough + 1) 0 o.live))
    retiredThrough := max c.retiredThrough frozenThrough }

def removeWals (frozenThrough : ℕ) (orphaned : List ℕ) : Coll V H :=
  c.setFiles (c.disk.files.filter fun F => frozenThrough < F.id ∨ F.id ∈ orphaned)

/-- `compact`; `orphaned` are the WALs that cannot be unlinked. -/
def compact (retention : Retention) (orphaned : List ℕ) : Option (Coll V H) :=
  (c.startCompaction retention).bind fun (c', plan) =>
    (c'.compactedWal c.currentWalId plan).map fun o =>
      ((c'.renameCompacted c.currentWalId o).remapIndex c.currentWalId o).saveIndex.removeWals
        c.currentWalId orphaned

/-- The payload that the position of an entry reads back; none when the WAL is retired or does not
hold a frame of this length there. -/
def payloadAt (e : IndexEntry) : Option (LogEntry V H) :=
  if e.walId ≤ c.retiredThrough then none
  else (frameAt c.disk.files e.walId e.offset).bind fun f =>
    if Encoded.len f.entry = e.len then some f.entry else none

def view (key : String) : Option (Option (LogEntry V H) × (ℕ × ℕ) × Option ℕ) :=
  (c.index.get key).map fun e => (c.payloadAt e, e.version, e.expireAt)

end Coll

end DewDB.Recovery
