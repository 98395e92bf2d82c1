import DewDB.StableSort
import DewDB.TornTail

/-!
# The readers of frames

Beside the replay at boot, frames are read by a scan of the WALs and by their positions for a
replica, and by the position and the length in the index for a document. Each of them checks what it
has at hand to check.
-/
namespace DewDB.FrameReaders

open FrameBytes FrameScan InlineAccounts StableSort
open StorageEntry (LogEntry)

variable {V H : Type}

def earlyEof : String := "failed to fill whole buffer"

def badFrame (walId offset : ℕ) (why : String) : String :=
  "WAL " ++ toString walId ++ " offset " ++ toString offset ++ ": " ++ why

def gappedScan (collection why : String) : String :=
  "Frame scan of '" ++ collection ++ "' would be gapped: " ++ why

structure StoredWal where
  id : ℕ
  written : List WalFrame
  bytes : Bytes

section Scanning

variable (crc : Bytes → UInt32)

/-- The frames that are read one after the other, up to the first that fails. -/
def scanFrames (offset : ℕ) (rest : Bytes) : List ReadFrame :=
  match _hread : readFrame crc rest with
  | none => []
  | some w => ⟨offset, w.header, w.payload⟩ :: scanFrames (offset + w.size) (rest.drop w.size)
termination_by rest.length
decreasing_by
  have hle := size_le_of_readFrame _hread
  have hpos := size_pos w
  rw [List.length_drop]
  omega

def frameBytes (f : ReadFrame) : Bytes := f.header.encode ++ f.payload

def scannedEnd (frames : List ReadFrame) : ℕ :=
  (frames.map fun f => headerLen + f.header.len.toNat).sum

theorem scannedEnd_cons (f : ReadFrame) (frames : List ReadFrame) :
    scannedEnd (f :: frames) = headerLen + f.header.len.toNat + scannedEnd frames := by
  rw [scannedEnd, List.map_cons, List.sum_cons]
  rfl

def collectFrames (afterLsn upToLsn : ℕ) (out : SortedMap ℕ Bytes) (frames : List ReadFrame) :
    SortedMap ℕ Bytes :=
  frames.foldl (fun out f =>
    if afterLsn < f.header.lsn.toNat ∧ f.header.lsn.toNat ≤ upToLsn
      then out.insert f.header.lsn.toNat (frameBytes f)
    else out) out

def scanWals (name : String) (active afterLsn upToLsn : ℕ) (out : SortedMap ℕ Bytes) :
    List StoredWal → Except String (SortedMap ℕ Bytes)
  | [] => .ok out
  | wal :: wals =>
    let frames := scanFrames crc 0 wal.bytes
    let offset := scannedEnd frames
    if offset < wal.bytes.length ∧ wal.id ≠ active then
      .error (gappedScan name ("WAL " ++ toString wal.id ++ " stops at " ++
        toString offset ++ " of " ++ toString wal.bytes.length ++ " bytes"))
    else scanWals name active afterLsn upToLsn (collectFrames afterLsn upToLsn out frames) wals

/-- `retired` and `retiredAfter` are the ids up to which WALs are retired before and after the scan.
-/
def scanFramesAfter (name : String) (wals : List StoredWal)
    (retired retiredAfter afterLsn upToLsn : ℕ) : Except String (List (ℕ × Bytes)) :=
  let walFiles := sortBy (fun a b => a.id ≤ b.id) (wals.filter fun wal => retired < wal.id)
  let active := walFiles.getLast?.elim 0 StoredWal.id
  (scanWals crc name active afterLsn upToLsn .empty walFiles).bind fun out =>
    if retiredAfter ≠ retired then .error (gappedScan name "a compaction retired WALs mid-scan")
    else .ok out.entries

end Scanning

section Positions

variable (crc : Bytes → UInt32)

structure FrameSpot where
  lsn : UInt64
  term : UInt64
  walId : ℕ
  offset : ℕ

/-- `read_frame_at`, on the bytes of its WAL. -/
def readFrameAt (bytes : Bytes) (spot : FrameSpot) : Except String Bytes :=
  let rest := bytes.drop spot.offset
  match FrameHeader.parse (rest.take headerLen) with
  | none => .error earlyEof
  | some parsed =>
    if parsed.lsn ≠ spot.lsn ∨ parsed.term ≠ spot.term ∨ parsed.len = 0 ∨
      maxRecordSize < parsed.len.toNat then
      .error (badFrame spot.walId spot.offset "not the frame recorded there")
    else
      let payload := (rest.drop headerLen).take parsed.len.toNat
      if payload.length < parsed.len.toNat then .error earlyEof
      else if parsed.payloadValid crc payload then .ok (parsed.encode ++ payload)
      else .error (badFrame spot.walId spot.offset "CRC mismatch")

/-- `read_frame_payload`, on the bytes of its WAL. -/
def readFramePayload (bytes : Bytes) (walId offset expectedLen : ℕ) : Except String Bytes :=
  let rest := bytes.drop offset
  match FrameHeader.parse (rest.take headerLen) with
  | none => .error earlyEof
  | some parsed =>
    if parsed.len.toNat ≠ expectedLen ∨ parsed.len = 0 ∨ maxRecordSize < parsed.len.toNat then
      .error (badFrame walId offset "frame length disagrees with the index")
    else
      let payload := (rest.drop headerLen).take parsed.len.toNat
      if payload.length < parsed.len.toNat then .error earlyEof
      else if parsed.payloadValid crc payload then .ok payload
      else .error (badFrame walId offset "payload failed its CRC")

end Positions

section Documents

variable (crc : Bytes → UInt32) (decode : Bytes → Option (LogEntry V H))

def readResolveAttempts : ℕ := 3

structure Located where
  walId : ℕ
  offset : ℕ
  len : ℕ
  deriving DecidableEq

def locate (e : IndexEntry) : Located := ⟨e.walId, e.offset, e.len⟩

def version (e : IndexEntry) : ℕ × ℕ := (e.term, e.lsn)

def valueFromPayload (payload : Bytes) : Option V :=
  match decode payload with
  | some (.put _ _ value _ _) => some value
  | _ => none

def readAt (wals : List StoredWal) (retired : ℕ) (l : Located) : Except String Bytes :=
  if l.walId ≤ retired then .error ("WAL " ++ toString l.walId ++ " was retired by compaction")
  else match wals.find? fun wal => wal.id = l.walId with
    | none => .error "No such file or directory"
    | some wal => readFramePayload crc wal.bytes l.walId l.offset l.len

/-- The loop of `read_located`; `seen` is what the index holds for the key after each failed read.
-/
def readLocated (wals : List StoredWal) (retired : ℕ) (key : String) (l : Located) (v : ℕ × ℕ) :
    List (Option IndexEntry) → Except String (Option (V × (ℕ × ℕ)))
  | [] => .error ("Key '" ++ key ++ "' kept moving while being read")
  | entry :: seen =>
    match readAt crc wals retired l with
    | .ok payload => .ok ((valueFromPayload decode payload).map fun value => (value, v))
    | .error err =>
      match entry with
      | none => .ok none
      | some e =>
        match e.inline with
        | some payload => .ok ((valueFromPayload decode payload).map fun value =>
            (value, version e))
        | none => if locate e ≠ l then readLocated wals retired key (locate e) (version e) seen
            else .error err

/-- `get_versioned`, which looks the key up once, and again after each failed read. -/
def getVersioned (wals : List StoredWal) (retired : ℕ) (released : Bool) (key : String)
    (entry : Option IndexEntry)
    (seen : List (Option IndexEntry)) : Except String (Option (V × (ℕ × ℕ))) :=
  if released then .error "collection handle is no longer active"
  else match entry with
    | none => .ok none
    | some e =>
      match e.inline with
      | some payload => .ok ((valueFromPayload decode payload).map fun value => (value, version e))
      | none => readLocated crc decode wals retired key (locate e) (version e)
          (seen.take readResolveAttempts)

end Documents

end DewDB.FrameReaders
