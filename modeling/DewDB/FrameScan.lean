import DewDB.InlineAccounts

/-!
# Replaying the bytes of a WAL

A replay reads frames from the bytes of a file until one is torn, has an impossible length or fails
its checksum, and cuts the file off there. `crc` is the CRC-32 of the library that computes it and
`decode` the JSON reader.
-/
namespace DewDB.FrameScan

open FrameBytes LittleEndian InlineAccounts
open StorageEntry (LogEntry)

variable {V H : Type}

structure WalFrame where
  header : FrameHeader
  payload : Bytes
  deriving DecidableEq

namespace WalFrame

def bytes (w : WalFrame) : Bytes := w.header.encode ++ w.payload

def size (w : WalFrame) : ℕ := headerLen + w.header.len.toNat

/-- What `append` writes. -/
structure Valid (crc : Bytes → UInt32) (w : WalFrame) : Prop where
  len : w.header.len.toNat = w.payload.length
  pos : 0 < w.payload.length
  bounded : w.payload.length ≤ maxRecordSize
  sum : w.header.payloadValid crc w.payload

end WalFrame

variable (crc : Bytes → UInt32)

def readFrame (rest : Bytes) : Option WalFrame :=
  match FrameHeader.parse (rest.take headerLen) with
  | none => none
  | some header =>
    if header.len = 0 ∨ maxRecordSize < header.len.toNat then none
    else
      let payload := (rest.drop headerLen).take header.len.toNat
      if payload.length < header.len.toNat ∨ !header.payloadValid crc payload then none
      else some ⟨header, payload⟩

def CompletesFrame (bytes : Bytes) : Prop := ∃ w : WalFrame, w.Valid crc ∧ w.bytes <+: bytes

section Frames

variable {crc} {w : WalFrame}

theorem WalFrame.Valid.length_bytes (h : w.Valid crc) : w.bytes.length = w.size := by
  rw [WalFrame.bytes, List.length_append, length_encode, WalFrame.size, h.len]

theorem readFrame_bytes (h : w.Valid crc) (rest : Bytes) : readFrame crc
    (w.bytes ++ rest) = some w := by
  have hheader : (w.bytes ++ rest).take headerLen = w.header.encode ++ [] := by
    rw [WalFrame.bytes, List.append_assoc, List.take_left' (length_encode _), List.append_nil]
  have hpayload : ((w.bytes ++ rest).drop headerLen).take w.header.len.toNat = w.payload := by
    rw [WalFrame.bytes, List.append_assoc, List.drop_left' (length_encode _), h.len,
      List.take_left' rfl]
  have hlen : ¬(w.header.len = 0 ∨ maxRecordSize < w.header.len.toNat) := by
    have hpos := h.pos
    have hbounded := h.bounded
    rw [← h.len] at hpos hbounded
    rintro (hzero | hlong)
    · rw [hzero] at hpos
      exact absurd hpos (by decide)
    · omega
  have hsum : ¬(w.payload.length < w.header.len.toNat ∨
    (!w.header.payloadValid crc w.payload) = true) := by
    rw [h.len, h.sum]
    simp
  rw [readFrame, hheader, parse_encode]
  dsimp only
  rw [if_neg hlen, hpayload, if_neg hsum]

theorem readFrame_eq_some {rest : Bytes} (h : readFrame crc rest = some w) :
    w.Valid crc ∧ w.bytes <+: rest := by
  rw [readFrame] at h
  split at h
  · cases h
  · rename_i header hparse
    split at h
    · cases h
    · rename_i hlen
      dsimp only at h
      split at h
      · cases h
      · rename_i hsum
        cases h
        rw [not_or] at hlen hsum
        have hlength : ((rest.drop headerLen).take header.len.toNat).length = header.len.toNat := by
          rw [List.length_take] at hsum ⊢
          omega
        have hpos : header.len.toNat ≠ 0 := fun hzero => hlen.1 (UInt32.toNat_inj.mp hzero)
        refine ⟨⟨hlength.symm, ?_, ?_, ?_⟩, ?_⟩
        · rw [hlength]
          omega
        · rw [hlength]
          omega
        · simpa using hsum.2
        · have hencode := (encode_parse hparse).2
          rw [List.take_take, Nat.min_self] at hencode
          rw [WalFrame.bytes, hencode]
          have htake : rest.take headerLen ++ (rest.drop headerLen).take header.len.toNat =
              rest.take (headerLen + header.len.toNat) := List.take_add.symm
          rw [htake]
          exact List.take_prefix _ _

theorem readFrame_eq_none {rest : Bytes} (h : ¬CompletesFrame crc rest) :
    readFrame crc rest = none := by
  cases hread : readFrame crc rest with
  | none => rfl
  | some w =>
    obtain ⟨hvalid, hstart⟩ := readFrame_eq_some hread
    exact absurd ⟨w, hvalid, hstart⟩ h

theorem size_le_of_readFrame {rest : Bytes} (h : readFrame crc rest = some w) :
    w.size ≤ rest.length := by
  obtain ⟨hvalid, hstart⟩ := readFrame_eq_some h
  rw [← hvalid.length_bytes]
  exact hstart.length_le

theorem size_pos (w : WalFrame) : 0 < w.size := by
  rw [WalFrame.size, headerLen]
  omega

end Frames

section Replaying

variable (cache : ReadCacheConfig) (decode : Bytes → Option (LogEntry V H))

def tailAfter (tail : ℕ × ℕ) (f : ReadFrame) : ℕ × ℕ :=
  if (decode f.payload).isSome ∧ tail.1 < f.header.lsn.toNat
    then (f.header.lsn.toNat, f.header.term.toNat) else tail

/-- The loop from an offset on: where the valid frames end, and what they have come to. -/
def replayLoop (appliedThrough walId offset : ℕ) (rest : Bytes) (r : Replay H) (tail : ℕ × ℕ) :
    Option (ℕ × Replay H × ℕ × ℕ) :=
  match _hread : readFrame crc rest with
  | none => some (offset, r, tail)
  | some w =>
    (r.frame cache decode appliedThrough walId ⟨offset, w.header, w.payload⟩).bind fun r =>
      replayLoop appliedThrough walId (offset + w.size) (rest.drop w.size) r
        (tailAfter decode tail ⟨offset, w.header, w.payload⟩)
termination_by rest.length
decreasing_by
  have hle := size_le_of_readFrame _hread
  have hpos := size_pos w
  rw [List.length_drop]
  omega

structure Replayed (H : Type) where
  replay : Replay H
  maxLsn : ℕ
  maxTerm : ℕ
  file : Bytes

def replayFileFrom (appliedThrough walId : ℕ) (file : Bytes) (startOffset : ℕ) (r : Replay H) :
    Option (Replayed H) :=
  let start := if file.length < startOffset then 0 else startOffset
  (replayLoop crc cache decode appliedThrough walId start (file.drop start) r (0, 0)).map
    fun (validEnd, r, tail) =>
    { replay := r
      maxLsn := tail.1
      maxTerm := tail.2
      file := if validEnd < file.length then file.take validEnd else file }

end Replaying

end DewDB.FrameScan
