import DewDB.LittleEndian

/-!
# The bytes of a frame

A frame is a header of six little-endian fields and a payload. The checksum in the header covers the
payload alone. `crc` is the CRC-32 of the library that computes it.
-/
namespace DewDB.FrameBytes

open LittleEndian

abbrev Bytes := List UInt8

def headerLen : ℕ := 40

def maxRecordSize : ℕ := 10 * 1024 * 1024

def maxFrameSize : ℕ := headerLen + maxRecordSize

structure FrameHeader where
  len : UInt32
  crc : UInt32
  term : UInt64
  lsn : UInt64
  prevLsn : UInt64
  prevTerm : UInt64
  deriving DecidableEq

/-- `u32::from_le_bytes` of the four bytes at an offset. -/
def wordAt (bytes : Bytes) (offset : ℕ) : UInt32 := .ofNat (ofBytes ((bytes.drop offset).take 4))

/-- `u64::from_le_bytes` of the eight bytes at an offset. -/
def longAt (bytes : Bytes) (offset : ℕ) : UInt64 := .ofNat (ofBytes ((bytes.drop offset).take 8))

namespace FrameHeader

def parse (bytes : Bytes) : Option FrameHeader :=
  if bytes.length < headerLen then none
  else some
    { len := wordAt bytes 0
      crc := wordAt bytes 4
      term := longAt bytes 8
      lsn := longAt bytes 16
      prevLsn := longAt bytes 24
      prevTerm := longAt bytes 32 }

def encode (h : FrameHeader) : Bytes :=
  toBytes 4 h.len.toNat ++ toBytes 4 h.crc.toNat ++ toBytes 8 h.term.toNat ++
    toBytes 8 h.lsn.toNat ++ toBytes 8 h.prevLsn.toNat ++ toBytes 8 h.prevTerm.toNat

def payloadValid (crc : Bytes → UInt32) (h : FrameHeader) (payload : Bytes) : Bool :=
  crc payload = h.crc

end FrameHeader

section Lemmas

@[simp] theorem length_encode (h : FrameHeader) : h.encode.length = headerLen := by
  simp [FrameHeader.encode, headerLen]

theorem ofNat_ofBytes_word (w : UInt32) : UInt32.ofNat (ofBytes (toBytes 4 w.toNat)) = w := by
  have hlt : w.toNat < 256 ^ 4 := w.toNat_lt
  rw [ofBytes_toBytes_of_lt hlt, UInt32.ofNat_toNat]

theorem ofNat_ofBytes_long (w : UInt64) : UInt64.ofNat (ofBytes (toBytes 8 w.toNat)) = w := by
  have hlt : w.toNat < 256 ^ 8 := w.toNat_lt
  rw [ofBytes_toBytes_of_lt hlt, UInt64.ofNat_toNat]

theorem wordAt_field (pre rest : Bytes) (w : UInt32) : wordAt
    (pre ++ (toBytes 4 w.toNat ++ rest)) pre.length = w := by
  rw [wordAt, List.drop_left, List.take_left' (length_toBytes 4 w.toNat), ofNat_ofBytes_word]

theorem longAt_field (pre rest : Bytes) (w : UInt64) : longAt
    (pre ++ (toBytes 8 w.toNat ++ rest)) pre.length = w := by
  rw [longAt, List.drop_left, List.take_left' (length_toBytes 8 w.toNat), ofNat_ofBytes_long]

theorem parse_encode (h : FrameHeader) (rest : Bytes) : FrameHeader.parse
    (h.encode ++ rest) = some h := by
  have hlength : ¬(h.encode ++ rest).length < headerLen := by simp
  have hlen := wordAt_field []
    (toBytes 4 h.crc.toNat ++ toBytes 8 h.term.toNat ++ toBytes 8 h.lsn.toNat ++
    toBytes 8 h.prevLsn.toNat ++ toBytes 8 h.prevTerm.toNat ++ rest) h.len
  have hcrc := wordAt_field (toBytes 4 h.len.toNat)
    (toBytes 8 h.term.toNat ++ toBytes 8 h.lsn.toNat ++
    toBytes 8 h.prevLsn.toNat ++ toBytes 8 h.prevTerm.toNat ++ rest) h.crc
  have hterm := longAt_field (toBytes 4 h.len.toNat ++ toBytes 4 h.crc.toNat)
    (toBytes 8 h.lsn.toNat ++
    toBytes 8 h.prevLsn.toNat ++ toBytes 8 h.prevTerm.toNat ++ rest) h.term
  have hlsn := longAt_field (toBytes 4 h.len.toNat ++ toBytes 4 h.crc.toNat ++
    toBytes 8 h.term.toNat) (toBytes 8 h.prevLsn.toNat ++ toBytes 8 h.prevTerm.toNat ++ rest) h.lsn
  have hprevLsn := longAt_field
    (toBytes 4 h.len.toNat ++ toBytes 4 h.crc.toNat ++ toBytes 8 h.term.toNat ++
    toBytes 8 h.lsn.toNat) (toBytes 8 h.prevTerm.toNat ++ rest) h.prevLsn
  have hprevTerm := longAt_field
    (toBytes 4 h.len.toNat ++ toBytes 4 h.crc.toNat ++ toBytes 8 h.term.toNat ++
    toBytes 8 h.lsn.toNat ++ toBytes 8 h.prevLsn.toNat) rest h.prevTerm
  simp only [List.append_assoc, List.nil_append, List.length_nil, List.length_append,
    length_toBytes, Nat.reduceAdd] at hlen hcrc hterm hlsn hprevLsn hprevTerm
  rw [FrameHeader.parse, if_neg hlength]
  simp only [FrameHeader.encode, List.append_assoc, hlen, hcrc, hterm, hlsn, hprevLsn, hprevTerm]

theorem toBytes_wordAt {bytes : Bytes} {offset : ℕ} (h : offset + 4 ≤ bytes.length) :
    toBytes 4 (wordAt bytes offset).toNat = (bytes.drop offset).take 4 := by
  have hlength : ((bytes.drop offset).take 4).length = 4 := by
    rw [List.length_take_of_le]
    rw [List.length_drop]
    omega
  have hlt := ofBytes_lt ((bytes.drop offset).take 4)
  have hbytes := toBytes_ofBytes ((bytes.drop offset).take 4)
  rw [hlength] at hlt hbytes
  rw [wordAt, UInt32.toNat_ofNat_of_lt' (Nat.lt_of_lt_of_eq hlt rfl), hbytes]

theorem toBytes_longAt {bytes : Bytes} {offset : ℕ} (h : offset + 8 ≤ bytes.length) :
    toBytes 8 (longAt bytes offset).toNat = (bytes.drop offset).take 8 := by
  have hlength : ((bytes.drop offset).take 8).length = 8 := by
    rw [List.length_take_of_le]
    rw [List.length_drop]
    omega
  have hlt := ofBytes_lt ((bytes.drop offset).take 8)
  have hbytes := toBytes_ofBytes ((bytes.drop offset).take 8)
  rw [hlength] at hlt hbytes
  rw [longAt, UInt64.toNat_ofNat_of_lt' (Nat.lt_of_lt_of_eq hlt rfl), hbytes]

theorem encode_parse {bytes : Bytes} {h : FrameHeader} (hparse : FrameHeader.parse bytes = some h) :
    headerLen ≤ bytes.length ∧ h.encode = bytes.take headerLen := by
  rw [FrameHeader.parse] at hparse
  split at hparse
  · cases hparse
  · rename_i hlong
    have hlong : headerLen ≤ bytes.length := Nat.le_of_not_lt hlong
    cases hparse
    refine ⟨hlong, ?_⟩
    rw [headerLen] at hlong
    have hsplit : bytes.take headerLen = bytes.take 4 ++ (bytes.drop 4).take 4 ++
      (bytes.drop 8).take 8 ++
        (bytes.drop 16).take 8 ++ (bytes.drop 24).take 8 ++ (bytes.drop 32).take 8 := by
      rw [← List.take_add, ← List.take_add, ← List.take_add, ← List.take_add, ← List.take_add]
      rfl
    rw [FrameHeader.encode, toBytes_wordAt (by omega), toBytes_wordAt (by omega),
      toBytes_longAt (by omega),
      toBytes_longAt (by omega), toBytes_longAt (by omega), toBytes_longAt (by omega),
      List.drop_zero, hsplit]

end Lemmas

end DewDB.FrameBytes
