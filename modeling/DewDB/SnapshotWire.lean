import DewDB.ChunkedReader
import DewDB.Endpoint
import DewDB.FrameBytes

/-!
# The snapshot stream

A snapshot travels as a magic, one entry for each file and an end tag. The bytes of a file go out in
chunks, each with its length, and a footer with their count and checksum. The receiver reads with
`read_exact` from whatever chunks the network delivers. `crc` is the CRC-32 of the library that
computes it.
-/
namespace DewDB.SnapshotWire

open ChunkedReader FrameBytes LittleEndian

abbrev Name := List Char

/-- `DEWSNAP1`. -/
def snapshotMagic : Bytes := [0x44, 0x45, 0x57, 0x53, 0x4E, 0x41, 0x50, 0x31]

def snapshotChunkBytes : ℕ := 64 * 1024

def maxSnapshotFiles : ℕ := 10000

def maxFilenameBytes : ℕ := 255

def indexFilename : Name := "index-v3.bin".toList

def appliedFilename : Name := "applied.meta".toList

section Names

/-- `str::as_bytes`. -/
def asBytes (name : Name) : Bytes := name.flatMap String.utf8EncodeChar

/-- `String::from_utf8`. -/
def fromUtf8 (bytes : Bytes) : Option Name := bytes.toByteArray.utf8Decode?.map Array.toList

inductive Component where
  | rootDir
  | curDir
  | parentDir
  | normal (name : Name)

/-- A part of a path between separators; a dot counts at the beginning only. -/
def component (first : Bool) (part : Name) : Option Component :=
  if part = [] then none
  else if part = ['.'] then if first then some .curDir else none
  else if part = ['.', '.'] then some .parentDir
  else some (.normal part)

/-- `Path::components`. -/
def components (path : Name) : List Component :=
  match path.splitOn '/' with
  | [] => []
  | [] :: parts => if parts = [] then [] else .rootDir :: parts.filterMap (component false)
  | part :: parts => (component true part).toList ++ parts.filterMap (component false)

/-- `strip_prefix` and then `strip_suffix`. -/
def stripEnds (front back name : Name) : Option Name :=
  if front <+: name then
    let rest := name.drop front.length
    if back <:+ rest then some (rest.take (rest.length - back.length)) else none
  else none

def isAsciiDigit (c : Char) : Bool := '0' ≤ c ∧ c ≤ '9'

/-- `parse::<u64>` of digits. -/
def parseU64 (digits : Name) : Option ℕ :=
  let n := digits.foldl (fun n c => 10 * n + (c.toNat - '0'.toNat)) 0
  if n < 2 ^ 64 then some n else none

def walIdFromFilename (name : Name) : Option ℕ :=
  (stripEnds "wal-".toList ".log".toList name).bind fun id =>
    if id ≠ [] ∧ id.all isAsciiDigit then parseU64 id else none

def isWalFilename (name : Name) : Bool := (walIdFromFilename name).isSome

def oneNormal (name : Name) : Bool :=
  match components name with
  | [.normal _] => true
  | _ => false

def safeSnapshotFilename (name : Name) : Bool :=
  oneNormal name && (name = indexFilename || name = appliedFilename || isWalFilename name)

end Names

section Sending

variable (crc : Bytes → UInt32)

/-- Fills a buffer of `cap` bytes and gives it away whenever it is full: what was given away and
what is held. -/
def pour (cap : ℕ) : ℕ → Bytes → Bytes → List Bytes × Bytes
  | 0, buffer, _ => ([], buffer)
  | fuel + 1, buffer, bytes =>
    if bytes = [] then ([], buffer)
    else
      let take := min (cap - buffer.length) bytes.length
      let buffer := buffer ++ bytes.take take
      let bytes := bytes.drop take
      if buffer.length = cap then
        let rest := pour cap fuel [] bytes
        (buffer :: rest.1, rest.2)
      else pour cap fuel buffer bytes

def chunkFrame (chunk : Bytes) : Bytes := toBytes 4 chunk.length ++ chunk

/-- `wire` is what the entry has written through, `hashed` what its checksum is of. -/
structure EntryWriter where
  wire : Bytes
  buffer : Bytes
  hashed : Bytes
  written : ℕ

namespace EntryWriter

def start : EntryWriter := ⟨[], [], [], 0⟩

def emit (w : EntryWriter) : EntryWriter :=
  if w.buffer = [] then w else { w with wire := w.wire ++ chunkFrame w.buffer, buffer := [] }

def write (w : EntryWriter) (bytes : Bytes) : Except String EntryWriter :=
  if 2 ^ 64 ≤ w.written + bytes.length then .error "snapshot entry is too large"
  else
    let poured := pour snapshotChunkBytes bytes.length w.buffer bytes
    .ok { wire := w.wire ++ poured.1.flatMap chunkFrame
          buffer := poured.2
          hashed := w.hashed ++ bytes
          written := w.written + bytes.length }

def finish (w : EntryWriter) : Bytes :=
  w.emit.wire ++ toBytes 4 0 ++ toBytes 8 w.written ++ toBytes 4 (crc w.hashed).toNat

end EntryWriter

def startEntry (name : Name) : Except String Bytes :=
  let bytes := asBytes name
  if bytes = [] ∨ maxFilenameBytes < bytes.length then .error "invalid snapshot filename length"
  else .ok ([1] ++ toBytes 2 bytes.length ++ bytes)

/-- A file as its name and the pieces in which `io::copy` reads it. -/
structure SourceFile where
  name : Name
  pieces : List Bytes

def SourceFile.content (f : SourceFile) : Bytes := f.pieces.flatten

def streamFile (f : SourceFile) : Except String Bytes :=
  (startEntry f.name).bind fun head =>
    (f.pieces.foldlM EntryWriter.write EntryWriter.start).map fun w => head ++ w.finish crc

def streamFiles : List SourceFile → Except String Bytes
  | [] => .ok []
  | f :: files => (streamFile crc f).bind fun entry =>
      (streamFiles files).map fun rest => entry ++ rest

def streamSnapshot (files : List SourceFile) : Except String Bytes :=
  (streamFiles crc files).map fun entries => snapshotMagic ++ entries ++ [0]

/-- The buffers that `ChannelWriter` sends for what is written to it, the last one from `finish`. -/
def sent (bytes : Bytes) : List Bytes :=
  let poured := pour snapshotChunkBytes bytes.length [] bytes
  poured.1 ++ if poured.2 = [] then [] else [poured.2]

end Sending

section Receiving

variable (crc : Bytes → UInt32)

abbrev WireReader (α : Type) := Reader UInt8 String α

/-- `read_exact`. -/
def readExact (n : ℕ) : WireReader Bytes := .exactly "early eof" n

def readLe (width : ℕ) : WireReader ℕ := (readExact width).bind fun bytes => .pure (ofBytes bytes)

theorem steady_readLe (width : ℕ) (chunks : List Bytes) : Steady (readLe width) chunks :=
  (steady_exactly _ _ _).bind fun _ _ _ => steady_pure _ _

theorem readLe_length {width n : ℕ} {chunks rest : List Bytes}
    (h : readLe width chunks = .ok (n, rest)) :
    width + rest.flatten.length = chunks.flatten.length := by
  obtain ⟨bytes, between, hexact, hpure⟩ := Reader.bind_eq_ok h
  cases hpure
  obtain ⟨hlength, hflatten⟩ := exactly_eq_ok hexact
  rw [hflatten, List.length_append, hlength]

/-- The chunks of an entry up to the empty one, behind the content so far. -/
def readChunks (content : Bytes) (chunks : List Bytes) : Except String (Bytes × List Bytes) :=
  match _hlen : readLe 4 chunks with
  | .error e => .error e
  | .ok (len, between) =>
    if len = 0 then .ok (content, between)
    else if snapshotChunkBytes < len then .error "snapshot chunk exceeds protocol limit"
    else
      match _hchunk : readExact len between with
      | .error e => .error e
      | .ok (chunk, rest) =>
        if 2 ^ 64 ≤ content.length + len then .error "snapshot entry is too large"
        else readChunks (content ++ chunk) rest
termination_by chunks.flatten.length
decreasing_by
  have hless := readLe_length _hlen
  have hle := (steady_exactly _ _ _).length_le _hchunk
  omega

theorem readChunks_eq (content : Bytes) :
    readChunks content = (readLe 4).bind fun len =>
      if len = 0 then .pure content
      else if snapshotChunkBytes < len then .fail "snapshot chunk exceeds protocol limit"
      else (readExact len).bind fun chunk =>
        if 2 ^ 64 ≤ content.length + len then .fail "snapshot entry is too large"
        else readChunks (content ++ chunk) := by
  funext chunks
  rw [readChunks]
  cases hlen : readLe 4 chunks with
  | error e => rw [Reader.bind_of_error hlen]
  | ok p =>
    rw [Reader.bind_of_ok hlen]
    dsimp only
    split
    · rfl
    · split
      · rfl
      · cases hchunk : readExact p.1 p.2 with
        | error e => rw [Reader.bind_of_error hchunk]
        | ok q =>
          rw [Reader.bind_of_ok hchunk]
          dsimp only
          split
          · rfl
          · rfl

theorem steady_readChunks (content : Bytes) (chunks : List Bytes) : Steady
    (readChunks content) chunks := by
  induction hsize : chunks.flatten.length
    using Nat.strong_induction_on generalizing content chunks with
  | h size ih =>
    rw [readChunks_eq]
    apply (steady_readLe 4 chunks).bind
    intro len between hlen
    split
    · exact steady_pure _ _
    · split
      · exact steady_fail _ _
      · apply (steady_exactly _ _ _).bind
        intro chunk rest hchunk
        split
        · exact steady_fail _ _
        · have hless := readLe_length hlen
          have hle := (steady_exactly _ _ _).length_le hchunk
          exact ih _ (by omega) _ _ rfl

def unsafeFilename (name : Name) : String :=
  "unsafe or duplicate snapshot filename '" ++ String.ofList name ++ "'"

def failedValidation (name : Name) : String :=
  "snapshot entry '" ++ String.ofList name ++ "' failed length/CRC validation"

structure StagedFile where
  name : Name
  content : Bytes

def names (staged : List StagedFile) : List Name := staged.map StagedFile.name

def readFilename : WireReader Name :=
  (readLe 2).bind fun len =>
    if len = 0 ∨ maxFilenameBytes < len then .fail "invalid snapshot filename length"
    else (readExact len).bind fun bytes =>
      match fromUtf8 bytes with
      | none => .fail "snapshot filename is not UTF-8"
      | some name => .pure name

def readName (staged : List StagedFile) : WireReader Name :=
  readFilename.bind fun name =>
    if safeSnapshotFilename name ∧ name ∉ names staged then .pure name
      else .fail (unsafeFilename name)

def readContent (name : Name) : WireReader Bytes :=
  Reader.bind (readChunks []) fun content =>
    (readLe 8).bind fun expectedBytes =>
      (readLe 4).bind fun expectedCrc =>
        if content.length = expectedBytes ∧ (crc content).toNat = expectedCrc then .pure content
        else .fail (failedValidation name)

def readEntry (staged : List StagedFile) : WireReader StagedFile :=
  (readName staged).bind fun name => (readContent crc name).bind fun content =>
    .pure ⟨name, content⟩

theorem steady_readFilename (chunks : List Bytes) : Steady readFilename chunks := by
  apply (steady_readLe 2 chunks).bind
  intro len between _
  split
  · exact steady_fail _ _
  · apply (steady_exactly _ _ _).bind
    intro bytes rest _
    split
    · exact steady_fail _ _
    · exact steady_pure _ _

theorem steady_readName (staged : List StagedFile) (chunks : List Bytes) : Steady
    (readName staged) chunks := by
  apply (steady_readFilename chunks).bind
  intro name rest _
  split
  · exact steady_pure _ _
  · exact steady_fail _ _

theorem steady_readContent (name : Name) (chunks : List Bytes) : Steady
    (readContent crc name) chunks := by
  apply (steady_readChunks [] chunks).bind
  intro content between _
  apply (steady_readLe 8 between).bind
  intro expectedBytes between' _
  apply (steady_readLe 4 between').bind
  intro expectedCrc rest _
  split
  · exact steady_pure _ _
  · exact steady_fail _ _

theorem steady_readEntry (staged : List StagedFile) (chunks : List Bytes) : Steady
    (readEntry crc staged) chunks :=
  (steady_readName staged chunks).bind fun name between _ =>
    (steady_readContent crc name between).bind fun _ _ _ => steady_pure _ _

def readEntries (staged : List StagedFile) (chunks : List Bytes) : Except String
    (List StagedFile × List Bytes) :=
  match _htag : readLe 1 chunks with
  | .error e => .error e
  | .ok (tag, between) =>
    if tag = 0 then .ok (staged, between)
    else if tag ≠ 1 ∨ maxSnapshotFiles ≤ staged.length
      then .error "invalid snapshot entry tag or file count"
    else
      match _hentry : readEntry crc staged between with
      | .error e => .error e
      | .ok (file, rest) => readEntries (staged ++ [file]) rest
termination_by chunks.flatten.length
decreasing_by
  have hless := readLe_length _htag
  have hle := (steady_readEntry crc staged between).length_le _hentry
  omega

theorem readEntries_eq (staged : List StagedFile) :
    readEntries crc staged = (readLe 1).bind fun tag =>
      if tag = 0 then .pure staged
      else if tag ≠ 1 ∨ maxSnapshotFiles ≤ staged.length
        then .fail "invalid snapshot entry tag or file count"
      else (readEntry crc staged).bind fun file => readEntries crc (staged ++ [file]) := by
  funext chunks
  rw [readEntries]
  cases htag : readLe 1 chunks with
  | error e => rw [Reader.bind_of_error htag]
  | ok p =>
    rw [Reader.bind_of_ok htag]
    dsimp only
    split_ifs
    · rfl
    · rfl
    · cases hentry : readEntry crc staged p.2 with
      | error e => rw [Reader.bind_of_error hentry]
      | ok q => rw [Reader.bind_of_ok hentry]

theorem steady_readEntries (staged : List StagedFile) (chunks : List Bytes) :
    Steady (readEntries crc staged) chunks := by
  induction hsize : chunks.flatten.length
    using Nat.strong_induction_on generalizing staged chunks with
  | h size ih =>
    rw [readEntries_eq]
    apply (steady_readLe 1 chunks).bind
    intro tag between htag
    split
    · exact steady_pure _ _
    · split
      · exact steady_fail _ _
      · apply (steady_readEntry crc staged between).bind
        intro file rest hentry
        have hless := readLe_length htag
        have hle := (steady_readEntry crc staged between).length_le hentry
        exact ih _ (by omega) _ _ rfl

def readMagic : WireReader Unit :=
  (readExact snapshotMagic.length).bind fun magic =>
    if magic = snapshotMagic then .pure () else .fail "unsupported snapshot stream"

def Required (files : List Name) : Prop :=
  indexFilename ∈ files ∧ appliedFilename ∈ files ∧ ∃ name ∈ files, isWalFilename name

instance (files : List Name) : Decidable (Required files) := by
  unfold Required
  infer_instance

def readFiles : WireReader (List StagedFile) :=
  readMagic.bind fun _ =>
    Reader.bind (readEntries crc []) fun staged =>
      if Required (names staged) then .pure staged else .fail "snapshot is missing required files"

/-- `receive_snapshot`: a read after the required files must find the end of the stream. -/
def receiveSnapshot (chunks : List Bytes) : Except String (List StagedFile) :=
  (readFiles crc chunks).bind fun r =>
    if r.2.flatten = [] then .ok r.1 else .error "snapshot has trailing bytes"

theorem steady_readFiles (chunks : List Bytes) : Steady (readFiles crc) chunks := by
  apply Steady.bind
  · apply (steady_exactly _ _ _).bind
    intro magic between _
    split
    · exact steady_pure _ _
    · exact steady_fail _ _
  · intro _ between _
    apply (steady_readEntries crc [] between).bind
    intro staged rest _
    split
    · exact steady_pure _ _
    · exact steady_fail _ _

end Receiving

end DewDB.SnapshotWire
