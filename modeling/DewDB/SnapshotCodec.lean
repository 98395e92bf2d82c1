import DewDB.SnapshotWire

/-!
# The round trip of a snapshot

What the sender makes of its files is read back from any chunks, if the receiver admits the files at
all. A beginning of a stream and a stream with bytes behind it are refused.
-/
namespace DewDB.SnapshotWire

open ChunkedReader FrameBytes LittleEndian

section Pour

theorem pour_spec {cap fuel : ℕ} {buffer bytes : Bytes} (hbuffer : buffer.length < cap)
    (hfuel : bytes.length ≤ fuel) :
    (pour cap fuel buffer bytes).1.flatten ++ (pour cap fuel buffer bytes).2 = buffer ++ bytes ∧
      (∀ chunk ∈ (pour cap fuel buffer bytes).1, chunk.length = cap) ∧
        (pour cap fuel buffer bytes).2.length < cap := by
  induction fuel generalizing buffer bytes with
  | zero =>
    have hnil : bytes = [] := List.length_eq_zero_iff.mp (Nat.le_zero.mp hfuel)
    rw [pour, hnil]
    exact ⟨(List.append_nil _).symm, nofun, hbuffer⟩
  | succ fuel ih =>
    rw [pour]
    by_cases hnil : bytes = []
    · rw [if_pos hnil, hnil]
      exact ⟨(List.append_nil _).symm, nofun, hbuffer⟩
    · have hpos : 0 < bytes.length := List.length_pos_iff.mpr hnil
      rw [if_neg hnil]
      dsimp only
      set taken := min (cap - buffer.length) bytes.length with htaken
      have hlength : (buffer ++ bytes.take taken).length = buffer.length + taken := by
        rw [List.length_append, List.length_take_of_le (Nat.min_le_right _ _)]
      have hrest : (bytes.drop taken).length ≤ fuel := by
        rw [List.length_drop]
        omega
      have hall : buffer ++ bytes = (buffer ++ bytes.take taken) ++ bytes.drop taken := by
        rw [List.append_assoc, List.take_append_drop]
      split
      · rename_i hfull
        obtain ⟨hflatten, hfulls, hheld⟩ :=
          ih (show ([] : Bytes).length < cap from Nat.zero_lt_of_lt hbuffer) hrest
        refine ⟨?_, ?_, hheld⟩
        · rw [List.flatten_cons, List.append_assoc, hflatten, List.nil_append, ← hall]
        · intro chunk hchunk
          cases List.mem_cons.mp hchunk with
          | inl h => rw [h, hfull]
          | inr h => exact hfulls chunk h
      · have hless : (buffer ++ bytes.take taken).length < cap := by omega
        rw [hall]
        exact ih hless hrest

theorem flatten_sent (bytes : Bytes) : (sent bytes).flatten = bytes := by
  have hcap : ([] : Bytes).length < snapshotChunkBytes := by decide
  obtain ⟨hflatten, -, -⟩ := pour_spec hcap (Nat.le_refl bytes.length)
  rw [sent, List.flatten_append]
  split
  · rename_i hnil
    rw [hnil, List.append_nil, List.nil_append] at hflatten
    rw [hflatten, List.flatten_nil, List.append_nil]
  · rw [List.flatten_singleton]
    exact hflatten

end Pour

section Entry

def Sized (chunks : List Bytes) : Prop := ∀ chunk ∈ chunks,
  chunk ≠ [] ∧ chunk.length ≤ snapshotChunkBytes

structure Wrote (w : EntryWriter) (content : Bytes) (chunks : List Bytes) : Prop where
  wire : w.wire = chunks.flatMap chunkFrame
  flatten : chunks.flatten ++ w.buffer = content
  sized : Sized chunks
  room : w.buffer.length < snapshotChunkBytes
  hashed : w.hashed = content
  written : w.written = content.length
  bounded : content.length < 2 ^ 64

theorem wrote_start : Wrote .start [] [] :=
  ⟨rfl, rfl, nofun, by decide, rfl, rfl, by decide⟩

theorem Sized.append {xs ys : List Bytes} (hxs : Sized xs) (hys : Sized ys) : Sized (xs ++ ys) := by
  intro chunk h
  cases List.mem_append.mp h with
  | inl h => exact hxs chunk h
  | inr h => exact hys chunk h

theorem Wrote.write {w w' : EntryWriter} {content bytes : Bytes} {chunks : List Bytes}
    (hw : Wrote w content chunks)
    (h : w.write bytes = .ok w') : ∃ chunks', Wrote w' (content ++ bytes) chunks' := by
  rw [EntryWriter.write] at h
  split at h
  · cases h
  · rename_i hsmall
    cases h
    obtain ⟨hflatten, hfull, hheld⟩ := pour_spec hw.room (Nat.le_refl bytes.length)
    set poured := pour snapshotChunkBytes bytes.length w.buffer bytes
    refine ⟨chunks ++ poured.1, ?_, ?_, ?_, hheld, ?_, ?_, ?_⟩
    · rw [List.flatMap_append, ← hw.wire]
    · rw [List.flatten_append, List.append_assoc, hflatten, ← List.append_assoc, hw.flatten]
    · apply hw.sized.append
      intro chunk hchunk
      have hlength := hfull chunk hchunk
      refine ⟨?_, Nat.le_of_eq hlength⟩
      intro hnil
      rw [hnil] at hlength
      cases hlength
    · dsimp only
      rw [hw.hashed]
    · dsimp only
      rw [hw.written, List.length_append]
    · rw [hw.written] at hsmall
      rw [List.length_append]
      exact Nat.lt_of_not_le hsmall

theorem Wrote.exists_foldlM {w : EntryWriter} {content : Bytes} {chunks : List Bytes}
    (hw : Wrote w content chunks)
    {pieces : List Bytes} (h : content.length + pieces.flatten.length < 2 ^ 64) :
    ∃ w', pieces.foldlM EntryWriter.write w = .ok w' := by
  induction pieces generalizing w content chunks with
  | nil => exact ⟨w, rfl⟩
  | cons bytes pieces ih =>
    rw [List.flatten_cons, List.length_append] at h
    obtain ⟨w₁, hwrite⟩ : ∃ w₁, w.write bytes = .ok w₁ := by
      rw [EntryWriter.write, if_neg (by rw [hw.written]; omega)]
      exact ⟨_, rfl⟩
    obtain ⟨chunks₁, hw₁⟩ := hw.write hwrite
    obtain ⟨w', hw'⟩ := ih hw₁ (by rw [List.length_append]; omega)
    refine ⟨w', ?_⟩
    rw [List.foldlM_cons, hwrite]
    exact hw'

theorem Wrote.foldlM {w w' : EntryWriter} {content : Bytes} {chunks : List Bytes}
    (hw : Wrote w content chunks)
    {pieces : List Bytes} (h : pieces.foldlM EntryWriter.write w = .ok w') :
    ∃ chunks', Wrote w' (content ++ pieces.flatten) chunks' := by
  induction pieces generalizing w content chunks with
  | nil =>
    cases h
    rw [List.flatten_nil, List.append_nil]
    exact ⟨chunks, hw⟩
  | cons bytes pieces ih =>
    rw [List.foldlM_cons] at h
    cases hwrite : w.write bytes with
    | error e =>
      rw [hwrite] at h
      cases h
    | ok w₁ =>
      rw [hwrite] at h
      obtain ⟨chunks₁, hw₁⟩ := hw.write hwrite
      rw [List.flatten_cons, ← List.append_assoc]
      exact ih hw₁ h

theorem Wrote.finish (crc : Bytes → UInt32) {w : EntryWriter} {content : Bytes}
    {chunks : List Bytes}
    (hw : Wrote w content chunks) : ∃ chunks', Sized chunks' ∧ chunks'.flatten = content ∧
      w.finish crc = chunks'.flatMap chunkFrame ++ toBytes 4 0 ++
        (toBytes 8 content.length ++ toBytes 4 (crc content).toNat) := by
  have hcontent := hw.flatten
  rw [EntryWriter.finish, EntryWriter.emit, hw.written, hw.hashed]
  split
  · rename_i hnil
    rw [hnil, List.append_nil] at hcontent
    refine ⟨chunks, hw.sized, hcontent, ?_⟩
    rw [hw.wire, List.append_assoc _ (toBytes 8 _)]
  · rename_i hsome
    refine ⟨chunks ++ [w.buffer], hw.sized.append ?_, ?_, ?_⟩
    · intro chunk h
      rw [List.mem_singleton.mp h]
      exact ⟨hsome, Nat.le_of_lt hw.room⟩
    · rw [List.flatten_append, List.flatten_singleton, hcontent]
    · rw [List.flatMap_append, List.flatMap_singleton, hw.wire, List.append_assoc _ (toBytes 8 _)]

end Entry

section Fields

theorem reads_readLe {width n : ℕ} (h : n < 256 ^ width) : Reads (readLe width)
    (toBytes width n) n := by
  have hexact := reads_exactly "early eof" (toBytes width n)
  rw [length_toBytes] at hexact
  apply hexact.last
  rw [ofBytes_toBytes_of_lt h]
  exact reads_pure n

theorem fromUtf8_asBytes (name : Name) : fromUtf8 (asBytes name) = some name := by
  have hdecode := List.utf8Decode?_utf8Encode (l := name)
  rw [List.utf8Encode] at hdecode
  rw [fromUtf8, asBytes, hdecode]
  rfl

theorem reads_readChunks (content : Bytes) {chunks : List Bytes} (hsized : Sized chunks)
    (hbounded : content.length + chunks.flatten.length < 2 ^ 64) :
    Reads (readChunks content) (chunks.flatMap chunkFrame ++ toBytes 4 0)
      (content ++ chunks.flatten) := by
  induction chunks generalizing content with
  | nil =>
    rw [readChunks_eq, List.flatMap_nil, List.nil_append, List.flatten_nil, List.append_nil]
    apply (reads_readLe (by decide)).last
    rw [if_pos rfl]
    exact reads_pure content
  | cons chunk chunks ih =>
    obtain ⟨hsome, hshort⟩ := hsized chunk List.mem_cons_self
    have hpos : 0 < chunk.length := List.length_pos_iff.mpr hsome
    rw [List.flatten_cons, List.length_append] at hbounded
    have hwide : chunk.length < 256 ^ 4 := by
      rw [snapshotChunkBytes] at hshort
      omega
    have hrest := ih (content ++ chunk) (fun c hc => hsized c (List.mem_cons_of_mem _ hc))
      (by rw [List.length_append]; omega)
    rw [readChunks_eq, List.flatMap_cons, chunkFrame, List.flatten_cons, List.append_assoc,
      List.append_assoc, ← List.append_assoc content]
    apply (reads_readLe hwide).bind
    rw [if_neg (by omega), if_neg (by omega)]
    apply (reads_exactly _ chunk).bind
    rw [if_neg (by omega)]
    exact hrest

theorem reads_readContent (crc : Bytes → UInt32) (name : Name) {chunks : List Bytes}
    (hsized : Sized chunks) (hbounded : chunks.flatten.length < 2 ^ 64) :
    Reads (readContent crc name) (chunks.flatMap chunkFrame ++ toBytes 4 0 ++
      (toBytes 8 chunks.flatten.length ++ toBytes 4 (crc chunks.flatten).toNat))
        chunks.flatten := by
  have hchunks := reads_readChunks [] hsized (by rwa [List.length_nil, Nat.zero_add])
  apply hchunks.bind
  rw [List.nil_append]
  apply (reads_readLe hbounded).bind
  apply (reads_readLe (UInt32.toNat_lt _)).last
  rw [if_pos ⟨rfl, rfl⟩]
  exact reads_pure _

end Fields

section Names

variable {name : Name}

def Sendable (name : Name) : Prop := asBytes name ≠ [] ∧ (asBytes name).length ≤ maxFilenameBytes

theorem reads_readFilename (h : Sendable name) :
    Reads readFilename (toBytes 2 (asBytes name).length ++ asBytes name) name := by
  have hpos : 0 < (asBytes name).length := List.length_pos_iff.mpr h.1
  have hshort := h.2
  rw [maxFilenameBytes] at hshort
  apply (reads_readLe (by omega)).bind
  rw [if_neg (by rw [maxFilenameBytes]; omega)]
  apply (reads_exactly _ (asBytes name)).last
  rw [fromUtf8_asBytes]
  exact reads_pure name

theorem reads_readName {staged : List StagedFile} (h : Sendable name)
    (hsafe : safeSnapshotFilename name)
    (hnew : name ∉ names staged) : Reads (readName staged)
    (toBytes 2 (asBytes name).length ++ asBytes name) name := by
  apply (reads_readFilename h).last
  rw [if_pos ⟨hsafe, hnew⟩]
  exact reads_pure name

theorem refuses_readName {staged : List StagedFile} (h : Sendable name)
    (hbad : ¬(safeSnapshotFilename name ∧ name ∉ names staged)) :
    Refuses (readName staged) (toBytes 2 (asBytes name).length ++ asBytes name) := by
  apply (reads_readFilename h).refuses_last
  rw [if_neg hbad]
  exact refuses_fail _ _

end Names

section Entries

variable {crc : Bytes → UInt32}

def SourceFile.staged (f : SourceFile) : StagedFile := ⟨f.name, f.content⟩

def SourceFile.Fits (f : SourceFile) : Prop := Sendable f.name ∧ f.content.length < 2 ^ 64

theorem startEntry_eq_ok {name : Name} {head : Bytes} (h : startEntry name = .ok head) :
    Sendable name ∧ head = toBytes 1 1 ++ (toBytes 2 (asBytes name).length ++ asBytes name) := by
  rw [startEntry] at h
  split at h
  · cases h
  · rename_i hsend
    rw [not_or] at hsend
    cases h
    exact ⟨⟨hsend.1, Nat.le_of_not_lt hsend.2⟩, List.append_assoc _ _ _⟩

/-- An entry is its tag and its name, and a body that its content is read from. -/
theorem streamFile_eq_ok {f : SourceFile} {entry : Bytes} (h : streamFile crc f = .ok entry) :
    f.Fits ∧ ∃ body, entry = toBytes 1 1 ++
      (toBytes 2 (asBytes f.name).length ++ asBytes f.name ++ body) ∧
      Reads (readContent crc f.name) body f.content := by
  rw [streamFile] at h
  cases hstart : startEntry f.name with
  | error e =>
    rw [hstart] at h
    cases h
  | ok head =>
    rw [hstart] at h
    cases hwrite : f.pieces.foldlM EntryWriter.write EntryWriter.start with
    | error e =>
      rw [Except.bind, hwrite] at h
      cases h
    | ok w =>
      rw [Except.bind, hwrite] at h
      cases h
      obtain ⟨hsend, hhead⟩ := startEntry_eq_ok hstart
      obtain ⟨chunks, hwrote⟩ := wrote_start.foldlM hwrite
      rw [List.nil_append] at hwrote
      obtain ⟨chunks', hsized, hcontent, hfinish⟩ := hwrote.finish crc
      have hbounded := hwrote.bounded
      refine ⟨⟨hsend, hbounded⟩, w.finish crc, ?_, ?_⟩
      · rw [hhead]
        simp only [List.append_assoc]
      · rw [← hcontent] at hbounded
        rw [hfinish, SourceFile.content, ← hcontent]
        exact reads_readContent crc f.name hsized hbounded

theorem exists_streamFile {f : SourceFile} (h : f.Fits) :
    ∃ entry, streamFile crc f = .ok entry := by
  have hsize : ([] : Bytes).length + f.pieces.flatten.length < 2 ^ 64 := by
    rw [List.length_nil, Nat.zero_add]
    exact h.2
  obtain ⟨w, hw⟩ := wrote_start.exists_foldlM hsize
  have hshort : ¬(asBytes f.name = [] ∨ maxFilenameBytes < (asBytes f.name).length) :=
    not_or.mpr ⟨h.1.1, Nat.not_lt_of_le h.1.2⟩
  rw [streamFile, startEntry, if_neg hshort]
  rw [Except.bind, hw]
  exact ⟨_, rfl⟩

/-- The names are safe and new, and there is room for so many files. -/
def Admits (staged : List StagedFile) (files : List SourceFile) : Prop :=
  (∀ f ∈ files, safeSnapshotFilename f.name) ∧ (names staged ++ files.map SourceFile.name).Nodup ∧
    staged.length + files.length ≤ maxSnapshotFiles

theorem admits_cons {staged : List StagedFile} {f : SourceFile} {files : List SourceFile} :
    Admits staged (f :: files) ↔ (safeSnapshotFilename f.name ∧ f.name ∉ names staged) ∧
      staged.length < maxSnapshotFiles ∧ Admits (staged ++ [f.staged]) files := by
  have hnames : names (staged ++ [f.staged]) = names staged ++ [f.name] := List.map_append
  have hsplit : names staged ++ (f :: files).map SourceFile.name =
      names (staged ++ [f.staged]) ++ files.map SourceFile.name := by
    rw [hnames, List.append_assoc]
    rfl
  have hlength : staged.length + (f :: files).length =
    (staged ++ [f.staged]).length + files.length := by
    simp only [List.length_append, List.length_cons, List.length_nil]
    omega
  rw [Admits, Admits, hsplit, hlength, List.forall_mem_cons]
  constructor
  · intro ⟨⟨hsafe, hrest⟩, hall, hroom⟩
    have hnew : (names staged ++ [f.name]).Nodup := hnames ▸ (List.nodup_append.mp hall).1
    refine ⟨⟨hsafe, ?_⟩, ?_, hrest, hall, hroom⟩
    · intro hmem
      exact (List.nodup_append.mp hnew).2.2 _ hmem _ List.mem_cons_self rfl
    · rw [List.length_append, List.length_singleton] at hroom
      omega
  · intro ⟨⟨hsafe, _⟩, _, hrest, hall, hroom⟩
    exact ⟨⟨hsafe, hrest⟩, hall, hroom⟩

theorem Admits.snoc {staged : List StagedFile} {f : SourceFile} (h : Admits staged [])
    (hnew : safeSnapshotFilename f.name ∧ f.name ∉ names staged)
    (hroom : staged.length < maxSnapshotFiles) : Admits (staged ++ [f.staged]) [] := by
  obtain ⟨-, hnodup, -⟩ := h
  rw [List.map_nil, List.append_nil] at hnodup
  refine ⟨nofun, ?_, ?_⟩
  · rw [List.map_nil, List.append_nil, names, List.map_append]
    apply List.nodup_append.mpr
    refine ⟨hnodup, List.pairwise_singleton _ _, ?_⟩
    intro name hname name' hname' heq
    rw [heq, List.mem_singleton.mp hname'] at hname
    exact hnew.2 hname
  · rw [List.length_append]
    exact hroom

theorem streamFiles_cons_eq_ok {f : SourceFile} {files : List SourceFile} {entries : Bytes}
    (h : streamFiles crc (f :: files) = .ok entries) :
    ∃ entry rest, streamFile crc f = .ok entry ∧ streamFiles crc files = .ok rest ∧
      entries = entry ++ rest := by
  rw [streamFiles] at h
  cases hentry : streamFile crc f with
  | error e =>
    rw [hentry] at h
    cases h
  | ok entry =>
    cases hrest : streamFiles crc files with
    | error e =>
      rw [hentry, hrest] at h
      cases h
    | ok rest =>
      rw [hentry, hrest] at h
      cases h
      exact ⟨entry, rest, rfl, rfl, rfl⟩

theorem reads_readEntries {staged : List StagedFile} {files : List SourceFile} {entries : Bytes}
    (hentries : streamFiles crc files = .ok entries) (hadmits : Admits staged files) :
    Reads (readEntries crc staged) (entries ++ toBytes 1 0)
      (staged ++ files.map SourceFile.staged) := by
  induction files generalizing staged entries with
  | nil =>
    cases hentries
    rw [readEntries_eq, List.nil_append, List.map_nil, List.append_nil]
    apply (reads_readLe (by decide)).last
    rw [if_pos rfl]
    exact reads_pure staged
  | cons f files ih =>
    obtain ⟨entry, rest, hentry, hrest, rfl⟩ := streamFiles_cons_eq_ok hentries
    obtain ⟨hfits, body, rfl, hbody⟩ := streamFile_eq_ok hentry
    obtain ⟨hnew, hroom, hadmits'⟩ := admits_cons.mp hadmits
    have hread := ih hrest hadmits'
    rw [List.append_assoc] at hread
    rw [readEntries_eq, List.map_cons, List.append_assoc, List.append_assoc]
    apply (reads_readLe (by decide)).bind
    rw [if_neg (by decide), if_neg (by omega)]
    apply Reads.bind (a := f.staged)
    · apply (reads_readName hfits.1 hnew.1 hnew.2).bind
      apply hbody.last
      exact reads_pure _
    · exact hread

theorem refuses_readEntries {staged : List StagedFile} {files : List SourceFile} {entries : Bytes}
    (hentries : streamFiles crc files = .ok entries) (hstaged : Admits staged [])
    (hadmits : ¬Admits staged files) :
    Refuses (readEntries crc staged) (entries ++ toBytes 1 0) := by
  induction files generalizing staged entries with
  | nil => exact absurd hstaged hadmits
  | cons f files ih =>
    obtain ⟨entry, rest, hentry, hrest, rfl⟩ := streamFiles_cons_eq_ok hentries
    obtain ⟨hfits, body, rfl, hbody⟩ := streamFile_eq_ok hentry
    rw [readEntries_eq, List.append_assoc, List.append_assoc]
    apply (reads_readLe (by decide)).refuses
    rw [if_neg (by decide)]
    by_cases hroom : staged.length < maxSnapshotFiles
    · rw [if_neg (by omega)]
      by_cases hnew : safeSnapshotFilename f.name ∧ f.name ∉ names staged
      · have hrefuses := ih hrest (hstaged.snoc hnew hroom) fun h =>
          hadmits (admits_cons.mpr ⟨hnew, hroom, h⟩)
        apply Reads.refuses (a := f.staged)
        · apply (reads_readName hfits.1 hnew.1 hnew.2).bind
          apply hbody.last
          exact reads_pure _
        · exact hrefuses
      · rw [List.append_assoc]
        apply Refuses.append
        exact ((refuses_readName hfits.1 hnew).bind _).bind _
    · rw [if_pos (by omega)]
      exact refuses_fail _ _

theorem streamFiles_fits {files : List SourceFile} :
    (∃ entries, streamFiles crc files = .ok entries) ↔ ∀ f ∈ files, f.Fits := by
  induction files with
  | nil => exact ⟨fun _ => nofun, fun _ => ⟨[], rfl⟩⟩
  | cons f files ih =>
    rw [List.forall_mem_cons, ← ih]
    constructor
    · intro ⟨entries, h⟩
      obtain ⟨entry, rest, hentry, hrest, -⟩ := streamFiles_cons_eq_ok h
      exact ⟨(streamFile_eq_ok hentry).1, rest, hrest⟩
    · intro ⟨hfits, rest, hrest⟩
      obtain ⟨entry, hentry⟩ : ∃ entry, streamFile crc f = .ok entry := exists_streamFile hfits
      rw [streamFiles, hentry, Except.bind, hrest]
      exact ⟨_, rfl⟩

end Entries

section Snapshot

variable {crc : Bytes → UInt32} {files : List SourceFile} {stream : Bytes}

def Acceptable (files : List SourceFile) : Prop :=
  Admits [] files ∧ Required (files.map SourceFile.name)

example : Acceptable [⟨indexFilename, []⟩, ⟨appliedFilename, [[1, 2]]⟩,
    ⟨"wal-00001.log".toList, []⟩] :=
  ⟨⟨by decide, by decide, by decide⟩, by decide⟩

theorem streamSnapshot_eq_ok (h : streamSnapshot crc files = .ok stream) :
    ∃ entries, streamFiles crc files = .ok entries ∧
      stream = snapshotMagic ++ (entries ++ toBytes 1 0) := by
  rw [streamSnapshot] at h
  cases hentries : streamFiles crc files with
  | error e =>
    rw [hentries] at h
    cases h
  | ok entries =>
    rw [hentries] at h
    cases h
    exact ⟨entries, rfl, List.append_assoc _ _ _⟩

theorem streamSnapshot_fits :
    (∃ stream, streamSnapshot crc files = .ok stream) ↔ ∀ f ∈ files, f.Fits := by
  rw [← streamFiles_fits]
  constructor
  · intro ⟨stream, h⟩
    obtain ⟨entries, hentries, -⟩ := streamSnapshot_eq_ok h
    exact ⟨entries, hentries⟩
  · intro ⟨entries, h⟩
    rw [streamSnapshot, h]
    exact ⟨_, rfl⟩

theorem reads_readMagic : Reads readMagic snapshotMagic () := by
  apply (reads_exactly _ snapshotMagic).last
  rw [if_pos rfl]
  exact reads_pure ()

theorem names_staged (files : List SourceFile) : names
    (files.map SourceFile.staged) = files.map SourceFile.name := by
  rw [names, List.map_map]
  rfl

theorem reads_readFiles (h : streamSnapshot crc files = .ok stream)
    (hacceptable : Acceptable files) :
    Reads (readFiles crc) stream (files.map SourceFile.staged) := by
  obtain ⟨entries, hentries, rfl⟩ := streamSnapshot_eq_ok h
  apply reads_readMagic.bind
  apply (reads_readEntries hentries hacceptable.1).last
  rw [List.nil_append, names_staged, if_pos hacceptable.2]
  exact reads_pure _

theorem refuses_readFiles (h : streamSnapshot crc files = .ok stream)
    (hacceptable : ¬Acceptable files) : Refuses (readFiles crc) stream := by
  obtain ⟨entries, hentries, rfl⟩ := streamSnapshot_eq_ok h
  have hstart : Admits [] [] := ⟨nofun, List.nodup_nil, Nat.zero_le _⟩
  apply reads_readMagic.refuses
  by_cases hadmits : Admits [] files
  · apply (reads_readEntries hentries hadmits).refuses_last
    rw [List.nil_append, names_staged, if_neg fun hrequired => hacceptable ⟨hadmits, hrequired⟩]
    exact refuses_fail _ _
  · exact (refuses_readEntries hentries hstart hadmits).bind _

theorem receiveSnapshot_eq_ok {chunks : List Bytes} {received : List StagedFile}
    (h : receiveSnapshot crc chunks = .ok received) :
    ∃ rest, readFiles crc chunks = .ok (received, rest) ∧ rest.flatten = [] := by
  rw [receiveSnapshot] at h
  cases hread : readFiles crc chunks with
  | error e =>
    rw [hread] at h
    cases h
  | ok r =>
    rw [hread, Except.bind] at h
    split at h
    · rename_i hend
      cases h
      exact ⟨r.2, rfl, hend⟩
    · cases h

theorem receive_of_acceptable (h : streamSnapshot crc files = .ok stream)
    (hacceptable : Acceptable files) {chunks : List Bytes} (hchunks : chunks.flatten = stream) :
    receiveSnapshot crc chunks = .ok (files.map SourceFile.staged) := by
  rw [← List.append_nil stream] at hchunks
  obtain ⟨rest, hok, hrest⟩ := reads_readFiles h hacceptable chunks [] hchunks
  rw [receiveSnapshot, hok, Except.bind, if_pos hrest]

/-- What is received is the whole stream of acceptable files, if it and the stream have a beginning
in common. -/
theorem received_whole (h : streamSnapshot crc files = .ok stream) {chunks : List Bytes}
    {received : List StagedFile}
    (hreceived : receiveSnapshot crc chunks = .ok received) {short long : Bytes}
    (hwhole : chunks.flatten ++ short = stream ++ long) : Acceptable files ∧ short = long := by
  obtain ⟨rest, hread, hrest⟩ := receiveSnapshot_eq_ok hreceived
  have hwhole' : [stream ++ long].flatten = chunks.flatten ++ short := by
    rw [List.flatten_singleton, hwhole]
  obtain ⟨rest', hread', hrest'⟩ := (steady_readFiles crc chunks).extend hread short hwhole'
  by_cases hacceptable : Acceptable files
  · refine ⟨hacceptable, ?_⟩
    obtain ⟨rest'', hread'', hrest''⟩ :=
      reads_readFiles h hacceptable [stream ++ long] long List.flatten_singleton
    rw [hread'] at hread''
    cases hread''
    rw [hrest''] at hrest'
    rw [hrest', hrest, List.nil_append]
  · obtain ⟨e, he⟩ := refuses_readFiles h hacceptable [stream ++ long] long List.flatten_singleton
    rw [hread'] at he
    cases he

end Snapshot

section Names

theorem mem_stripEnds {front back name rest : Name} (h : stripEnds front back name = some rest) :
    name = front ++ rest ++ back := by
  rw [stripEnds] at h
  split at h
  · rename_i hfront
    obtain ⟨tail, rfl⟩ := hfront
    rw [List.drop_left] at h
    dsimp only at h
    split at h
    · rename_i hback
      obtain ⟨init, rfl⟩ := hback
      rw [List.length_append, Nat.add_sub_cancel, List.take_left] at h
      cases h
      rw [List.append_assoc]
    · cases h
  · cases h

theorem isWalFilename_digits {name : Name} (h : isWalFilename name) :
    ∃ id : Name, name = "wal-".toList ++ id ++ ".log".toList ∧ id.all isAsciiDigit := by
  rw [isWalFilename, walIdFromFilename] at h
  cases hstrip : stripEnds "wal-".toList ".log".toList name with
  | none =>
    rw [hstrip] at h
    cases h
  | some id =>
    refine ⟨id, mem_stripEnds hstrip, ?_⟩
    rw [hstrip, Option.bind_some] at h
    split at h
    · rename_i hid
      exact hid.2
    · cases h

theorem slash_notMem {name : Name} (h : safeSnapshotFilename name) : '/' ∉ name := by
  simp only [safeSnapshotFilename, Bool.and_eq_true, Bool.or_eq_true, decide_eq_true_eq] at h
  obtain ⟨-, (rfl | rfl) | hwal⟩ := h
  · decide
  · decide
  · obtain ⟨id, rfl, hdigits⟩ := isWalFilename_digits hwal
    intro hmem
    rw [List.mem_append, List.mem_append] at hmem
    obtain (hmem | hmem) | hmem := hmem
    · exact absurd hmem (by decide)
    · exact absurd (List.all_eq_true.mp hdigits _ hmem) (by decide)
    · exact absurd hmem (by decide)

theorem components_of_safe {name : Name} (h : safeSnapshotFilename name) :
    components name = [.normal name] := by
  have hone : oneNormal name := by
    rw [safeSnapshotFilename, Bool.and_eq_true] at h
    exact h.1
  have hcomponents : components name = if name = [] then [] else (component true name).toList := by
    rw [components, List.splitOn_eq_singleton (slash_notMem h)]
    cases name with
    | nil => rfl
    | cons c name => exact List.append_nil _
  rw [oneNormal, hcomponents, component] at hone
  rw [hcomponents, component]
  split_ifs at hone ⊢ with hnil hdot hdots
  · cases hone
  · cases hone
  · cases hone
  · rfl

def AllSafe (staged : List StagedFile) : Prop := ∀ f ∈ staged, safeSnapshotFilename f.name

variable {crc : Bytes → UInt32}

theorem readName_safe {staged : List StagedFile} {chunks rest : List Bytes} {name : Name}
    (h : readName staged chunks = .ok (name, rest)) : safeSnapshotFilename name := by
  obtain ⟨name', between, -, hcheck⟩ := Reader.bind_eq_ok h
  split at hcheck
  · rename_i hsafe
    cases hcheck
    exact hsafe.1
  · cases hcheck

theorem readEntry_safe {staged : List StagedFile} {chunks rest : List Bytes} {file : StagedFile}
    (h : readEntry crc staged chunks = .ok (file, rest)) : safeSnapshotFilename file.name := by
  obtain ⟨name, between, hname, hbody⟩ := Reader.bind_eq_ok h
  obtain ⟨content, rest', -, hpure⟩ := Reader.bind_eq_ok hbody
  cases hpure
  exact readName_safe hname

theorem readEntries_safe {staged received : List StagedFile} {chunks rest : List Bytes}
    (hstaged : AllSafe staged)
    (h : readEntries crc staged chunks = .ok (received, rest)) : AllSafe received := by
  induction hsize : chunks.flatten.length
    using Nat.strong_induction_on generalizing staged chunks with
  | h size ih =>
    rw [readEntries_eq] at h
    obtain ⟨tag, between, htag, h⟩ := Reader.bind_eq_ok h
    split at h
    · cases h
      exact hstaged
    · split at h
      · cases h
      · obtain ⟨file, after, hentry, h⟩ := Reader.bind_eq_ok h
        have hless := readLe_length htag
        have hle := (steady_readEntry crc staged between).length_le hentry
        apply ih _ _ _ h rfl
        · omega
        · intro f hf
          cases List.mem_append.mp hf with
          | inl hf => exact hstaged f hf
          | inr hf =>
            rw [List.mem_singleton.mp hf]
            exact readEntry_safe hentry

theorem receiveSnapshot_safe {chunks : List Bytes} {received : List StagedFile}
    (h : receiveSnapshot crc chunks = .ok received) : AllSafe received := by
  obtain ⟨rest, hread, -⟩ := receiveSnapshot_eq_ok h
  obtain ⟨_, between, -, hread⟩ := Reader.bind_eq_ok hread
  obtain ⟨staged, after, hentries, hcheck⟩ := Reader.bind_eq_ok hread
  split at hcheck
  · cases hcheck
    exact readEntries_safe (show AllSafe [] from fun _ hf => nomatch hf) hentries
  · cases hcheck

end Names

section Main

/-- The receiver gives back the files of a stream, in whatever chunks it comes, if they are
acceptable, and refuses every other list, every beginning of a stream and every stream with bytes
behind it. It never takes a file with a name that leads out of the directory. -/
theorem snapshot_codec (crc : Bytes → UInt32) (files : List SourceFile) :
    ((∃ stream, streamSnapshot crc files = .ok stream) ↔ ∀ f ∈ files, f.Fits) ∧
      (∀ stream, streamSnapshot crc files = .ok stream → ∀ chunks : List Bytes,
        (chunks.flatten = stream → Acceptable files →
          receiveSnapshot crc chunks = .ok (files.map fun f => ⟨f.name, f.content⟩)) ∧
        (chunks.flatten = stream → ¬Acceptable files → ∃ e, receiveSnapshot crc chunks = .error e) ∧
        (chunks.flatten <+: stream → chunks.flatten ≠ stream →
          ∃ e, receiveSnapshot crc chunks = .error e) ∧
        (stream <+: chunks.flatten → chunks.flatten ≠ stream →
          ∃ e, receiveSnapshot crc chunks = .error e)) ∧
      ∀ (chunks : List Bytes) (received : List StagedFile),
        receiveSnapshot crc chunks = .ok received →
        ∀ f ∈ received, safeSnapshotFilename f.name ∧ components f.name = [.normal f.name] := by
  refine ⟨streamSnapshot_fits, ?_, ?_⟩
  · intro stream h chunks
    refine ⟨fun hchunks hacceptable => receive_of_acceptable h hacceptable hchunks, ?_, ?_, ?_⟩
    · intro hchunks hacceptable
      cases hreceived : receiveSnapshot crc chunks with
      | error e => exact ⟨e, rfl⟩
      | ok received =>
        have hwhole : chunks.flatten ++ [] = stream ++ [] := by rw [hchunks]
        exact absurd (received_whole h hreceived hwhole).1 hacceptable
    · intro ⟨short, hshort⟩ hne
      cases hreceived : receiveSnapshot crc chunks with
      | error e => exact ⟨e, rfl⟩
      | ok received =>
        have hwhole : chunks.flatten ++ short = stream ++ [] := by rw [hshort, List.append_nil]
        rw [(received_whole h hreceived hwhole).2, List.append_nil] at hshort
        exact absurd hshort hne
    · intro ⟨long, hlong⟩ hne
      cases hreceived : receiveSnapshot crc chunks with
      | error e => exact ⟨e, rfl⟩
      | ok received =>
        have hwhole : chunks.flatten ++ [] = stream ++ long := by rw [hlong, List.append_nil]
        rw [← (received_whole h hreceived hwhole).2, List.append_nil] at hlong
        exact absurd hlong.symm hne
  · intro chunks received h f hf
    have hsafe := receiveSnapshot_safe h f hf
    exact ⟨hsafe, components_of_safe hsafe⟩

/-- A log alone is a list of safe names that no receiver takes. -/
theorem lone_log_refused : ¬∀ (crc : Bytes → UInt32) (files : List SourceFile) (stream : Bytes),
    (∀ f ∈ files, safeSnapshotFilename f.name) → streamSnapshot crc files = .ok stream →
      ∀ chunks : List Bytes, chunks.flatten = stream →
        receiveSnapshot crc chunks = .ok (files.map fun f => ⟨f.name, f.content⟩) := by
  intro h
  let log : SourceFile := ⟨"wal-00001.log".toList, []⟩
  have hsafe : ∀ f ∈ [log], safeSnapshotFilename f.name := by decide
  obtain ⟨stream, hstream⟩ : ∃ stream, streamSnapshot (fun _ => 0) [log] = .ok stream := ⟨_, rfl⟩
  have hreceived := h _ _ stream hsafe hstream [stream] List.flatten_singleton
  have hwhole : [stream].flatten ++ [] = stream ++ [] := by rw [List.flatten_singleton]
  have hacceptable := (received_whole hstream hreceived hwhole).1
  exact absurd hacceptable.2 (by decide)

end Main

end DewDB.SnapshotWire
