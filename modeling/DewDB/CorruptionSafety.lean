import DewDB.FrameReaders

/-!
# Corruption is served or refused

The checksum of a frame covers its payload. Whatever is altered inside the frames of a log, the
readers yield what was written or refuse, just if no altered header stands in front of a payload
that still passes.
-/
namespace DewDB.FrameReaders

open FrameBytes FrameScan InlineAccounts StableSort
open StorageEntry (LogEntry)

variable {V H : Type}

section Log

variable (crc : Bytes → UInt32) (decode : Bytes → Option (LogEntry V H))

/-- The WAL holds as many bytes as were written, which may be others. -/
structure StoredWal.Altered (wal : StoredWal) : Prop where
  valid : AllValid crc wal.written
  length : wal.bytes.length = sizeAll wal.written

/-- Nothing that is stored behind a header has the checksum of the payload that was written there,
except that payload. -/
def CollisionFree (wals : List StoredWal) : Prop :=
  ∀ wal ∈ wals, ∀ q ∈ placed 0 wal.written, ∀ n,
    crc (((wal.bytes.drop q.offset).drop headerLen).take n) = crc q.payload →
      ((wal.bytes.drop q.offset).drop headerLen).take n = q.payload

/-- Where a frame was written, no other header stands in front of a payload that passes its
checksum. -/
def HeadersHold (wals : List StoredWal) : Prop :=
  ∀ wal ∈ wals, ∀ q ∈ placed 0 wal.written, ∀ w,
    readFrame crc (wal.bytes.drop q.offset) = some w → w.header = q.header

/-- The frame that was written at this position is a put of the key. -/
structure PutOf (wals : List StoredWal) (key : String) (value : V) (q : ReadFrame)
    (wal : StoredWal) : Prop where
  wal_mem : wal ∈ wals
  frame_mem : q ∈ placed 0 wal.written
  put : ∃ migration ts expireAt, decode q.payload = some (.put migration key value ts expireAt)

structure Records (wals : List StoredWal) (key : String) (e : IndexEntry) (value : V)
    (q : ReadFrame) (wal : StoredWal) : Prop where
  written : PutOf decode wals key value q wal
  walId : e.walId = wal.id
  offset : e.offset = q.offset
  len : e.len = q.header.len.toNat
  version : version e = (q.header.term.toNat, q.header.lsn.toNat)
  inline : ∀ payload ∈ e.inline, payload = q.payload

/-- What the index holds for a key is the entry of a put of the key. -/
def Sound (wals : List StoredWal) (key : String) (entry : Option IndexEntry) : Prop :=
  ∀ e ∈ entry, ∃ value q wal, Records decode wals key e value q wal

/-- Every reader yields the frame that was written at the position, or refuses or stops there. -/
structure Faithful (wals : List StoredWal) : Prop where
  replay : ∀ wal ∈ wals, ∀ front back, wal.written = front ++ back →
    scanFrames crc (sizeAll front) (wal.bytes.drop (sizeAll front)) <+: placed (sizeAll front) back
  scan : ∀ name retired retiredAfter afterLsn upToLsn frames,
    scanFramesAfter crc name wals retired retiredAfter afterLsn upToLsn = .ok frames → ∀ p ∈ frames,
      ∃ wal ∈ wals, ∃ q ∈ placed 0 wal.written, p = (q.header.lsn.toNat, frameBytes q)
  spot : ∀ wal ∈ wals, ∀ q ∈ placed 0 wal.written, ∀ frame,
    readFrameAt crc wal.bytes ⟨q.header.lsn, q.header.term, wal.id, q.offset⟩ = .ok frame →
      frame = frameBytes q
  payload : ∀ wal ∈ wals, ∀ q ∈ placed 0 wal.written, ∀ payload,
    readFramePayload crc wal.bytes wal.id q.offset q.header.len.toNat = .ok payload →
      payload = q.payload
  get : ∀ retired released key entry seen, Sound decode wals key entry →
    (∀ e ∈ seen, Sound decode wals key e) →
    ∀ value v, getVersioned crc decode wals retired released key entry seen = .ok
      (some (value, v)) →
      ∃ q wal, PutOf decode wals key value q wal ∧ v = (q.header.term.toNat, q.header.lsn.toNat)

end Log

section Scanning

variable {crc : Bytes → UInt32} (cache : ReadCacheConfig) (decode : Bytes → Option (LogEntry V H))

theorem replayLoop_scan (appliedThrough walId offset : ℕ) (rest : Bytes) (r : Replay H)
    (tail : ℕ × ℕ) :
    replayLoop crc cache decode appliedThrough walId offset rest r tail =
      (applyFrames cache decode appliedThrough walId r (scanFrames crc offset rest)).map fun r =>
        (offset + scannedEnd (scanFrames crc offset rest), r,
          (scanFrames crc offset rest).foldl (tailAfter decode) tail) := by
  induction hlength : rest.length using Nat.strong_induction_on generalizing offset rest r tail with
  | h length ih =>
    rw [replayLoop, scanFrames]
    cases hread : readFrame crc rest with
    | none => rfl
    | some w =>
      have hle := size_le_of_readFrame hread
      have hpos := size_pos w
      dsimp only
      rw [applyFrames, List.foldlM_cons, List.foldl_cons]
      cases hframe : r.frame cache decode appliedThrough walId ⟨offset, w.header, w.payload⟩ with
      | none => rfl
      | some r' =>
        rw [Option.bind_some, ih (rest.drop w.size).length
          (by rw [List.length_drop]; omega) _ _ _ _ rfl]
        rw [scannedEnd_cons, ← Nat.add_assoc]
        rfl

theorem scanFrames_of_some {offset : ℕ} {rest : Bytes} {w : WalFrame}
    (h : readFrame crc rest = some w) :
    scanFrames crc offset rest =
      ⟨offset, w.header, w.payload⟩ :: scanFrames crc (offset + w.size) (rest.drop w.size) := by
  rw [scanFrames]
  split
  · rename_i hread
    rw [h] at hread
    cases hread
  · rename_i v hread
    rw [h] at hread
    cases hread
    rfl

theorem scanFrames_of_none {offset : ℕ} {rest : Bytes} (h : readFrame crc rest = none) :
    scanFrames crc offset rest = [] := by
  rw [scanFrames]
  split
  · rfl
  · rename_i v hread
    rw [h] at hread
    cases hread

end Scanning

section Placed

theorem placed_append (offset : ℕ) (vs ws : List WalFrame) :
    placed offset (vs ++ ws) = placed offset vs ++ placed (offset + sizeAll vs) ws := by
  induction vs generalizing offset with
  | nil => rfl
  | cons v vs ih =>
    rw [List.cons_append, placed, ih, placed, List.cons_append, sizeAll_cons, Nat.add_assoc]

theorem split_of_mem_placed {ws : List WalFrame} {q : ReadFrame} (h : q ∈ placed 0 ws) :
    ∃ front w back, ws = front ++ w :: back ∧ q = ⟨sizeAll front, w.header, w.payload⟩ := by
  suffices hoffset : ∀ offset, q ∈ placed offset ws →
      ∃ front w back, ws = front ++ w :: back ∧ q = ⟨offset + sizeAll front, w.header, w.payload⟩ by
    obtain ⟨front, w, back, hws, hq⟩ := hoffset 0 h
    rw [Nat.zero_add] at hq
    exact ⟨front, w, back, hws, hq⟩
  clear h
  intro offset h
  induction ws generalizing offset with
  | nil => cases h
  | cons w ws ih =>
    rw [placed] at h
    cases List.mem_cons.mp h with
    | inl h => exact ⟨[], w, ws, rfl, h⟩
    | inr h =>
      obtain ⟨front, v, back, hws, hq⟩ := ih _ h
      refine ⟨w :: front, v, back, by rw [hws]; rfl, ?_⟩
      rw [hq, sizeAll_cons, Nat.add_assoc]

theorem mem_placed_of_split {front back : List WalFrame} (w : WalFrame) :
    ⟨sizeAll front, w.header, w.payload⟩ ∈ placed 0 (front ++ w :: back) := by
  rw [placed_append, Nat.zero_add]
  exact List.mem_append_right _ List.mem_cons_self

end Placed

section Readers

variable {crc : Bytes → UInt32} {decode : Bytes → Option (LogEntry V H)} {wals : List StoredWal}

theorem readFrame_of_checks {rest : Bytes} {parsed : FrameHeader}
    (hparse : FrameHeader.parse (rest.take headerLen) = some parsed)
    (hlen : ¬(parsed.len = 0 ∨ maxRecordSize < parsed.len.toNat))
    (hlong : ¬((rest.drop headerLen).take parsed.len.toNat).length < parsed.len.toNat)
    (hvalid : parsed.payloadValid crc ((rest.drop headerLen).take parsed.len.toNat)) :
    readFrame crc rest = some ⟨parsed, (rest.drop headerLen).take parsed.len.toNat⟩ := by
  rw [readFrame, hparse]
  dsimp only
  rw [if_neg hlen, if_neg (by rw [hvalid]; simpa using hlong)]

theorem readFrameAt_eq_ok {bytes frame : Bytes} {spot : FrameSpot}
    (h : readFrameAt crc bytes spot = .ok frame) :
    ∃ w, readFrame crc (bytes.drop spot.offset) = some w ∧ frame = w.bytes := by
  rw [readFrameAt] at h
  split at h
  · cases h
  · rename_i parsed hparse
    split at h
    · cases h
    · rename_i hchecks
      dsimp only at h
      split at h
      · cases h
      · rename_i hlong
        split at h
        · rename_i hvalid
          cases h
          rw [not_or, not_or] at hchecks
          exact ⟨_, readFrame_of_checks hparse hchecks.2.2 hlong hvalid, rfl⟩
        · cases h

theorem readFramePayload_eq_ok {bytes payload : Bytes} {walId offset expectedLen : ℕ}
    (h : readFramePayload crc bytes walId offset expectedLen = .ok payload) :
    ∃ w, readFrame crc (bytes.drop offset) = some w ∧ payload = w.payload := by
  rw [readFramePayload] at h
  split at h
  · cases h
  · rename_i parsed hparse
    split at h
    · cases h
    · rename_i hchecks
      dsimp only at h
      split at h
      · cases h
      · rename_i hlong
        split at h
        · rename_i hvalid
          cases h
          rw [not_or] at hchecks
          exact ⟨_, readFrame_of_checks hparse hchecks.2 hlong hvalid, rfl⟩
        · cases h

/-- Where the headers hold, what passes the checks is the frame that was written. -/
theorem read_written (haltered : ∀ wal ∈ wals, wal.Altered crc) (hfree : CollisionFree crc wals)
    (hheaders : HeadersHold crc wals) {wal : StoredWal} (hwal : wal ∈ wals) {q : ReadFrame}
    (hq : q ∈ placed 0 wal.written) {w : WalFrame}
    (hread : readFrame crc (wal.bytes.drop q.offset) = some w) : w = ⟨q.header, q.payload⟩ := by
  have hheader := hheaders wal hwal q hq w hread
  obtain ⟨hvalid, rest, hrest⟩ := readFrame_eq_some hread
  have hpayload : ((wal.bytes.drop q.offset).drop headerLen).take w.payload.length = w.payload := by
    rw [← hrest, WalFrame.bytes, List.append_assoc, List.drop_left' (length_encode _),
      List.take_left' rfl]
  have hwritten : crc q.payload = q.header.crc := by
    obtain ⟨front, v, back, hsplit, rfl⟩ := split_of_mem_placed hq
    have hv := (haltered wal hwal).valid v (hsplit ▸ List.mem_append_right _ List.mem_cons_self)
    simpa [FrameHeader.payloadValid] using hv.sum
  have hstored : crc w.payload = w.header.crc := by
    simpa [FrameHeader.payloadValid] using hvalid.sum
  have hsame := hfree wal hwal q hq w.payload.length (by rw [hpayload, hstored, hheader, hwritten])
  rw [hpayload] at hsame
  cases w
  cases hheader
  cases hsame
  rfl

theorem scanFrames_initial (haltered : ∀ wal ∈ wals, wal.Altered crc)
    (hfree : CollisionFree crc wals)
    (hheaders : HeadersHold crc wals) {wal : StoredWal} (hwal : wal ∈ wals)
    {front back : List WalFrame} (hsplit : wal.written = front ++ back) :
    scanFrames crc (sizeAll front) (wal.bytes.drop (sizeAll front)) <+: placed
      (sizeAll front) back := by
  induction back generalizing front with
  | nil =>
    have hend : wal.bytes.drop (sizeAll front) = [] := by
      apply List.drop_eq_nil_of_le
      rw [(haltered wal hwal).length, hsplit, List.append_nil]
    rw [hend, scanFrames_of_none (by rfl)]
    exact List.nil_prefix
  | cons v back ih =>
    cases hread : readFrame crc (wal.bytes.drop (sizeAll front)) with
    | none =>
      rw [scanFrames_of_none hread]
      exact List.nil_prefix
    | some w =>
      have hq : ⟨sizeAll front, v.header, v.payload⟩ ∈ placed 0 wal.written :=
        hsplit ▸ mem_placed_of_split v
      have hw : w = v := read_written haltered hfree hheaders hwal hq hread
      have hfront : sizeAll (front ++ [v]) = sizeAll front + v.size := by
        rw [sizeAll_append, sizeAll_cons]
        rfl
      have hrest := @ih (front ++ [v]) (by rw [hsplit, List.append_assoc]; rfl)
      rw [hfront, ← List.drop_drop] at hrest
      rw [scanFrames_of_some hread, hw, placed]
      exact List.cons_prefix_cons.mpr ⟨rfl, hrest⟩

def WrittenAs (wals : List StoredWal) (p : ℕ × Bytes) : Prop :=
  ∃ wal ∈ wals, ∃ q ∈ placed 0 wal.written, p = (q.header.lsn.toNat, frameBytes q)

theorem collectFrames_written {afterLsn upToLsn : ℕ} {out : SortedMap ℕ Bytes}
    {frames : List ReadFrame} (hout : ∀ p ∈ out.entries, WrittenAs wals p)
    (hframes : ∀ q ∈ frames, WrittenAs wals (q.header.lsn.toNat, frameBytes q)) :
    ∀ p ∈ (collectFrames afterLsn upToLsn out frames).entries, WrittenAs wals p := by
  induction frames generalizing out with
  | nil => exact hout
  | cons q frames ih =>
    rw [collectFrames, List.foldl_cons]
    apply ih _ fun f hf => hframes f (List.mem_cons_of_mem _ hf)
    split
    · intro p hp
      cases SortedMap.mem_put hp with
      | inl h =>
        rw [h]
        exact hframes q List.mem_cons_self
      | inr h => exact hout p h
    · exact hout

theorem scanWals_written (hscan : ∀ wal ∈ wals, scanFrames crc 0 wal.bytes <+: placed 0 wal.written)
    {name : String}
    {active afterLsn upToLsn : ℕ} {out out' : SortedMap ℕ Bytes} {rest : List StoredWal}
    (hrest : ∀ wal ∈ rest, wal ∈ wals) (hout : ∀ p ∈ out.entries, WrittenAs wals p)
    (h : scanWals crc name active afterLsn upToLsn out rest = .ok out') :
    ∀ p ∈ out'.entries, WrittenAs wals p := by
  induction rest generalizing out with
  | nil =>
    cases h
    exact hout
  | cons wal rest ih =>
    rw [scanWals] at h
    split at h
    · cases h
    · apply ih (fun wal hwal => hrest wal (List.mem_cons_of_mem _ hwal)) _ h
      apply collectFrames_written hout
      intro q hq
      have hwal := hrest wal List.mem_cons_self
      exact ⟨wal, hwal, q, (hscan wal hwal).subset hq, rfl⟩

/-- A location of a put of the key, with the version of its frame. -/
def Places (decode : Bytes → Option (LogEntry V H)) (wals : List StoredWal)
    (key : String) (l : Located) (v : ℕ × ℕ) : Prop :=
  ∃ value q wal, PutOf decode wals key value q wal ∧ l = ⟨wal.id, q.offset, q.header.len.toNat⟩ ∧
    v = (q.header.term.toNat, q.header.lsn.toNat)

theorem Records.places {key : String} {e : IndexEntry} {value : V} {q : ReadFrame} {wal : StoredWal}
    (h : Records decode wals key e value q wal) : Places decode wals key (locate e)
    (FrameReaders.version e) := by
  refine ⟨value, q, wal, h.written, ?_, h.version⟩
  rw [locate, h.walId, h.offset, h.len]

theorem valueFromPayload_put {key : String} {value : V} {q : ReadFrame} {wal : StoredWal}
    (h : PutOf decode wals key value q wal) : valueFromPayload decode q.payload = some value := by
  obtain ⟨migration, ts, expireAt, hput⟩ := h.put
  rw [valueFromPayload, hput]

theorem readAt_written (hids : (wals.map StoredWal.id).Nodup) {key : String} {value : V}
    {q : ReadFrame} {wal : StoredWal} (hput : PutOf decode wals key value q wal)
    (hpayload : ∀ payload,
      readFramePayload crc wal.bytes wal.id q.offset q.header.len.toNat = .ok payload →
      payload = q.payload) {retired : ℕ} {payload : Bytes}
    (h : readAt crc wals retired ⟨wal.id, q.offset, q.header.len.toNat⟩ = .ok payload) :
    payload = q.payload := by
  rw [readAt] at h
  split at h
  · cases h
  · split at h
    · cases h
    · rename_i found hfound
      have hfound_mem := List.mem_of_find?_eq_some hfound
      have hid : found.id = wal.id := by simpa using List.find?_some hfound
      have hsame : found = wal := List.inj_on_of_nodup_map hids hfound_mem hput.wal_mem hid
      rw [hsame] at h
      exact hpayload payload h

theorem readLocated_written (hids : (wals.map StoredWal.id).Nodup)
    (hpayload : ∀ wal ∈ wals, ∀ q ∈ placed 0 wal.written, ∀ payload,
      readFramePayload crc wal.bytes wal.id q.offset q.header.len.toNat = .ok payload →
        payload = q.payload)
    {retired : ℕ} {key : String} {l : Located} {v : ℕ × ℕ} {seen : List (Option IndexEntry)}
    (hl : Places decode wals key l v) (hseen : ∀ e ∈ seen, Sound decode wals key e)
    {value : V} {v' : ℕ × ℕ}
    (h : readLocated crc decode wals retired key l v seen = .ok (some (value, v'))) :
    ∃ q wal, PutOf decode wals key value q wal ∧
      v' = (q.header.term.toNat, q.header.lsn.toNat) := by
  induction seen generalizing l v with
  | nil => cases h
  | cons entry seen ih =>
    rw [readLocated] at h
    split at h
    · rename_i payload hread
      obtain ⟨value', q, wal, hput, rfl, rfl⟩ := hl
      have hsame := readAt_written hids hput (hpayload wal hput.wal_mem q hput.frame_mem) hread
      rw [hsame, valueFromPayload_put hput] at h
      cases h
      exact ⟨q, wal, hput, rfl⟩
    · split at h
      · cases h
      · rename_i e
        obtain ⟨value', q, wal, hrecords⟩ := hseen (some e) List.mem_cons_self e rfl
        split at h
        · rename_i payload hinline
          rw [hrecords.inline payload hinline, valueFromPayload_put hrecords.written] at h
          cases h
          exact ⟨q, wal, hrecords.written, hrecords.version⟩
        · split at h
          · exact ih hrecords.places (fun e he => hseen e (List.mem_cons_of_mem _ he)) h
          · cases h

theorem getVersioned_written (hids : (wals.map StoredWal.id).Nodup)
    (hpayload : ∀ wal ∈ wals, ∀ q ∈ placed 0 wal.written, ∀ payload,
      readFramePayload crc wal.bytes wal.id q.offset q.header.len.toNat = .ok payload →
        payload = q.payload)
    {retired : ℕ} {released : Bool} {key : String} {entry : Option IndexEntry}
    {seen : List (Option IndexEntry)}
    (hentry : Sound decode wals key entry) (hseen : ∀ e ∈ seen, Sound decode wals key e)
    {value : V} {v : ℕ × ℕ}
    (h : getVersioned crc decode wals retired released key entry seen = .ok (some (value, v))) :
    ∃ q wal, PutOf decode wals key value q wal ∧ v = (q.header.term.toNat, q.header.lsn.toNat) := by
  cases released with
  | true => cases h
  | false =>
    cases entry with
    | none => cases h
    | some e =>
      obtain ⟨value', q, wal, hrecords⟩ := hentry e rfl
      rw [getVersioned] at h
      cases hinline : e.inline with
      | some payload =>
        rw [hinline] at h
        dsimp only at h
        rw [hrecords.inline payload hinline, valueFromPayload_put hrecords.written] at h
        cases h
        exact ⟨q, wal, hrecords.written, hrecords.version⟩
      | none =>
        rw [hinline] at h
        apply readLocated_written hids hpayload hrecords.places _ h
        intro e he
        exact hseen e (List.mem_of_mem_take he)

end Readers

section Main

variable {crc : Bytes → UInt32} {decode : Bytes → Option (LogEntry V H)} {wals : List StoredWal}

theorem faithful_of_headersHold (hids : (wals.map StoredWal.id).Nodup)
    (haltered : ∀ wal ∈ wals, wal.Altered crc)
    (hfree : CollisionFree crc wals) (hheaders : HeadersHold crc wals) :
    Faithful crc decode wals := by
  have hread : ∀ wal ∈ wals, ∀ q ∈ placed 0 wal.written, ∀ w,
      readFrame crc (wal.bytes.drop q.offset) = some w → w = ⟨q.header, q.payload⟩ :=
    fun wal hwal q hq w h => read_written haltered hfree hheaders hwal hq h
  have hpayload : ∀ wal ∈ wals, ∀ q ∈ placed 0 wal.written, ∀ payload,
      readFramePayload crc wal.bytes wal.id q.offset q.header.len.toNat = .ok payload →
        payload = q.payload := by
    intro wal hwal q hq payload h
    obtain ⟨w, hw, rfl⟩ := readFramePayload_eq_ok h
    rw [hread wal hwal q hq w hw]
  have hscan : ∀ wal ∈ wals, scanFrames crc 0 wal.bytes <+: placed 0 wal.written :=
    fun wal hwal => @scanFrames_initial _ _ haltered hfree hheaders _ hwal [] wal.written rfl
  refine ⟨?_, ?_, ?_, hpayload, ?_⟩
  · intro wal hwal front back hsplit
    exact scanFrames_initial haltered hfree hheaders hwal hsplit
  · intro name retired retiredAfter afterLsn upToLsn frames h
    rw [scanFramesAfter] at h
    cases hwals : scanWals crc name ((sortBy (fun a b => a.id ≤ b.id)
        (wals.filter fun wal => retired < wal.id)).getLast?.elim 0 StoredWal.id) afterLsn
          upToLsn .empty
        (sortBy (fun a b => a.id ≤ b.id) (wals.filter fun wal => retired < wal.id)) with
    | error e =>
      rw [hwals] at h
      cases h
    | ok out =>
      rw [hwals, Except.bind] at h
      split at h
      · cases h
      · cases h
        have hempty : ∀ p ∈ (SortedMap.empty : SortedMap ℕ Bytes).entries, WrittenAs wals p := by
          intro p hp
          cases hp
        apply scanWals_written hscan _ hempty hwals
        intro wal hwal
        rw [sortBy, List.mem_mergeSort] at hwal
        exact List.mem_of_mem_filter hwal
  · intro wal hwal q hq frame h
    obtain ⟨w, hw, rfl⟩ := readFrameAt_eq_ok h
    rw [hread wal hwal q hq w hw]
    rfl
  · intro retired released key entry seen hentry hseen value v h
    exact getVersioned_written hids hpayload hentry hseen h

theorem headersHold_of_faithful (h : Faithful crc decode wals) : HeadersHold crc wals := by
  intro wal hwal q hq w hread
  obtain ⟨front, v, back, hsplit, rfl⟩ := split_of_mem_placed hq
  have hreplay := h.replay wal hwal front (v :: back) hsplit
  rw [scanFrames_of_some hread, placed] at hreplay
  have hfirst := (List.cons_prefix_cons.mp hreplay).1
  exact congrArg ReadFrame.header hfirst

/-- Every reader is faithful to the log however its frames are altered, just if no altered header
stands in front of a payload that passes its checksum. -/
theorem faithful_iff (hids : (wals.map StoredWal.id).Nodup)
    (haltered : ∀ wal ∈ wals, wal.Altered crc)
    (hfree : CollisionFree crc wals) : Faithful crc decode wals ↔ HeadersHold crc wals :=
  ⟨headersHold_of_faithful, faithful_of_headersHold hids haltered hfree⟩

def pairTag (payload : Bytes) :
    UInt32 := if payload = [1, 2] then 1 else if payload = [2, 3] then 2 else 0

def letterReader (payload : Bytes) : Option (LogEntry ℕ Unit) :=
  if payload = [1, 2] then some (.put false "a" 0 7 none)
  else if payload = [2, 3] then some (.put false "b" 1 7 none)
  else none

def frameA : WalFrame := ⟨⟨2, 1, 1, 1, 0, 0⟩, [1, 2]⟩

def frameB : WalFrame := ⟨⟨2, 2, 1, 2, 1, 1⟩, [2, 3]⟩

theorem pairTag_eq {payload : Bytes} {q : ReadFrame} (hq : q ∈ placed 0 [frameA, frameB])
    (h : pairTag payload = pairTag q.payload) : payload = q.payload := by
  have htag : pairTag payload = 1 ∧ q.payload = [1, 2] ∨ pairTag payload = 2 ∧
    q.payload = [2, 3] := by
    rcases List.mem_cons.mp hq with rfl | hq
    · exact .inl ⟨h, rfl⟩
    · rw [List.mem_singleton.mp hq] at h ⊢
      exact .inr ⟨h, rfl⟩
  rw [pairTag] at htag
  split_ifs at htag with ha hb
  · rcases htag with ⟨-, hpayload⟩ | ⟨htwo, -⟩
    · rw [ha, hpayload]
    · exact absurd htwo (by decide)
  · rcases htag with ⟨hone, -⟩ | ⟨-, hpayload⟩
    · exact absurd hone (by decide)
    · rw [hb, hpayload]
  · rcases htag with ⟨hone, -⟩ | ⟨htwo, -⟩
    · exact absurd hone (by decide)
    · exact absurd htwo (by decide)

theorem pair_valid : AllValid pairTag [frameA, frameB] := by
  intro w hw
  rcases List.mem_cons.mp hw with rfl | hw
  · exact ⟨by decide, by decide, by decide, by decide⟩
  · rw [List.mem_singleton.mp hw]
    exact ⟨by decide, by decide, by decide, by decide⟩

def damaged : StoredWal := ⟨1, [frameA, frameB], frameA.header.encode ++ [9, 9] ++ frameB.bytes⟩

theorem faithful_damaged : Faithful pairTag letterReader [damaged] := by
  apply (faithful_iff (by decide) ?_ ?_).mpr
  · intro wal hwal
    obtain rfl := List.mem_singleton.mp hwal
    intro q hq w hread
    rcases List.mem_cons.mp hq with rfl | hq
    · have hfirst : readFrame pairTag (damaged.bytes.drop 0) = none := by decide
      rw [hfirst] at hread
      cases hread
    · obtain rfl := List.mem_singleton.mp hq
      have hsecond : readFrame pairTag (damaged.bytes.drop 42) = some frameB := by decide
      rw [← Option.some.inj (hsecond.symm.trans hread)]
  · intro wal hwal
    obtain rfl := List.mem_singleton.mp hwal
    exact ⟨pair_valid, by decide⟩
  · intro wal hwal q hq n htag
    obtain rfl := List.mem_singleton.mp hwal
    exact pairTag_eq hq htag

/-- The second frame is copied over the first, which is as long. -/
def spliced : StoredWal := ⟨1, [frameA, frameB], frameB.bytes ++ frameB.bytes⟩

/-- A read of one key gives the document of another. -/
theorem spliced_frame_served : ¬∀ (crc : Bytes → UInt32) (decode : Bytes → Option (LogEntry ℕ Unit))
    (wals : List StoredWal), (wals.map StoredWal.id).Nodup → (∀ wal ∈ wals, wal.Altered crc) →
      CollisionFree crc wals → Faithful crc decode wals := by
  intro h
  have haltered : ∀ wal ∈ [spliced], wal.Altered pairTag := by
    intro wal hwal
    obtain rfl := List.mem_singleton.mp hwal
    exact ⟨pair_valid, by decide⟩
  have hfree : CollisionFree pairTag [spliced] := by
    intro wal hwal q hq n htag
    obtain rfl := List.mem_singleton.mp hwal
    exact pairTag_eq hq htag
  have hfaithful := h pairTag letterReader [spliced] (by decide) haltered hfree
  let e : IndexEntry := ⟨1, 0, 2, none, 1, 1, 7, none⟩
  have hsound : Sound letterReader [spliced] "a" (some e) := by
    intro e' he'
    obtain rfl := Option.some.inj he'
    refine ⟨0, ⟨0, frameA.header, frameA.payload⟩, spliced, ?_⟩
    exact ⟨⟨List.mem_singleton_self _, List.mem_cons_self, false, 7, none, rfl⟩, rfl, rfl,
      rfl, rfl, nofun⟩
  have hseen : ∀ e' ∈ [some e, some e, some e], Sound letterReader [spliced] "a" e' := by
    intro e' he'
    rw [List.eq_of_mem_replicate (show e' ∈ List.replicate 3 (some e) from he')]
    exact hsound
  obtain ⟨q, wal, hput, -⟩ :=
    hfaithful.get 0 false "a" (some e) [some e, some e, some e] hsound hseen 1 (1, 1) (by rfl)
  obtain ⟨migration, ts, expireAt, hdecode⟩ := hput.put
  rw [letterReader] at hdecode
  split_ifs at hdecode
  · cases hdecode
  · simp at hdecode

end Main

end DewDB.FrameReaders
