import DewDB.AccountRuns
import DewDB.FrameScan

/-!
# A torn tail

A file that was cut anywhere, and may go on with other bytes, is replayed up to the last whole frame
before the cut and ends there afterwards. What is appended then is read with the rest.
-/
namespace DewDB.FrameScan

open FrameBytes InlineAccounts
open StorageEntry (LogEntry)

variable {V H : Type}

section Layout

def encodeAll (ws : List WalFrame) : Bytes := ws.flatMap WalFrame.bytes

def sizeAll (ws : List WalFrame) : ℕ := (ws.map WalFrame.size).sum

def placed : ℕ → List WalFrame → List ReadFrame
  | _, [] => []
  | offset, w :: ws => ⟨offset, w.header, w.payload⟩ :: placed (offset + w.size) ws

def wholeBefore : ℕ → List WalFrame → List WalFrame
  | _, [] => []
  | cut, w :: ws => if w.size ≤ cut then w :: wholeBefore (cut - w.size) ws else []

def torn (cut : ℕ) (ws : List WalFrame) :
    Bytes := ((encodeAll ws).take cut).drop (sizeAll (wholeBefore cut ws))

def AllValid (crc : Bytes → UInt32) (ws : List WalFrame) : Prop := ∀ w ∈ ws, w.Valid crc

variable {crc : Bytes → UInt32} {ws : List WalFrame}

theorem AllValid.append {vs : List WalFrame} (hvs : AllValid crc vs) (hws : AllValid crc ws) :
    AllValid crc (vs ++ ws) := by
  intro w hw
  cases List.mem_append.mp hw with
  | inl h => exact hvs w h
  | inr h => exact hws w h

theorem encodeAll_append (vs ws : List WalFrame) : encodeAll
    (vs ++ ws) = encodeAll vs ++ encodeAll ws :=
  List.flatMap_append

theorem sizeAll_cons (w : WalFrame) (ws : List WalFrame) : sizeAll
    (w :: ws) = w.size + sizeAll ws := by
  rw [sizeAll, List.map_cons, List.sum_cons]
  rfl

theorem length_encodeAll (h : AllValid crc ws) : (encodeAll ws).length = sizeAll ws := by
  induction ws with
  | nil => rfl
  | cons w ws ih =>
    have hrest : AllValid crc ws := fun w hw => h w (List.mem_cons_of_mem _ hw)
    rw [encodeAll, List.flatMap_cons, List.length_append,
      (h w List.mem_cons_self).length_bytes, sizeAll_cons]
    exact congrArg (w.size + ·) (ih hrest)

theorem mem_wholeBefore {cut : ℕ} {w : WalFrame} (h : w ∈ wholeBefore cut ws) : w ∈ ws := by
  induction ws generalizing cut with
  | nil => exact h
  | cons v ws ih =>
    rw [wholeBefore] at h
    split at h
    · cases List.mem_cons.mp h with
      | inl h => exact List.mem_cons.mpr (.inl h)
      | inr h => exact List.mem_cons_of_mem _ (ih h)
    · cases h

theorem take_encodeAll (h : AllValid crc ws) (cut : ℕ) :
    (encodeAll ws).take cut = encodeAll (wholeBefore cut ws) ++ torn cut ws := by
  have hkept : AllValid crc (wholeBefore cut ws) := fun w hw => h w (mem_wholeBefore hw)
  have hstart : encodeAll (wholeBefore cut ws) <+: (encodeAll ws).take cut := by
    clear hkept
    induction ws generalizing cut with
    | nil => exact List.nil_prefix
    | cons w ws ih =>
      have hrest : AllValid crc ws := fun w hw => h w (List.mem_cons_of_mem _ hw)
      have hlength := (h w List.mem_cons_self).length_bytes
      rw [wholeBefore]
      split
      · rename_i hle
        have hcut : (encodeAll (w :: ws)).take cut = w.bytes ++ (encodeAll ws).take
          (cut - w.size) := by
          rw [encodeAll, List.flatMap_cons, List.take_append,
            List.take_of_length_le (by omega), hlength]
          rfl
        rw [hcut]
        exact List.prefix_append_right_inj _ |>.mpr (ih hrest (cut - w.size))
      · exact List.nil_prefix
  obtain ⟨rest, hrest⟩ := hstart
  rw [torn, ← hrest, List.drop_left' (length_encodeAll hkept)]

end Layout

section Loop

variable {crc : Bytes → UInt32} (cache : ReadCacheConfig) (decode : Bytes → Option (LogEntry V H))

def applyFrames (appliedThrough walId : ℕ) (r : Replay H) (fs : List ReadFrame) :
    Option (Replay H) :=
  fs.foldlM (fun r f => r.frame cache decode appliedThrough walId f) r

theorem replayLoop_frames {ws : List WalFrame} (hws : AllValid crc ws) {rest : Bytes}
    (hrest : ¬CompletesFrame crc rest) (appliedThrough walId offset : ℕ) (r : Replay H)
    (tail : ℕ × ℕ) :
    replayLoop crc cache decode appliedThrough walId offset (encodeAll ws ++ rest) r tail =
      (applyFrames cache decode appliedThrough walId r (placed offset ws)).map fun r =>
        (offset + sizeAll ws, r, (placed offset ws).foldl (tailAfter decode) tail) := by
  induction ws generalizing offset r tail with
  | nil =>
    rw [encodeAll, List.flatMap_nil, List.nil_append, replayLoop]
    split
    · rfl
    · rename_i w hread
      rw [readFrame_eq_none hrest] at hread
      cases hread
  | cons w ws ih =>
    have hvalid := hws w List.mem_cons_self
    have hbytes : encodeAll (w :: ws) ++ rest = w.bytes ++ (encodeAll ws ++ rest) := by
      rw [encodeAll, List.flatMap_cons, List.append_assoc]
      rfl
    rw [hbytes, replayLoop]
    split
    · rename_i hread
      rw [readFrame_bytes hvalid] at hread
      cases hread
    · rename_i v hread
      rw [readFrame_bytes hvalid] at hread
      cases hread
      rw [List.drop_left' hvalid.length_bytes, placed, applyFrames, List.foldlM_cons,
        List.foldl_cons]
      cases hframe : r.frame cache decode appliedThrough walId ⟨offset, w.header, w.payload⟩ with
      | none => rfl
      | some r' =>
        have hsize : offset + sizeAll (w :: ws) = offset + w.size + sizeAll ws := by
          rw [sizeAll_cons, Nat.add_assoc]
        rw [Option.bind_some, ih (fun w hw => hws w (List.mem_cons_of_mem _ hw)), hsize]
        rfl

theorem applyFrames_isSome (appliedThrough walId : ℕ) {r : Replay H}
    (hr : r.inlineUsed = r.index.total IndexEntry.inlineBytes) (fs : List ReadFrame) :
    ∃ r', applyFrames cache decode appliedThrough walId r fs = some r' := by
  induction fs generalizing r with
  | nil => exact ⟨r, rfl⟩
  | cons f fs ih =>
    obtain ⟨r₁, hr₁, hinline⟩ := Replay.frame_inline cache decode hr appliedThrough walId f
    obtain ⟨r', hr'⟩ := ih hinline
    refine ⟨r', ?_⟩
    rw [applyFrames, List.foldlM_cons, hr₁]
    exact hr'

end Loop

section Files

/-- Where a replay starts: between two whole frames, or past the end of the file, which stands for
its beginning. -/
structure Resumes (kept : List WalFrame) (file : Bytes) (start : ℕ)
    (front back : List WalFrame) : Prop where
  split : kept = front ++ back
  start : start = sizeAll front ∨ file.length < start ∧ front = []

variable {crc : Bytes → UInt32} (cache : ReadCacheConfig) (decode : Bytes → Option (LogEntry V H))

theorem sizeAll_append (vs ws : List WalFrame) : sizeAll (vs ++ ws) = sizeAll vs + sizeAll ws := by
  rw [sizeAll, List.map_append, List.sum_append]
  rfl

theorem replayFileFrom_frames {kept front back : List WalFrame} {rest : Bytes} {start : ℕ}
    (hkept : AllValid crc kept)
    (hrest : ¬CompletesFrame crc rest)
    (hresume : Resumes kept (encodeAll kept ++ rest) start front back)
    (appliedThrough walId : ℕ) (r : Replay H) :
    replayFileFrom crc cache decode appliedThrough walId (encodeAll kept ++ rest) start r =
      (applyFrames cache decode appliedThrough walId r (placed (sizeAll front) back)).map fun r' =>
        { replay := r'
          maxLsn := ((placed (sizeAll front) back).foldl (tailAfter decode) (0, 0)).1
          maxTerm := ((placed (sizeAll front) back).foldl (tailAfter decode) (0, 0)).2
          file := encodeAll kept } := by
  have hsplit := hresume.split
  have hfront : AllValid crc front := fun w hw => hkept w (hsplit ▸ List.mem_append_left _ hw)
  have hback : AllValid crc back := fun w hw => hkept w (hsplit ▸ List.mem_append_right _ hw)
  have hlength : (encodeAll kept ++ rest).length = sizeAll front + sizeAll back + rest.length := by
    rw [List.length_append, length_encodeAll hkept, hsplit, sizeAll_append]
  have hstart : (if (encodeAll kept ++ rest).length < start then 0 else start) = sizeAll front := by
    obtain hboundary | ⟨hpast, hnil⟩ := hresume.start
    · rw [hboundary, if_neg (by omega)]
    · rw [if_pos hpast, hnil]
      rfl
  have hdrop : (encodeAll kept ++ rest).drop (sizeAll front) = encodeAll back ++ rest := by
    rw [hsplit, encodeAll_append, List.append_assoc, List.drop_left' (length_encodeAll hfront)]
  have hfile : (if sizeAll front + sizeAll back < (encodeAll kept ++ rest).length then
      (encodeAll kept ++ rest).take (sizeAll front + sizeAll back)
        else encodeAll kept ++ rest) = encodeAll kept := by
    have hend : (encodeAll kept).length = sizeAll front + sizeAll back := by
      rw [length_encodeAll hkept, hsplit, sizeAll_append]
    split
    · rw [List.take_left' hend]
    · have hnil : rest = [] := by
        apply List.length_eq_zero_iff.mp
        omega
      rw [hnil, List.append_nil]
  rw [replayFileFrom]
  dsimp only
  rw [hstart, hdrop, replayLoop_frames cache decode hback hrest]
  cases applyFrames cache decode appliedThrough walId r (placed (sizeAll front) back) with
  | none => rfl
  | some r' =>
    simp only [Option.map_some]
    rw [hfile]

/-- What is recovered from a file, whose frames up to the torn one are `kept`. -/
structure Recovers (appliedThrough walId : ℕ) (kept front back : List WalFrame) (r : Replay H)
    (out : Replayed H) : Prop where
  frames : applyFrames cache decode appliedThrough walId r (placed (sizeAll front) back) =
    some out.replay
  tail : (out.maxLsn, out.maxTerm) = (placed (sizeAll front) back).foldl (tailAfter decode) (0, 0)
  file : out.file = encodeAll kept

theorem replayFileFrom_recovers {kept front back : List WalFrame} {rest : Bytes} {start : ℕ}
    (hkept : AllValid crc kept) (hrest : ¬CompletesFrame crc rest)
    (hresume : Resumes kept (encodeAll kept ++ rest) start front back) (appliedThrough walId : ℕ)
    {r : Replay H} (hr : r.inlineUsed = r.index.total IndexEntry.inlineBytes) :
    ∃ out, replayFileFrom crc cache decode appliedThrough walId
      (encodeAll kept ++ rest) start r = some out ∧
      Recovers cache decode appliedThrough walId kept front back r out := by
  obtain ⟨r', hr'⟩ := applyFrames_isSome cache decode appliedThrough walId hr
    (placed (sizeAll front) back)
  rw [replayFileFrom_frames cache decode hkept hrest hresume, hr']
  exact ⟨_, rfl, hr', rfl, rfl⟩

theorem not_completesFrame_of_readFrame {rest : Bytes} (h : readFrame crc rest = none) :
    ¬CompletesFrame crc rest := by
  intro ⟨w, hvalid, tail, htail⟩
  rw [← htail, readFrame_bytes hvalid] at h
  cases h

theorem not_completesFrame_nil : ¬CompletesFrame crc [] := not_completesFrame_of_readFrame rfl

end Files

section Main

variable {crc : Bytes → UInt32} (cache : ReadCacheConfig) (decode : Bytes → Option (LogEntry V H))

/-- However a WAL is cut, and whatever follows the cut without completing a frame, a replay recovers
the whole frames before the cut at their offsets and cuts the file off behind them. Another replay
of it comes to the same, and every later one reads what was appended since behind them. -/
theorem torn_tail {ws : List WalFrame} (hws : AllValid crc ws) (cut : ℕ) (garbage : Bytes)
    (hgarbage : ¬CompletesFrame crc (torn cut ws ++ garbage))
    {front back : List WalFrame} {start : ℕ}
    (hresume : Resumes (wholeBefore cut ws) ((encodeAll ws).take cut ++ garbage) start front back)
    (appliedThrough walId : ℕ) {r : Replay H}
    (hr : r.inlineUsed = r.index.total IndexEntry.inlineBytes) :
    ∃ out,
      replayFileFrom crc cache decode appliedThrough walId
        ((encodeAll ws).take cut ++ garbage) start r = some out ∧
      Recovers cache decode appliedThrough walId (wholeBefore cut ws) front back r out ∧
      replayFileFrom crc cache decode appliedThrough walId out.file start r = some out ∧
      ∀ appended : List WalFrame, AllValid crc appended →
        ∀ (front' back' : List WalFrame) (start' applied' : ℕ)
        (r' : Replay H), Resumes (wholeBefore cut ws ++ appended)
          (out.file ++ encodeAll appended) start' front' back' →
        r'.inlineUsed = r'.index.total IndexEntry.inlineBytes →
        ∃ out', replayFileFrom crc cache decode applied' walId
          (out.file ++ encodeAll appended) start' r' = some out' ∧
          Recovers cache decode applied' walId (wholeBefore cut ws ++ appended) front'
            back' r' out' := by
  have hkept : AllValid crc (wholeBefore cut ws) := fun w hw => hws w (mem_wholeBefore hw)
  have hbytes : (encodeAll ws).take cut ++ garbage = encodeAll
    (wholeBefore cut ws) ++ (torn cut ws ++ garbage) := by
    rw [take_encodeAll hws, List.append_assoc]
  have hlonger : (encodeAll (wholeBefore cut ws)).length ≤
    ((encodeAll ws).take cut ++ garbage).length := by
    rw [hbytes, List.length_append]
    exact Nat.le_add_right _ _
  rw [hbytes] at hresume
  obtain ⟨out, hout, hrecovers⟩ :=
    replayFileFrom_recovers cache decode hkept hgarbage hresume appliedThrough walId hr
  rw [hbytes]
  refine ⟨out, hout, hrecovers, ?_, ?_⟩
  · -- the second replay reads the same frames, and nothing behind them
    have hresume' : Resumes (wholeBefore cut ws)
      (encodeAll (wholeBefore cut ws) ++ []) start front back := by
      refine ⟨hresume.split, hresume.start.imp_right fun hpast => ⟨?_, hpast.2⟩⟩
      rw [← hbytes] at hpast
      rw [List.append_nil]
      exact Nat.lt_of_le_of_lt hlonger hpast.1
    rw [hrecovers.file, ← List.append_nil (encodeAll (wholeBefore cut ws)),
      replayFileFrom_frames cache decode hkept not_completesFrame_nil hresume', ← hout,
      replayFileFrom_frames cache decode hkept hgarbage hresume]
  · intro appended happended front' back' start' applied' r' hresume' hr'
    rw [hrecovers.file, ← encodeAll_append, ← List.append_nil (encodeAll _)] at hresume' ⊢
    exact replayFileFrom_recovers cache decode (hkept.append happended) not_completesFrame_nil
      hresume' applied' walId hr'

def byteSum (bytes : Bytes) : UInt32 := .ofNat (bytes.map UInt8.toNat).sum

def firstFrame : WalFrame := ⟨⟨2, 3, 1, 1, 0, 0⟩, [1, 2]⟩

def secondFrame : WalFrame := ⟨⟨3, 9, 1, 2, 1, 1⟩, [2, 3, 4]⟩

theorem sampleFrames_valid : AllValid byteSum [firstFrame, secondFrame] := by
  intro w hw
  rcases List.mem_cons.mp hw with rfl | hw
  · exact ⟨by decide, by decide, by decide, by decide⟩
  · rw [List.mem_singleton.mp hw]
    exact ⟨by decide, by decide, by decide, by decide⟩

/-- The second frame loses its last bytes to zeros. -/
theorem torn_tail_zeros : ∃ out, replayFileFrom byteSum smallCache putReader 0 1
      ((encodeAll [firstFrame, secondFrame]).take 83 ++ [0, 0, 0]) 0
        (.start .empty .fresh) = some out ∧
    out.file = encodeAll [firstFrame] := by
  have hgarbage : ¬CompletesFrame byteSum (torn 83 [firstFrame, secondFrame] ++ [0, 0, 0]) :=
    not_completesFrame_of_readFrame (by decide)
  have hresume : Resumes (wholeBefore 83 [firstFrame, secondFrame])
      ((encodeAll [firstFrame, secondFrame]).take 83 ++ [0, 0, 0]) 0 [] [firstFrame] :=
    ⟨by decide, .inl rfl⟩
  obtain ⟨out, hout, hrecovers, -⟩ :=
    torn_tail smallCache putReader sampleFrames_valid 83 [0, 0, 0] hgarbage hresume 0 1
    (Replay.start_counts .empty .fresh).inline
  exact ⟨out, hout, hrecovers.file⟩

end Main

end DewDB.FrameScan
