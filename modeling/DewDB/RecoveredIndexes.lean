import DewDB.CompactionSafety

/-!
# Index definitions after a restart

A replay keeps one list of index definitions: entries up to the watermark and entries above it both
change it, and what it ends with is taken for the committed definitions. A node that has only the
committed part of the log ends with the definitions of that part.
-/
namespace DewDB.Recovery

open CollectionLog WalFile WalWriter StorageEntry TransitionSystem

variable {V H : Type}

/-- What an entry does to the index definitions, in a replay of committed and of staged frames
alike. -/
def redefine (specs : List IndexSpec) : LogEntry V H → List IndexSpec
  | .drop _ => []
  | .index change _ => change.applyTo specs
  | _ => specs

theorem indexes_replay (s : Settings H) (e : LogEntry V H) :
    (s.replay e).indexes = redefine s.indexes e := by
  cases e <;> rfl

theorem indexes_stage (s : Settings H) (e : LogEntry V H) :
    (s.stage e).indexes = redefine s.indexes e := by
  cases e <;> rfl

def defined (specs : List IndexSpec) (qs : List (Spot (LogEntry V H))) : List IndexSpec :=
  qs.foldl (fun specs q => redefine specs q.frame.entry) specs

variable [Encoded (LogEntry V H)] {d d' : Disk V H} {c : Coll V H} {applied : Option ℕ}
  {A B : List (Spot (LogEntry V H))}

theorem indexes_frames (applied : Option ℕ) (r : Replayed V H) (qs : List (Spot (LogEntry V H))) :
    (qs.foldl (Replayed.frame applied) r).settings.indexes = defined r.settings.indexes qs := by
  induction qs generalizing r with
  | nil => rfl
  | cons q qs ih =>
    have hframe : (r.frame applied q).settings.indexes =
      redefine r.settings.indexes q.frame.entry := by
      unfold Replayed.frame
      split
      · exact indexes_stage r.settings q.frame.entry
      · exact indexes_replay r.settings q.frame.entry
    rw [List.foldl_cons, ih, hframe]
    rfl

/-- What opening takes from the directory: the frames up to the watermark, and behind them those
above it. -/
structure LogOf (d : Disk V H) (d' : Disk V H) (applied : Option ℕ)
    (A B : List (Spot (LogEntry V H))) : Prop where
  watermark : d.recordedWatermark = .ok applied
  settled : d.completeRecorded = .ok d'
  frames : replayedAll d'.snapshot d'.files = A ++ B
  committed : ∀ q ∈ A, above applied q.frame.lsn = false
  staged : ∀ q ∈ B, above applied q.frame.lsn = true

theorem openCollection_eq (hlog : LogOf d d' applied A B) (hopen : d.openCollection = .ok c) :
    ∃ posSeq, c = d'.opened applied posSeq := by
  obtain ⟨position, hposition⟩ : ∃ position, d.position = .ok position := by
    cases hp : d.position with
    | ok position => exact ⟨position, rfl⟩
    | error e =>
      rw [Disk.openCollection, hlog.watermark, hp] at hopen
      cases hopen
  rw [Disk.openCollection, hlog.watermark, hposition, hlog.settled] at hopen
  simp only [Except.bind] at hopen
  split at hopen
  · cases hopen
  · exact ⟨_, (Except.ok.inj hopen).symm⟩

theorem opened_indexes (hlog : LogOf d d' applied A B) (hopen : d.openCollection = .ok c) :
    c.settings.indexes = defined (defined d'.seed.indexes A) B := by
  obtain ⟨posSeq, rfl⟩ := openCollection_eq hlog hopen
  have hreplay : (d'.replay applied).settings.indexes =
      defined d'.seed.indexes (replayedAll d'.snapshot d'.files) := indexes_frames applied _ _
  rw [hlog.frames, defined, List.foldl_append] at hreplay
  exact hreplay

def Coll.receive (limit : ℕ) (c : Coll V H)
    (raws : List (Frame (LogEntry V H) × Option ℕ)) : Coll V H :=
  raws.foldl (fun c raw => c.appendRawFrame limit raw.1 raw.2) c

omit [Encoded (LogEntry V H)] in
theorem settings_recordWatermarkOnce (c : Coll V H) :
    c.recordWatermarkOnce.settings = c.settings := by
  unfold Coll.recordWatermarkOnce
  split <;> rfl

omit [Encoded (LogEntry V H)] in
theorem settings_rotateIfFull (c : Coll V H) (limit : ℕ) :
    (c.rotateIfFull limit).settings = c.settings := by
  unfold Coll.rotateIfFull
  split <;> rfl

theorem settings_writeAll (c : Coll V H) (f : Frame (LogEntry V H)) (torn : Option ℕ) :
    (c.writeAll f torn).settings = c.settings := by
  match torn with
  | none => rfl
  | some 0 => rfl
  | some (n + 1) => rfl

theorem settings_rewind (c : Coll V H) (cut : WalCut) : (c.rewind cut).settings = c.settings := by
  unfold Coll.rewind
  dsimp only
  split <;> rfl

theorem settings_appendRawFrame (c : Coll V H) (limit : ℕ) (f : Frame (LogEntry V H))
    (torn : Option ℕ) : (c.appendRawFrame limit f torn).settings = c.settings := by
  unfold Coll.appendRawFrame
  dsimp only
  split
  · exact settings_recordWatermarkOnce c
  · split
    · exact settings_recordWatermarkOnce c
    · split
      · split
        · exact settings_recordWatermarkOnce c
        · rw [settings_writeAll, settings_rotateIfFull, settings_rewind,
            settings_recordWatermarkOnce]
      · split
        · exact settings_recordWatermarkOnce c
        · rw [settings_writeAll, settings_rotateIfFull, settings_recordWatermarkOnce]

/-- A truncation drops staged frames and leaves what counts as committed. -/
theorem settings_receive (limit : ℕ) (c : Coll V H)
    (raws : List (Frame (LogEntry V H) × Option ℕ)) :
    (c.receive limit raws).settings = c.settings := by
  induction raws generalizing c with
  | nil => rfl
  | cons raw raws ih => exact (ih
      (c.appendRawFrame limit raw.1 raw.2)).trans (settings_appendRawFrame c limit _ _)

/-- After a restart and any truncations the committed definitions are those of the committed part of
the log exactly when the entries above the watermark would change none of them. -/
theorem committed_indexes_iff (hlog : LogOf d d' applied A B) (hopen : d.openCollection = .ok c) :
    (∀ limit raws, (c.receive limit raws).settings.indexes = defined d'.seed.indexes A) ↔
      defined (defined d'.seed.indexes A) B = defined d'.seed.indexes A := by
  rw [← opened_indexes hlog hopen]
  constructor
  · intro hkept
    exact hkept 0 []
  · intro hopened limit raws
    rw [settings_receive, hopened]

section Suffixes

def byField : IndexSpec := ⟨"byField", "field"⟩

def onField : LogEntry Bool Unit := .index (.create byField) 0

def repeatedOps : List (Op Bool Unit) :=
  [.append 1 onField 1 none, .applyCommitted 1, .append 2 onField 1 none]

/-- A definition is appended behind a document that is committed. -/
def stagedOps : List (Op Bool Unit) :=
  [.append 1 (putOf "a") 1 none, .applyCommitted 1, .append 2 onField 1 none]

def otherFrame : Frame (LogEntry Bool Unit) := ⟨2, 2, 1, 1, .barrier 0⟩

def diskAfter (ops : List (Op Bool Unit)) : Disk Bool Unit := (afterOps ops).coll.disk

def restarted (ops : List (Op Bool Unit)) : Coll Bool Unit :=
  (diskAfter ops).openCollection.toOption.getD (afterOps ops).coll

def spotsAfter (ops : List (Op Bool Unit)) : List (Spot (LogEntry Bool Unit)) :=
  (afterOps ops).coll.pending

theorem logOf_repeatedOps : LogOf (diskAfter repeatedOps) (diskAfter repeatedOps) (some 1)
    [⟨⟨1, 1, 0, 0, onField⟩, 1, 0⟩] (spotsAfter repeatedOps) :=
  ⟨by decide, by rfl, by decide, by decide, by decide⟩

theorem committed_indexes_repeated :
    (diskAfter repeatedOps).openCollection = .ok (restarted repeatedOps) ∧
    ∀ limit raws, ((restarted repeatedOps).receive limit raws).settings.indexes = [byField] := by
  have hopen : (diskAfter repeatedOps).openCollection = .ok (restarted repeatedOps) := by rfl
  have hdefined : defined (diskAfter repeatedOps).seed.indexes [⟨⟨1, 1, 0, 0, onField⟩, 1, 0⟩] =
    [byField] := by decide
  refine ⟨hopen, ?_⟩
  rw [← hdefined]
  exact (committed_indexes_iff logOf_repeatedOps hopen).mpr (by decide)

/-- A definition that another leader has replaced counts as committed after a restart. -/
theorem staged_index_committed :
    run (step 1000) State.fresh stagedOps = some (afterOps stagedOps) ∧
    (diskAfter stagedOps).openCollection = .ok (restarted stagedOps) ∧
    LogOf (diskAfter stagedOps) (diskAfter stagedOps) (some 1) [⟨⟨1, 1, 0, 0, putOf "a"⟩, 1, 0⟩]
      (spotsAfter stagedOps) ∧
    ((restarted stagedOps).receive 1000 [(otherFrame, none)]).pending.map Spot.frame =
      [otherFrame] ∧
    ((restarted stagedOps).receive 1000 [(otherFrame, none)]).settings.indexes = [byField] ∧
    ¬∀ (d d' : Disk Bool Unit) (c : Coll Bool Unit) (applied : Option ℕ)
      (A B : List (Spot (LogEntry Bool Unit))),
      LogOf d d' applied A B → d.openCollection = .ok c → ∀ limit raws,
        (c.receive limit raws).settings.indexes = defined d'.seed.indexes A := by
  have hopen : (diskAfter stagedOps).openCollection = .ok (restarted stagedOps) := by rfl
  have hlog : LogOf (diskAfter stagedOps) (diskAfter stagedOps) (some 1)
    [⟨⟨1, 1, 0, 0, putOf "a"⟩, 1, 0⟩]
      (spotsAfter stagedOps) := ⟨by decide, by rfl, by decide, by decide, by decide⟩
  refine ⟨by decide, hopen, hlog, by decide, by decide, fun hclaim => ?_⟩
  have hkept := hclaim _ _ _ _ _ _ hlog hopen 1000 [(otherFrame, none)]
  revert hkept
  decide

end Suffixes

end DewDB.Recovery
