import DewDB.LeaderCompleteness

/-!
# The log of a collection

Frames link to their predecessor by term and LSN. `append` is the leader's own append and
`appendRawFrame` takes a frame from another node's log: a duplicate, a gap, a divergence, or an
append after dropping what is above the frame's predecessor. Frames at or below `applied` are never
dropped.
-/
namespace DewDB.CollectionLog

open LogReplication

variable {β : Type}

/-- A log frame; LSNs come from a counter that all collections of a node share. -/
structure Frame (β : Type) where
  term : ℕ
  lsn : ℕ
  prevTerm : ℕ
  prevLsn : ℕ
  entry : β
  deriving DecidableEq

instance : Stamped (Frame β) := ⟨Frame.term, Frame.lsn⟩

@[simp] theorem stamped_term (f : Frame β) : Stamped.term f = f.term := rfl

@[simp] theorem stamped_pos (f : Frame β) : Stamped.pos f = f.lsn := rfl

/-- The frames at or below `lsn`. -/
def cut (lsn : ℕ) (frames : List (Frame β)) : List (Frame β) :=
  frames.takeWhile fun f => decide (f.lsn ≤ lsn)

def lsnOf (frames : List (Frame β)) : ℕ := (frames.getLast?.map Frame.lsn).getD 0

def termOf (frames : List (Frame β)) : ℕ := (frames.getLast?.map Frame.term).getD 0

/-- A collection: its frames, the tail of the log as the writer holds it, and the watermark through
which frames are published. -/
structure Collection (β : Type) where
  frames : List (Frame β)
  lastAppendedLsn : ℕ
  lastAppendedTerm : ℕ
  applied : ℕ

def Collection.empty : Collection β := ⟨[], 0, 0, 0⟩

def Collection.staged (col : Collection β) (lsn : ℕ) : Option (Frame β) :=
  col.frames.find? fun f => f.lsn == lsn && decide (col.applied < f.lsn)

def Collection.stagedTerm (col : Collection β) (lsn : ℕ) : Option ℕ :=
  (col.staged lsn).map Frame.term

/-- The leader's own append, at the LSN the node's counter gave. -/
def Collection.append (col : Collection β) (lsn term : ℕ) (entry : β) : Collection β :=
  { col with
    frames := col.frames ++ [⟨term, lsn, col.lastAppendedTerm, col.lastAppendedLsn, entry⟩]
    lastAppendedLsn := lsn
    lastAppendedTerm := term }

inductive ReplicaApply where
  | applied (lsn : ℕ)
  | duplicate (lastLsn : ℕ)
  | gap (lastLsn lastTerm : ℕ)
  | divergent (lastLsn lastTerm : ℕ)

/-- Drops what is above `prevLsn`, which has to be staged in `prevTerm` or be the watermark. -/
def Collection.rewindTo (col : Collection β) (prevLsn prevTerm : ℕ) : Option (Collection β) :=
  if prevLsn < col.applied then none
  else if (col.staged prevLsn).any (fun f => f.term != prevTerm) then none
  else if (col.staged prevLsn).isNone ∧ prevLsn ≠ col.applied then none
  else if col.frames.any (fun f => decide (prevLsn < f.lsn)) then
    some { col with
      frames := cut prevLsn col.frames
      lastAppendedLsn := prevLsn
      lastAppendedTerm := prevTerm }
  else none

def Collection.push (col : Collection β) (f : Frame β) : Collection β :=
  { col with frames := col.frames ++ [f], lastAppendedLsn := f.lsn, lastAppendedTerm := f.term }

def Collection.appendRawFrame (col : Collection β) (f : Frame β) : Collection β × ReplicaApply :=
  let last := col.lastAppendedLsn
  let lastTerm := col.lastAppendedTerm
  if f.lsn ≤ last ∧ (f.lsn ≤ col.applied ∨ col.stagedTerm f.lsn = some f.term) then
    (col, .duplicate last)
  else if last < f.prevLsn then (col, .gap last lastTerm)
  else if f.prevLsn < last then
    match col.rewindTo f.prevLsn f.prevTerm with
    | none => (col, .divergent last lastTerm)
    | some cutCol => (cutCol.push f, .applied f.lsn)
  else if f.prevTerm ≠ lastTerm then (col, .divergent last lastTerm)
  else (col.push f, .applied f.lsn)

/-- Publishes the frames through `committed`. -/
def Collection.applyCommitted (col : Collection β) (committed : ℕ) : Collection β :=
  { col with applied := max col.applied committed }

/-- What one batch of frames does: the collection, the highest frame applied, the last frame
accepted, and the refusal that ended it (`none` inside is a frame that does not chain). -/
structure BatchResult (β : Type) where
  col : Collection β
  highest : ℕ
  matched : Option ℕ
  refusal : Option (Option ReplicaApply)

/-- The append loop of `replicate_handler`, from what was accepted so far. -/
def appendBatch (col : Collection β) (highest : ℕ) (matched : Option ℕ)
    (previous : Option (ℕ × ℕ)) : List (Frame β) → BatchResult β
  | [] => ⟨col, highest, matched, none⟩
  | f :: fs =>
    if f.prevLsn < f.lsn ∧ (previous = none ∨ previous = some (f.prevTerm, f.prevLsn)) then
      match col.appendRawFrame f with
      | (col', .applied lsn) =>
        appendBatch col' (max highest lsn) (some f.lsn) (some (f.term, f.lsn)) fs
      | (col', .duplicate _) => appendBatch col' highest (some f.lsn) (some (f.term, f.lsn)) fs
      | (col', refused) => ⟨col', highest, matched, some (some refused)⟩
    else ⟨col, highest, matched, some none⟩

def Chained (frames : List (Frame β)) : Prop :=
  ∀ q f, q ++ [f] <+: frames → f.prevLsn = lsnOf q ∧ f.prevTerm = termOf q ∧ f.prevLsn < f.lsn

structure ColOk (col : Collection β) : Prop where
  lsn : col.lastAppendedLsn = lsnOf col.frames
  term : col.lastAppendedTerm = termOf col.frames
  chained : Chained col.frames

def Shared (A B : List (Frame β)) (lsn : ℕ) : Prop :=
  ∃ q f, q ++ [f] <+: A ∧ q ++ [f] <+: B ∧ f.lsn = lsn

section Lists

variable {frames p q : List (Frame β)} {f : Frame β} {n : ℕ}

@[simp] theorem lsnOf_nil : lsnOf ([] : List (Frame β)) = 0 := rfl

@[simp] theorem termOf_nil : termOf ([] : List (Frame β)) = 0 := rfl

@[simp] theorem lsnOf_concat (p : List (Frame β)) (f : Frame β) : lsnOf (p ++ [f]) = f.lsn := by
  simp [lsnOf]

@[simp] theorem termOf_concat (p : List (Frame β)) (f : Frame β) : termOf (p ++ [f]) = f.term := by
  simp [termOf]

theorem Chained.of_isPrefix (h : Chained frames) (hp : p <+: frames) : Chained p :=
  fun q f hq => h q f (hq.trans hp)

theorem Chained.lsn_pos (h : Chained frames) (hf : f ∈ frames) : 0 < f.lsn := by
  obtain ⟨q, r, rfl⟩ := List.append_of_mem hf
  have := (h q f ⟨r, by simp⟩).2.2
  omega

theorem Chained.concat (h : Chained frames) (hlsn : f.prevLsn = lsnOf frames)
    (hterm : f.prevTerm = termOf frames) (hlt : f.prevLsn < f.lsn) : Chained (frames ++ [f]) := by
  intro q g hq
  rcases List.prefix_concat_iff.mp hq with heq | hold
  · obtain ⟨rfl, rfl⟩ : q = frames ∧ g = f := by simpa using heq
    exact ⟨hlsn, hterm, hlt⟩
  · exact h q g hold

theorem Chained.ascending (h : Chained frames) : frames.Pairwise fun f g => f.lsn < g.lsn := by
  induction frames using List.reverseRecOn with
  | nil => exact List.Pairwise.nil
  | append_singleton frames f ih =>
    have hpre : Chained frames := h.of_isPrefix (List.prefix_append frames [f])
    obtain ⟨hlsn, -, hlt⟩ := h frames f (List.prefix_refl _)
    refine List.pairwise_append.mpr ⟨ih hpre, List.pairwise_singleton _ _, fun g hg f' hf' => ?_⟩
    obtain rfl := List.mem_singleton.mp hf'
    rcases List.eq_nil_or_concat frames with rfl | ⟨ps, z, rfl⟩
    · simp at hg
    · rw [List.concat_eq_append] at hg hlsn ih hpre
      rw [lsnOf_concat] at hlsn
      rcases List.mem_append.mp hg with hg | hg
      · have := (List.pairwise_append.mp (ih hpre)).2.2 g hg z (List.mem_singleton_self z)
        omega
      · rw [List.mem_singleton.mp hg]
        omega

theorem Chained.le_lsnOf (h : Chained frames) (hf : f ∈ frames) :
    f.lsn ≤ lsnOf frames := by
  rcases List.eq_nil_or_concat frames with rfl | ⟨ps, z, rfl⟩
  · simp at hf
  · rw [List.concat_eq_append] at hf h ⊢
    rw [lsnOf_concat]
    rcases List.mem_append.mp hf with hf | hf
    · exact Nat.le_of_lt ((List.pairwise_append.mp h.ascending).2.2 f hf z
        (List.mem_singleton_self z))
    · rw [List.mem_singleton.mp hf]

theorem cut_isPrefix (n : ℕ) (frames : List (Frame β)) : cut n frames <+: frames :=
  List.takeWhile_prefix _

theorem cut_zero (h : Chained frames) : cut 0 frames = [] := by
  cases frames with
  | nil => rfl
  | cons f fs =>
    have := h.lsn_pos (List.mem_cons_self (a := f))
    simp [cut, this.ne']

theorem cut_eq_of_isPrefix (hwf : WellFormed frames) (hp : p ++ [f] <+: frames) :
    cut f.lsn frames = p ++ [f] := by
  obtain ⟨r, rfl⟩ := hp
  have hle : ∀ g ∈ p ++ [f], decide (g.lsn ≤ f.lsn) = true := by
    intro g hg
    have := ((hwf.of_isPrefix (List.prefix_append _ r)).le_last hg).2
    simpa using this
  have hgt : ∀ g ∈ r, ¬ g.lsn ≤ f.lsn := by
    intro g hg
    have := (List.pairwise_append.mp hwf).2.2 f (by simp) g hg
    simpa using this.1
  unfold cut
  rw [List.takeWhile_append_of_pos hle]
  cases r with
  | nil => simp
  | cons g r => simp [hgt g (by simp)]

theorem exists_isPrefix_of_mem (hf : f ∈ frames) : ∃ p, p ++ [f] <+: frames := by
  obtain ⟨q, r, rfl⟩ := List.append_of_mem hf
  exact ⟨q, r, by simp⟩

theorem eq_of_lsn_eq (hwf : WellFormed frames) {g : Frame β} (hf : f ∈ frames) (hg : g ∈ frames)
    (h : f.lsn = g.lsn) : f = g := by
  obtain ⟨p, hp⟩ := exists_isPrefix_of_mem hf
  obtain ⟨q, hq⟩ := exists_isPrefix_of_mem hg
  have heq : p ++ [f] = q ++ [g] := by
    rw [← cut_eq_of_isPrefix hwf hp, ← cut_eq_of_isPrefix hwf hq, h]
  exact (List.append_inj' heq rfl).2 |> List.singleton_inj.mp

theorem Shared.self (hf : f ∈ frames) : Shared frames frames f.lsn := by
  obtain ⟨p, hp⟩ := exists_isPrefix_of_mem hf
  exact ⟨p, f, hp, hp, rfl⟩

theorem Shared.symm {A B : List (Frame β)} (h : Shared A B n) : Shared B A n := by
  obtain ⟨q, f, hA, hB, hf⟩ := h
  exact ⟨q, f, hB, hA, hf⟩

theorem Shared.trans {A B C : List (Frame β)} (h : Shared A B n) (hBC : B <+: C) :
    Shared A C n := by
  obtain ⟨q, f, hA, hB, hf⟩ := h
  exact ⟨q, f, hA, hB.trans hBC, hf⟩

/-- Of two positions of one log that it shares with others, the lower one is shared by all. -/
theorem Shared.min {A B C : List (Frame β)} {m : ℕ} (hwf : WellFormed A) (hB : Shared A B n)
    (hC : Shared A C m) : Shared B C (min n m) := by
  obtain ⟨q, f, hqA, hqB, rfl⟩ := hB
  obtain ⟨r, e, hrA, hrC, rfl⟩ := hC
  rcases Nat.le_total f.lsn e.lsn with hle | hle
  · exact ⟨q, f, hqB, (hwf.prefix_of_pos_le hqA hrA hle).trans hrC, (Nat.min_eq_left hle).symm⟩
  · exact ⟨r, e, (hwf.prefix_of_pos_le hrA hqA hle).trans hqB, hrC, (Nat.min_eq_right hle).symm⟩

theorem Shared.cut_isPrefix {A B : List (Frame β)} (hwf : WellFormed A) (h : Shared A B n) :
    cut n A <+: B := by
  obtain ⟨q, f, hA, hB, rfl⟩ := h
  rw [cut_eq_of_isPrefix hwf hA]
  exact hB

theorem Shared.mem_iff {A B : List (Frame β)} (hA : WellFormed A) (hB : WellFormed B)
    (h : Shared A B n) (hle : f.lsn ≤ n) : f ∈ A ↔ f ∈ B := by
  have half : ∀ {A B : List (Frame β)}, WellFormed A → Shared A B n → f ∈ A → f ∈ B := by
    rintro A B hA ⟨q, x, hqA, hqB, rfl⟩ hf
    obtain ⟨p, hp⟩ := exists_isPrefix_of_mem hf
    exact ((hA.prefix_of_pos_le hp hqA hle).trans hqB).subset (by simp)
  exact ⟨half hA h, half hB h.symm⟩

end Lists

end DewDB.CollectionLog
