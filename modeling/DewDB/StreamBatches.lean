import DewDB.FrameBytes
import DewDB.StableSort

/-!
# The frames of a repair stream

What was read from the log for a replica is cut to the run that follows its tail link by link, and
the run travels in batches. A batch is bounded by its frames and by its bytes, except that its first
frame is always taken.
-/
namespace DewDB.StreamBatches

open FrameBytes StableSort

abbrev ReadFrame := UInt64 × Bytes

def replicationBatchFrames : ℕ := 64

def replicationBatchBytes : ℕ := maxFrameSize

/-- `frames.sort_by_key`, which is stable. -/
def sortByLsn (frames : List ReadFrame) : List ReadFrame := sortBy (fun a b => a.1 ≤ b.1) frames

/-- The loop of `chain_prefix`. -/
def chainFrom (prevLsn prevTerm : UInt64) : List ReadFrame → List ReadFrame
  | [] => []
  | (lsn, frame) :: frames =>
    match FrameHeader.parse frame with
    | none => []
    | some header =>
      if header.prevLsn ≠ prevLsn ∨ header.prevTerm ≠ prevTerm then []
      else (lsn, frame) :: chainFrom lsn header.term frames

def chainPrefix (afterLsn afterTerm : UInt64) (frames : List ReadFrame) : List ReadFrame :=
  chainFrom afterLsn afterTerm (sortByLsn frames)

def byteCount (frames : List ReadFrame) : ℕ := (frames.map fun f => f.2.length).sum

/-- What joins a batch of `count` frames and `bytes` bytes, and what is left. -/
def fill (count bytes : ℕ) : List ReadFrame → List ReadFrame × List ReadFrame
  | [] => ([], [])
  | f :: frames =>
    if count < replicationBatchFrames ∧ bytes + f.2.length ≤ replicationBatchBytes then
      let rest := fill (count + 1) (bytes + f.2.length) frames
      (f :: rest.1, rest.2)
    else ([], f :: frames)

theorem fill_append (count bytes : ℕ) (frames : List ReadFrame) :
    (fill count bytes frames).1 ++ (fill count bytes frames).2 = frames := by
  induction frames generalizing count bytes with
  | nil => rfl
  | cons f frames ih =>
    rw [fill]
    split
    · exact congrArg (f :: ·) (ih (count + 1) (bytes + f.2.length))
    · rfl

def sizeBoundedBatches : List ReadFrame → List (List ReadFrame)
  | [] => []
  | f :: frames =>
    (f :: (fill 1 f.2.length frames).1) :: sizeBoundedBatches (fill 1 f.2.length frames).2
termination_by frames => frames.length
decreasing_by
  have h := congrArg List.length (fill_append 1 f.2.length frames)
  rw [List.length_append] at h
  rw [List.length_cons]
  omega

section Chain

/-- Each frame names the one before it as its predecessor, and the first one names this position. -/
def Chained : UInt64 → UInt64 → List ReadFrame → Prop
  | _, _, [] => True
  | lsn, term, f :: frames => ∃ header, FrameHeader.parse f.2 = some header ∧ header.prevLsn = lsn ∧
      header.prevTerm = term ∧ Chained f.1 header.term frames

structure LongestChain (lsn term : UInt64) (frames chain : List ReadFrame) : Prop where
  start : chain <+: frames
  chained : Chained lsn term chain
  longest : ∀ p, p <+: frames → Chained lsn term p → p <+: chain

theorem longestChain_chainFrom (lsn term : UInt64) (frames : List ReadFrame) :
    LongestChain lsn term frames (chainFrom lsn term frames) := by
  induction frames generalizing lsn term with
  | nil => exact ⟨List.prefix_rfl, trivial, fun p hp _ => hp⟩
  | cons f frames ih =>
    have hstop : chainFrom lsn term (f :: frames) = [] →
      (∀ header, FrameHeader.parse f.2 = some header →
        header.prevLsn ≠ lsn ∨ header.prevTerm ≠ term) →
        LongestChain lsn term (f :: frames) (chainFrom lsn term (f :: frames)) := by
      intro hnil hbreak
      rw [hnil]
      refine ⟨List.nil_prefix, trivial, fun p hp hc => ?_⟩
      cases p with
      | nil => exact List.prefix_rfl
      | cons g p =>
        obtain ⟨rfl, -⟩ := List.cons_prefix_cons.mp hp
        obtain ⟨header, hparse, hlsn, hterm, -⟩ := hc
        rcases hbreak header hparse with h | h
        · exact absurd hlsn h
        · exact absurd hterm h
    cases hparse : FrameHeader.parse f.2 with
    | none =>
      apply hstop
      · rw [chainFrom, hparse]
      · intro header h
        rw [hparse] at h
        cases h
    | some header =>
      by_cases hlink : header.prevLsn ≠ lsn ∨ header.prevTerm ≠ term
      · apply hstop
        · rw [chainFrom, hparse]
          exact if_pos hlink
        · intro header' h
          rw [hparse] at h
          rwa [← Option.some.inj h]
      · have htake : chainFrom lsn term (f :: frames) = f :: chainFrom f.1 header.term frames := by
          rw [chainFrom, hparse]
          exact if_neg hlink
        rw [not_or, not_not, not_not] at hlink
        have hrest := ih f.1 header.term
        rw [htake]
        refine ⟨List.cons_prefix_cons.mpr ⟨rfl, hrest.start⟩,
          ⟨header, hparse, hlink.1, hlink.2, hrest.chained⟩, fun p hp hc => ?_⟩
        cases p with
        | nil => exact List.nil_prefix
        | cons g p =>
          obtain ⟨rfl, hpre⟩ := List.cons_prefix_cons.mp hp
          obtain ⟨header', hparse', -, -, hnext⟩ := hc
          rw [hparse] at hparse'
          rw [← Option.some.inj hparse'] at hnext
          exact List.cons_prefix_cons.mpr ⟨rfl, hrest.longest p hpre hnext⟩

end Chain

section Batches

structure Bounded (batch : List ReadFrame) : Prop where
  nonempty : batch ≠ []
  frames : batch.length ≤ replicationBatchFrames
  bytes : byteCount batch ≤ replicationBatchBytes ∨ batch.length = 1

theorem fill_length {count : ℕ} (bytes : ℕ) (h : count ≤ replicationBatchFrames)
    (frames : List ReadFrame) :
    count + (fill count bytes frames).1.length ≤ replicationBatchFrames := by
  induction frames generalizing count bytes with
  | nil => exact h
  | cons f frames ih =>
    rw [fill]
    split_ifs with hfit
    · have hrest : count + 1 + (fill (count + 1) (bytes + f.2.length) frames).1.length ≤
        replicationBatchFrames :=
        ih (bytes + f.2.length) hfit.1
      rw [List.length_cons]
      omega
    · exact h

theorem fill_bytes (count bytes : ℕ) (frames : List ReadFrame) :
    bytes + byteCount (fill count bytes frames).1 ≤ replicationBatchBytes ∨
      (fill count bytes frames).1 = [] := by
  induction frames generalizing count bytes with
  | nil => exact .inr rfl
  | cons f frames ih =>
    rw [fill]
    split_ifs with hfit
    · left
      have hcons : byteCount (f :: (fill (count + 1) (bytes + f.2.length) frames).1) =
          f.2.length + byteCount (fill (count + 1) (bytes + f.2.length) frames).1 := by
        rw [byteCount, List.map_cons, List.sum_cons, byteCount]
      rw [hcons]
      rcases ih (count + 1) (bytes + f.2.length) with h | h
      · omega
      · rw [h, byteCount, List.map_nil, List.sum_nil]
        omega
    · exact .inr rfl

theorem bounded_batch (f : ReadFrame) (frames : List ReadFrame) : Bounded
    (f :: (fill 1 f.2.length frames).1) where
  nonempty := List.cons_ne_nil _ _
  frames := by
    have hone : 1 ≤ replicationBatchFrames := by decide
    have := fill_length f.2.length hone frames
    rw [List.length_cons]
    omega
  bytes := by
    rcases fill_bytes 1 f.2.length frames with h | h
    · left
      rwa [byteCount, List.map_cons, List.sum_cons]
    · right
      rw [h, List.length_singleton]

theorem flatten_sizeBoundedBatches (frames : List ReadFrame) :
    (sizeBoundedBatches frames).flatten = frames := by
  induction frames using sizeBoundedBatches.induct with
  | case1 => rw [sizeBoundedBatches, List.flatten_nil]
  | case2 f frames ih =>
    rw [sizeBoundedBatches, List.flatten_cons, ih, List.cons_append, fill_append]

theorem bounded_sizeBoundedBatches (frames : List ReadFrame) :
    ∀ batch ∈ sizeBoundedBatches frames, Bounded batch := by
  induction frames using sizeBoundedBatches.induct with
  | case1 => simp [sizeBoundedBatches]
  | case2 f frames ih =>
    rw [sizeBoundedBatches]
    intro batch hbatch
    rcases List.mem_cons.mp hbatch with rfl | hbatch
    · exact bounded_batch f frames
    · exact ih batch hbatch

end Batches

/-- What was read goes out as its longest chain from the tail of the replica, in batches within the
bounds. A log is read in the order of LSNs. -/
theorem stream_keeps_chain (afterLsn afterTerm : UInt64) (frames : List ReadFrame) :
    LongestChain afterLsn afterTerm (sortByLsn frames) (chainPrefix afterLsn afterTerm frames) ∧
    (frames.Pairwise (fun f g => f.1 ≤ g.1) →
      LongestChain afterLsn afterTerm frames (chainPrefix afterLsn afterTerm frames)) ∧
    (sizeBoundedBatches (chainPrefix afterLsn afterTerm frames)).flatten =
      chainPrefix afterLsn afterTerm frames ∧
    ∀ batch ∈ sizeBoundedBatches (chainPrefix afterLsn afterTerm frames), Bounded batch := by
  have hchain : LongestChain afterLsn afterTerm (sortByLsn frames)
    (chainPrefix afterLsn afterTerm frames) :=
    longestChain_chainFrom afterLsn afterTerm (sortByLsn frames)
  refine ⟨hchain, fun hsorted => ?_, flatten_sizeBoundedBatches _, bounded_sizeBoundedBatches _⟩
  have hsame : sortByLsn frames = frames :=
    sortBy_of_ordered (hsorted.imp fun h => decide_eq_true h)
  rwa [hsame] at hchain

/-- Two frames of a log, the second behind the first. -/
theorem stream_keeps_chain_two :
    LongestChain 0 0 [(1, (FrameHeader.mk 0 0 1 1 0 0).encode),
      (4, (FrameHeader.mk 0 0 1 4 1 1).encode)]
      (chainPrefix 0 0 [(1, (FrameHeader.mk 0 0 1 1 0 0).encode),
        (4, (FrameHeader.mk 0 0 1 4 1 1).encode)]) :=
  (stream_keeps_chain 0 0
    [(1, (FrameHeader.mk 0 0 1 1 0 0).encode),
      (4, (FrameHeader.mk 0 0 1 4 1 1).encode)]).2.1 (by decide)

end DewDB.StreamBatches
