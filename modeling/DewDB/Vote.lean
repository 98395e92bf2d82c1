import DewDB.QuorumConfig
import DewDB.ReplicationMeta

/-!
# The vote decision

`decideVote` with the log comparison it uses. A grant records the candidate in the term it was
asked for, and never against a vote already cast in that term.
-/
namespace DewDB.Vote

open Endpoint QuorumConfig ReplicationMeta

abbrev CollectionName := List Char

structure LogTail where
  lastTerm : ℕ
  lastLsn : ℕ
  deriving DecidableEq

def LogTail.zero : LogTail := ⟨0, 0⟩

/-- The derived `(term, LSN)` order. -/
def LogTail.le (a b : LogTail) : Bool :=
  decide (a.lastTerm < b.lastTerm ∨ (a.lastTerm = b.lastTerm ∧ a.lastLsn ≤ b.lastLsn))

theorem LogTail.le_iff {x y : LogTail} : x.le y = true ↔
    x.lastTerm < y.lastTerm ∨ (x.lastTerm = y.lastTerm ∧ x.lastLsn ≤ y.lastLsn) := by
  simp [LogTail.le]

structure VoteRequest where
  term : ℕ
  candidateId : NodeId
  lastLsn : ℕ
  lastTerm : ℕ
  logs : List (CollectionName × LogTail)
  candidateUrl : Option Url

structure VoteDecision where
  granted : Bool
  term : ℕ
  votedFor : Option NodeId

/-- The largest tail, `none` for an empty map. -/
def maxTail : List (CollectionName × LogTail) → Option LogTail
  | [] => none
  | (_, tail) :: rest =>
    match maxTail rest with
    | none => some tail
    | some m => some (if m.le tail then tail else m)

theorem le_maxTail {tails : List (CollectionName × LogTail)} {c : CollectionName} {tail : LogTail}
    (h : (c, tail) ∈ tails) : ∃ m, maxTail tails = some m ∧ tail.le m = true := by
  induction tails with
  | nil => simp at h
  | cons x rest ih =>
    simp only [maxTail]
    rcases List.mem_cons.mp h with rfl | h
    · cases maxTail rest with
      | none => exact ⟨_, rfl, by simp [LogTail.le]⟩
      | some m =>
        refine ⟨_, rfl, ?_⟩
        split_ifs with hle
        · simp [LogTail.le]
        · dsimp only at hle
          rw [LogTail.le_iff] at hle ⊢
          omega
    · obtain ⟨m, hm, hle⟩ := ih h
      rw [hm]
      refine ⟨_, rfl, ?_⟩
      split_ifs with hmx
      · rw [LogTail.le_iff] at *
        omega
      · exact hle

/-- The database-wide tail; `counters` is what the shared counters hold when no collection opens. -/
def logSummary (counters : LogTail) (tails : List (CollectionName × LogTail)) : LogTail :=
  (maxTail tails).getD counters

def candidateIsCurrent (myLogs : List (CollectionName × LogTail)) (mySummary : LogTail)
    (req : VoteRequest) : Bool :=
  if req.logs.isEmpty then mySummary.le ⟨req.lastTerm, req.lastLsn⟩
  else myLogs.all fun (name, mine) => mine.le ((req.logs.lookup name).getD .zero)

def candidateIsAMember (myConfig : Option Configuration) (req : VoteRequest) : Bool :=
  match myConfig, req.candidateUrl with
  | some config, some url => config.contains url
  | _, _ => true

def grants (votedFor : Option NodeId) (myLogs : List (CollectionName × LogTail))
    (mySummary : LogTail) (myConfig : Option Configuration) (req : VoteRequest)
    (mustWithhold : Bool) : Bool :=
  let canVote :=
    match votedFor with
    | none => true
    | some v => v == req.candidateId
  canVote && candidateIsCurrent myLogs mySummary req && candidateIsAMember myConfig req &&
    !mustWithhold

def decideVote (curTerm : ℕ) (curVotedFor : Option NodeId)
    (myLogs : List (CollectionName × LogTail)) (mySummary : LogTail)
    (myConfig : Option Configuration) (req : VoteRequest) (mustWithhold : Bool) : VoteDecision :=
  if req.term < curTerm then ⟨false, curTerm, curVotedFor⟩
  else
    let term := if curTerm < req.term then req.term else curTerm
    let votedFor := if curTerm < req.term then none else curVotedFor
    if grants votedFor myLogs mySummary myConfig req mustWithhold then
      ⟨true, term, some req.candidateId⟩
    else ⟨false, term, votedFor⟩

section Decision

variable (curTerm : ℕ) (curVotedFor : Option NodeId) (myLogs : List (CollectionName × LogTail))
  (mySummary : LogTail) (myConfig : Option Configuration) (req : VoteRequest) (mustWithhold : Bool)

/-- What is decided, by how the requested term compares with the voter's. -/
theorem decideVote_cases :
    (req.term < curTerm ∧ decideVote curTerm curVotedFor myLogs mySummary myConfig req
      mustWithhold = ⟨false, curTerm, curVotedFor⟩) ∨
    (curTerm < req.term ∧ decideVote curTerm curVotedFor myLogs mySummary myConfig req
      mustWithhold =
      if grants none myLogs mySummary myConfig req mustWithhold then
        ⟨true, req.term, some req.candidateId⟩
      else ⟨false, req.term, none⟩) ∨
    (curTerm = req.term ∧ decideVote curTerm curVotedFor myLogs mySummary myConfig req
      mustWithhold =
      if grants curVotedFor myLogs mySummary myConfig req mustWithhold then
        ⟨true, req.term, some req.candidateId⟩
      else ⟨false, req.term, curVotedFor⟩) := by
  rcases lt_trichotomy req.term curTerm with h | h | h
  · exact .inl ⟨h, by simp [decideVote, h]⟩
  · exact .inr (.inr ⟨h.symm, by simp [decideVote, h]⟩)
  · exact .inr (.inl ⟨h, by simp [decideVote, h, Nat.lt_asymm h]⟩)

variable {curTerm curVotedFor myLogs mySummary myConfig req mustWithhold} in
/-- A grant is made in the requested term, to the requesting candidate, on a log no behind. -/
theorem decideVote_granted
    (h : (decideVote curTerm curVotedFor myLogs mySummary myConfig req mustWithhold).granted =
      true) :
    decideVote curTerm curVotedFor myLogs mySummary myConfig req mustWithhold =
        ⟨true, req.term, some req.candidateId⟩ ∧
      curTerm ≤ req.term ∧ candidateIsCurrent myLogs mySummary req = true := by
  rcases decideVote_cases curTerm curVotedFor myLogs mySummary myConfig req mustWithhold with
    ⟨-, hd⟩ | ⟨hlt, hd⟩ | ⟨heq, hd⟩
  · simp [hd] at h
  · rw [hd] at h ⊢
    split_ifs at h ⊢ with hg
    exact ⟨rfl, hlt.le, by simp_all [grants]⟩
  · rw [hd] at h ⊢
    split_ifs at h ⊢ with hg
    exact ⟨rfl, heq.le, by simp_all [grants]⟩

variable {curTerm curVotedFor myLogs mySummary myConfig req mustWithhold} in
/-- A refusal leaves the pair as it was, or moves to the higher term with no vote. -/
theorem decideVote_refused
    (h : (decideVote curTerm curVotedFor myLogs mySummary myConfig req mustWithhold).granted =
      false) :
    decideVote curTerm curVotedFor myLogs mySummary myConfig req mustWithhold =
        ⟨false, curTerm, curVotedFor⟩ ∨
      (curTerm < req.term ∧ decideVote curTerm curVotedFor myLogs mySummary myConfig req
        mustWithhold = ⟨false, req.term, none⟩) := by
  rcases decideVote_cases curTerm curVotedFor myLogs mySummary myConfig req mustWithhold with
    ⟨-, hd⟩ | ⟨hlt, hd⟩ | ⟨heq, hd⟩
  · exact .inl hd
  · rw [hd] at h ⊢
    split_ifs at h ⊢ with hg
    exact .inr ⟨hlt, rfl⟩
  · rw [hd] at h ⊢
    split_ifs at h ⊢ with hg
    exact .inl (by rw [heq])

theorem pairLe_decideVote :
    PairLe curTerm curVotedFor
      (decideVote curTerm curVotedFor myLogs mySummary myConfig req mustWithhold).term
      (decideVote curTerm curVotedFor myLogs mySummary myConfig req mustWithhold).votedFor := by
  rcases decideVote_cases curTerm curVotedFor myLogs mySummary myConfig req mustWithhold with
    ⟨-, hd⟩ | ⟨hlt, hd⟩ | ⟨heq, hd⟩
  · rw [hd]
    exact PairLe.refl _ _
  · rw [hd]
    split_ifs <;> exact .inl hlt
  · rw [hd]
    split_ifs with hg
    · refine .inr ⟨heq, ?_⟩
      cases curVotedFor with
      | none => exact .inl rfl
      | some v =>
        have hv : v = req.candidateId := by simp_all [grants]
        exact .inr (by rw [hv])
    · exact .inr ⟨heq, .inr rfl⟩

end Decision

end DewDB.Vote
