import Mathlib.Logic.Function.Basic
import DewDB.Vote

/-!
# Leader-side replication progress

What each replica is known to hold, the quorum-committed watermark, and the first LSN the leader
appended in its own term, each by collection. The send cursors and the contact clocks are left out:
nothing that is committed depends on them.
-/
namespace DewDB.LeaderProgress

open Endpoint QuorumConfig Vote

structure Progress where
  matched : Url → CollectionName → ℕ
  committed : CollectionName → ℕ
  termFloor : CollectionName → Option ℕ

def Progress.new : Progress := ⟨fun _ _ => 0, fun _ => 0, fun _ => none⟩

def Progress.reset (_ : Progress) : Progress := Progress.new

/-- On promotion the watermark starts at what this node already published. -/
def Progress.reinitAsLeader (_ : Progress) (applied : CollectionName → ℕ) : Progress :=
  ⟨fun _ _ => 0, applied, fun _ => none⟩

def Progress.noteLeaderAppend (p : Progress) (collection : CollectionName) (lsn : ℕ) : Progress :=
  { p with
    termFloor := Function.update p.termFloor collection
      (some ((p.termFloor collection).getD lsn)) }

def Progress.observeAck (p : Progress) (replica : Url) (collection : CollectionName) (lsn : ℕ) :
    Progress :=
  { p with
    matched := Function.update p.matched replica
      (Function.update (p.matched replica) collection (max (p.matched replica collection) lsn)) }

def Progress.heldBy (p : Progress) (collection : CollectionName) (ownUrl : Url) (leaderDurable : ℕ)
    (member : Url) : ℕ :=
  if sameEndpoint member ownUrl then leaderDurable else p.matched member collection

def Progress.advance (p : Progress) (collection : CollectionName) (ownUrl : Url)
    (leaderDurable : ℕ) (config : Configuration) : Progress :=
  let quorum := config.quorumLsn (p.heldBy collection ownUrl leaderDurable)
  if (p.termFloor collection).any (fun floor => decide (floor ≤ quorum)) ∧
      p.committed collection < quorum then
    { p with committed := Function.update p.committed collection quorum }
  else p

theorem observeAck_matched (p : Progress) (replica url : Url) (c collection : CollectionName)
    (lsn : ℕ) : (p.observeAck replica collection lsn).matched url c = p.matched url c ∨
      (url = replica ∧ c = collection ∧
        (p.observeAck replica collection lsn).matched url c = lsn) := by
  by_cases hu : url = replica
  · subst hu
    by_cases hc : c = collection
    · subst hc
      rcases Nat.le_total lsn (p.matched url c) with h | h
      · exact .inl (by simp [Progress.observeAck, h])
      · exact .inr ⟨rfl, rfl, by simp [Progress.observeAck, h]⟩
    · exact .inl (by simp [Progress.observeAck, hc])
  · exact .inl (by simp [Progress.observeAck, hu])

theorem noteLeaderAppend_termFloor {p : Progress} {c collection : CollectionName} {lsn floor : ℕ}
    (h : (p.noteLeaderAppend collection lsn).termFloor c = some floor) :
    p.termFloor c = some floor ∨ (c = collection ∧ floor = lsn) := by
  by_cases hc : c = collection
  · subst hc
    cases hp : p.termFloor c with
    | none => exact .inr ⟨rfl, by simpa [Progress.noteLeaderAppend, hp, eq_comm] using h⟩
    | some f => exact .inl (by simpa [Progress.noteLeaderAppend, hp] using h)
  · exact .inl (by simpa [Progress.noteLeaderAppend, hc] using h)

theorem advance_cases (p : Progress) (collection : CollectionName) (ownUrl : Url)
    (leaderDurable : ℕ) (config : Configuration) :
    p.advance collection ownUrl leaderDurable config = p ∨
    ∃ quorum floor, quorum = config.quorumLsn (p.heldBy collection ownUrl leaderDurable) ∧
      p.termFloor collection = some floor ∧ floor ≤ quorum ∧ p.committed collection < quorum ∧
      p.advance collection ownUrl leaderDurable config =
        { p with committed := Function.update p.committed collection quorum } := by
  unfold Progress.advance
  dsimp only
  split_ifs with h
  · cases hfloor : p.termFloor collection with
    | none => simp [hfloor] at h
    | some floor => exact .inr ⟨_, floor, rfl, rfl, by simpa [hfloor] using h.1, h.2, rfl⟩
  · exact .inl rfl

end DewDB.LeaderProgress
