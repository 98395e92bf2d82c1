import DewDB.InlineAccounts
import DewDB.TransitionSystem

/-!
# The accounts balance

Every operation keeps the counters equal to what they count, and no subtraction goes below zero. A
replay alone forgets something: a frame that it stages on an LSN which is already staged displaces
the other one without giving its bytes back.
-/
namespace DewDB.InlineAccounts

open FrameBytes TransitionSystem
open StorageEntry (LogEntry Settings)

variable {V H : Type}

theorem fetchSub_of_le {counter n : ℕ} (h : n ≤ counter) : fetchSub counter n = some
    (counter - n) := if_pos h

/-- The counters are what they count; `held` bytes belong to frames that are leaving. -/
structure Coll.Counts (c : Coll H) (held : ℕ) : Prop where
  inline : c.inlineBytes = c.index.total IndexEntry.inlineBytes
  staged : c.stagedInline = c.pending.total StagedApply.inlineBytes + held
  expiring : c.expiringEntries = c.index.total IndexEntry.expiring

namespace Coll

variable {c : Coll H} {held : ℕ}

theorem Counts.releaseStaged {effect : StagedEffect H} (h : c.Counts (held + effect.inlineBytes)) :
    ∃ c', c.releaseStaged effect = some c' ∧ c'.Counts held := by
  have hle : effect.inlineBytes ≤ c.stagedInline := by
    rw [h.staged]
    omega
  refine ⟨{ c with stagedInline := c.stagedInline - effect.inlineBytes }, ?_, h.inline,
    ?_, h.expiring⟩
  · rw [Coll.releaseStaged, fetchSub_of_le hle]
    rfl
  · dsimp only
    rw [h.staged]
    omega

theorem expiring_eq (e : IndexEntry) : e.expiring = if e.expireAt.isSome then 1 else 0 := rfl

/-- Putting an entry moves the counters by what it adds and what it replaces. -/
theorem Counts.applyIndexPut (h : c.Counts held) (key : String) (entry : IndexEntry) :
    ∃ c', c.applyIndexPut key entry = some c' ∧ c'.Counts held := by
  have hbytes := c.index.total_insert IndexEntry.inlineBytes key entry
  have hcount := c.index.total_insert IndexEntry.expiring key entry
  rw [← h.inline] at hbytes
  rw [← h.expiring] at hcount
  set index' := c.index.insert key entry with hindex
  have hinline : (if (c.index.get? key).elim 0 IndexEntry.inlineBytes ≤ entry.inlineBytes then
      some (c.inlineBytes + (entry.inlineBytes - (c.index.get? key).elim 0 IndexEntry.inlineBytes))
      else fetchSub c.inlineBytes
        ((c.index.get? key).elim 0 IndexEntry.inlineBytes - entry.inlineBytes)) =
      some (index'.total IndexEntry.inlineBytes) := by
    split
    · congr 1
      omega
    · rw [fetchSub_of_le (by omega)]
      congr 1
      omega
  have hwas : (c.index.get? key).elim 0 IndexEntry.expiring =
      if (c.index.get? key).any fun old => old.expireAt.isSome then 1 else 0 := by
    cases c.index.get? key with
    | none => rfl
    | some old => rfl
  have hexpiring : (if entry.expireAt.isSome && !(c.index.get? key).any fun old =>
    old.expireAt.isSome then
      some (c.expiringEntries + 1)
      else if ((c.index.get? key).any fun old => old.expireAt.isSome) && !entry.expireAt.isSome then
        fetchSub c.expiringEntries 1
      else some c.expiringEntries) = some (index'.total IndexEntry.expiring) := by
    rw [hwas, expiring_eq] at hcount
    cases hnew : entry.expireAt.isSome with
    | true =>
      cases hold : (c.index.get? key).any fun old => old.expireAt.isSome with
      | true =>
        simp only [hnew, hold, if_true] at hcount
        simp
        omega
      | false =>
        simp only [hnew, hold, if_true, Bool.false_eq_true, if_false] at hcount
        simp
        omega
    | false =>
      cases hold : (c.index.get? key).any fun old => old.expireAt.isSome with
      | true =>
        simp only [hnew, hold, if_true, Bool.false_eq_true, if_false] at hcount
        simp [fetchSub_of_le (show 1 ≤ c.expiringEntries by omega)]
        omega
      | false =>
        simp only [hnew, hold, Bool.false_eq_true, if_false] at hcount
        simp
        omega
  refine ⟨{ c with
    index := index'
    inlineBytes := index'.total IndexEntry.inlineBytes
    expiringEntries := index'.total IndexEntry.expiring }, ?_, rfl, h.staged, rfl⟩
  rw [Coll.applyIndexPut]
  rw [hinline, hexpiring]
  rfl

theorem Counts.applyIndexRemove (h : c.Counts held) (key : String) :
    ∃ c', c.applyIndexRemove key = some c' ∧ c'.Counts held := by
  have hbytes := c.index.total_erase IndexEntry.inlineBytes key
  have hcount := c.index.total_erase IndexEntry.expiring key
  rw [← h.inline] at hbytes
  rw [← h.expiring] at hcount
  rw [Coll.applyIndexRemove]
  cases hold : c.index.get? key with
  | none => exact ⟨c, rfl, h⟩
  | some old =>
    rw [hold, Option.elim_some] at hbytes hcount
    rw [expiring_eq] at hcount
    have hexpiring : (if old.expireAt.isSome then fetchSub c.expiringEntries 1
      else some c.expiringEntries) =
        some ((c.index.erase key).total IndexEntry.expiring) := by
      split
      · rename_i hsome
        rw [if_pos hsome] at hcount
        rw [fetchSub_of_le (by omega)]
        congr 1
        omega
      · rename_i hnone
        rw [if_neg hnone] at hcount
        congr 1
        omega
    refine ⟨{ c with
      index := c.index.erase key
      inlineBytes := c.inlineBytes - old.inlineBytes
      expiringEntries := (c.index.erase key).total IndexEntry.expiring }, ?_, ?_, h.staged, rfl⟩
    · dsimp only
      rw [fetchSub_of_le (by omega), hexpiring]
      rfl
    · dsimp only
      omega

theorem Counts.clearIndex (h : c.Counts held) : c.clearIndex.Counts held := ⟨rfl, h.staged, rfl⟩

theorem Counts.applyEffect (h : c.Counts held) (effect : StagedEffect H) :
    ∃ c', c.applyEffect effect = some c' ∧ c'.Counts held := by
  cases effect with
  | put key entry => exact h.applyIndexPut key entry
  | remove key => exact h.applyIndexRemove key
  | clear => exact ⟨c.clearIndex, rfl, h.clearIndex⟩
  | nothing => exact ⟨c, rfl, h⟩
  | configure config => exact ⟨c, rfl, h⟩
  | recordHandover handover => exact ⟨c, rfl, h⟩
  | defineIndex change => exact ⟨c, rfl, h⟩
  | setTtl ttlSecs => exact ⟨c, rfl, h⟩

theorem Counts.publish {effect : StagedEffect H} (h : c.Counts (held + effect.inlineBytes)) :
    ∃ c', c.publish effect = some c' ∧ c'.Counts held := by
  obtain ⟨c', hc', hcounts⟩ := h.applyEffect effect
  have hsettings : ({ c' with settings := publishSettings c'.settings effect } : Coll H).Counts
      (held + effect.inlineBytes) := ⟨hcounts.inline, hcounts.staged, hcounts.expiring⟩
  obtain ⟨c'', hc'', hcounts'⟩ := hsettings.releaseStaged
  refine ⟨c'', ?_, hcounts'⟩
  rw [Coll.publish, hc']
  exact hc''

theorem Counts.publishAll {ready : List (ℕ × StagedApply H)}
    (h : c.Counts (held + SortedMap.weigh StagedApply.inlineBytes ready)) :
    ∃ c', c.publishAll ready = some c' ∧ c'.Counts held := by
  induction ready generalizing c with
  | nil => exact ⟨c, rfl, h⟩
  | cons staged ready ih =>
    have hsum : held + SortedMap.weigh StagedApply.inlineBytes (staged :: ready) =
        held + SortedMap.weigh StagedApply.inlineBytes ready + staged.2.effect.inlineBytes := by
      simp only [SortedMap.weigh, List.map_cons, List.sum_cons, StagedApply.inlineBytes]
      omega
    rw [hsum] at h
    obtain ⟨c₁, hc₁, hcounts₁⟩ := h.publish
    obtain ⟨c₂, hc₂, hcounts₂⟩ := ih hcounts₁
    refine ⟨c₂, ?_, hcounts₂⟩
    rw [Coll.publishAll, hc₁]
    exact hc₂

theorem Counts.applyCommitted (h : c.Counts 0) (committedLsn : ℕ) :
    ∃ c', c.applyCommitted committedLsn = some c' ∧ c'.Counts 0 := by
  have htotal := c.pending.total_filterKeys StagedApply.inlineBytes fun lsn =>
    lsn < committedLsn + 1
  set ready := c.pending.filterKeys fun lsn => decide (lsn < committedLsn + 1)
  set rest := c.pending.filterKeys fun lsn => !decide (lsn < committedLsn + 1)
  have hsplit : ({ c with pending := rest } : Coll H).Counts
      (0 + SortedMap.weigh StagedApply.inlineBytes ready.entries) := by
    refine ⟨h.inline, ?_, h.expiring⟩
    have hready : ready.total StagedApply.inlineBytes =
      SortedMap.weigh StagedApply.inlineBytes ready.entries := rfl
    have hstaged := h.staged
    dsimp only
    omega
  obtain ⟨c', hc', hcounts⟩ := hsplit.publishAll
  refine ⟨{ c' with appliedLsn := max c'.appliedLsn committedLsn }, ?_, hcounts.inline,
    hcounts.staged, hcounts.expiring⟩
  rw [Coll.applyCommitted]
  rw [hc']
  rfl

variable (cache : ReadCacheConfig) (decode : Bytes → Option (LogEntry V H))

theorem Counts.stageAppended (h : c.Counts 0) (lsn term : ℕ) (entry : LogEntry V H)
    (walId offset : ℕ) (payload : Bytes) :
    ∃ c', c.stageAppended cache decode lsn term entry walId offset payload = some c' ∧
      c'.Counts 0 := by
  rw [Coll.stageAppended]
  dsimp only
  set effect := effectOf
    (buildEntry cache decode c.inlineResident walId offset lsn term payload) entry
  have htotal := c.pending.total_insert StagedApply.inlineBytes lsn ⟨walId, offset, term, effect,
    isMigration entry⟩
  have hstaged := h.staged
  have hnew : (⟨walId, offset, term, effect, isMigration entry⟩ : StagedApply H).inlineBytes =
    effect.inlineBytes := rfl
  cases hold : c.pending.get? lsn with
  | none =>
    rw [hold, Option.elim_none] at htotal
    refine ⟨_, rfl, h.inline, ?_, h.expiring⟩
    dsimp only
    omega
  | some old =>
    rw [hold, Option.elim_some] at htotal
    have hrelease : old.inlineBytes = old.effect.inlineBytes := rfl
    apply Counts.releaseStaged
    refine ⟨h.inline, ?_, h.expiring⟩
    dsimp only
    omega

theorem Counts.dropStaged (h : c.Counts 0) (doomed : List ℕ) :
    ∃ c', c.dropStaged doomed = some c' ∧ c'.Counts 0 := by
  induction doomed generalizing c with
  | nil => exact ⟨c, rfl, h⟩
  | cons lsn doomed ih =>
    rw [Coll.dropStaged]
    cases hold : c.pending.get? lsn with
    | none => exact ih h
    | some dropped =>
      have htotal := c.pending.total_erase StagedApply.inlineBytes lsn
      have hstaged := h.staged
      rw [hold, Option.elim_some] at htotal
      have hrelease : dropped.inlineBytes = dropped.effect.inlineBytes := rfl
      have herased : ({ c with pending := c.pending.erase lsn } : Coll H).Counts
        (0 + dropped.effect.inlineBytes) := by
        refine ⟨h.inline, ?_, h.expiring⟩
        dsimp only
        omega
      obtain ⟨c₁, hc₁, hcounts₁⟩ := herased.releaseStaged
      obtain ⟨c₂, hc₂, hcounts₂⟩ := ih hcounts₁
      refine ⟨c₂, ?_, hcounts₂⟩
      dsimp only
      rw [hc₁]
      exact hc₂

theorem Counts.cutStaged (h : c.Counts 0) (prevLsn : ℕ) (fails : Bool) :
    ∃ c', ((c.dropStaged (c.doomed prevLsn)).map fun c => c.applyCut prevLsn fails) = some c' ∧
      c'.Counts 0 := by
  obtain ⟨c', hc', hcounts⟩ := h.dropStaged (c.doomed prevLsn)
  rw [hc']
  exact ⟨_, rfl, hcounts.inline, hcounts.staged, hcounts.expiring⟩

theorem Counts.rewindTo (h : c.Counts 0) (prevLsn prevTerm : ℕ) (recorded fails : Bool) :
    ∃ c', c.rewindTo prevLsn prevTerm recorded fails = some c' ∧ c'.Counts 0 := by
  rw [Coll.rewindTo]
  split_ifs
  · exact ⟨c, rfl, h⟩
  · exact h.cutStaged prevLsn fails

theorem Counts.healFencedCut (h : c.Counts 0) (fails : Bool) :
    ∃ c', c.healFencedCut fails = some c' ∧ c'.Counts 0 := by
  rw [Coll.healFencedCut]
  split
  · exact ⟨c, rfl, h⟩
  · exact h.cutStaged _ fails

theorem Counts.remapRelocated (h : c.Counts 0) (compactId : ℕ) (relocated : List RelocatedFrame) :
    ∃ c', c.remapRelocated cache decode compactId relocated = some c' ∧ c'.Counts 0 := by
  induction relocated generalizing c with
  | nil => exact ⟨c, rfl, h⟩
  | cons f relocated ih =>
    rw [Coll.remapRelocated]
    split
    · obtain ⟨c₁, hc₁, hcounts₁⟩ := h.applyIndexPut f.key
        (buildEntry cache decode f.resident compactId f.offset f.lsn f.term f.payload)
      obtain ⟨c₂, hc₂, hcounts₂⟩ := ih hcounts₁
      refine ⟨c₂, ?_, hcounts₂⟩
      rw [hc₁]
      exact hc₂
    · exact ih h

theorem moveEntry_keeps (compactId : ℕ) (moved : List ((ℕ × ℕ) × ℕ)) (e : IndexEntry) :
    (moveEntry compactId moved e).inlineBytes = e.inlineBytes ∧
      (moveEntry compactId moved e).expiring = e.expiring := by
  rw [moveEntry]
  split
  · exact ⟨rfl, rfl⟩
  · exact ⟨rfl, rfl⟩

theorem Counts.remap (h : c.Counts 0) (compactId : ℕ) (relocated : List RelocatedFrame)
    (moved : List ((ℕ × ℕ) × ℕ)) :
    ∃ c', c.remap cache decode compactId relocated moved = some c' ∧ c'.Counts 0 := by
  obtain ⟨c', hc', hcounts⟩ := h.remapRelocated cache decode compactId relocated
  refine ⟨{ c' with index := c'.index.mapValues (moveEntry compactId moved) }, ?_, ?_,
    hcounts.staged, ?_⟩
  · rw [Coll.remap, hc']
    rfl
  · dsimp only
    rw [hcounts.inline, c'.index.total_mapValues _ _ fun e => (moveEntry_keeps compactId moved e).1]
  · dsimp only
    rw [hcounts.expiring, c'.index.total_mapValues _ _ fun e =>
      (moveEntry_keeps compactId moved e).2]

end Coll

end DewDB.InlineAccounts
