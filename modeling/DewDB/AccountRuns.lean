import DewDB.AccountBalance

/-!
# Accounts over whole runs

A collection is booted from a snapshot and the frames of its log, opened, written to, cut and
compacted, and booted again, in any order. Its counters stay what they count just as long as no
replay displaces an inline value that it staged before.
-/
namespace DewDB.InlineAccounts

open FrameBytes TransitionSystem
open StorageEntry (LogEntry Settings)

variable {V H : Type}

section Replaying

variable (cache : ReadCacheConfig) (decode : Bytes → Option (LogEntry V H))

namespace Replay

structure Counts (r : Replay H) : Prop where
  inline : r.inlineUsed = r.index.total IndexEntry.inlineBytes
  staged : r.stagedInline = r.pending.total StagedApply.inlineBytes

/-- The frame is staged where a value with an inline copy is staged already. -/
def displacesInline (appliedThrough : ℕ) (r : Replay H) (f : ReadFrame) : Bool :=
  (decode f.payload).isSome && decide (appliedThrough < f.header.lsn.toNat) &&
    (r.pending.get? f.header.lsn.toNat).any fun old => 0 < old.inlineBytes

variable {r : Replay H}

theorem start_counts (map : Index) (settings : Settings H) :
    (start map settings).Counts := ⟨rfl, rfl⟩

theorem Counts.stage (h : r.Counts) (walId : ℕ) (f : ReadFrame) (entry : LogEntry V H) :
    (r.stage cache walId f entry).Counts ↔
      (r.pending.get? f.header.lsn.toNat).elim 0 StagedApply.inlineBytes = 0 := by
  set effect := effectOf (r.stagedEntry cache walId f entry) entry with heffect
  have hstaged := h.staged
  have htotal := r.pending.total_insert StagedApply.inlineBytes f.header.lsn.toNat
    ⟨walId, f.offset, f.header.term.toNat, effect, isMigration entry⟩
  have hnew : (⟨walId, f.offset, f.header.term.toNat, effect, isMigration entry⟩ :
    StagedApply H).inlineBytes = effect.inlineBytes := rfl
  constructor
  · intro h'
    have hstaged' := h'.staged
    rw [Replay.stage, ← heffect] at hstaged'
    dsimp only at hstaged'
    omega
  · intro hold
    refine ⟨h.inline, ?_⟩
    rw [Replay.stage, ← heffect]
    dsimp only
    omega

/-- A committed frame takes back what it replaces, which has been counted. -/
theorem publish_inline (h : r.inlineUsed = r.index.total IndexEntry.inlineBytes) (walId : ℕ)
    (f : ReadFrame)
    (entry : LogEntry V H) : ∃ r', r.publish cache walId f entry = some r' ∧
      r'.inlineUsed = r'.index.total IndexEntry.inlineBytes ∧ r'.stagedInline = r.stagedInline ∧
      r'.pending = r.pending := by
  cases entry with
  | put migration key value ts expireAt =>
    rw [Replay.publish]
    set built : IndexEntry := ⟨walId, f.offset, f.payload.length,
      if f.payload.length ≤ cache.inlineMaxValueBytes ∧
        r.inlineUsed + f.payload.length ≤ cache.inlineBudgetBytes then some f.payload else none,
      f.header.lsn.toNat, f.header.term.toNat, ts, expireAt⟩
    have htotal := r.index.total_insert IndexEntry.inlineBytes key built
    rw [← h] at htotal
    rw [fetchSub_of_le (by omega)]
    refine ⟨_, rfl, ?_, rfl, rfl⟩
    dsimp only
    omega
  | del migration key ts =>
    have htotal := r.index.total_erase IndexEntry.inlineBytes key
    rw [← h] at htotal
    rw [Replay.publish]
    rw [fetchSub_of_le (by omega)]
    refine ⟨_, rfl, ?_, rfl, rfl⟩
    dsimp only
    omega
  | drop ts => exact ⟨_, rfl, rfl, rfl, rfl⟩
  | barrier ts => exact ⟨_, rfl, h, rfl, rfl⟩
  | config config ts => exact ⟨_, rfl, h, rfl, rfl⟩
  | handover handover ts => exact ⟨_, rfl, h, rfl, rfl⟩
  | index change ts => exact ⟨_, rfl, h, rfl, rfl⟩
  | ttl ttlSecs ts => exact ⟨_, rfl, h, rfl, rfl⟩

theorem Counts.publish (h : r.Counts) (walId : ℕ) (f : ReadFrame) (entry : LogEntry V H) :
    ∃ r', r.publish cache walId f entry = some r' ∧ r'.Counts := by
  obtain ⟨r', hr', hinline, hstaged, hpending⟩ := publish_inline cache h.inline walId f entry
  refine ⟨r', hr', hinline, ?_⟩
  rw [hstaged, hpending, h.staged]

/-- No frame of a replay makes the committed bytes underflow, whatever has become of the staged
ones. -/
theorem frame_inline (h : r.inlineUsed = r.index.total IndexEntry.inlineBytes)
    (appliedThrough walId : ℕ)
    (f : ReadFrame) : ∃ r', r.frame cache decode appliedThrough walId f = some r' ∧
      r'.inlineUsed = r'.index.total IndexEntry.inlineBytes := by
  rw [Replay.frame]
  cases decode f.payload with
  | none => exact ⟨r, rfl, h⟩
  | some entry =>
    dsimp only
    split
    · exact ⟨_, rfl, h⟩
    · obtain ⟨r', hr', hinline, -⟩ := publish_inline cache h walId f entry
      exact ⟨r', hr', hinline⟩

theorem Counts.frame (h : r.Counts) (appliedThrough walId : ℕ) (f : ReadFrame) :
    ∃ r', r.frame cache decode appliedThrough walId f = some r' ∧
      (r'.Counts ↔ ¬r.displacesInline decode appliedThrough f) := by
  rw [Replay.frame, displacesInline]
  cases hentry : decode f.payload with
  | none => exact ⟨r, rfl, by simp [h]⟩
  | some entry =>
    dsimp only
    by_cases hlsn : appliedThrough < f.header.lsn.toNat
    · rw [if_pos hlsn]
      refine ⟨_, rfl, ?_⟩
      rw [h.stage]
      cases r.pending.get? f.header.lsn.toNat with
      | none => simp
      | some old => simp [hlsn, Nat.pos_iff_ne_zero]
    · rw [if_neg hlsn]
      obtain ⟨r', hr', hcounts⟩ := h.publish cache walId f entry
      exact ⟨r', hr', by simp [hcounts, hlsn]⟩

end Replay

end Replaying

section Sums

variable {κ α : Type} [LinearOrder κ]

theorem total_eq_sum (w : α → ℕ) (m : SortedMap κ α) : m.total w = (m.values.map w).sum := by
  rw [SortedMap.values, List.map_map]
  rfl

theorem total_expiring (m : Index) :
    m.total IndexEntry.expiring = (m.values.filter fun e => e.expireAt.isSome).length := by
  rw [total_eq_sum]
  induction m.values with
  | nil => rfl
  | cons e es ih =>
    rw [List.map_cons, List.sum_cons, ih, List.filter_cons, IndexEntry.expiring]
    split
    · exact Nat.add_comm _ _
    · exact Nat.zero_add _

end Sums

theorem expiredKeys_eq_walk {c : Coll H} {held : ℕ} (h : c.Counts held) (nowMs : ℕ)
    (owned : String → Bool) : c.expiredKeys nowMs owned = c.walkExpired nowMs owned := by
  rw [Coll.expiredKeys]
  split
  · rename_i hskip
    have hnone : ∀ e ∈ c.index.values, e.expireAt = none := by
      have hlength := total_expiring c.index
      rw [← h.expiring, hskip.2, eq_comm, List.length_eq_zero_iff,
        List.filter_eq_nil_iff] at hlength
      intro e he
      exact Option.not_isSome_iff_eq_none.mp (hlength e he)
    rw [Coll.walkExpired, hskip.1, eq_comm, List.map_eq_nil_iff, List.filter_eq_nil_iff]
    intro e he
    have hexpire := hnone e.2 (List.mem_map_of_mem he)
    rw [IndexEntry.expiresAt, hexpire]
    simp
  · rfl

/-- A node: while it replays, while it is open, and after a subtraction below zero. -/
inductive Node (H : Type) where
  | booting (appliedThrough : ℕ) (replay : Replay H)
  | live (coll : Coll H)
  | underflow

inductive Op (V H : Type) where
  | boot (map : Index) (settings : Settings H) (appliedThrough : ℕ)
  | replay (walId : ℕ) (frame : ReadFrame)
  | opened (appliedAt : ℕ)
  | stage (lsn term : ℕ) (entry : LogEntry V H) (walId offset : ℕ) (payload : Bytes)
  | commit (committedLsn : ℕ)
  | rewind (prevLsn prevTerm : ℕ) (recorded fails : Bool)
  | heal (fails : Bool)
  | remap (compactId : ℕ) (relocated : List RelocatedFrame) (moved : List ((ℕ × ℕ) × ℕ))

namespace Node

variable (cache : ReadCacheConfig) (decode : Bytes → Option (LogEntry V H))

def ofColl (c : Option (Coll H)) : Node H := c.elim .underflow .live

def step : Node H → Op V H → Option (Node H)
  | _, .boot map settings appliedThrough => some (.booting appliedThrough (.start map settings))
  | .booting appliedThrough r, .replay walId f =>
    some ((r.frame cache decode appliedThrough walId f).elim .underflow (.booting appliedThrough))
  | .booting _ r, .opened appliedAt => some (.live (r.opened appliedAt))
  | .live c, .stage lsn term entry walId offset payload =>
    some (ofColl (c.stageAppended cache decode lsn term entry walId offset payload))
  | .live c, .commit committedLsn => some (ofColl (c.applyCommitted committedLsn))
  | .live c, .rewind prevLsn prevTerm recorded fails =>
      some (ofColl (c.rewindTo prevLsn prevTerm recorded fails))
  | .live c, .heal fails => some (ofColl (c.healFencedCut fails))
  | .live c, .remap compactId relocated moved =>
      some (ofColl (c.remap cache decode compactId relocated moved))
  | _, _ => none

def Booted (s : Node H) : Prop := ∃ map settings appliedThrough,
  s = .booting appliedThrough (.start map settings)

/-- The counters are the sums over the maps, and nothing has gone below zero. -/
def Balanced : Node H → Prop
  | .booting _ r => r.inlineUsed = (r.index.values.map IndexEntry.inlineBytes).sum ∧
      r.stagedInline = (r.pending.values.map StagedApply.inlineBytes).sum
  | .live c => c.inlineBytes = (c.index.values.map IndexEntry.inlineBytes).sum ∧
      c.stagedInline = (c.pending.values.map StagedApply.inlineBytes).sum ∧
      c.expiringEntries = (c.index.values.filter fun e => e.expireAt.isSome).length
  | .underflow => False

def Fresh : Node H → Op V H → Prop
  | .booting appliedThrough r, .replay _ f => ¬r.displacesInline decode appliedThrough f
  | _, _ => True

theorem balanced_booting {appliedThrough : ℕ} {r : Replay H} :
    (booting appliedThrough r).Balanced ↔ r.Counts := by
  rw [Balanced, ← total_eq_sum, ← total_eq_sum]
  exact ⟨fun h => ⟨h.1, h.2⟩, fun h => ⟨h.inline, h.staged⟩⟩

theorem balanced_live {c : Coll H} : (live c).Balanced ↔ c.Counts 0 := by
  rw [Balanced, ← total_eq_sum, ← total_eq_sum, ← total_expiring]
  exact ⟨fun h => ⟨h.1, h.2.1, h.2.2⟩, fun h => ⟨h.inline, h.staged, h.expiring⟩⟩

theorem balanced_ofColl {o : Option (Coll H)} (h : ∃ c, o = some c ∧ c.Counts 0) :
    (ofColl o).Balanced := by
  obtain ⟨c, rfl, hcounts⟩ := h
  exact balanced_live.mpr hcounts

theorem opened_counts {r : Replay H} (h : r.Counts) (appliedAt : ℕ) :
    (r.opened appliedAt).Counts 0 :=
  ⟨h.inline, h.staged, (total_expiring r.index).symm⟩

theorem step_balanced {s s' : Node H} {a : Op V H} (hs : s.Balanced)
    (hstep : step cache decode s a = some s') : s'.Balanced ↔ Fresh decode s a := by
  cases a with
  | boot map settings appliedThrough =>
    cases hstep
    have hfresh : Fresh decode s (.boot map settings appliedThrough) := by
      cases s <;> trivial
    exact iff_of_true (balanced_booting.mpr (Replay.start_counts map settings)) hfresh
  | replay walId f =>
    cases s with
    | booting appliedThrough r =>
      cases hstep
      obtain ⟨r', hr', hcounts⟩ :=
        (balanced_booting.mp hs).frame cache decode appliedThrough walId f
      rw [hr', Option.elim_some, balanced_booting, hcounts]
      rfl
    | live c => cases hstep
    | underflow => cases hstep
  | opened appliedAt =>
    cases s with
    | booting appliedThrough r =>
      cases hstep
      exact iff_of_true (balanced_live.mpr (opened_counts (balanced_booting.mp hs) appliedAt))
        trivial
    | live c => cases hstep
    | underflow => cases hstep
  | stage lsn term entry walId offset payload =>
    cases s with
    | live c =>
      cases hstep
      have hkeep := (balanced_live.mp hs).stageAppended cache decode lsn term entry walId
        offset payload
      exact iff_of_true (balanced_ofColl hkeep) trivial
    | booting appliedThrough r => cases hstep
    | underflow => cases hstep
  | commit committedLsn =>
    cases s with
    | live c =>
      cases hstep
      exact iff_of_true (balanced_ofColl ((balanced_live.mp hs).applyCommitted committedLsn))
        trivial
    | booting appliedThrough r => cases hstep
    | underflow => cases hstep
  | rewind prevLsn prevTerm recorded fails =>
    cases s with
    | live c =>
      cases hstep
      exact iff_of_true (balanced_ofColl
        ((balanced_live.mp hs).rewindTo prevLsn prevTerm recorded fails)) trivial
    | booting appliedThrough r => cases hstep
    | underflow => cases hstep
  | heal fails =>
    cases s with
    | live c =>
      cases hstep
      exact iff_of_true (balanced_ofColl ((balanced_live.mp hs).healFencedCut fails)) trivial
    | booting appliedThrough r => cases hstep
    | underflow => cases hstep
  | remap compactId relocated moved =>
    cases s with
    | live c =>
      cases hstep
      have hkeep := (balanced_live.mp hs).remap cache decode compactId relocated moved
      exact iff_of_true (balanced_ofColl hkeep) trivial
    | booting appliedThrough r => cases hstep
    | underflow => cases hstep

theorem booted_balanced {s : Node H} (h : s.Booted) : s.Balanced := by
  obtain ⟨map, settings, appliedThrough, rfl⟩ := h
  exact balanced_booting.mpr (Replay.start_counts map settings)

end Node

section Main

/-- In every run from a boot, the counters are the sums over the maps at each point and no
subtraction underflows, just if no replay displaces an inline value that it has staged. -/
theorem accounts_balance (cache : ReadCacheConfig) (decode : Bytes → Option (LogEntry V H))
    {s₀ s : Node H}
    {as : List (Op V H)} (h₀ : s₀.Booted) (hrun : run (Node.step cache decode) s₀ as = some s) :
    Meets (Node.step cache decode) (Node.Fresh decode) s₀ as ↔
      ∀ k t, run (Node.step cache decode) s₀ (as.take k) = some t → t.Balanced :=
  meets_iff_throughout (fun _ _ _ => Node.step_balanced cache decode) hrun (Node.booted_balanced h₀)

def smallCache : ReadCacheConfig := ⟨512, 4096⟩

def putReader (_ : Bytes) : Option (LogEntry Unit Unit) := some (.put false "k" () 7 none)

def bootedEmpty : Node Unit := .booting 0 (.start .empty .fresh)

def stagedFrame : ReadFrame := ⟨0, ⟨2, 0, 1, 1, 0, 0⟩, [1, 2]⟩

def putEntry : LogEntry Unit Unit := .put false "k" () 7 none

/-- One frame is displaced and another one truncated before a commit, and a compaction moves the
key. -/
def busyRun : List (Op Unit Unit) := [
  .replay 1 stagedFrame,
  .opened 0,
  .stage 2 1 putEntry 1 43 [3, 4, 5],
  .stage 2 2 putEntry 1 87 [6],
  .stage 3 2 putEntry 1 129 [7, 8],
  .rewind 2 2 true true,
  .heal false,
  .commit 2,
  .remap 2 [⟨"k", 1, 87, 0, 2, 2, [6], 1⟩] []]

theorem accounts_balance_commit :
    Meets (Node.step smallCache putReader) (Node.Fresh putReader) bootedEmpty busyRun ↔
      ∀ k t, run (Node.step smallCache putReader) bootedEmpty (busyRun.take k) = some t →
        t.Balanced :=
  accounts_balance smallCache putReader ⟨_, _, _, rfl⟩ rfl

/-- A frame that stands in a frozen log and in its compacted copy is staged twice and counted twice.
-/
theorem accounts_overcount : ¬∀ (cache : ReadCacheConfig)
    (decode : Bytes → Option (LogEntry Unit Unit))
    (s₀ s : Node Unit) (as : List (Op Unit Unit)), s₀.Booted →
      run (Node.step cache decode) s₀ as = some s → s.Balanced := by
  intro h
  have hbalanced := h smallCache putReader bootedEmpty _
    [.replay 1 stagedFrame, .replay 2 stagedFrame, .opened 0] ⟨_, _, _, rfl⟩ rfl
  exact absurd hbalanced.2.1 (by decide)

end Main

end DewDB.InlineAccounts
