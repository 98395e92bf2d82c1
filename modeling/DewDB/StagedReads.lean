import DewDB.CompactionSafety

/-!
# Reads over the staged frames

A committed read looks a key up in the index and reads the frame it names. A read that includes what
is staged looks through the staged frames first, the newest of them in front, and goes to the index
when none touches the key. The two agree once everything staged is committed, and what is staged
reads the same wherever the commit stops in between.
-/
namespace DewDB.Recovery

open CollectionLog WalFile WalWriter StorageEntry TransitionSystem LastTouch QuorumConfig

variable {V H : Type}

inductive StagedEffect (H : Type) where
  | put (key : String) (entry : IndexEntry)
  | remove (key : String)
  | nothing
  | clear
  | configure (config : Configuration)
  | recordHandover (handover : H)
  | defineIndex (change : IndexChange)
  | setTtl (ttlSecs : Option ℕ)

/-- Nothing when the frame does not touch the key, else the entry that it leaves there or none. -/
def StagedEffect.resolve (effect : StagedEffect H) (key : String) : Option (Option IndexEntry) :=
  match effect with
  | .put k entry => if k = key then some (some entry) else none
  | .remove k => if k = key then some none else none
  | .clear => some none
  | _ => none

/-- The arms of `active_ttl_secs`. -/
def StagedEffect.overlayTtl (ttl : Option ℕ) : StagedEffect H → Option ℕ
  | .setTtl next => next
  | .clear => none
  | _ => ttl

inductive ReadError where
  | badFrame
  | keptMoving

def readResolveAttempts : ℕ := 3

def valueFromPayload : LogEntry V H → Option V
  | .put _ _ value _ _ => some value
  | _ => none

def SamePlace (e e' : IndexEntry) : Prop :=
  e.walId = e'.walId ∧ e.offset = e'.offset ∧ e.len = e'.len

instance (e e' : IndexEntry) : Decidable (SamePlace e e') :=
  inferInstanceAs (Decidable (e.walId = e'.walId ∧ e.offset = e'.offset ∧ e.len = e'.len))

structure KeyView (V : Type) where
  value : Except ReadError (Option (V × (ℕ × ℕ)))
  version : Option (ℕ × ℕ)
  present : Bool
  expireAt : Option ℕ

variable [Encoded (LogEntry V H)]

/-- What `stage_appended` keeps of a frame. -/
def stagedEffect (q : Spot (LogEntry V H)) : StagedEffect H :=
  match q.frame.entry with
  | .put _ key _ _ _ => .put key (entryOf q)
  | .del _ key _ => .remove key
  | .barrier _ => .nothing
  | .drop _ => .clear
  | .config config _ => .configure (Configuration.canonicalized config)
  | .handover handover _ => .recordHandover handover
  | .index change _ => .defineIndex change
  | .ttl ttlSecs _ => .setTtl ttlSecs

namespace Coll

variable (c : Coll V H)

def readEntry (e : IndexEntry) : Except ReadError (Option V) :=
  match c.payloadAt e with
  | none => .error .badFrame
  | some payload => .ok (valueFromPayload payload)

/-- The loop of `read_located`: a position that does not read is looked up again. -/
def readLocated (key : String) : ℕ → IndexEntry → Except ReadError (Option (V × (ℕ × ℕ)))
  | 0, _ => .error .keptMoving
  | n + 1, e =>
    match c.payloadAt e with
    | some payload => .ok ((valueFromPayload payload).map fun value => (value, e.version))
    | none =>
      match c.index.get key with
      | none => .ok none
      | some e' => if SamePlace e' e then .error .badFrame else readLocated key n e'

def getVersioned (key : String) : Except ReadError (Option (V × (ℕ × ℕ))) :=
  match c.index.get key with
  | none => .ok none
  | some e => c.readLocated key readResolveAttempts e

def existsKey (key : String) : Bool := (c.index.get key).isSome

def committedTtl : Option ℕ := c.settings.ttlSecs

def findStaged (key : String) : Option (Option IndexEntry) :=
  c.pending.reverse.findSome? fun q => (stagedEffect q).resolve key

def getIncludingStagedVersioned (key : String) : Except ReadError (Option (V × (ℕ × ℕ))) :=
  match c.findStaged key with
  | some none => .ok none
  | some (some e) => (c.readEntry e).map fun value => value.map fun v => (v, e.version)
  | none => c.getVersioned key

def versionIncludingStaged (key : String) : Option (ℕ × ℕ) :=
  ((c.findStaged key).map fun e => e.map IndexEntry.version).getD
    ((c.index.get key).map IndexEntry.version)

def existsIncludingStaged (key : String) : Bool :=
  ((c.findStaged key).map fun e => e.isSome).getD (c.existsKey key)

def expireAtIncludingStaged (key : String) : Option ℕ :=
  ((c.findStaged key).map fun e => e.bind IndexEntry.expireAt).getD
    ((c.index.get key).bind IndexEntry.expireAt)

def activeTtlSecs : Option ℕ :=
  c.pending.foldl (fun ttl q => (stagedEffect q).overlayTtl ttl) c.committedTtl

def committedView (key : String) : KeyView V :=
  ⟨c.getVersioned key, (c.index.get key).map IndexEntry.version, c.existsKey key,
    (c.index.get key).bind IndexEntry.expireAt⟩

def stagedView (key : String) : KeyView V :=
  ⟨c.getIncludingStagedVersioned key, c.versionIncludingStaged key, c.existsIncludingStaged key,
    c.expireAtIncludingStaged key⟩

/-- The entry that a key has once everything staged is committed. -/
def newestEntry (key : String) : Option IndexEntry := (c.findStaged key).getD (c.index.get key)

def entryView : Option IndexEntry → KeyView V
  | none => ⟨.ok none, none, false, none⟩
  | some e => ⟨(c.readEntry e).map fun value => value.map fun v => (v, e.version),
      some e.version, true, e.expireAt⟩

end Coll

def Ascending (qs : List (Spot (LogEntry V H))) : Prop :=
  qs.Pairwise fun q q' => q.frame.lsn < q'.frame.lsn

section Views

variable {c d : Coll V H} {key : String}

/-- A position that the index names is read once, whether that succeeds or not. -/
theorem getVersioned_eq (c : Coll V H) (key : String) :
    c.getVersioned key = (c.entryView (c.index.get key)).value := by
  unfold Coll.getVersioned
  cases he : c.index.get key with
  | none => rfl
  | some e =>
    simp only [Coll.entryView, Coll.readEntry, readResolveAttempts, Coll.readLocated]
    cases c.payloadAt e with
    | some payload => rfl
    | none =>
      have hsame : SamePlace e e := ⟨rfl, rfl, rfl⟩
      simp only [he, if_pos hsame]
      rfl

theorem committedView_eq (c : Coll V H) (key : String) :
    c.committedView key = c.entryView (c.index.get key) := by
  rw [Coll.committedView, getVersioned_eq, Coll.existsKey]
  cases c.index.get key with
  | none => rfl
  | some e => rfl

theorem stagedView_eq (c : Coll V H) (key : String) :
    c.stagedView key = c.entryView (c.newestEntry key) := by
  unfold Coll.stagedView Coll.getIncludingStagedVersioned Coll.versionIncludingStaged
    Coll.existsIncludingStaged Coll.expireAtIncludingStaged Coll.newestEntry
  cases c.findStaged key with
  | none => exact committedView_eq c key
  | some r =>
    cases r with
    | none => rfl
    | some e => rfl

theorem resolve_stagedEffect (q : Spot (LogEntry V H)) (key : String) :
    (stagedEffect q).resolve key = resolve q key := by
  obtain ⟨⟨term, lsn, prevTerm, prevLsn, entry⟩, walId, offset⟩ := q
  cases entry <;> rfl

theorem findStaged_eq (c : Coll V H) (key : String) :
    c.findStaged key = lastTouch resolve c.pending key := by
  rw [Coll.findStaged, ← findSome?_reverse]
  refine congrArg (fun f => c.pending.reverse.findSome? f) (funext fun q => ?_)
  exact resolve_stagedEffect q key

/-- The entry of a key, over frames that are published behind the index and frames that are staged.
-/
theorem newestEntry_eq (c : Coll V H) (key : String) :
    c.newestEntry key = (c.pending.foldl Index.replay c.index).get key := by
  rw [Coll.newestEntry, findStaged_eq, Index.get_foldl]

theorem publish_ttlSecs (s : Settings H) (q : Spot (LogEntry V H)) :
    (s.publish q.frame.entry).ttlSecs = (stagedEffect q).overlayTtl s.ttlSecs := by
  obtain ⟨⟨term, lsn, prevTerm, prevLsn, entry⟩, walId, offset⟩ := q
  cases entry <;> rfl

theorem foldl_publish_ttlSecs (s : Settings H) (qs : List (Spot (LogEntry V H))) :
    ((qs.map fun q => q.frame.entry).foldl Settings.publish s).ttlSecs =
      qs.foldl (fun ttl q => (stagedEffect q).overlayTtl ttl) s.ttlSecs := by
  induction qs generalizing s with
  | nil => rfl
  | cons q qs ih =>
    rw [List.map_cons, List.foldl_cons, ih, publish_ttlSecs, List.foldl_cons]

/-- The collection after committing up to an LSN, whether its watermark could be saved or not. -/
def Commits (c : Coll V H) (lsn : ℕ) (d : Coll V H) : Prop :=
  d = c.applyMemory lsn ∨ d = c.applyCommitted lsn

structure Published (c : Coll V H) (lsn : ℕ) (d : Coll V H) : Prop where
  pending : d.pending = c.pending.filter fun q => lsn < q.frame.lsn
  index : d.index = (c.ready lsn).foldl Index.replay c.index
  settings : d.settings = ((c.ready lsn).map fun q =>
    q.frame.entry).foldl Settings.publish c.settings
  files : d.disk.files = c.disk.files
  retired : d.retiredThrough = c.retiredThrough

theorem applyMemory_published (c : Coll V H) (lsn : ℕ) : Published c lsn (c.applyMemory lsn) := by
  obtain ⟨dirty, hfold⟩ := foldl_publish c (c.ready lsn)
  have hmem : c.applyMemory lsn = { c with
      index := (c.ready lsn).foldl Index.replay c.index
      settings := ((c.ready lsn).map fun q => q.frame.entry).foldl Settings.publish c.settings
      richDirty := dirty
      pending := c.pending.filter fun q => lsn < q.frame.lsn
      appliedLsn := max c.appliedLsn lsn } := by
    unfold Coll.ready at hfold
    rw [Coll.applyMemory, hfold]
    rfl
  rw [hmem]
  exact ⟨rfl, rfl, rfl, rfl, rfl⟩

theorem Commits.published {lsn : ℕ} (h : Commits c lsn d) : Published c lsn d := by
  have hmem := applyMemory_published c lsn
  rcases h with rfl | rfl
  · exact hmem
  · obtain ⟨m, p, dirty, saved, seq, hpersist, -⟩ := persistWatermark_eq (c.applyMemory lsn) lsn
    rw [Coll.applyCommitted, hpersist]
    exact ⟨hmem.pending, hmem.index, hmem.settings, hmem.files, hmem.retired⟩

namespace Published

variable {lsn : ℕ}

theorem entryView (h : Published c lsn d) (e : Option IndexEntry) :
    d.entryView e = c.entryView e := by
  have hpayload : ∀ e, d.payloadAt e = c.payloadAt e := by
    intro e
    rw [Coll.payloadAt, Coll.payloadAt, h.files, h.retired]
  cases e with
  | none => rfl
  | some e =>
    have hread : d.readEntry e = c.readEntry e := by
      rw [Coll.readEntry, Coll.readEntry, hpayload]
    rw [Coll.entryView, Coll.entryView, hread]

/-- What is published and what stays staged, in turn, is what was staged. -/
theorem newestEntry (h : Published c lsn d) (hasc : Ascending c.pending) (key : String) :
    d.newestEntry key = c.newestEntry key := by
  have hsplit := filter_split hasc lsn
  calc d.newestEntry key
      = (d.pending.foldl Index.replay d.index).get key := newestEntry_eq d key
    _ = ((c.ready lsn ++ d.pending).foldl Index.replay c.index).get key := by
        rw [List.foldl_append, h.index]
    _ = (c.pending.foldl Index.replay c.index).get key := by
        rw [h.pending, Coll.ready, ← hsplit]
    _ = c.newestEntry key := (newestEntry_eq c key).symm

theorem stagedView (h : Published c lsn d) (hasc : Ascending c.pending) (key : String) :
    d.stagedView key = c.stagedView key := by
  rw [stagedView_eq, stagedView_eq, h.entryView, h.newestEntry hasc]

theorem activeTtlSecs (h : Published c lsn d) (hasc : Ascending c.pending) :
    d.activeTtlSecs = c.activeTtlSecs := by
  have hsplit := filter_split hasc lsn
  have httl : d.committedTtl =
      (c.ready lsn).foldl (fun ttl q => (stagedEffect q).overlayTtl ttl) c.committedTtl := by
    rw [Coll.committedTtl, h.settings, foldl_publish_ttlSecs]
    rfl
  rw [Coll.activeTtlSecs, httl, ← List.foldl_append, h.pending, Coll.ready, ← hsplit]
  rfl

theorem committed_eq_staged (h : Published c lsn d) (hall : ∀ q ∈ c.pending, q.frame.lsn ≤ lsn) :
    (∀ key, d.committedView key = d.stagedView key) ∧ d.committedTtl = d.activeTtlSecs := by
  have hnil : d.pending = [] := by
    rw [h.pending]
    refine List.filter_eq_nil_iff.mpr fun q hq => ?_
    have := hall q hq
    simp only [decide_eq_true_eq]
    omega
  constructor
  · intro key
    rw [committedView_eq, stagedView_eq, newestEntry_eq, hnil]
    rfl
  · rw [Coll.activeTtlSecs, hnil]
    rfl

end Published

end Views

section Runs

variable {c : Coll V H} {s s' : State V H} {limit : ℕ}

omit [Encoded (LogEntry V H)] in
theorem mem_stageAt {q p : Spot (LogEntry V H)} {qs : List (Spot (LogEntry V H))}
    (h : p ∈ stageAt q qs) : p = q ∨ p ∈ qs := by
  induction qs with
  | nil => exact .inl (List.mem_singleton.mp h)
  | cons r qs ih =>
    unfold stageAt at h
    split at h
    · exact List.mem_cons.mp h
    · split at h
      · exact (List.mem_cons.mp h).imp_right (List.mem_cons_of_mem r)
      · rcases List.mem_cons.mp h with rfl | h
        · exact .inr List.mem_cons_self
        · exact (ih h).imp_right (List.mem_cons_of_mem r)

omit [Encoded (LogEntry V H)] in
theorem Ascending.stageAt {qs : List (Spot (LogEntry V H))} (h : Ascending qs)
    (q : Spot (LogEntry V H)) : Ascending (stageAt q qs) := by
  induction qs with
  | nil => exact List.pairwise_singleton _ q
  | cons p qs ih =>
    obtain ⟨hp, hqs⟩ := List.pairwise_cons.mp h
    unfold Recovery.stageAt
    split
    · next hlt =>
      apply List.pairwise_cons.mpr
      constructor
      · intro r hr
        rcases List.mem_cons.mp hr with rfl | hr
        · exact hlt
        · exact Nat.lt_trans hlt (hp r hr)
      · exact h
    · split
      · next heq => exact List.pairwise_cons.mpr ⟨fun r hr => heq ▸ hp r hr, hqs⟩
      · next hge hne =>
        apply List.pairwise_cons.mpr
        constructor
        · intro r hr
          rcases mem_stageAt hr with rfl | hr
          · omega
          · exact hp r hr
        · exact ih hqs

omit [Encoded (LogEntry V H)] in
theorem Ascending.filter {qs : List (Spot (LogEntry V H))} (h : Ascending qs)
    (keep : Spot (LogEntry V H) → Bool) : Ascending (qs.filter keep) :=
  List.Pairwise.filter keep h

theorem replay_ascending (d : Disk V H) (applied : Option ℕ) : Ascending
    (d.replay applied).pending := by
  have hrun : ∀ (qs : List (Spot (LogEntry V H))) (r : Replayed V H), Ascending r.pending →
      Ascending (qs.foldl (Replayed.frame applied) r).pending := by
    intro qs
    induction qs with
    | nil => exact fun r h => h
    | cons q qs ih =>
      intro r h
      apply ih
      unfold Replayed.frame
      split
      · exact h.stageAt q
      · exact h
  exact hrun _ _ List.Pairwise.nil

theorem openCollection_ascending {d : Disk V H} (h : d.openCollection = .ok c) :
    Ascending c.pending := by
  unfold Disk.openCollection at h
  cases hw : d.recordedWatermark with
  | error r => simp [hw, Except.bind] at h
  | ok applied =>
    cases hp : d.position with
    | error r => simp [hw, hp, Except.bind] at h
    | ok pos =>
      cases hd : d.completeRecorded with
      | error r => simp [hw, hp, hd, Except.bind] at h
      | ok d' =>
        simp only [hw, hp, hd, Except.bind] at h
        split at h
        · cases h
        · cases h
          exact replay_ascending d' applied

theorem writeAll_ascending (h : Ascending c.pending) (f : Frame (LogEntry V H)) (torn : Option ℕ) :
    Ascending (c.writeAll f torn).pending := by
  match torn with
  | none => exact h.stageAt _
  | some 0 => exact h
  | some (n + 1) => exact h

omit [Encoded (LogEntry V H)] in
theorem rotateIfFull_pending (c : Coll V H) (limit : ℕ) :
    (c.rotateIfFull limit).pending = c.pending := by
  unfold Coll.rotateIfFull
  split
  · rfl
  · rfl

theorem rewind_ascending (h : Ascending c.pending) (cut : WalCut) : Ascending
    (c.rewind cut).pending := by
  have hdrop : Ascending
    ((c.rewindIndexTail cut.prevLsn cut.prevTerm).dropAbove cut.prevLsn).pending :=
    h.filter _
  unfold Coll.rewind
  dsimp only
  split
  · exact hdrop
  · exact hdrop

theorem append_ascending (h : Ascending c.pending) (lsn term : ℕ) (entry : LogEntry V H)
    (torn : Option ℕ) : Ascending (c.append limit lsn entry term torn).pending := by
  apply writeAll_ascending
  rw [rotateIfFull_pending, (recordWatermarkOnce_eq c).2.2]
  exact h

theorem appendRawFrame_ascending (h : Ascending c.pending) (f : Frame (LogEntry V H))
    (torn : Option ℕ) : Ascending (c.appendRawFrame limit f torn).pending := by
  rw [← (recordWatermarkOnce_eq c).2.2] at h
  unfold Coll.appendRawFrame
  dsimp only
  generalize c.recordWatermarkOnce = c at *
  split
  · exact h
  split
  · exact h
  split
  · split
    · exact h
    · next cut hcut =>
      apply writeAll_ascending
      rw [rotateIfFull_pending]
      exact rewind_ascending h cut
  split
  · exact h
  · apply writeAll_ascending
    rw [rotateIfFull_pending]
    exact h

omit [Encoded (LogEntry V H)] in
theorem freeze_pending (c : Coll V H) : c.freeze.1.pending = c.pending := by
  unfold Coll.freeze
  dsimp only
  split
  · rfl
  · rfl

theorem step_ascending (h : Ascending s.coll.pending) {op : Op V H}
    (hstep : step limit s op = some s') : Ascending s'.coll.pending := by
  have hreopen : ∀ {d : Disk V H}, s.reopen d = some s' → Ascending s'.coll.pending :=
    fun h => openCollection_ascending (reopen_eq h).1
  cases op with
  | append lsn entry term torn =>
    simp only [step] at hstep
    split at hstep
    · cases hstep
      exact append_ascending h lsn term entry torn
    · cases hstep
  | appendRawFrame f torn =>
    simp only [step] at hstep
    split at hstep
    · cases hstep
      exact appendRawFrame_ascending h f torn
    · cases hstep
  | applyCommitted lsn =>
    simp only [step] at hstep
    split at hstep
    · cases hstep
      have hpub : Published s.coll lsn (s.coll.applyCommitted lsn) := Commits.published (.inr rfl)
      rw [hpub.pending]
      exact h.filter _
    · cases hstep
  | syncWal =>
    cases hstep
    exact h
  | saveIndex =>
    cases hstep
    exact h
  | streamSnapshot =>
    cases hstep
    rw [freeze_pending]
    exact h
  | compact retention orphaned =>
    obtain ⟨c', hc', rfl⟩ := Option.map_eq_some_iff.mp hstep
    obtain ⟨hnil, o, -, rfl⟩ := compact_eq hc'
    have hpending : (s.coll.compacted o orphaned).pending = s.coll.pending := rfl
    rw [hpending]
    exact h
  | crash during =>
    cases during with
    | none => exact hreopen hstep
    | some during =>
      obtain ⟨d, -, hstep⟩ := Option.bind_eq_some_iff.mp hstep
      exact hreopen hstep
  | powerCut lsn n =>
    obtain ⟨q, -, hstep⟩ := Option.bind_eq_some_iff.mp hstep
    split at hstep
    · exact hreopen hstep
    · cases hstep

/-- In every state of a run the staged frames are in the order of their LSNs. -/
theorem run_ascending {ops : List (Op V H)} (hrun : run (step limit) State.fresh ops = some s) :
    Ascending s.coll.pending := by
  have hfresh : Ascending (State.fresh : State V H).coll.pending := List.Pairwise.nil
  exact run_invariant (I := fun s => Ascending s.coll.pending)
    (fun _ _ _ h hstep => step_ascending h hstep) hrun hfresh

/-- Committing all that is staged makes the committed reads what the reads over the staged frames
are, and these are the same whatever part of it has been committed. -/
theorem staged_overlay_commits {ops : List (Op V H)}
    (hrun : run (step limit) State.fresh ops = some s) :
    (∀ lsn d, (∀ q ∈ s.coll.pending, q.frame.lsn ≤ lsn) → Commits s.coll lsn d →
      (∀ key, d.committedView key = s.coll.stagedView key) ∧
        d.committedTtl = s.coll.activeTtlSecs) ∧
    (∀ lsn d, Commits s.coll lsn d →
      (∀ key, d.stagedView key = s.coll.stagedView key) ∧
        d.activeTtlSecs = s.coll.activeTtlSecs) := by
  have hasc := run_ascending hrun
  constructor
  · intro lsn d hall hd
    obtain ⟨hview, httl⟩ := hd.published.committed_eq_staged hall
    constructor
    · intro key
      rw [hview key, hd.published.stagedView hasc]
    · rw [httl, hd.published.activeTtlSecs hasc]
  · intro lsn d hd
    exact ⟨hd.published.stagedView hasc, hd.published.activeTtlSecs hasc⟩

/-- A key and a TTL are committed; a drop, another key that expires and a TTL are staged. -/
def overlayOps : List (Op Bool Unit) :=
  [.append 1 (.put false "a" true 7 none) 1 none, .append 2 (.ttl (some 60) 7) 1 none,
    .applyCommitted 2,
    .append 3 (.drop 8) 1 none, .append 4 (.put false "b" true 9 (some 90)) 2 none,
    .append 5 (.ttl (some 30) 9) 2 none]

theorem run_overlayOps : run (step 1000) State.fresh overlayOps = some (afterOps overlayOps) := by
  decide

theorem staged_overlay_commits_drop :
    (afterOps overlayOps).coll.pending.length = 3 ∧
    (∀ key, ((afterOps overlayOps).coll.applyCommitted 5).committedView key =
      (afterOps overlayOps).coll.stagedView key) ∧
    (∀ key, ((afterOps overlayOps).coll.applyCommitted 3).stagedView key =
      (afterOps overlayOps).coll.stagedView key) := by
  obtain ⟨hall, hpart⟩ := staged_overlay_commits run_overlayOps
  have hle : ∀ q ∈ (afterOps overlayOps).coll.pending, q.frame.lsn ≤ 5 := by decide
  exact ⟨by decide, (hall 5 _ hle (.inr rfl)).1, (hpart 3 _ (.inr rfl)).1⟩

end Runs

end DewDB.Recovery
