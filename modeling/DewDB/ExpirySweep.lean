import DewDB.CollectionHandle
import Mathlib.Data.List.Sort
import Mathlib.Data.String.Basic

/-!
# The expiry sweep

The leader reads the committed TTL, walks the index for what is past its deadline under that TTL,
and deletes it batch by batch. A batch takes its key locks, keeps the candidates whose newest
version is still the one the walk found, and appends a delete for each. Writes, patches, TTL changes
and commits come in between; a write to a key waits while a batch holds the key's lock, and a change
of the TTL takes no key lock. The append of a request that is dropped goes on in the blocking pool,
and the lock it was decided under is free meanwhile.
-/
namespace DewDB.ExpirySweep

open CollectionLog WalFile StorageEntry Recovery LastTouch TransitionSystem
open CollectionHandle (Limits Attempt Handle Step Further Holds Tidy)

variable {V H : Type}

def expiresAt (e : IndexEntry) (collectionTtlSecs : Option ℕ) : Option ℕ :=
  e.expireAt.or (collectionTtlSecs.bind fun secs =>
    if 0 < e.ts then some (min (e.ts + min (secs * 1000) (2 ^ 64 - 1)) (2 ^ 64 - 1)) else none)

def Expired (e : IndexEntry) (ttlSecs : Option ℕ) (now : ℕ) : Prop :=
  ∃ d, expiresAt e ttlSecs = some d ∧ d ≤ now

instance (e : IndexEntry) (ttlSecs : Option ℕ) (now : ℕ) : Decidable (Expired e ttlSecs now) :=
  decidable_of_iff ((expiresAt e ttlSecs).any (· ≤ now))
    (by cases h : expiresAt e ttlSecs <;> simp [Expired, h])

/-- The walk of `expired_keys`, in the order of the keys. -/
def expiredKeys (m : Index) (ttlSecs : Option ℕ) (now : ℕ) (owned : String → Bool) :
    List (String × (ℕ × ℕ)) :=
  ((m.filter fun p => owned p.1 && decide (Expired p.2 ttlSecs now)).map fun p =>
    (p.1, p.2.version)).insertionSort fun a b => a.1 ≤ b.1

def sweepBatchSize : ℕ := 64

/-- Where a sweep stands: with the clock reading and the TTL that it began with, the candidates that
are left, and in a batch the keys it still deletes and those it has locked. -/
inductive Phase where
  | idle
  | reading (now : ℕ) (ttlSecs : Option ℕ)
  | sweeping (now : ℕ) (ttlSecs : Option ℕ) (rest : List (String × (ℕ × ℕ)))
  | deleting (now : ℕ) (ttlSecs : Option ℕ) (term : ℕ) (todo locked : List String)
      (rest : List (String × (ℕ × ℕ)))

structure State (V H : Type) where
  handle : Handle V H
  phase : Phase

inductive Op (V H : Type) where
  | other (a : Step V H)
  -- The append of a dropped request, which holds no lock any longer.
  | detached (entry : LogEntry V H) (term : ℕ) (io : Attempt)
  | beginSweep (now : ℕ)
  | scan (owned : String → Bool)
  | nextBatch (owned : String → Bool) (term : ℕ)
  | deleteNext (clock : ℕ) (io : Attempt)
  | endBatch (met : Bool)
  | endSweep

def Phase.locked : Phase → List String
  | .deleting _ _ _ _ locked _ => locked
  | _ => []

def Phase.todo : Phase → List String
  | .deleting _ _ _ todo _ _ => todo
  | _ => []

/-- The append waits for none of the locked keys; a drop takes every key lock. -/
def Free (locked : List String) : Step V H → Prop
  | .append (.put _ key _ _ _) _ _ => key ∉ locked
  | .append (.del _ key _) _ _ => key ∉ locked
  | .append (.drop _) _ _ => locked = []
  | a => Further a

instance (locked : List String) (a : Step V H) : Decidable (Free locked a) := by
  unfold Free
  split
  · infer_instance
  · infer_instance
  · infer_instance
  · unfold Further
    split
    · infer_instance
    · infer_instance

variable [Encoded (LogEntry V H)]

/-- One step of the collection, or of `sweep_collection` and `local_sweep_expired_batch`. -/
def step (limits : Limits) (s : State V H) : Op V H → Option (State V H)
  | .other a =>
    if Free s.phase.locked a then some { s with handle := CollectionHandle.step limits s.handle a }
      else none
  | .detached entry term io =>
    some { s with handle := CollectionHandle.step limits s.handle (.append entry term io) }
  | .beginSweep now =>
    match s.phase with
    | .idle =>
      let c := s.handle.log.coll
      -- With no TTL and nothing that expires by itself there is no walk.
      if c.settings.dropped ∨ c.committedTtl = none ∧ c.index.all fun p =>
        p.2.expireAt = none then some s
      else some { s with phase := .reading now c.committedTtl }
    | _ => none
  | .scan owned =>
    match s.phase with
    | .reading now ttlSecs => some { s with
        phase := .sweeping now ttlSecs (expiredKeys s.handle.log.coll.index ttlSecs now owned) }
    | _ => none
  | .nextBatch owned term =>
    match s.phase with
    | .sweeping now ttlSecs rest =>
      if rest = [] ∨ s.handle.log.coll.settings.dropped then some { s with phase := .idle }
      else
        let chunk := (rest.take sweepBatchSize).filter fun p => owned p.1
        -- Checked again under the key locks, so that a version written meanwhile is kept.
        let todo := chunk.filter fun p => s.handle.log.coll.versionIncludingStaged p.1 = some p.2
        some { s with phase :=
          if todo = [] then .sweeping now ttlSecs (rest.drop sweepBatchSize)
          else .deleting now ttlSecs term (todo.map Prod.fst) (chunk.map Prod.fst) (rest.drop
            sweepBatchSize) }
    | _ => none
  | .deleteNext clock io =>
    match s.phase with
    | .deleting now ttlSecs term (key :: todo) locked rest =>
      match s.handle.append limits (.del false key clock) term io with
      | .error t => some ⟨t, .idle⟩
      | .ok (t, _) => some ⟨t, .deleting now ttlSecs term todo locked rest⟩
    | _ => none
  | .endBatch met =>
    match s.phase with
    | .deleting now ttlSecs _ [] _ rest =>
        some { s with phase := if met then .sweeping now ttlSecs rest else .idle }
    | _ => none
  | .endSweep =>
    match s.phase with
    | .sweeping _ _ _ => some { s with phase := .idle }
    | _ => none

/-- The delete that comes next removes a version that is past its deadline, by its own expiry or by
the TTL in force in the log. -/
def DeletesExpired (s : State V H) : Op V H → Prop
  | .deleteNext _ _ =>
    match s.phase with
    | .deleting now _ _ (key :: _) _ _ =>
      ∀ e ∈ s.handle.log.coll.newestEntry key, Expired e s.handle.log.coll.activeTtlSecs now
    | _ => True
  | _ => True

def NotLonger : Option ℕ → Option ℕ → Prop
  | some active, some began => active ≤ began
  | _, _ => False

def Spares (keys : List String) : LogEntry V H → Prop
  | .put _ key _ _ _ => key ∉ keys
  | _ => True

/-- The document that the next delete removes has an expiry of its own, or the TTL in force is no
longer than the one the sweep began with; and no dropped request puts a key between its check and
its delete. -/
def Kept (s : State V H) : Op V H → Prop
  | .detached entry _ _ => Spares s.phase.todo entry
  | .deleteNext _ _ =>
    match s.phase with
    | .deleting _ ttlSecs _ (key :: _) _ _ =>
      s.handle.log.coll.expireAtIncludingStaged key ≠ none ∨
        NotLonger s.handle.log.coll.activeTtlSecs ttlSecs
    | _ => True
  | _ => True

instance (active began : Option ℕ) : Decidable (NotLonger active began) := by
  unfold NotLonger
  split <;> infer_instance

instance (keys : List String) (entry : LogEntry V H) : Decidable (Spares keys entry) := by
  unfold Spares
  split <;> infer_instance

instance (s : State V H) (op : Op V H) : Decidable (Kept s op) := by
  unfold Kept
  split
  · infer_instance
  · split <;> infer_instance
  · infer_instance

instance (s : State V H) (op : Op V H) : Decidable (DeletesExpired s op) := by
  unfold DeletesExpired
  split
  · split <;> infer_instance
  · infer_instance

section Deadlines

variable {e : IndexEntry} {now : ℕ}

theorem Expired.of_own {ttlSecs ttlSecs' : Option ℕ} (h : Expired e ttlSecs now)
    (hown : e.expireAt ≠ none) : Expired e ttlSecs' now := by
  obtain ⟨d, hd, hle⟩ := h
  obtain ⟨own, howned⟩ := Option.ne_none_iff_exists'.mp hown
  refine ⟨d, ?_, hle⟩
  rw [expiresAt, howned, Option.some_or] at hd ⊢
  exact hd

theorem Expired.of_le {began active : ℕ} (h : Expired e (some began) now) (hle : active ≤ began) :
    Expired e (some active) now := by
  cases hown : e.expireAt with
  | some own => exact h.of_own (by rw [hown]; exact Option.some_ne_none own)
  | none =>
    obtain ⟨d, hd, hnow⟩ := h
    simp only [Expired, expiresAt, hown, Option.none_or, Option.bind_some] at hd ⊢
    split at hd
    · next hts =>
      rw [if_pos hts]
      refine ⟨_, rfl, ?_⟩
      have hd := Option.some.inj hd
      omega
    · cases hd

end Deadlines

section Lookups

variable {c d : Coll V H} {key : String} {e : IndexEntry}

theorem versionIncludingStaged_eq (c : Coll V H) (key : String) :
    c.versionIncludingStaged key = (c.newestEntry key).map IndexEntry.version := by
  unfold Coll.versionIncludingStaged Coll.newestEntry
  cases c.findStaged key <;> rfl

theorem expireAtIncludingStaged_eq (c : Coll V H) (key : String) :
    c.expireAtIncludingStaged key = (c.newestEntry key).bind IndexEntry.expireAt := by
  unfold Coll.expireAtIncludingStaged Coll.newestEntry
  cases c.findStaged key <;> rfl

theorem newestEntry_congr (hindex : d.index = c.index) (hpending : d.pending = c.pending)
    (key : String) : d.newestEntry key = c.newestEntry key := by
  rw [newestEntry_eq, newestEntry_eq, hindex, hpending]

/-- A frame staged behind all others has the last word on the keys it touches. -/
theorem newestEntry_stage {q : Spot (LogEntry V H)} (hindex : d.index = c.index)
    (hpending : d.pending = stageAt q c.pending)
    (hlast : ∀ p ∈ c.pending, p.frame.lsn < q.frame.lsn) (key : String) :
    d.newestEntry key = (resolve q key).getD (c.newestEntry key) := by
  rw [newestEntry_eq, newestEntry_eq, hindex, hpending, stageAt_append hlast, List.foldl_append]
  exact Index.get_replay _ q key

end Lookups

/-- What is published is below what is staged, and nothing is above the counter. -/
structure Layered (h : Handle V H) : Prop where
  tidy : Tidy h.log
  keys : (h.log.coll.index.map Prod.fst).Nodup
  published : ∀ key e, h.log.coll.index.get key = some e →
    e.lsn ≤ h.log.nextLsn ∧ ∀ q ∈ h.log.coll.pending, e.lsn < q.frame.lsn
  staged : ∀ q ∈ h.log.coll.pending, q.frame.lsn ≤ h.log.nextLsn

section Layers

variable {h t : Handle V H} {key : String} {e e' : IndexEntry}

theorem holds_of_newest (he : h.log.coll.newestEntry key = some e) : Holds h key e := by
  rw [Coll.newestEntry, findStaged_eq] at he
  cases htouch : lastTouch resolve h.log.coll.pending key with
  | none =>
    rw [htouch] at he
    exact .inl he
  | some r =>
    rw [htouch] at he
    obtain rfl : r = some e := he
    obtain ⟨as, q, bs, hsplit, hq, -⟩ := lastTouch_eq_some.mp htouch
    refine .inr ⟨q, ?_, hq⟩
    rw [hsplit]
    exact List.mem_append_right _ List.mem_cons_self

theorem Layered.unique (hl : Layered h) (he : Holds h key e) (he' : Holds h key e')
    (hv : e.version = e'.version) : e = e' := by
  have hlsn : e.lsn = e'.lsn := congrArg Prod.snd hv
  rcases he with hget | ⟨q, hq, hres⟩
  · rcases he' with hget' | ⟨q', hq', hres'⟩
    · exact Option.some.inj (hget.symm.trans hget')
    · have hlt := (hl.published key e hget).2 q' hq'
      rw [hlsn, CollectionHandle.lsn_of_resolve hres'] at hlt
      omega
  · have hq_lsn := CollectionHandle.lsn_of_resolve hres
    rcases he' with hget' | ⟨q', hq', hres'⟩
    · have hlt := (hl.published key e' hget').2 q hq
      omega
    · have hq'_lsn := CollectionHandle.lsn_of_resolve hres'
      have hdistinct : (h.log.coll.pending.map fun q => q.frame.lsn).Nodup :=
        List.pairwise_map.mpr (hl.tidy.ascending.imp Nat.ne_of_lt)
      have heq : q = q' := List.inj_on_of_nodup_map hdistinct hq hq' (by omega)
      rw [(resolve_put hres).1, (resolve_put hres').1, heq]

omit [Encoded (LogEntry V H)] in
theorem Layered.of_same (hl : Layered h) (hsame : CollectionHandle.Same h.log t.log)
    (htidy : Tidy t.log) : Layered t := by
  have hlsn := hsame.nextLsn
  constructor
  · exact htidy
  · rw [hsame.index]
    exact hl.keys
  · rw [hsame.index, hsame.pending]
    exact fun key e he => ⟨(hl.published key e he).1.trans hlsn, (hl.published key e he).2⟩
  · rw [hsame.pending]
    exact fun q hq => (hl.staged q hq).trans hlsn

omit [Encoded (LogEntry V H)] in
theorem Layered.stages (hl : Layered h) {f : Frame (LogEntry V H)}
    (hs : CollectionHandle.Stages h.log f t.log)
    (htidy : Tidy t.log) (hlsn : f.lsn = h.log.nextLsn + 1)
    (hnext : t.log.nextLsn = h.log.nextLsn + 1) : Layered t := by
  obtain ⟨walId, offset, hpending⟩ := hs.pending
  constructor
  · exact htidy
  · rw [hs.index]
    exact hl.keys
  · intro key e he
    rw [hs.index] at he
    obtain ⟨hle, hlt⟩ := hl.published key e he
    refine ⟨by omega, fun q hq => ?_⟩
    rw [hpending] at hq
    rcases mem_stageAt hq with rfl | hq
    · dsimp only
      omega
    · exact hlt q hq
  · intro q hq
    rw [hpending] at hq
    rcases mem_stageAt hq with rfl | hq
    · dsimp only
      omega
    · have := hl.staged q hq
      omega

theorem Layered.publishes (hl : Layered h) {lsn : ℕ}
    (hp : CollectionHandle.Publishes h.log lsn t.log) : Layered t := by
  constructor
  · exact hp.tidy hl.tidy
  · rw [hp.published.index]
    exact Index.nodup_foldl_replay hl.keys _
  · intro key e he
    rw [hp.published.index, Index.get_foldl] at he
    rw [hp.nextLsn, hp.published.pending]
    cases htouch : lastTouch resolve (h.log.coll.ready lsn) key with
    | none =>
      rw [htouch] at he
      obtain ⟨hle, hlt⟩ := hl.published key e he
      exact ⟨hle, fun q hq => hlt q (List.mem_of_mem_filter hq)⟩
    | some r =>
      rw [htouch] at he
      obtain rfl : r = some e := he
      obtain ⟨as, q, bs, hready, hq, -⟩ := lastTouch_eq_some.mp htouch
      have hmem : q ∈ h.log.coll.ready lsn := by
        rw [hready]
        exact List.mem_append_right _ List.mem_cons_self
      obtain ⟨hstaged, hle⟩ := List.mem_filter.mp hmem
      have hle := of_decide_eq_true hle
      rw [CollectionHandle.lsn_of_resolve hq]
      refine ⟨hl.staged q hstaged, fun p hp => ?_⟩
      have := of_decide_eq_true (List.mem_filter.mp hp).2
      omega
  · intro q hq
    rw [hp.published.pending] at hq
    rw [hp.nextLsn]
    exact hl.staged q (List.mem_of_mem_filter hq)

theorem Layered.step (hl : Layered h) (limits : Limits) {a : Step V H} (ha : Further a) :
    Layered (CollectionHandle.step limits h a) := by
  cases a with
  | append entry term io =>
    simp only [CollectionHandle.step]
    rcases CollectionHandle.append_cases limits hl.tidy entry term io with
      ⟨t, ht, hsame, htidy, -⟩ | ⟨t, f, ht, hs, htidy, -, -, hlsn, hnext, -⟩
    · rw [ht]
      exact hl.of_same hsame htidy
    · rw [ht]
      exact hl.stages hs htidy hlsn hnext
  | appendRawFrame f io => exact ha.elim
  | applyCommitted lsn saved =>
      exact hl.publishes (CollectionHandle.applyCommitted_publishes h lsn saved)
  | syncWal synced =>
    simp only [CollectionHandle.step, FencedLog.Log.syncWal]
    split
    · exact ⟨⟨hl.tidy.ascending, hl.tidy.below⟩, hl.keys, hl.published, hl.staged⟩
    · exact hl
  | raiseNextLsn lsn =>
    have hle := Nat.le_max_left h.log.nextLsn lsn
    exact ⟨⟨hl.tidy.ascending, hl.tidy.below⟩, hl.keys,
      fun key e he => ⟨(hl.published key e he).1.trans hle, (hl.published key e he).2⟩,
      fun q hq => (hl.staged q hq).trans hle⟩
  | releaseHandles =>
    constructor
    · exact (CollectionHandle.step_tidy limits hl.tidy .releaseHandles).1
    · exact List.nodup_nil
    · intro key e he
      cases he
    · intro q hq
      cases hq

theorem resolve_of_spares {keys : List String} {q : Spot (LogEntry V H)}
    (hspares : Spares keys q.frame.entry) (hkey : key ∈ keys) :
    resolve q key = none ∨ resolve q key = some none := by
  unfold resolve
  cases hentry : q.frame.entry with
  | put _ k _ _ _ =>
    rw [hentry] at hspares
    exact .inl (if_neg fun heq : k = key => hspares (heq ▸ hkey))
  | del _ k _ =>
    by_cases heq : k = key
    · exact .inr (if_pos heq)
    · exact .inl (if_neg heq)
  | drop _ => exact .inr rfl
  | _ => exact .inl rfl

/-- An append that does not put the key leaves its newest entry alone, or takes it away. -/
theorem newestEntry_of_append (hl : Layered h) (limits : Limits) {keys : List String}
    {entry : LogEntry V H} (hspares : Spares keys entry) (hkey : key ∈ keys) (term : ℕ)
    (io : Attempt) :
    (CollectionHandle.step limits h (.append entry term io)).log.coll.newestEntry key =
        h.log.coll.newestEntry key ∨
      (CollectionHandle.step limits h (.append entry term io)).log.coll.newestEntry key = none := by
  simp only [CollectionHandle.step]
  rcases CollectionHandle.append_cases limits hl.tidy entry term io with
    ⟨t, ht, hsame, -⟩ | ⟨t, f, ht, hs, -, hentry, -, hlsn, -⟩
  · rw [ht]
    exact .inl (newestEntry_congr hsame.index hsame.pending key)
  · rw [ht]
    obtain ⟨walId, offset, hpending⟩ := hs.pending
    have hlast : ∀ p ∈ h.log.coll.pending, p.frame.lsn < f.lsn := by
      intro p hp
      have := hl.staged p hp
      omega
    change t.log.coll.newestEntry key = _ ∨ t.log.coll.newestEntry key = none
    rw [newestEntry_stage hs.index hpending hlast]
    rcases resolve_of_spares (q := ⟨f, walId, offset⟩) (hentry ▸ hspares) hkey with hnone | hgone
    · exact .inl (by rw [hnone, Option.getD_none])
    · exact .inr (by rw [hgone, Option.getD_some])

omit [Encoded (LogEntry V H)] in
theorem spares_of_free {locked : List String} {entry : LogEntry V H} {term : ℕ} {io : Attempt}
    (ha : Free locked (.append entry term io)) : Spares locked entry := by
  cases entry with
  | put _ _ _ _ _ => exact ha
  | _ => trivial

/-- The steps that wait for no lock on the key leave its newest entry alone, or take it away. -/
theorem newestEntry_of_step (hl : Layered h) (limits : Limits) {locked : List String} {a : Step V H}
    (ha : Free locked a) (hkey : key ∈ locked) :
    (CollectionHandle.step limits h a).log.coll.newestEntry key = h.log.coll.newestEntry key ∨
      (CollectionHandle.step limits h a).log.coll.newestEntry key = none := by
  cases a with
  | append entry term io => exact newestEntry_of_append hl limits (spares_of_free ha) hkey term io
  | appendRawFrame f io => exact ha.elim
  | applyCommitted lsn saved =>
    exact .inl ((CollectionHandle.applyCommitted_publishes h lsn saved).published.newestEntry
      hl.tidy.ascending key)
  | syncWal synced =>
    apply Or.inl
    simp only [CollectionHandle.step, FencedLog.Log.syncWal]
    split
    · rfl
    · rfl
  | raiseNextLsn lsn => exact .inl rfl
  | releaseHandles => exact .inr rfl

end Layers

end DewDB.ExpirySweep
