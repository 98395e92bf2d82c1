import DewDB.CompactionSafety
import DewDB.ExpirySweep

/-!
# What the sweep deletes

A candidate's version names one entry of its key, and that entry was past its deadline under the TTL
that the sweep began with. The version is checked again under the key lock. What can come before the
delete is a change of the TTL, staged or committed, and the append of a request that was dropped.
-/
namespace DewDB.ExpirySweep

open CollectionLog WalFile StorageEntry Recovery LastTouch TransitionSystem
open CollectionHandle (Limits Attempt Handle Step Further Holds Tidy)

variable {V H : Type} [Encoded (LogEntry V H)]

/-- Whatever entry the candidate's version names is past its deadline. -/
def Known (h : Handle V H) (ttlSecs : Option ℕ) (now : ℕ) (p : String × (ℕ × ℕ)) : Prop :=
  p.2.2 ≤ h.log.nextLsn ∧ ∀ e, Holds h p.1 e → e.version = p.2 → Expired e ttlSecs now

/-- The delete of a key that is locked removes an entry past its deadline. -/
def Doomed (h : Handle V H) (ttlSecs : Option ℕ) (now : ℕ) (key : String) : Prop :=
  ∀ e, h.log.coll.newestEntry key = some e → Expired e ttlSecs now

def PhaseOk (h : Handle V H) : Phase → Prop
  | .idle => True
  | .reading _ _ => True
  | .sweeping now ttlSecs rest => ∀ p ∈ rest, Known h ttlSecs now p
  | .deleting now ttlSecs _ todo locked rest =>
    (∀ p ∈ rest, Known h ttlSecs now p) ∧ ∀ key ∈ todo, key ∈ locked ∧ Doomed h ttlSecs now key

structure SweepInv (s : State V H) : Prop where
  layered : Layered s.handle
  phase : PhaseOk s.handle s.phase

section Steps

variable {h : Handle V H} {s t : State V H} {limits : Limits} {ttlSecs : Option ℕ} {now : ℕ}

theorem Known.step {p : String × (ℕ × ℕ)} (hk : Known h ttlSecs now p) (hl : Layered h)
    {a : Step V H} (ha : Further a) : Known (CollectionHandle.step limits h a) ttlSecs now p := by
  obtain ⟨hle, hexpired⟩ := hk
  refine ⟨hle.trans (CollectionHandle.step_tidy limits hl.tidy a).2, fun e he hversion => ?_⟩
  rcases CollectionHandle.holds_of_step limits hl.tidy ha he with he | hlt
  · exact hexpired e he hversion
  · have : e.lsn = p.2.2 := congrArg Prod.snd hversion
    omega

omit [Encoded (LogEntry V H)] in
theorem further_of_free {locked : List String} {a : Step V H} (ha : Free locked a) : Further a := by
  cases a with
  | appendRawFrame f io => exact ha
  | _ => trivial

theorem Doomed.step {key : String} (hd : Doomed h ttlSecs now key) (hl : Layered h)
    {locked : List String} {a : Step V H} (ha : Free locked a) (hkey : key ∈ locked) :
    Doomed (CollectionHandle.step limits h a) ttlSecs now key := by
  intro e he
  rcases newestEntry_of_step hl limits ha hkey with hsame | hnone
  · exact hd e (hsame ▸ he)
  · rw [hnone] at he
    cases he

/-- The append of a dropped request that puts none of the keys that are to be deleted. -/
theorem PhaseOk.detached {phase : Phase} (hp : PhaseOk h phase) (hl : Layered h)
    {entry : LogEntry V H} (hspares : Spares phase.todo entry) (term : ℕ) (io : Attempt) :
    PhaseOk (CollectionHandle.step limits h (.append entry term io)) phase := by
  cases phase with
  | idle => trivial
  | reading now ttlSecs => trivial
  | sweeping now ttlSecs rest => exact fun p hmem => (hp p hmem).step hl trivial
  | deleting now ttlSecs term' todo locked rest =>
    refine ⟨fun p hmem => (hp.1 p hmem).step hl trivial, fun key hkey => ?_⟩
    obtain ⟨hlocked, hd⟩ := hp.2 key hkey
    refine ⟨hlocked, fun e he => ?_⟩
    rcases newestEntry_of_append hl limits hspares hkey term io with hsame | hnone
    · exact hd e (hsame ▸ he)
    · rw [hnone] at he
      cases he

theorem PhaseOk.step {phase : Phase} (hp : PhaseOk h phase) (hl : Layered h) {a : Step V H}
    (ha : Free phase.locked a) : PhaseOk (CollectionHandle.step limits h a) phase := by
  have hfurther := further_of_free ha
  cases phase with
  | idle => trivial
  | reading now ttlSecs => trivial
  | sweeping now ttlSecs rest => exact fun p hmem => (hp p hmem).step hl hfurther
  | deleting now ttlSecs term todo locked rest =>
    constructor
    · exact fun p hmem => (hp.1 p hmem).step hl hfurther
    · intro key hkey
      obtain ⟨hlocked, hd⟩ := hp.2 key hkey
      exact ⟨hlocked, hd.step hl ha hlocked⟩

theorem Layered.known (hl : Layered h) {owned : String → Bool} {p : String × (ℕ × ℕ)}
    (hp : p ∈ expiredKeys h.log.coll.index ttlSecs now owned) : Known h ttlSecs now p := by
  have hmem := (List.perm_insertionSort _ _).subset hp
  obtain ⟨⟨key, e⟩, hq, rfl⟩ := List.mem_map.mp hmem
  obtain ⟨hindex, hcheck⟩ := List.mem_filter.mp hq
  have hexpired : Expired e ttlSecs now := of_decide_eq_true (Bool.and_eq_true_iff.mp hcheck).2
  have hget : h.log.coll.index.get key = some e := Index.get_of_mem hl.keys hindex
  refine ⟨(hl.published key e hget).1, fun e' he' hversion => ?_⟩
  rwa [hl.unique he' (.inl hget) hversion]

theorem Known.doomed {p : String × (ℕ × ℕ)} (hk : Known h ttlSecs now p)
    (hversion : h.log.coll.versionIncludingStaged p.1 = some p.2) : Doomed h ttlSecs now p.1 := by
  intro e he
  rw [versionIncludingStaged_eq, he] at hversion
  exact hk.2 e (holds_of_newest he) (Option.some.inj hversion)

theorem Doomed.delete {key deleted : String} (hd : Doomed h ttlSecs now key) (hl : Layered h)
    {t : Handle V H}
    {f : Frame (LogEntry V H)} (hs : CollectionHandle.Stages h.log f t.log) {clock : ℕ}
    (hentry : f.entry = .del false deleted clock) (hlsn : f.lsn = h.log.nextLsn + 1) :
    Doomed t ttlSecs now key := by
  obtain ⟨walId, offset, hpending⟩ := hs.pending
  have hlast : ∀ p ∈ h.log.coll.pending, p.frame.lsn < f.lsn := by
    intro p hp
    have := hl.staged p hp
    omega
  intro e he
  rw [newestEntry_stage hs.index hpending hlast] at he
  unfold resolve at he
  dsimp only at he
  rw [hentry] at he
  dsimp only at he
  split at he
  · cases he
  · exact hd e he

theorem step_inv (h : SweepInv s) {op : Op V H} (hkept : Kept s op)
    (hstep : step limits s op = some t) : SweepInv t := by
  obtain ⟨hl, hp⟩ := h
  cases op with
  | detached entry term io =>
    cases hstep
    exact ⟨hl.step limits (a := .append entry term io) trivial, hp.detached hl hkept term io⟩
  | other a =>
    simp only [step] at hstep
    split at hstep
    · next hfree =>
      cases hstep
      exact ⟨hl.step limits (further_of_free hfree), hp.step hl hfree⟩
    · cases hstep
  | beginSweep now =>
    simp only [step] at hstep
    split at hstep
    · split at hstep
      · cases hstep
        exact ⟨hl, hp⟩
      · cases hstep
        exact ⟨hl, trivial⟩
    · cases hstep
  | scan owned =>
    simp only [step] at hstep
    split at hstep
    · cases hstep
      exact ⟨hl, fun p hmem => hl.known hmem⟩
    · cases hstep
  | nextBatch owned term =>
    simp only [step] at hstep
    split at hstep
    · next now ttlSecs rest hphase =>
      rw [hphase] at hp
      split at hstep
      · cases hstep
        exact ⟨hl, trivial⟩
      · cases hstep
        refine ⟨hl, ?_⟩
        dsimp only
        have hrest : ∀ p ∈ rest.drop sweepBatchSize, Known s.handle ttlSecs now p :=
          fun p hmem => hp p (List.mem_of_mem_drop hmem)
        split
        · exact hrest
        · refine ⟨hrest, fun key hkey => ?_⟩
          obtain ⟨p, hmem, rfl⟩ := List.mem_map.mp hkey
          obtain ⟨hchunk, hversion⟩ := List.mem_filter.mp hmem
          have hknown := hp p (List.mem_of_mem_take (List.mem_of_mem_filter hchunk))
          exact ⟨List.mem_map_of_mem hchunk, hknown.doomed (of_decide_eq_true hversion)⟩
    · cases hstep
  | deleteNext clock io =>
    simp only [step] at hstep
    split at hstep
    · next now ttlSecs term key todo locked rest hphase =>
      rw [hphase] at hp
      rcases CollectionHandle.append_cases limits hl.tidy (.del false key clock) term io with
        ⟨u, hu, hsame, htidy, -⟩ | ⟨u, f, hu, hs, htidy, hentry, -, hlsn, hnext, -⟩
      · rw [hu] at hstep
        cases hstep
        exact ⟨hl.of_same hsame htidy, trivial⟩
      · have hstep' : CollectionHandle.step limits s.handle
          (.append (.del false key clock) term io) = u := by
          simp only [CollectionHandle.step, hu]
          rfl
        rw [hu] at hstep
        cases hstep
        refine ⟨hl.stages hs htidy hlsn hnext, fun p hmem => ?_, fun k hk => ?_⟩
        · rw [← hstep']
          exact (hp.1 p hmem).step hl trivial
        · obtain ⟨hlocked, hd⟩ := hp.2 k (List.mem_cons_of_mem key hk)
          exact ⟨hlocked, hd.delete hl hs hentry hlsn⟩
    · cases hstep
  | endBatch met =>
    simp only [step] at hstep
    split at hstep
    · next now ttlSecs term locked rest hphase =>
      rw [hphase] at hp
      cases hstep
      refine ⟨hl, ?_⟩
      dsimp only
      split
      · exact hp.1
      · trivial
    · cases hstep
  | endSweep =>
    simp only [step] at hstep
    split at hstep
    · cases hstep
      exact ⟨hl, trivial⟩
    · cases hstep

/-- The next delete is of an entry past its deadline under the TTL that the sweep began with. -/
theorem SweepInv.deletes (h : SweepInv s) {op : Op V H} (hkept : Kept s op) :
    DeletesExpired s op := by
  cases op with
  | deleteNext clock io =>
    have hp := h.phase
    simp only [Kept, DeletesExpired] at hkept ⊢
    split
    · next now ttlSecs term key todo locked rest hphase =>
      rw [hphase] at hkept hp
      intro e he
      have he : s.handle.log.coll.newestEntry key = some e := he
      have hexpired : Expired e ttlSecs now := (hp.2 key List.mem_cons_self).2 e he
      rcases hkept with hown | hshorter
      · rw [expireAtIncludingStaged_eq, he] at hown
        exact hexpired.of_own hown
      · unfold NotLonger at hshorter
        split at hshorter
        · next active began hactive =>
          rw [hactive]
          exact hexpired.of_le hshorter
        · exact hshorter.elim
    · trivial
  | _ => trivial

theorem SweepInv.meets (h : SweepInv s) {ops : List (Op V H)}
    (hkept : Meets (step limits) Kept s ops) : Meets (step limits) DeletesExpired s ops := by
  induction ops generalizing s with
  | nil => trivial
  | cons op ops ih => exact ⟨h.deletes hkept.1, fun t ht =>
      ih (step_inv h hkept.1 ht) (hkept.2 t ht)⟩

end Steps

/-- A handle on a collection that has been created or recovered, with no sweep under way. -/
def Start (s : State V H) : Prop :=
  ∃ (c : Coll V H) (nextLsn : ℕ) (history : List (Frame (LogEntry V H))), Inv c history ∧
    s = ⟨⟨.ofColl c nextLsn history, false⟩, .idle⟩

theorem Start.inv {s : State V H} (h : Start s) : SweepInv s := by
  obtain ⟨c, nextLsn, history, hinv, rfl⟩ := h
  have hcommitted : ∀ key e, c.index.get key = some e → e.lsn ≤ c.appliedLsn := fun key e he =>
    hinv.index.committed (key, e) (List.mem_append_left _ (Index.mem_of_get he))
  refine ⟨⟨.of_unfenced hinv.log.ascending rfl, hinv.index.keys, fun key e he =>
    ?_, fun q hq => ?_⟩, trivial⟩
  · have hle := hcommitted key e he
    refine ⟨hle.trans (hinv.log.applied_le.trans (Nat.le_max_right _ _)), fun q hq => ?_⟩
    exact Nat.lt_of_le_of_lt hle (hinv.log.staged q hq)
  · exact (hinv.log.bound (hinv.log.pending_mem hq)).trans (Nat.le_max_right _ _)

/-- As long as no TTL longer than the one the sweep began with is in force when it deletes a
document without an expiry of its own, and no dropped request puts a key between its check and its
delete, every delete that it appends is of a version past its deadline. -/
theorem sweep_deletes_expired {limits : Limits} {s : State V H} {ops : List (Op V H)}
    (hstart : Start s)
    (hkept : Meets (step limits) Kept s ops) : Meets (step limits) DeletesExpired s ops :=
  hstart.inv.meets hkept

/-- A document is written at 1000 and committed with a TTL of one second; a sweep at 5000 finds it,
and then the TTL is set anew. Under the locks of the batch a dropped request puts another document.
-/
def sweepOps (ttlSecs : Option ℕ) : List (Op Bool Unit) :=
  [.other (.append (.put false "a" true 1000 none) 1 .allDone),
    .other (.append (.ttl (some 1) 1000) 1 .allDone),
    .other (.applyCommitted 2 true), .beginSweep 5000, .scan fun _ => true,
    .other (.append (.ttl ttlSecs 5001) 1 .allDone), .nextBatch (fun _ => true) 1,
    .detached (.put false "b" true 5001 none) 1 .allDone, .deleteNext 5002 .allDone]

def roomy : Limits := ⟨10, 100⟩

def newCollection : State Bool Unit :=
  ⟨⟨.ofColl (Recovery.State.fresh : Recovery.State Bool Unit).coll 0 [], false⟩, .idle⟩

theorem start_newCollection : Start newCollection := ⟨_, 0, _, fresh_inv, rfl⟩

theorem sweep_deletes_expired_shorter : Meets (step roomy) DeletesExpired newCollection
    (sweepOps (some 1)) :=
  sweep_deletes_expired start_newCollection (by decide)

/-- The same sweep while the TTL stays. A put of the document is dropped while its append waits on
the blocking pool, and the append runs behind the check of the batch. -/
def droppedOps : List (Op Bool Unit) :=
  [.other (.append (.put false "a" true 1000 none) 1 .allDone),
    .other (.append (.ttl (some 1) 1000) 1 .allDone), .other (.applyCommitted 2 true),
    .beginSweep 5000, .scan fun _ => true, .nextBatch (fun _ => true) 1,
    .detached (.put false "a" false 5001 (some 90000)) 1 .allDone, .deleteNext 5002 .allDone]

/-- The TTL is raised to an hour, and the document goes all the same. So does the document that was
put anew, with an expiry of its own far ahead. -/
theorem sweep_deletes_unexpired : Start newCollection ∧
    ¬Meets (step roomy) DeletesExpired newCollection (sweepOps (some 3600)) ∧
    ((run (step roomy) newCollection (sweepOps (some 3600))).map fun s =>
      s.handle.log.coll.newestEntry "a") = some none ∧
    ¬Meets (step roomy) DeletesExpired newCollection droppedOps ∧
    ((run (step roomy) newCollection droppedOps).map fun s => s.handle.log.coll.newestEntry "a") =
      some none :=
  ⟨start_newCollection, by decide, by decide, by decide, by decide⟩

end DewDB.ExpirySweep
