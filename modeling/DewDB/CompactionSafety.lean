import DewDB.CollectionRun

/-!
# Content across a compaction

What a compaction that succeeds, or that a crash cuts short, leaves of the collection, in every
state of a run.
-/
namespace DewDB.Recovery

open CollectionLog WalFile WalWriter StorageEntry TransitionSystem

variable {V H : Type} [Encoded (LogEntry V H)] {c c' : Coll V H}
  {history : List (Frame (LogEntry V H))} {retention : Retention} {orphaned : List ℕ}

/-- The live keys read as before, the staged frames are the same, and no key has its entry in a WAL
that is retired. -/
structure Preserved (c c' : Coll V H) : Prop where
  views : ∀ key, c'.view key = c.view key
  pending : c'.pending = c.pending
  resolves : ∀ p ∈ c'.index, c'.retiredThrough < p.2.walId

theorem readLive_some {fs : List (File (LogEntry V H))} {ps : List (String × IndexEntry)}
    (h : ∀ p ∈ ps, ∃ f, frameAt fs p.2.walId p.2.offset = some f ∧ LogEntry.isPut f.entry = true) :
    ∃ rs, readLive fs ps = some rs := by
  induction ps with
  | nil => exact ⟨[], rfl⟩
  | cons p ps ih =>
    obtain ⟨f, hf, hput⟩ := h p List.mem_cons_self
    obtain ⟨rs, hrs⟩ := ih fun p hp => h p (List.mem_cons_of_mem _ hp)
    refine ⟨(p.1, p.2, f) :: rs, ?_⟩
    rw [readLive] at hrs
    rw [readLive, List.mapM_cons, hf, hrs]
    simp [hput]

theorem Inv.compactedWal_some (h : Inv c history) (plan : Plan) :
    ∃ o, c.started.compactedWal c.currentWalId plan = some o := by
  have hlive : ∃ rs, readLive c.started.disk.files
    (c.started.frozenIndex c.currentWalId plan.tail) = some rs := by
    apply readLive_some
    intro p hp
    obtain ⟨hindex, -⟩ := mem_frozenIndex.mp hp
    obtain ⟨q, hq, hres⟩ := h.index.located p hindex
    obtain ⟨he, migration, value, ts, expireAt, hput⟩ := resolve_put hres
    refine ⟨q.frame, ?_, by rw [hput]; rfl⟩
    rw [he, entryOf_walId, entryOf_offset]
    exact frameAt_of_spot h.started.files.sorted ((spots_started c).symm ▸ hq)
  obtain ⟨rs, hrs⟩ := hlive
  exact ⟨_, by rw [Coll.compactedWal, hrs]; rfl⟩

theorem startCompaction_some (hnil : c.pending = [])
    (hmin : retention.minReclaimBytes ≤ (c.planCompaction retention).reclaimable) :
    c.startCompaction retention = some (c.started, c.planCompaction retention) := by
  rw [Coll.startCompaction, if_neg (not_not.mpr hnil)]
  dsimp only
  rw [if_neg (Nat.not_lt.mpr hmin)]
  rfl

theorem Inv.compact_some (h : Inv c history) (retention : Retention) (hnil : c.pending = [])
    (hmin : retention.minReclaimBytes ≤ (c.planCompaction retention).reclaimable)
    (orphaned : List ℕ) : ∃ c', c.compact retention orphaned = some c' := by
  obtain ⟨o, ho⟩ := h.compactedWal_some (c.planCompaction retention)
  exact ⟨c.compacted o orphaned, by
    simp only [Coll.compact, startCompaction_some hnil hmin, Option.bind_some, ho, Option.map_some];
      rfl⟩

theorem Inv.renamed_some (h : Inv c history) (retention : Retention) (hnil : c.pending = [])
    (hmin : retention.minReclaimBytes ≤ (c.planCompaction retention).reclaimable) :
    ∃ d, c.stopped retention .renamed = some d := by
  obtain ⟨o, ho⟩ := h.compactedWal_some (c.planCompaction retention)
  exact ⟨(c.started.renameCompacted c.currentWalId o).disk, by
    simp only [Coll.stopped, startCompaction_some hnil hmin, Option.bind_some, ho, Option.map_some]⟩

theorem Inv.get_blocked (h : Inv c history) {o : Output V H}
    (ho : c.started.compactedWal c.currentWalId (c.planCompaction retention) = some o)
    {t : TailStart}
    (ht : (c.planCompaction retention).tail = some t) {p : String × IndexEntry} (hp : p ∈ c.index)
    {F : File (LogEntry V H)} (hF : F ∈ c.disk.files) (hle : t.walId ≤ F.id)
    (hlt : F.id < p.2.walId) (htorn : TornAfter (t.startIn F) F) : p ∈ c.remapped o := by
  have hget := Index.get_of_mem h.index.keys hp
  obtain ⟨q, hq, he, -⟩ := h.index.spot_of_get hget
  rw [he] at hget
  have hnot : q ∉ o.tail := by
    obtain ⟨-, -, htail⟩ := compactedWal_eq ho
    rw [htail, ht, h.files.mem_tail (h.files.startOk ht)]
    rintro ⟨-, -, hnone⟩
    rw [he, entryOf_walId] at hlt
    exact hnone F hF hle hlt htorn
  rcases h.get_remapped ho hget hq with ⟨r, -, -, -, hin⟩ | ⟨-, -, hnew⟩
  · refine absurd (hin ?_) hnot
    rw [ht, retained, Option.any_some, ← he]
    rw [TailStart.covers, decide_eq_true_eq]
    omega
  · rw [← he] at hnew
    exact Index.mem_of_get hnew

theorem Inv.preserved_iff (h : Inv c history) (hc : c.compact retention orphaned = some c') :
    Preserved c c' ↔ Unblocked c retention := by
  obtain ⟨hnil, o, ho, rfl⟩ := compact_eq hc
  constructor
  · intro hpres t ht p hp _ F hF hle hlt htorn
    have hkept := h.get_blocked ho ht hp hF hle hlt htorn
    have hret := hpres.resolves p hkept
    rw [h.compacted_retired _ _] at hret
    obtain ⟨q, hq, hres⟩ := h.index.located p hp
    have hid := h.files.walId_le hq
    obtain ⟨he, -⟩ := resolve_put hres
    rw [he, entryOf_walId] at hret
    omega
  · intro hub
    have hinv := h.compact orphaned ho hnil hub
    have hfollows := h.follows_of_unblocked orphaned ho hub (Nat.le_refl c.currentWalId)
    rw [Coll.compactedAt, ← h.compacted_retired o orphaned] at hfollows
    exact ⟨hfollows.view h.index h.files hinv.files fun key => h.get_remapped_none ho, rfl,
      hinv.index.alive⟩

section Runs

instance encodedOne : Encoded (LogEntry Bool Unit) :=
  ⟨fun _ => 1, 1, fun _ => Nat.one_pos, fun _ => Nat.le_refl _⟩

def putOf (key : String) : LogEntry Bool Unit := .put false key true 0 none

/-- The write of "b" tears behind its header, so that "c" lies in the next WAL. -/
def tornOps : List (Op Bool Unit) :=
  [.append 1 (putOf "a") 1 none, .append 2 (putOf "b") 1 (some 40), .append 3 (putOf "c") 1 none,
    .applyCommitted 3]

def deleteOps : List (Op Bool Unit) :=
  [.append 1 (putOf "a") 1 none, .append 2 (putOf "b") 1 none, .append 3 (.del false "b" 0) 1 none,
    .applyCommitted 3]

def afterOps (ops : List (Op Bool Unit)) : State Bool Unit :=
  (run (step 1000) State.fresh ops).getD State.fresh

theorem run_tornOps : run (step 1000) State.fresh tornOps = some (afterOps tornOps) := by decide

theorem run_deleteOps : run (step 1000) State.fresh deleteOps = some (afterOps deleteOps) := by
  decide

theorem meets_tornOps : Meets (step 1000) Orderly State.fresh tornOps := by
  simp [tornOps, Meets, Orderly]

theorem meets_deleteOps : Meets (step 1000) Orderly State.fresh deleteOps := by
  simp [deleteOps, Meets, Orderly]

end Runs

section Content

variable {limit : ℕ} {s : State V H} {ops : List (Op V H)}

/-- A compaction that succeeds keeps the content exactly when it leaves no live key behind. -/
theorem compact_preserves_content (hrun : run (step limit) State.fresh ops = some s)
    (hok : Meets (step limit) Orderly State.fresh ops)
    (hc : s.coll.compact retention orphaned = some c') :
    Preserved s.coll c' ↔ Unblocked s.coll retention :=
  (run_inv hrun hok).preserved_iff hc

theorem compact_preserves_content_deleted :
    ∃ c', (afterOps deleteOps).coll.compact ⟨0, 1000, 0⟩ [] = some c' ∧
      Preserved (afterOps deleteOps).coll c' := by
  obtain ⟨c', hc'⟩ := (run_inv run_deleteOps meets_deleteOps).compact_some ⟨0, 1000, 0⟩
    (by decide) (Nat.zero_le _) []
  refine ⟨c', hc', (compact_preserves_content run_deleteOps meets_deleteOps hc').mpr ?_⟩
  -- There is one WAL with frames, so none lies in front of a key's.
  intro t ht p hp _ F hF hle hlt
  have hlow : ∀ p ∈ (afterOps deleteOps).coll.index, ∀ F ∈ (afterOps deleteOps).coll.disk.files,
      p.2.walId ≤ F.id := by decide
  exact absurd (hlow p hp F hF) (Nat.not_le.mpr hlt)

/-- The key behind the torn frame keeps its entry in the WAL that the compaction unlinks. -/
theorem compact_leaves_key : ∃ c', (afterOps tornOps).coll.compact ⟨0, 1000, 0⟩ [] = some c' ∧
    run (step 1000) State.fresh tornOps = some (afterOps tornOps) ∧
    Meets (step 1000) Orderly State.fresh tornOps ∧ ¬Preserved (afterOps tornOps).coll c' := by
  have hinv := run_inv run_tornOps meets_tornOps
  obtain ⟨c', hc'⟩ := hinv.compact_some ⟨0, 1000, 0⟩ (by decide) (Nat.zero_le _) []
  refine ⟨c', hc', run_tornOps, meets_tornOps, fun hpres => ?_⟩
  have hub := (hinv.preserved_iff hc').mp hpres ⟨1, 0, 122⟩ (by decide)
    ("c", ⟨2, 0, 1, 3, 1, 0, none⟩) (by decide) (by decide)
    ⟨1, [.frame ⟨1, 1, 0, 0, putOf "a"⟩, .torn (some ⟨1, 2, 1, 1, putOf "b"⟩) 40], 0⟩
      (by decide) (by decide)
    (by decide)
  exact hub ⟨some ⟨1, 2, 1, 1, putOf "b"⟩, 40, rfl, by decide, by decide⟩

end Content

section Crashes

variable {limit : ℕ} {s : State V H} {ops : List (Op V H)}

/-- A crash inside a compaction is recovered from exactly when the WALs that are left describe the
collection. -/
theorem compact_crash_safe {d : Disk V H} {point : CompactPoint}
    (hrun : run (step limit) State.fresh ops = some s)
    (hok : Meets (step limit) Orderly State.fresh ops)
    (hd : s.coll.stopped retention point = some d) : Recovers s.coll d ↔
      CrashOk s.coll retention point :=
  (run_inv hrun hok).recovers_iff hd

theorem compact_crash_safe_saved :
    ∃ d, (afterOps deleteOps).coll.stopped ⟨0, 0, 0⟩ (.saved []) = some d ∧
      Recovers (afterOps deleteOps).coll d := by
  obtain ⟨c', hc'⟩ := (run_inv run_deleteOps meets_deleteOps).compact_some ⟨0, 0, 0⟩
    (by decide) (Nat.zero_le _) []
  have hd : (afterOps deleteOps).coll.stopped ⟨0, 0, 0⟩ (.saved []) = some c'.disk := by
    rw [Coll.stopped, hc', Option.map_some]
  refine ⟨c'.disk, hd, (compact_crash_safe run_deleteOps meets_deleteOps hd).mpr ?_⟩
  intro p hp hret
  have htail : ((afterOps deleteOps).coll.planCompaction ⟨0, 0, 0⟩).tail = none := by decide
  simp [htail, retained] at hret

/-- Behind the rename the newest frame that opening finds is that of the last live key. -/
theorem compact_crash_loses_tail : ∃ d, (afterOps deleteOps).coll.stopped
    ⟨0, 0, 0⟩ .renamed = some d ∧
    run (step 1000) State.fresh deleteOps = some (afterOps deleteOps) ∧
    Meets (step 1000) Orderly State.fresh deleteOps ∧ ¬Recovers (afterOps deleteOps).coll d := by
  have hinv := run_inv run_deleteOps meets_deleteOps
  obtain ⟨d, hd⟩ := hinv.renamed_some ⟨0, 0, 0⟩ (by decide) (Nat.zero_le _)
  refine ⟨d, hd, run_deleteOps, meets_deleteOps, fun hrec => ?_⟩
  obtain ⟨hnewest, -⟩ := (hinv.recovers_iff hd).mp hrec
  have htail : ((afterOps deleteOps).coll.planCompaction ⟨0, 0, 0⟩).tail = none := by decide
  have hold : ∀ p ∈ (afterOps deleteOps).coll.index,
    p.2.lsn ≠ (afterOps deleteOps).coll.lastAppendedLsn := by
    decide
  obtain ⟨q, hq, hlsn⟩ := hnewest ⟨⟨⟨1, 1, 0, 0, putOf "a"⟩, 1, 0⟩, .inr ⟨by decide,
    ("a", ⟨1, 0, 1, 1, 1, 0, none⟩), by decide, by decide, by decide⟩⟩
  rcases hq with ⟨-, t, ht, -⟩ | ⟨-, p, hp, he, -⟩
  · rw [htail] at ht
    cases ht
  · refine hold p hp ?_
    rw [he, entryOf_lsn]
    exact hlsn

end Crashes

end DewDB.Recovery
