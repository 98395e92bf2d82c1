import DewDB.CompactionInv
import DewDB.CollectionLoss

/-!
# A crash inside a compaction

Up to the rename nothing has changed that opening looks at. Between the rename and the saved index,
opening reads the compacted WAL behind the frozen ones and takes its last frames for the newest.
Once the index is saved, opening reads nothing of the WALs that are left, and keys that did not move
need theirs.
-/
namespace DewDB.Recovery

open CollectionLog WalFile WalWriter StorageEntry LastTouch

variable {V H : Type} [Encoded (LogEntry V H)] {c : Coll V H}
  {history : List (Frame (LogEntry V H))}

/-- How far a compaction has come: the watermark is written, the WALs are frozen, the compacted WAL
has its name, the index is saved and the frozen WALs are unlinked except for these. -/
inductive CompactPoint where
  | flushed
  | started
  | renamed
  | saved (left : List ℕ)

/-- The directory that a compaction which stops at this point leaves. -/
def Coll.stopped (c : Coll V H) (retention : Retention) : CompactPoint → Option (Disk V H)
  | .flushed => if c.pending = [] then some c.persistWatermarkFull.disk else none
  | .started => (c.startCompaction retention).map fun r => r.1.disk
  | .renamed => (c.startCompaction retention).bind fun r =>
      (r.1.compactedWal c.currentWalId r.2).map fun o => (r.1.renameCompacted c.currentWalId o).disk
  | .saved left => (c.compact retention left).map Coll.disk

/-- Opening gives what every key reads in `c`, and its tail. -/
def Recovers (c : Coll V H) (d : Disk V H) : Prop :=
  ∃ c', d.openCollection = .ok c' ∧ (∀ key, c'.view key = c.view key) ∧ c'.tail = c.tail

theorem Inv.reopened_view (h : Inv c history) (key : String) :
    c.reopened.view key = c.view key := by
  refine Follows.view (fun key q hget hq halive => ⟨q, ?_, rfl, ?_, ?_⟩) h.index h.files
    h.reopened_filesOk (fun key hget => ?_) key
  · rw [h.reopened_spots]
    exact hq
  · rw [h.reopened_index]
    exact hget
  · exact Nat.lt_of_le_of_lt (Nat.zero_le _) halive
  · rw [h.reopened_index]
    exact hget

theorem Inv.recovers (h : Inv c history) {c' : Coll V H} (hview : ∀ key, c.view key = c'.view key)
    (htail : c.tail = c'.tail) : Recovers c' c.disk :=
  ⟨c.reopened, h.open_eq, fun key => (h.reopened_view key).trans (hview key),
    h.reopened_tail.trans htail⟩

theorem opened_of_ok {d : Disk V H} {c' : Coll V H} (hcut : d.cut = none)
    (h : d.openCollection = .ok c') :
    ∃ applied seq, d.recordedWatermark = .ok applied ∧ c' = d.opened applied seq := by
  cases hrec : d.recordedWatermark with
  | error e =>
    rw [Disk.openCollection, hrec] at h
    cases h
  | ok applied =>
    cases hpos : d.position with
    | error e =>
      rw [Disk.openCollection, hrec, hpos] at h
      cases h
    | ok pos =>
      rw [Disk.openCollection, hrec, hpos] at h
      simp only [Except.bind, Disk.completeRecorded, hcut] at h
      split at h
      · cases h
      · exact ⟨applied, _, rfl, (Except.ok.inj h).symm⟩

section Renamed

variable {o : Output V H} {retention : Retention}

/-- The collection whose directory a crash behind the rename leaves: the index is what a replay of
the compacted WAL makes of the old one. -/
def Coll.replaced (c : Coll V H) (o : Output V H) : Coll V H :=
  { c.started.renameCompacted c.currentWalId o with
    index := (layout (c.currentWalId + 1) 0 o.chunks).foldl Index.replay c.index }

theorem replayedAll_started (snapshot : Option IndexSnapshot) (c : Coll V H) :
    replayedAll snapshot c.started.disk.files = replayedAll snapshot c.disk.files :=
  (replayedAll_openFile _).trans (replayedAll_sync _)

theorem Inv.replayed_renamed (h : Inv c history) {snapshot : Option IndexSnapshot}
    (hle : ∀ s ∈ snapshot, s.lastWalId ≤ c.currentWalId) :
    ∃ pre post, (c.renamedFiles o).map (replayed snapshot) =
        pre ++ layout (c.currentWalId + 1) 0 o.chunks :: post ∧
      pre.flatten = replayedAll snapshot c.disk.files ∧ post.flatten = [] := by
  refine ⟨((c.started.disk.files.filter fun F => F.id < c.currentWalId + 1).map
    (replayed snapshot)),
    ((c.started.disk.files.filter fun F => c.currentWalId + 1 < F.id).map (replayed snapshot)), ?_,
    ?_, ?_⟩
  · have hG : replayed snapshot (o.file (c.currentWalId + 1)) = layout
      (c.currentWalId + 1) 0 o.chunks := by
      cases snapshot with
      | none => exact replayed_none _
      | some s =>
        have := hle s rfl
        exact replayed_above (F := o.file (c.currentWalId + 1)) (by simp only [Output.file]; omega)
    rw [Coll.renamedFiles, placeFile, List.map_append, List.map_cons, hG]
    rfl
  · rw [← replayedAll_started, replayedAll_eq_flatten]
    have hempty : ∀ F ∈ c.started.disk.files, ¬F.id < c.currentWalId + 1 →
      replayed snapshot F = [] :=
      fun F hF hlt => replayed_of_empty (h.started_empty hF (by omega))
    revert hempty
    generalize c.started.disk.files = fs
    intro hempty
    induction fs with
    | nil => rfl
    | cons F fs ih =>
      have ih := ih fun E hE => hempty E (List.mem_cons_of_mem _ hE)
      by_cases hlt : F.id < c.currentWalId + 1
      · rw [List.filter_cons_of_pos (by simpa using hlt)]
        simp only [List.map_cons, List.flatten_cons, ih]
      · rw [List.filter_cons_of_neg (by simpa using hlt)]
        simp only [List.map_cons, List.flatten_cons, ih, hempty F List.mem_cons_self hlt,
          List.nil_append]
  · refine List.flatten_eq_nil_iff.mpr fun qs hqs => ?_
    obtain ⟨F, hF, rfl⟩ := List.mem_map.mp hqs
    obtain ⟨hF, hlt⟩ := List.mem_filter.mp hF
    have hlt : c.currentWalId + 1 < F.id := of_decide_eq_true hlt
    exact replayed_of_empty (h.started_empty hF (by omega))

theorem Inv.replayedAll_renamed (h : Inv c history) {snapshot : Option IndexSnapshot}
    (hle : ∀ s ∈ snapshot, s.lastWalId ≤ c.currentWalId) :
    replayedAll snapshot (c.renamedFiles o) =
      replayedAll snapshot c.disk.files ++ layout (c.currentWalId + 1) 0 o.chunks := by
  obtain ⟨pre, post, hmap, hpre, hpost⟩ := h.replayed_renamed (o := o) hle
  rw [replayedAll_eq_flatten, hmap, List.flatten_append, List.flatten_cons, hpre, hpost,
    List.append_nil]

theorem Inv.spots_renamed (h : Inv c history) :
    spots (c.renamedFiles o) = spots c.disk.files ++ layout (c.currentWalId + 1) 0 o.chunks := by
  rw [← replayedAll_none, h.replayedAll_renamed (by simp), replayedAll_none]

theorem frame_mem_layout (id n : ℕ) {fs : List (Frame (LogEntry V H))} {f : Frame (LogEntry V H)}
    (hf : f ∈ fs) : ∃ q ∈ layout id n (fs.map .frame), q.frame = f := by
  induction fs generalizing n with
  | nil => simp at hf
  | cons g fs ih =>
    rcases List.mem_cons.mp hf with rfl | hf
    · exact ⟨_, List.mem_cons_self, rfl⟩
    · obtain ⟨q, hq, hqf⟩ := ih (n := n + frameLen g) hf
      exact ⟨q, List.mem_cons_of_mem _ hq, hqf⟩

/-- When the newest frame is among those that are written, or none is, the directory is that of a
collection with the same log. -/
theorem Inv.replaced (h : Inv c history)
    (ho : c.started.compactedWal c.currentWalId (c.planCompaction retention) = some o)
    (hnil : c.pending = []) (hnewest : o.frames ≠ [] → ∃ f ∈ o.frames, f.lsn = c.appliedLsn) :
    Inv (c.replaced o) history := by
  have hspots := h.spots_renamed (o := o)
  have hmem : ∀ q ∈ layout (c.currentWalId + 1) 0 o.chunks, q ∈ spots (c.renamedFiles o) :=
    fun q hq => hspots ▸ List.mem_append_right _ hq
  have hold : ∀ q ∈ spots c.disk.files, q ∈ spots (c.renamedFiles o) :=
    fun q hq => hspots ▸ List.mem_append_left _ hq
  have hle : ∀ q ∈ spots (c.renamedFiles o), q.frame.lsn ≤ c.appliedLsn := by
    intro q hq
    obtain ⟨r, hr, hframe⟩ := h.mem_renamed ho hq
    rw [← hframe]
    exact h.log.le_applied hnil hr
  refine ⟨?_, ?_, ?_, ?_, ?_⟩
  · exact h.filesOk_of_renamed (o := o) (fun _ => true) (List.filter_eq_self.mpr (by simp)).symm
      (fun _ _ => rfl) rfl rfl h.files.noCut
  · exact h.log.of_frames hnil hnil rfl rfl (Option.some_ne_none _) fun q hq => h.mem_renamed ho hq
  · refine ⟨Index.nodup_foldl_replay h.index.keys _, ?_, ?_, ?_, ?_, h.index.snapshotKeys, ?_, ?_⟩
    · intro p hp
      rcases Index.mem_foldl_replay hp with hp | ⟨q, hq, hres⟩
      · exact (h.index.located p hp).of_spots hold
      · exact ⟨q, hmem q hq, hres⟩
    · intro p hp
      have hwriting := h.index.writing
      rcases Index.mem_foldl_replay hp with hp | ⟨q, hq, hres⟩
      · exact h.index.alive p hp
      · obtain ⟨he, -⟩ := resolve_put hres
        rw [he, entryOf_walId, walId_of_layout hq]
        exact Nat.lt_trans hwriting (Nat.lt_succ_self _)
    · intro q hq
      have hq : q ∈ c.pending := hq
      simp [hnil] at hq
    · exact Nat.lt_trans h.index.writing (Nat.lt_add_of_pos_right (Nat.succ_pos 1))
    · exact fun p hp => (h.index.snapshotLocated p hp).of_spots hold
    · intro p hp
      rcases List.mem_append.mp hp with hp | hp
      · rcases Index.mem_foldl_replay hp with hp | ⟨q, hq, hres⟩
        · exact h.index.committed p (List.mem_append_left _ hp)
        · obtain ⟨he, -⟩ := resolve_put hres
          rw [he, entryOf_lsn]
          exact hle q (hmem q hq)
      · exact h.index.committed p (List.mem_append_right _ hp)
  · obtain ⟨A, hA, hcommitted, hlast, hindex, hsnap⟩ := h.resume.replayed
    rw [hnil, List.append_nil] at hA
    have hread : replayedAll c.disk.snapshot (c.renamedFiles o) = A ++ layout
      (c.currentWalId + 1) 0 o.chunks := by
      rw [h.replayedAll_renamed h.resume.resumeLe, hA]
    refine ⟨?_, ?_, A ++ layout (c.currentWalId + 1) 0 o.chunks, ?_, ?_, ?_, ?_, ?_⟩
    · intro s hs F hF hid
      have hs' := h.resume.resumeLe s hs
      rcases mem_placeFile.mp hF with rfl | ⟨hF, -⟩
      · have hid : c.currentWalId + 1 = s.lastWalId := hid
        omega
      · exact h.started.resume.resume s hs F hF hid
    · intro s hs
      exact Nat.le_trans (h.resume.resumeLe s hs) (Nat.le_add_right _ 2)
    · have hpending : (c.replaced o).pending = [] := hnil
      rw [hpending, List.append_nil]
      exact hread
    · intro q hq
      rcases List.mem_append.mp hq with hq | hq
      · exact hcommitted q hq
      · exact hle q (hmem q hq)
    · intro q hq
      by_cases hempty : o.frames = []
      · have hchunks : o.chunks = [] := by rw [Output.chunks, hempty, List.map_nil]
        rw [hchunks] at hq ⊢
        simp only [layout, List.append_nil] at hq ⊢
        exact hlast q hq
      · obtain ⟨f, hf, hlsn⟩ := hnewest hempty
        obtain ⟨z, hz, hzf⟩ := frame_mem_layout (c.currentWalId + 1) 0 hf
        have hne : layout (c.currentWalId + 1) 0 o.chunks ≠ [] := List.ne_nil_of_mem hz
        rw [List.getLast?_append, List.getLast?_eq_some_getLast hne, Option.some_or] at hq
        have hqmem : q ∈ layout (c.currentWalId + 1) 0 o.chunks :=
          Option.some.inj hq ▸ List.getLast_mem hne
        refine ⟨z, List.mem_append_right _ hz, ?_, ?_⟩
        · rw [walId_of_layout hz, walId_of_layout hqmem]
        · rw [hzf]
          exact hlsn
    · rw [List.foldl_append]
      exact congrArg (List.foldl Index.replay · _) hindex
    · intro hnil' _
      exact hsnap (List.append_eq_nil_iff.mp hnil').1 (.inr hnil)
  · have hw := h.started.watermark
    exact ⟨hw.clean, hw.saved, hw.slots, hw.flag, hw.unrecorded⟩

end Renamed

section Agreement

/-- What frames leave for a key is, up to its position, what the index says. -/
def Agrees (left : Option (Option IndexEntry)) (e : Option IndexEntry) : Prop :=
  ∀ v ∈ left, v.map IndexEntry.version = e.map IndexEntry.version

theorem Agrees.congr {x y : Option (Option IndexEntry)}
    (h : x.map (Option.map IndexEntry.version) = y.map (Option.map IndexEntry.version))
    {e : Option IndexEntry} : Agrees x e ↔ Agrees y e := by
  cases x with
  | none =>
    cases y with
    | none => rfl
    | some w => cases h
  | some v =>
    cases y with
    | none => cases h
    | some w => simp_all [Agrees]

theorem Agrees.or {x y : Option (Option IndexEntry)} {e : Option IndexEntry} (hy : Agrees y e) :
    Agrees (x.or y) e ↔ Agrees x e := by
  cases x with
  | none => simpa [Agrees] using hy
  | some v => simp [Agrees]

theorem entryOf_version (q : Spot (LogEntry V H)) :
    (entryOf q).version = (q.frame.term, q.frame.lsn) := by
  unfold entryOf IndexEntry.version
  split <;> rfl

theorem resolve_version {q r : Spot (LogEntry V H)} (h : r.frame = q.frame) (key : String) :
    (resolve r key).map (Option.map IndexEntry.version) = (resolve q key).map
      (Option.map IndexEntry.version) := by
  have hversion := (entryOf_frame h).1
  unfold resolve
  rw [h]
  split
  · split
    · simp [hversion]
    · rfl
  · split <;> rfl
  · rfl
  · rfl

theorem lastTouch_layout (id n : ℕ) (qs : List (Spot (LogEntry V H))) (key : String) :
    (lastTouch resolve (layout id n (qs.map fun q => .frame q.frame)) key).map
      (Option.map IndexEntry.version) =
      (lastTouch resolve qs key).map (Option.map IndexEntry.version) := by
  induction qs generalizing n with
  | nil => rfl
  | cons q qs ih =>
    have hq := resolve_version (q := q) (r := ⟨q.frame, id, n⟩) rfl key
    have ih := ih (n + frameLen q.frame)
    simp only [List.map_cons, layout, lastTouch_cons, Option.map_or]
    rw [ih, hq]

variable {c' : Coll V H} {L : List (Spot (LogEntry V H))}

/-- Replaying frames of the log over the index leaves what a key reads exactly when the last of them
to touch the key agrees with its entry. -/
theorem Inv.view_replay_iff (h : Inv c history) (hfiles : FilesOk c')
    (hindex : ∀ key, c'.index.get key = (lastTouch resolve L key).getD (c.index.get key))
    (hold : ∀ key q, c.index.get key = some (entryOf q) → q ∈ spots c.disk.files →
      c.retiredThrough < q.walId → q ∈ spots c'.disk.files ∧ c'.retiredThrough < q.walId)
    (hnew : ∀ q ∈ L, q ∈ spots c'.disk.files ∧ c'.retiredThrough < q.walId ∧
      ∃ r ∈ spots c.disk.files, r.frame = q.frame) (key : String) :
    c'.view key = c.view key ↔ Agrees (lastTouch resolve L key) (c.index.get key) := by
  have hget := hindex key
  cases hl : lastTouch resolve L key with
  | none =>
    rw [hl, Option.getD_none] at hget
    refine ⟨fun _ v hv => (by cases hv), fun _ => ?_⟩
    cases he : c.index.get key with
    | none => rw [Coll.view, Coll.view, hget, he]; rfl
    | some e =>
      obtain ⟨q, hq, rfl, halive, -⟩ := h.index.spot_of_get he
      obtain ⟨hq', halive'⟩ := hold key q he hq halive
      rw [view_of_spot h.files.sorted he hq halive,
        view_of_spot hfiles.sorted (hget.trans he) hq' halive']
  | some left =>
    rw [hl, Option.getD_some] at hget
    cases left with
    | none =>
      have hview : c'.view key = none := by rw [Coll.view, hget]; rfl
      rw [hview]
      constructor
      · intro heq v hv
        cases hv
        cases he : c.index.get key with
        | none => rfl
        | some e =>
          rw [Coll.view, he] at heq
          cases heq
      · intro hag
        have := hag none rfl
        cases he : c.index.get key with
        | none => rw [Coll.view, he]; rfl
        | some e =>
          rw [he] at this
          cases this
    | some e =>
      obtain ⟨A, q, B, rfl, hres, -⟩ := lastTouch_eq_some.mp hl
      obtain ⟨rfl, -⟩ := resolve_put hres
      obtain ⟨hq, halive, r, hr, hframe⟩ := hnew q (List.mem_append_right _ List.mem_cons_self)
      rw [view_of_spot hfiles.sorted hget hq halive]
      constructor
      · intro heq v hv
        cases hv
        cases he : c.index.get key with
        | none =>
          rw [Coll.view, he] at heq
          cases heq
        | some e =>
          rw [Coll.view, he] at heq
          simp only [Option.map_some, Option.some.injEq, Prod.mk.injEq] at heq ⊢
          exact heq.2.1
      · intro hag
        have hver := hag (some (entryOf q)) rfl
        cases he : c.index.get key with
        | none =>
          rw [he] at hver
          cases hver
        | some e =>
          obtain ⟨p, hp, rfl, halive', -⟩ := h.index.spot_of_get he
          rw [he] at hver
          simp only [Option.map_some, Option.some.injEq, entryOf_version, Prod.mk.injEq] at hver
          have hpq : p.frame = q.frame := by
            rw [← hframe]
            refine h.log.unique p hp r hr ?_
            rw [hframe]
            exact hver.2.symm
          obtain ⟨hversion, hexpire⟩ := entryOf_frame hpq
          rw [view_of_spot h.files.sorted he hp halive', hpq, hversion, hexpire]

end Agreement

section Order

def Before (q r : Spot (LogEntry V H)) : Prop :=
  q.walId < r.walId ∨ q.walId = r.walId ∧ q.offset < r.offset

theorem layout_before (id n : ℕ) (cs : List (Chunk (LogEntry V H))) :
    (layout id n cs).Pairwise Before := by
  induction cs generalizing n with
  | nil => exact List.Pairwise.nil
  | cons p cs ih =>
    cases p with
    | torn header m => exact List.Pairwise.nil
    | frame f =>
      refine List.pairwise_cons.mpr ⟨fun r hr => .inr ⟨(walId_of_layout hr).symm, ?_⟩, ih _⟩
      have := le_offset_of_layout hr
      have := frameLen_pos f
      simp only
      omega

theorem spots_before {fs : List (File (LogEntry V H))}
    (hsorted : (fs.map File.id).Pairwise (· < ·)) : (spots fs).Pairwise Before := by
  induction fs with
  | nil => exact List.Pairwise.nil
  | cons F fs ih =>
    rw [List.map_cons, List.pairwise_cons] at hsorted
    refine List.pairwise_append.mpr ⟨layout_before _ _ _, ih hsorted.2, fun q hq r hr => .inl ?_⟩
    obtain ⟨G, hG, hid, -⟩ := walId_of_spots hr
    rw [walId_of_layout hq, ← hid]
    exact hsorted.1 G.id (List.mem_map_of_mem hG)

theorem copied_sublist {fs : List (File (LogEntry V H))} {t : TailStart} (h : StartOk fs t)
    (hended : ∀ F ∈ fs, Ended F.chunks) (gs : List (File (LogEntry V H)))
    (hsub : ∀ F ∈ gs, F ∈ fs) : (copyFiles t gs).Sublist (spots gs) := by
  induction gs with
  | nil => exact List.Sublist.refl _
  | cons F gs ih =>
    have hF := hsub F List.mem_cons_self
    have hfile : ((t.copied F).1).Sublist F.spots := by
      rw [TailStart.copied, copyFile_fst]
      rcases h.startIn hF with ⟨as, bs, hc, hw, hstart⟩ | hle
      · rw [File.spots, ← hstart, hc, dropBytes_append hw, layout_append_whole hw, Nat.zero_add]
        exact List.sublist_append_right _ _
      · rw [dropBytes_beyond hle (hended F hF).sizes]
        exact List.nil_sublist _
    have hstep : copyFiles t (F :: gs) =
        if (t.copied F).2 then (t.copied F).1 else (t.copied F).1 ++ copyFiles t gs := rfl
    have hspots : spots (F :: gs) = F.spots ++ spots gs := rfl
    rw [hstep, hspots]
    split
    · exact hfile.trans (List.sublist_append_left _ _)
    · exact hfile.append (ih fun E hE => hsub E (List.mem_cons_of_mem _ hE))

theorem FilesOk.tail_before (h : FilesOk c) {o : Output V H} {retention : Retention}
    (htail : o.tail = copyRetainedTail c.disk.files c.currentWalId
      (c.planCompaction retention).tail) :
    o.tail.Pairwise Before := by
  rw [htail]
  cases ht : (c.planCompaction retention).tail with
  | none => exact List.Pairwise.nil
  | some t =>
    have hsub := copied_sublist (h.startOk ht) h.ended (c.disk.files.filter fun F =>
      t.walId ≤ F.id ∧ F.id ≤ c.currentWalId) fun F hF => List.mem_of_mem_filter hF
    exact (spots_before (h.sorted.sublist (List.filter_sublist.map _))).sublist hsub

end Order

section Conditions

variable {o : Output V H} {retention : Retention} {left : List ℕ}

/-- The frame lies in the retained tail, and no WAL of the tail in front of its own ends in a torn
frame with a whole header. -/
def InTail (c : Coll V H) (retention : Retention) (q : Spot (LogEntry V H)) : Prop :=
  q ∈ spots c.disk.files ∧ ∃ t, (c.planCompaction retention).tail = some t ∧
    t.covers q.walId q.offset = true ∧
    ∀ F ∈ c.disk.files, t.walId ≤ F.id → F.id < q.walId → ¬TornAfter (t.startIn F) F

/-- The frame is in that tail, or a live key that the tail does not cover has it. -/
def Carried (c : Coll V H) (retention : Retention) (q : Spot (LogEntry V H)) : Prop :=
  InTail c retention q ∨ q ∈ spots c.disk.files ∧ ∃ p ∈ c.index, p.2 = entryOf q ∧
    retained (c.planCompaction retention).tail p.2 = false

/-- The compacted WAL has the newest frame of the log, or none at all. -/
def NewestKept (c : Coll V H) (retention : Retention) : Prop :=
  (∃ q, Carried c retention q) → ∃ q, Carried c retention q ∧ q.frame.lsn = c.lastAppendedLsn

/-- The last frame of the retained tail to touch a key leaves what the index says. -/
def TailAgrees (c : Coll V H) (retention : Retention) : Prop :=
  ∀ key q, InTail c retention q → (∀ r, InTail c retention r → Before q r → resolve r key = none) →
    Agrees (resolve q key) (c.index.get key)

/-- Live keys that the copy of the tail does not reach are in WALs that are left. -/
def BlockedLeft (c : Coll V H) (retention : Retention) (left : List ℕ) : Prop :=
  ∀ p ∈ c.index, retained (c.planCompaction retention).tail p.2 = true →
    p.2.walId ∈ left ∨ ∃ q, p.2 = entryOf q ∧ InTail c retention q

def CrashOk (c : Coll V H) (retention : Retention) : CompactPoint → Prop
  | .flushed | .started => True
  | .renamed => NewestKept c retention ∧ TailAgrees c retention
  | .saved left => BlockedLeft c retention left

theorem FilesOk.mem_output_tail (h : FilesOk c)
    (ho : c.started.compactedWal c.currentWalId (c.planCompaction retention) = some o)
    {q : Spot (LogEntry V H)} : q ∈ o.tail ↔ InTail c retention q := by
  obtain ⟨-, -, htail⟩ := compactedWal_eq ho
  rw [htail]
  unfold InTail
  cases ht : (c.planCompaction retention).tail with
  | none => simp [copyRetainedTail]
  | some t =>
    rw [h.mem_tail (h.startOk ht)]
    simp only [Option.some.injEq, exists_eq_left']

theorem Inv.mem_output_frames (h : Inv c history)
    (ho : c.started.compactedWal c.currentWalId (c.planCompaction retention) = some o)
    {f : Frame (LogEntry V H)} : f ∈ o.frames ↔ ∃ q, Carried c retention q ∧ q.frame = f := by
  constructor
  · intro hf
    rcases List.mem_append.mp hf with hf | hf
    · obtain ⟨r, hr, rfl⟩ := List.mem_map.mp hf
      obtain ⟨q, hq, he, hframe, hindex, hret, -⟩ := h.live_spot ho hr
      exact ⟨q, .inr ⟨hq, _, hindex, he, hret⟩, hframe.symm⟩
    · obtain ⟨q, hq, rfl⟩ := List.mem_map.mp hf
      exact ⟨q, .inl ((h.files.mem_output_tail ho).mp hq), rfl⟩
  · rintro ⟨q, hq | ⟨hq, p, hp, he, hret⟩, rfl⟩
    · exact List.mem_append_right _ (List.mem_map_of_mem ((h.files.mem_output_tail ho).mpr hq))
    · have hmem : p ∈ c.frozenIndex c.currentWalId (c.planCompaction retention).tail :=
        mem_frozenIndex.mpr ⟨hp, by rw [he, entryOf_walId]; exact h.files.walId_le hq, hret⟩
      rw [← (compactedWal_eq ho).1] at hmem
      obtain ⟨r, hr, rfl⟩ := List.mem_map.mp hmem
      obtain ⟨z, hz, hez, hframe, -⟩ := h.live_spot ho hr
      have he : r.2.1 = entryOf q := he
      have hpos := congrArg (fun e : IndexEntry => (e.walId, e.offset)) (hez.symm.trans he)
      simp only [entryOf_walId, entryOf_offset, Prod.mk.injEq] at hpos
      have hzq : z = q := spot_of_position h.files.sorted hq hz hpos.1 hpos.2
      exact List.mem_append_left _ (List.mem_map.mpr ⟨r, hr, hzq ▸ hframe⟩)

theorem Inv.live_agrees (h : Inv c history)
    (ho : c.started.compactedWal c.currentWalId (c.planCompaction retention) = some o) (id : ℕ)
    (key : String) :
    Agrees (lastTouch resolve (layout id 0 (o.live.map fun r => .frame r.2.2)) key)
      (c.index.get key) := by
  intro v hv
  obtain ⟨A, q, B, hsplit, hres, -⟩ := lastTouch_eq_some.mp hv
  have hq : q ∈ layout id 0 ((o.live.map fun r => r.2.2).map .frame) := by
    rw [List.map_map]
    exact hsplit ▸ List.mem_append_right _ List.mem_cons_self
  obtain ⟨r, hr, hrf⟩ := List.mem_map.mp (frame_of_layout hq)
  obtain ⟨z, -, -, hframe, hindex, -, hzres⟩ := h.live_spot ho hr
  obtain ⟨-, migration, value, ts, expireAt, hput⟩ := resolve_put hzres
  have hres' := resolve_version (hrf.symm.trans hframe) key
  rw [hres] at hres'
  have hkey : r.1 = key := by
    by_contra hne
    have hnone : resolve z key = none := by simp [resolve, hput, hne]
    rw [hnone] at hres'
    cases hres'
  rw [hkey] at hindex hzres
  rw [Index.get_of_mem h.index.keys hindex]
  rw [hzres] at hres'
  exact Option.some.inj hres'

/-- What a replay of the compacted WAL leaves agrees with the index when the retained tail does. -/
theorem Inv.output_agrees_iff (h : Inv c history)
    (ho : c.started.compactedWal c.currentWalId (c.planCompaction retention) = some o) :
    (∀ key, Agrees (lastTouch resolve (layout (c.currentWalId + 1) 0 o.chunks) key)
      (c.index.get key)) ↔ TailAgrees c retention := by
  have htail := (compactedWal_eq ho).2.2
  have hbefore := h.files.tail_before htail
  have hmem := fun q => h.files.mem_output_tail ho (q := q)
  have hiff : ∀ key, Agrees (lastTouch resolve (layout (c.currentWalId + 1) 0 o.chunks) key)
    (c.index.get key) ↔
      Agrees (lastTouch resolve o.tail key) (c.index.get key) := by
    intro key
    rw [layout_output, lastTouch_append, Agrees.or (h.live_agrees ho _ key)]
    exact Agrees.congr (lastTouch_layout _ _ _ _)
  simp only [hiff]
  constructor
  · intro hag key q hq hlast v hv
    obtain ⟨A, B, hsplit⟩ := List.append_of_mem ((hmem q).mpr hq)
    refine hag key v (lastTouch_eq_some.mpr ⟨A, q, B, hsplit, hv, fun r hr => ?_⟩)
    rw [hsplit, List.pairwise_append, List.pairwise_cons] at hbefore
    refine hlast r ((hmem r).mp ?_) (hbefore.2.1.1 r hr)
    rw [hsplit]
    exact List.mem_append_right _ (List.mem_cons_of_mem _ hr)
  · intro hag key v hv
    obtain ⟨A, q, B, hsplit, hres, hB⟩ := lastTouch_eq_some.mp hv
    have hq : q ∈ o.tail := hsplit ▸ List.mem_append_right _ List.mem_cons_self
    refine hag key q ((hmem q).mp hq) (fun r hr hqr => ?_) v hres
    have hr := (hmem r).mpr hr
    rw [hsplit, List.pairwise_append, List.pairwise_cons] at hbefore
    rw [hsplit] at hr
    rcases List.mem_append.mp hr with hr | hr
    · have := hbefore.2.2 r hr q List.mem_cons_self
      unfold Before at this hqr
      omega
    · rcases List.mem_cons.mp hr with rfl | hr
      · unfold Before at hqr
        omega
      · exact hB r hr

end Conditions

section Points

variable {o : Output V H} {retention : Retention} {left : List ℕ} {d : Disk V H}

theorem Inv.started_view (h : Inv c history) (key : String) : c.started.view key = c.view key := by
  have hfollows : Follows c c.started :=
    fun _ q hget hq halive => ⟨q, (spots_started c).symm ▸ hq, rfl, hget, halive⟩
  exact hfollows.view h.index h.files h.started.files (fun _ hget => hget) key

theorem LogOk.last_eq_applied (h : LogOk c history) (hnil : c.pending = []) :
    c.lastAppendedLsn = c.appliedLsn := by
  have htail := congrArg Prod.fst (h.tail_of_nil hnil)
  exact htail.trans h.applied.symm

theorem Inv.replaced_view_iff (h : Inv c history)
    (ho : c.started.compactedWal c.currentWalId (c.planCompaction retention) = some o)
    (hinv : Inv (c.replaced o) history) :
    (∀ key, (c.replaced o).view key = c.view key) ↔ TailAgrees c retention := by
  rw [← h.output_agrees_iff ho]
  have hspots : spots (c.replaced o).disk.files = _ := h.spots_renamed (o := o)
  have hwriting := h.index.writing
  refine forall_congr' fun key => h.view_replay_iff hinv.files
    (fun key => Index.get_foldl _ _ _) ?_ ?_ key
  · exact fun _ q _ hq halive => ⟨hspots ▸ List.mem_append_left _ hq, halive⟩
  · intro q hq
    refine ⟨hspots ▸ List.mem_append_right _ hq, ?_, h.output_frames ho (frame_of_layout hq)⟩
    rw [walId_of_layout hq]
    exact Nat.lt_trans hwriting (Nat.lt_succ_self _)

theorem Inv.renamed_tail (h : Inv c history)
    (ho : c.started.compactedWal c.currentWalId (c.planCompaction retention) = some o)
    (hne : o.frames ≠ []) :
    ∃ f ∈ o.frames, recoveredTail c.disk.snapshot (c.renamedFiles o) = (f.lsn, f.term) := by
  obtain ⟨pre, post, hmap, -, hpost⟩ := h.replayed_renamed (o := o) h.resume.resumeLe
  obtain ⟨f, hf⟩ := List.exists_mem_of_ne_nil _ hne
  obtain ⟨q, hq, rfl⟩ := frame_mem_layout (c.currentWalId + 1) 0 hf
  have hpos : 0 < q.frame.lsn := by
    obtain ⟨r, hr, hframe⟩ := h.output_frames ho hf
    rw [← hframe]
    exact h.log.positive r hr
  obtain ⟨⟨-, hall⟩, hr⟩ := foldl_tail (t := (0, 0)) (layout (c.currentWalId + 1) 0 o.chunks)
  have hle := hall q hq
  rcases hr with hr | ⟨z, hz, hr⟩
  · rw [hr] at hle
    exact absurd hpos (Nat.not_lt.mpr hle)
  · refine ⟨z.frame, frame_of_layout hz, ?_⟩
    rw [recoveredTail, hmap, List.foldl_append, List.foldl_cons, foldl_foldTail_nil hpost,
      foldTail, if_neg]
    · exact hr
    · exact Nat.ne_of_gt (Nat.lt_of_lt_of_le hpos hle)

theorem Inv.replaced_of_kept (h : Inv c history) (hnil : c.pending = [])
    (ho : c.started.compactedWal c.currentWalId (c.planCompaction retention) = some o)
    (hkept : NewestKept c retention) : Inv (c.replaced o) history := by
  refine h.replaced ho hnil fun hne => ?_
  obtain ⟨f, hf⟩ := List.exists_mem_of_ne_nil _ hne
  obtain ⟨q, hq, -⟩ := (h.mem_output_frames ho).mp hf
  obtain ⟨z, hz, hzlsn⟩ := hkept ⟨q, hq⟩
  exact ⟨z.frame, (h.mem_output_frames ho).mpr ⟨z, hz, rfl⟩,
    hzlsn.trans (h.log.last_eq_applied hnil)⟩

theorem Inv.recovers_renamed_iff (h : Inv c history) (hnil : c.pending = [])
    (ho : c.started.compactedWal c.currentWalId (c.planCompaction retention) = some o) :
    Recovers c (c.replaced o).disk ↔ NewestKept c retention ∧ TailAgrees c retention := by
  constructor
  · rintro ⟨c', hopen, hview, htail⟩
    have hkept : NewestKept c retention := by
      rintro ⟨q, hq⟩
      have hf := (h.mem_output_frames ho).mpr ⟨q, hq, rfl⟩
      obtain ⟨f, hf, htail'⟩ := h.renamed_tail ho (List.ne_nil_of_mem hf)
      obtain ⟨applied, seq, -, rfl⟩ := opened_of_ok (d := (c.replaced o).disk) h.files.noCut hopen
      have hopened : ((c.replaced o).disk.opened applied seq).tail =
          recoveredTail c.disk.snapshot (c.renamedFiles o) := rfl
      rw [hopened, htail'] at htail
      obtain ⟨z, hz, rfl⟩ := (h.mem_output_frames ho).mp hf
      exact ⟨z, hz, congrArg Prod.fst htail⟩
    have hinv := h.replaced_of_kept hnil ho hkept
    obtain rfl : (c.replaced o).reopened = c' := Except.ok.inj (hinv.open_eq.symm.trans hopen)
    refine ⟨hkept, (h.replaced_view_iff ho hinv).mp fun key => ?_⟩
    rw [← hinv.reopened_view]
    exact hview key
  · rintro ⟨hkept, hag⟩
    have hinv := h.replaced_of_kept hnil ho hkept
    exact hinv.recovers ((h.replaced_view_iff ho hinv).mpr hag) rfl

/-- The keys that did not move, and whose WALs are left, read what they did. -/
theorem Inv.follows_of_left (h : Inv c history)
    (ho : c.started.compactedWal c.currentWalId (c.planCompaction retention) = some o)
    (hleft : BlockedLeft c retention left) : Follows c (c.compactedAt o left c.retiredThrough) := by
  have hwriting := h.index.writing
  intro key q hget hq halive
  rcases h.get_remapped ho hget hq with ⟨r, hr, hframe, hnew, -⟩ | ⟨hret, hnot, hsame⟩
  · refine ⟨r, mem_compacted _ hr, hframe, hnew, ?_⟩
    rw [walId_of_layout hr]
    exact Nat.lt_trans hwriting (Nat.lt_succ_self _)
  · refine ⟨q, ?_, rfl, hsame, halive⟩
    rcases hleft _ (Index.mem_of_get hget) hret with hin | ⟨z, hez, hz⟩
    · rw [entryOf_walId] at hin
      rw [← spots_started] at hq
      obtain ⟨F, hF, hid, hqF⟩ := walId_of_spots hq
      have hle := h.files.walId_le (spots_started c ▸ hq)
      refine List.mem_flatMap.mpr ⟨F, List.mem_filter.mpr ⟨mem_placeFile.mpr (.inr ⟨hF, ?_⟩), ?_⟩,
        hqF⟩
      · change F.id ≠ c.currentWalId + 1
        omega
      · simp only [decide_eq_true_eq]
        exact .inr (hid ▸ hin)
    · have hpos := congrArg (fun e : IndexEntry => (e.walId, e.offset)) hez
      simp only [entryOf_walId, entryOf_offset, Prod.mk.injEq] at hpos
      have hqz : q = z := spot_of_position h.files.sorted hz.1 hq hpos.1 hpos.2
      exact absurd ((h.files.mem_output_tail ho).mpr (hqz ▸ hz)) hnot

theorem Inv.recovers_saved_iff (h : Inv c history) (hnil : c.pending = [])
    (ho : c.started.compactedWal c.currentWalId (c.planCompaction retention) = some o) :
    Recovers c (c.compacted o left).disk ↔ BlockedLeft c retention left := by
  constructor
  · rintro ⟨c', hopen, hview, -⟩ p hp hret
    by_contra hnot
    rw [not_or] at hnot
    have hget := Index.get_of_mem h.index.keys (show (p.1, p.2) ∈ c.index from hp)
    obtain ⟨q, hq, he, halive, -⟩ := h.index.spot_of_get hget
    rw [he] at hget hret
    have hqtail : q ∉ o.tail := fun hqt => hnot.2 ⟨q, he, (h.files.mem_output_tail ho).mp hqt⟩
    have hsame : (c.remapped o).get p.1 = some (entryOf q) := by
      rcases h.get_remapped ho hget hq with ⟨r, -, -, -, hin⟩ | ⟨-, -, hsame⟩
      · exact absurd (hin hret) hqtail
      · exact hsame
    have hfiles : FilesOk (c.compacted o left) := h.compacted_filesOk
    obtain ⟨applied, seq, -, rfl⟩ := opened_of_ok hfiles.noCut hopen
    -- Nothing is replayed over the saved index.
    have hread : replayedAll (c.compacted o left).disk.snapshot
      (c.compacted o left).disk.files = [] := by
      have hp : ((c.started.renameCompacted c.currentWalId o).remapIndex c.currentWalId o).pending =
        [] := hnil
      refine hfiles.replayedAll_end (s := Coll.indexSnapshot _) ?_ ?_
      · simp only [Coll.indexSnapshot, hp]
        rfl
      · simp only [Coll.indexSnapshot, hp]
        rfl
    have hindex : ((c.compacted o left).disk.opened applied seq).index = c.remapped o := by
      rw [Disk.opened, Disk.replay, hread]
      rfl
    have hgone : frameAt ((c.compacted o left).disk.opened applied seq).disk.files q.walId
      q.offset = none := by
      have hfind : (((c.compacted o left).disk.opened applied seq).disk.files.find? fun F =>
        F.id = q.walId) =
          none := by
        refine List.find?_eq_none.mpr fun F hF => ?_
        have hle := h.files.walId_le hq
        simp only [decide_eq_true_eq]
        rcases mem_openFile hF with hF | rfl
        · obtain ⟨E, hE, rfl⟩ := List.mem_map.mp hF
          rw [settled_id]
          have hkeep := of_decide_eq_true (List.mem_filter.mp hE).2
          rw [he, entryOf_walId] at hnot
          intro heq
          rw [heq] at hkeep
          exact hkeep.elim (fun hlt => by omega) hnot.1
        · have hG : o.file (c.currentWalId + 1) ∈ (c.compacted o left).disk.files := by
            refine List.mem_filter.mpr ⟨mem_placeFile.mpr (.inl rfl), ?_⟩
            simp only [decide_eq_true_eq]
            exact .inl (Nat.lt_succ_self _)
          have hlt := lt_nextWalId hfiles.sorted hG
          have hid : (o.file (c.currentWalId + 1)).id = c.currentWalId + 1 := rfl
          simp only
          omega
      rw [frameAt, hfind]
      rfl
    have hv := hview p.1
    rw [view_of_spot h.files.sorted hget hq halive, Coll.view, hindex, hsame, Option.map_some] at hv
    simp only [Option.some.injEq, Prod.mk.injEq] at hv
    have hnone : ((c.compacted o left).disk.opened applied seq).payloadAt (entryOf q) = none := by
      rw [Coll.payloadAt, entryOf_walId, entryOf_offset, hgone]
      split <;> rfl
    rw [hnone] at hv
    cases hv.1
  · intro hleft
    have hfollows := h.follows_of_left ho hleft
    have hinv : Inv (c.compactedAt o left c.retiredThrough) history :=
      h.compactedAt ho hnil (Nat.le_of_lt h.index.writing) hfollows
    exact hinv.recovers (hfollows.view h.index h.files hinv.files fun key hget =>
      h.get_remapped_none ho hget) rfl

/-- Opening the directory that a compaction leaves at a point gives back the collection exactly when
a crash there loses nothing. -/
theorem Inv.recovers_iff (h : Inv c history) {point : CompactPoint}
    (hd : c.stopped retention point = some d) : Recovers c d ↔ CrashOk c retention point := by
  cases point with
  | flushed =>
    simp only [Coll.stopped] at hd
    split at hd
    · cases hd
      exact iff_of_true (h.persistFull.recovers (fun _ => rfl) rfl) trivial
    · cases hd
  | started =>
    obtain ⟨r, hr, rfl⟩ := Option.map_eq_some_iff.mp hd
    obtain ⟨-, rfl⟩ := startCompaction_eq hr
    exact iff_of_true (h.started.recovers h.started_view rfl) trivial
  | renamed =>
    obtain ⟨r, hr, hd⟩ := Option.bind_eq_some_iff.mp hd
    obtain ⟨hnil, rfl⟩ := startCompaction_eq hr
    obtain ⟨o, ho, rfl⟩ := Option.map_eq_some_iff.mp hd
    exact h.recovers_renamed_iff hnil ho
  | saved left =>
    obtain ⟨c', hc', rfl⟩ := Option.map_eq_some_iff.mp hd
    obtain ⟨hnil, o, ho, rfl⟩ := compact_eq hc'
    exact h.recovers_saved_iff hnil ho

theorem Inv.open_stopped (h : Inv c history) {point : CompactPoint}
    (hd : c.stopped retention point = some d)
    (hok : CrashOk c retention point) {c' : Coll V H} (hopen : d.openCollection = .ok c') :
    Inv c' history := by
  have hof : ∀ {v : Coll V H}, Inv v history → v.disk = d → Inv c' history := by
    intro v hv hvd
    have hsame := hv.open_eq
    rw [hvd, hopen] at hsame
    rw [Except.ok.inj hsame]
    exact hv.reopen
  cases point with
  | flushed =>
    simp only [Coll.stopped] at hd
    split at hd
    · exact hof h.persistFull (Option.some.inj hd)
    · cases hd
  | started =>
    obtain ⟨r, hr, rfl⟩ := Option.map_eq_some_iff.mp hd
    obtain ⟨-, rfl⟩ := startCompaction_eq hr
    exact hof h.started rfl
  | renamed =>
    obtain ⟨r, hr, hd⟩ := Option.bind_eq_some_iff.mp hd
    obtain ⟨hnil, rfl⟩ := startCompaction_eq hr
    obtain ⟨o, ho, rfl⟩ := Option.map_eq_some_iff.mp hd
    exact hof (v := c.replaced o) (h.replaced_of_kept hnil ho hok.1) rfl
  | saved left =>
    obtain ⟨c'', hc', rfl⟩ := Option.map_eq_some_iff.mp hd
    obtain ⟨hnil, o, ho, rfl⟩ := compact_eq hc'
    exact hof (v := c.compactedAt o left c.retiredThrough)
      (h.compactedAt ho hnil (Nat.le_of_lt h.index.writing) (h.follows_of_left ho hok)) rfl

end Points

end DewDB.Recovery
