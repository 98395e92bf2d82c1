import DewDB.CompactionTail

/-!
# What a compaction leaves

A live key that lies in front of the retained tail is rewritten, one inside the tail moves with it,
unless the copy of the tail has ended before it; such a key keeps its entry in a WAL that is
retired. Without such keys the run keeps the invariant.
-/
namespace DewDB.Recovery

open CollectionLog WalFile WalWriter StorageEntry

variable {V H : Type} [Encoded (LogEntry V H)] {c : Coll V H}
  {history : List (Frame (LogEntry V H))}

/-- The collection once the WALs up to `N` are frozen and writes go to `N + 2`. -/
def Coll.started (c : Coll V H) : Coll V H :=
  { c.persistWatermarkFull.syncWal.setFiles
      (openFile (c.currentWalId + 2) (onFile c.currentWalId File.sync c.disk.files)) with
    currentWalId := c.currentWalId + 2
    currentWalSize := 0 }

theorem startCompaction_eq {retention : Retention} {r : Coll V H × Plan}
    (h : c.startCompaction retention = some r) :
    c.pending = [] ∧ r = (c.started, c.planCompaction retention) := by
  unfold Coll.startCompaction at h
  split at h
  · cases h
  next hnil =>
  dsimp only at h
  split at h
  · cases h
  · exact ⟨not_not.mp hnil, (Option.some.inj h).symm⟩

def Coll.compacted (c : Coll V H) (o : Output V H) (orphaned : List ℕ) : Coll V H :=
  ((c.started.renameCompacted c.currentWalId o).remapIndex c.currentWalId o).saveIndex.removeWals
    c.currentWalId orphaned

theorem compact_eq {retention : Retention} {orphaned : List ℕ} {c' : Coll V H}
    (h : c.compact retention orphaned = some c') :
    c.pending = [] ∧ ∃ o, c.started.compactedWal c.currentWalId
      (c.planCompaction retention) = some o ∧ c' = c.compacted o orphaned := by
  obtain ⟨r, hr, h⟩ := Option.bind_eq_some_iff.mp h
  obtain ⟨hnil, rfl⟩ := startCompaction_eq hr
  obtain ⟨o, ho, rfl⟩ := Option.map_eq_some_iff.mp h
  exact ⟨hnil, o, ho, rfl⟩

theorem Inv.started (h : Inv c history) : Inv c.started history :=
  h.persistFull.sync.openAbove (Nat.lt_add_of_pos_right (Nat.succ_pos 1))

theorem spots_started (c : Coll V H) : spots c.started.disk.files = spots c.disk.files :=
  (spots_openFile _ _).trans (spots_sync _ _)

section Copies

omit [Encoded (LogEntry V H)] in
theorem filter_openFile {fs : List (File (LogEntry V H))} {id : ℕ} {keep : ℕ → Bool}
    (hid : keep id = false) :
    (openFile id fs).filter (fun F => keep F.id) = fs.filter fun F => keep F.id := by
  induction fs with
  | nil => simp [openFile, hid]
  | cons F fs ih =>
    rw [openFile]
    split
    · rw [List.filter_cons_of_neg (by simp [hid])]
    · split
      · rfl
      · rw [List.filter_cons, List.filter_cons, ih]

theorem copyFiles_sync (t : TailStart) (id : ℕ) (keep : ℕ → Bool)
    (fs : List (File (LogEntry V H))) :
    copyFiles t ((onFile id File.sync fs).filter fun F => keep F.id) =
      copyFiles t (fs.filter fun F => keep F.id) := by
  induction fs with
  | nil => rfl
  | cons F fs ih =>
    have hsame : (if F.id = id then F.sync else F).id = F.id ∧
        (if F.id = id then F.sync else F).chunks = F.chunks := by
      split
      · exact ⟨rfl, rfl⟩
      · exact ⟨rfl, rfl⟩
    have hcons : onFile id File.sync (F :: fs) = (if F.id = id then F.sync
      else F) :: onFile id File.sync fs :=
      rfl
    rw [hcons, List.filter_cons, List.filter_cons, hsame.1]
    split
    · rw [copyFiles, copyFiles, hsame.1, hsame.2, ih]
    · exact ih

theorem copyRetainedTail_started (c : Coll V H) (tail : Option TailStart) :
    copyRetainedTail c.started.disk.files c.currentWalId tail =
      copyRetainedTail c.disk.files c.currentWalId tail := by
  cases tail with
  | none => rfl
  | some t =>
    let keep : ℕ → Bool := fun id => decide (t.walId ≤ id ∧ id ≤ c.currentWalId)
    have hkeep : keep (c.currentWalId + 2) = false := by simp [keep]
    calc copyFiles t ((openFile (c.currentWalId + 2)
          (onFile c.currentWalId File.sync c.disk.files)).filter fun F => keep F.id)
        = copyFiles t ((onFile c.currentWalId File.sync c.disk.files).filter fun F =>
          keep F.id) := by
          rw [filter_openFile hkeep]
      _ = copyFiles t (c.disk.files.filter fun F => keep F.id) := copyFiles_sync t _ keep _

theorem FilesOk.mem_tail (h : FilesOk c) {t : TailStart} (ht : StartOk c.disk.files t)
    {q : Spot (LogEntry V H)} :
    q ∈ copyRetainedTail c.disk.files c.currentWalId (some t) ↔
      q ∈ spots c.disk.files ∧ t.covers q.walId q.offset = true ∧
        ∀ E ∈ c.disk.files, t.walId ≤ E.id → E.id < q.walId → ¬TornAfter (t.startIn E) E := by
  rw [copyRetainedTail, mem_copyFiles]
  have hends : ∀ E ∈ c.disk.files, (t.copied E).2 = false ↔ ¬TornAfter (t.startIn E) E := by
    intro E hE
    rw [← copied_ends ht hE (h.ended E hE), Bool.not_eq_true]
  constructor
  · rintro ⟨pre, F, post, hsplit, hqF, hpre⟩
    have hF : F ∈ c.disk.files.filter fun F => t.walId ≤ F.id ∧ F.id ≤ c.currentWalId :=
      hsplit ▸ List.mem_append_right _ List.mem_cons_self
    obtain ⟨hFmem, hFid⟩ := List.mem_filter.mp hF
    simp only [decide_eq_true_eq] at hFid
    obtain ⟨hqspots, hle⟩ := (mem_copied ht hFmem (h.ended F hFmem)).mp hqF
    have hwal : q.walId = F.id := walId_of_layout hqspots
    refine ⟨List.mem_flatMap.mpr ⟨F, hFmem, hqspots⟩, ?_, ?_⟩
    · unfold TailStart.startIn at hle
      simp only [TailStart.covers, decide_eq_true_eq, hwal]
      split at hle
      · next hid => exact .inr ⟨hid.symm, hle⟩
      · next hne => exact .inl (by omega)
    · intro E hE hge hlt
      have hEmem : E ∈ pre ++ F :: post := by
        rw [← hsplit]
        exact List.mem_filter.mpr ⟨hE, by simp only [decide_eq_true_eq]; omega⟩
      have hsorted : ((pre ++ F :: post).map File.id).Pairwise (· < ·) := by
        rw [← hsplit]
        exact h.sorted.sublist (List.filter_sublist.map _)
      rw [List.map_append, List.map_cons, List.pairwise_append, List.pairwise_cons] at hsorted
      rw [← hends E hE]
      rcases List.mem_append.mp hEmem with hEpre | hEpost
      · exact hpre E hEpre
      · rcases List.mem_cons.mp hEpost with rfl | hEpost
        · omega
        · have := hsorted.2.1.1 E.id (List.mem_map_of_mem hEpost)
          omega
  · rintro ⟨hq, hcovers, hclear⟩
    obtain ⟨F, hF, hid, hqF⟩ := walId_of_spots hq
    have hle := h.walId_le hq
    simp only [TailStart.covers, decide_eq_true_eq] at hcovers
    have hFmem : F ∈ c.disk.files.filter fun F => t.walId ≤ F.id ∧ F.id ≤ c.currentWalId :=
      List.mem_filter.mpr ⟨hF, by simp only [decide_eq_true_eq]; omega⟩
    obtain ⟨pre, post, hsplit, hpre, -⟩ :=
      files_split (h.sorted.sublist (List.filter_sublist.map _)) hFmem
    refine ⟨pre, F, post, hsplit, (mem_copied ht hF (h.ended F hF)).mpr ⟨hqF, ?_⟩, ?_⟩
    · unfold TailStart.startIn
      split
      · omega
      · exact Nat.zero_le _
    · intro E hE
      have hEmem : E ∈ c.disk.files.filter fun F => t.walId ≤ F.id ∧ F.id ≤ c.currentWalId :=
        hsplit ▸ List.mem_append_left _ hE
      obtain ⟨hEfiles, hEid⟩ := List.mem_filter.mp hEmem
      simp only [decide_eq_true_eq] at hEid
      have hlt := hpre E hE
      exact (hends E hEfiles).mpr (hclear E hEfiles hEid.1 (by omega))

end Copies

section Remapped

variable {o : Output V H} {plan : Plan}

omit [Encoded (LogEntry V H)] in
theorem mem_frozenIndex {tail : Option TailStart} {frozenThrough : ℕ} {p : String × IndexEntry} :
    p ∈ c.frozenIndex frozenThrough tail ↔
      p ∈ c.index ∧ p.2.walId ≤ frozenThrough ∧ retained tail p.2 = false := by
  rw [Coll.frozenIndex, List.mem_mergeSort, List.mem_filter, decide_eq_true_eq]

theorem IndexOk.frozenIndex_keys (h : IndexOk c) (frozenThrough : ℕ) (tail : Option TailStart) :
    ((c.frozenIndex frozenThrough tail).map Prod.fst).Nodup := by
  refine List.Perm.nodup ((List.mergeSort_perm _ _).map Prod.fst).symm ?_
  exact h.keys.sublist (List.filter_sublist.map _)

theorem IndexOk.spot_of_get (h : IndexOk c) {key : String} {e : IndexEntry}
    (hget : c.index.get key = some e) :
    ∃ q ∈ spots c.disk.files, e = entryOf q ∧ c.retiredThrough < q.walId ∧
      resolve q key = some (some e) := by
  obtain ⟨q, hq, hres⟩ := h.located _ (Index.mem_of_get hget)
  obtain ⟨he, -⟩ := resolve_put hres
  have halive := h.alive _ (Index.mem_of_get hget)
  have he : e = entryOf q := he
  refine ⟨q, hq, he, ?_, hres⟩
  rwa [he, entryOf_walId] at halive

theorem compactedWal_eq (ho : c.started.compactedWal c.currentWalId plan = some o) :
    o.live.map (fun r => (r.1, r.2.1)) = c.frozenIndex c.currentWalId plan.tail ∧
      (∀ r ∈ o.live, frameAt c.started.disk.files r.2.1.walId r.2.1.offset = some r.2.2) ∧
      o.tail = copyRetainedTail c.disk.files c.currentWalId plan.tail := by
  obtain ⟨live, hlive, rfl⟩ := Option.map_eq_some_iff.mp ho
  obtain ⟨hmap, hframes⟩ := readLive_eq hlive
  exact ⟨hmap, hframes, copyRetainedTail_started c plan.tail⟩

theorem layout_output (id : ℕ) (o : Output V H) :
    layout id 0 o.chunks = layout id 0 (o.live.map fun r => .frame r.2.2) ++
      layout id (o.live.map fun r => frameLen r.2.2).sum (o.tail.map fun q => .frame q.frame) := by
  have hw : Whole (o.live.map fun r => Chunk.frame r.2.2) := by
    intro p hp
    obtain ⟨r, -, rfl⟩ := List.mem_map.mp hp
    exact ⟨_, rfl⟩
  have hbytes : bytes (o.live.map fun r => Chunk.frame r.2.2) = (o.live.map fun r =>
    frameLen r.2.2).sum := by
    rw [bytes, List.map_map]
    rfl
  have hchunks : o.chunks =
      o.live.map (fun r => Chunk.frame r.2.2) ++ o.tail.map fun q => Chunk.frame q.frame := by
    rw [Output.chunks, Output.frames, List.map_append, List.map_map, List.map_map]
    rfl
  rw [hchunks, layout_append_whole hw, Nat.zero_add, hbytes]

def Coll.remapped (c : Coll V H) (o : Output V H) : Index :=
  remapMoved (c.currentWalId + 1) (movedTo (o.live.map fun r => frameLen r.2.2).sum o.tail)
    (remapRelocated c.index (placed (c.currentWalId + 1) 0 o.live))

/-- The keys that are rewritten, with their old entries, are those in front of the tail. -/
theorem IndexOk.placed_live (h : IndexOk c)
    (ho : c.started.compactedWal c.currentWalId plan = some o) :
    (placed (c.currentWalId + 1) 0 o.live).map (fun r => (r.1, r.2.1)) =
        c.frozenIndex c.currentWalId plan.tail ∧
      ((placed (c.currentWalId + 1) 0 o.live).map Prod.fst).Nodup ∧
      ∀ r ∈ placed (c.currentWalId + 1) 0 o.live,
        (r.1, r.2.1) ∈ c.frozenIndex c.currentWalId plan.tail ∧ c.index.get r.1 = some r.2.1 := by
  obtain ⟨hlive, -⟩ := compactedWal_eq ho
  have hpairs := (placed_keys (c.currentWalId + 1) 0 o.live).trans hlive
  have hfst : (placed (c.currentWalId + 1) 0 o.live).map Prod.fst =
      (c.frozenIndex c.currentWalId plan.tail).map Prod.fst := by
    rw [← hpairs, List.map_map]
    rfl
  refine ⟨hpairs, hfst ▸ h.frozenIndex_keys _ _, fun r hr => ?_⟩
  have hmem : (r.1, r.2.1) ∈ c.frozenIndex c.currentWalId plan.tail :=
    hpairs ▸ List.mem_map_of_mem (f := fun r : String × IndexEntry × IndexEntry => (r.1, r.2.1)) hr
  exact ⟨hmem, Index.get_of_mem h.keys (mem_frozenIndex.mp hmem).1⟩

theorem Inv.get_relocated (h : Inv c history)
    (ho : c.started.compactedWal c.currentWalId plan = some o) {key : String}
    {q : Spot (LogEntry V H)}
    (hget : c.index.get key = some (entryOf q)) (hq : q ∈ spots c.disk.files) :
    if retained plan.tail (entryOf q) then
      (remapRelocated c.index (placed (c.currentWalId + 1) 0 o.live)).get key = some (entryOf q)
    else ∃ offset, ⟨q.frame, c.currentWalId + 1, offset⟩ ∈
          layout (c.currentWalId + 1) 0 (o.live.map fun r => .frame r.2.2) ∧
        (remapRelocated c.index (placed (c.currentWalId + 1) 0 o.live)).get key =
          some (entryOf ⟨q.frame, c.currentWalId + 1, offset⟩) := by
  obtain ⟨-, hframes, -⟩ := compactedWal_eq ho
  obtain ⟨hpairs, hkeys, hmem⟩ := h.index.placed_live ho
  obtain ⟨hnew, hsame⟩ := get_remapRelocated hkeys (fun r hr => (hmem r hr).2) key
  split
  · next hret =>
    rw [hsame, hget]
    intro hin
    obtain ⟨r, hr, rfl⟩ := List.mem_map.mp hin
    have hr' := (mem_frozenIndex.mp (hmem r hr).1).2.2
    rw [Option.some.inj ((hmem r hr).2.symm.trans hget)] at hr'
    simp [hret] at hr'
  · next hret =>
    have hin : (key, entryOf q) ∈ c.frozenIndex c.currentWalId plan.tail :=
      mem_frozenIndex.mpr ⟨Index.mem_of_get hget, by rw [entryOf_walId]; exact h.files.walId_le hq,
        by simpa using hret⟩
    rw [← hpairs] at hin
    obtain ⟨r, hr, hreq⟩ := List.mem_map.mp hin
    obtain ⟨f, offset, hf, hentry, hlay⟩ := mem_placed hr
    obtain ⟨rfl, hold'⟩ := Prod.mk.inj hreq
    have hframe := hframes _ hf
    simp only [hold', entryOf_walId, entryOf_offset] at hframe
    have hsorted := h.started.files.sorted
    rw [frameAt_of_spot hsorted ((spots_started c).symm ▸ hq)] at hframe
    obtain rfl := Option.some.inj hframe
    exact ⟨offset, hlay, by rw [hnew r hr rfl, hentry]⟩

theorem FilesOk.tail_spots (h : FilesOk c) {retention : Retention}
    (htail : o.tail = copyRetainedTail c.disk.files c.currentWalId
      (c.planCompaction retention).tail)
    {r : Spot (LogEntry V H)} (hr : r ∈ o.tail) : r ∈ spots c.disk.files := by
  rw [htail] at hr
  cases ht : (c.planCompaction retention).tail with
  | none => simp [ht, copyRetainedTail] at hr
  | some t =>
    rw [ht] at hr
    exact ((h.mem_tail (h.startOk ht)).mp hr).1

/-- A key comes to lie in the compacted WAL, unless the tail that covers it was cut short. -/
theorem Inv.get_remapped (h : Inv c history) {retention : Retention}
    (ho : c.started.compactedWal c.currentWalId (c.planCompaction retention) = some o)
    {key : String}
    {q : Spot (LogEntry V H)} (hget : c.index.get key = some (entryOf q))
    (hq : q ∈ spots c.disk.files) :
    (∃ r ∈ layout (c.currentWalId + 1) 0 o.chunks, r.frame = q.frame ∧
        (c.remapped o).get key = some (entryOf r) ∧
        (retained (c.planCompaction retention).tail (entryOf q) = true → q ∈ o.tail)) ∨
      (retained (c.planCompaction retention).tail (entryOf q) = true ∧ q ∉ o.tail ∧
        (c.remapped o).get key = some (entryOf q)) := by
  have hreloc := h.get_relocated ho hget hq
  obtain ⟨-, -, htail⟩ := compactedWal_eq ho
  have hspots : ∀ r ∈ o.tail, r ∈ spots c.disk.files := fun r hr => h.files.tail_spots htail hr
  rw [Coll.remapped, remapMoved_eq, Index.get_map, layout_output]
  generalize hmoved : movedTo (o.live.map fun r => frameLen r.2.2).sum o.tail = moved
  have hin : ∀ {r}, r ∈ moved → r.1 ∈ o.tail ∧ ⟨r.1.frame, c.currentWalId + 1, r.2⟩ ∈
      layout (c.currentWalId + 1) (o.live.map fun r => frameLen r.2.2).sum
        (o.tail.map fun q => .frame q.frame) := fun hr => mem_movedTo (hmoved ▸ hr)
  split at hreloc
  · next hret =>
    rw [hreloc, Option.map_some, movedEntry]
    cases hfind : moved.find? fun r => r.1.walId = (entryOf q).walId ∧
      r.1.offset = (entryOf q).offset with
    | none =>
      refine .inr ⟨hret, fun hqtail => ?_, rfl⟩
      obtain ⟨offset, hmem⟩ := exists_movedTo (n := (o.live.map fun r => frameLen r.2.2).sum) hqtail
      have := List.find?_eq_none.mp hfind _ (hmoved ▸ hmem)
      simp [entryOf_walId, entryOf_offset] at this
    | some r =>
      obtain ⟨hrtail, hlay⟩ := hin (List.mem_of_find?_eq_some hfind)
      have hpos := List.find?_some hfind
      simp only [entryOf_walId, entryOf_offset, decide_eq_true_eq] at hpos
      have hrq : r.1 = q := spot_of_position h.files.sorted hq (hspots _ hrtail) hpos.1 hpos.2
      refine .inl ⟨_, List.mem_append_right _ hlay, by rw [hrq], ?_, fun _ => hrq ▸ hrtail⟩
      rw [hrq]
      exact congrArg some (entryOf_move q.frame q.walId _ q.offset _).symm
  · next hret =>
    obtain ⟨offset, hlay, hget'⟩ := hreloc
    have hfind : (moved.find? fun r =>
        r.1.walId = (entryOf ⟨q.frame, c.currentWalId + 1, offset⟩).walId ∧
          r.1.offset = (entryOf ⟨q.frame, c.currentWalId + 1, offset⟩).offset) = none := by
      refine List.find?_eq_none.mpr fun r hr => ?_
      have := h.files.walId_le (hspots _ (hin hr).1)
      simp only [entryOf_walId, decide_eq_true_eq]
      omega
    rw [hget', Option.map_some, movedEntry, hfind]
    exact .inl ⟨_, List.mem_append_left _ hlay, rfl, rfl, fun hret' => absurd hret' hret⟩

theorem Inv.get_remapped_none (h : Inv c history)
    (ho : c.started.compactedWal c.currentWalId plan = some o) {key : String}
    (hget : c.index.get key = none) : (c.remapped o).get key = none := by
  obtain ⟨-, hkeys, hmem⟩ := h.index.placed_live ho
  have hsame := (get_remapRelocated hkeys (fun r hr => (hmem r hr).2) key).2
  rw [Coll.remapped, remapMoved_eq, Index.get_map, hsame, hget]
  · rfl
  · intro hin
    obtain ⟨r, hr, rfl⟩ := List.mem_map.mp hin
    rw [(hmem r hr).2] at hget
    cases hget

end Remapped

section Files

variable {o : Output V H}

def Output.file (o : Output V H) (id : ℕ) : File (LogEntry V H) := ⟨id, o.chunks, o.chunks.length⟩

omit [Encoded (LogEntry V H)] in
theorem Output.whole (o : Output V H) : Whole o.chunks := by
  intro p hp
  obtain ⟨f, -, rfl⟩ := List.mem_map.mp hp
  exact ⟨f, rfl⟩

omit [Encoded (LogEntry V H)] in
theorem mem_placeFile {G F : File (LogEntry V H)} {fs : List (File (LogEntry V H))} :
    F ∈ placeFile G fs ↔ F = G ∨ F ∈ fs ∧ F.id ≠ G.id := by
  simp only [placeFile, List.mem_append, List.mem_filter, List.mem_cons, decide_eq_true_eq]
  constructor
  · rintro (⟨hF, hlt⟩ | rfl | ⟨hF, hlt⟩)
    · exact .inr ⟨hF, Nat.ne_of_lt hlt⟩
    · exact .inl rfl
    · exact .inr ⟨hF, Nat.ne_of_gt hlt⟩
  · rintro (rfl | ⟨hF, hne⟩)
    · exact .inr (.inl rfl)
    · rcases Nat.lt_or_gt_of_ne hne with hlt | hgt
      · exact .inl ⟨hF, hlt⟩
      · exact .inr (.inr ⟨hF, hgt⟩)

omit [Encoded (LogEntry V H)] in
theorem placeFile_sorted {G : File (LogEntry V H)} {fs : List (File (LogEntry V H))}
    (h : (fs.map File.id).Pairwise (· < ·)) : ((placeFile G fs).map File.id).Pairwise (· < ·) := by
  rw [placeFile, List.map_append, List.map_cons, List.pairwise_append, List.pairwise_cons]
  have hbelow : ∀ id ∈ (fs.filter fun F => F.id < G.id).map File.id, id < G.id := by
    intro id hid
    obtain ⟨F, hF, rfl⟩ := List.mem_map.mp hid
    exact of_decide_eq_true (List.mem_filter.mp hF).2
  have habove : ∀ id ∈ (fs.filter fun F => G.id < F.id).map File.id, G.id < id := by
    intro id hid
    obtain ⟨F, hF, rfl⟩ := List.mem_map.mp hid
    exact of_decide_eq_true (List.mem_filter.mp hF).2
  refine ⟨h.sublist (List.filter_sublist.map _),
    ⟨habove, h.sublist (List.filter_sublist.map _)⟩, ?_⟩
  intro a ha b hb
  have hlt := hbelow a ha
  rcases List.mem_cons.mp hb with rfl | hb
  · exact hlt
  · exact Nat.lt_trans hlt (habove b hb)

theorem frame_of_layout {id n : ℕ} {fs : List (Frame (LogEntry V H))} {q : Spot (LogEntry V H)}
    (hq : q ∈ layout id n (fs.map .frame)) : q.frame ∈ fs := by
  induction fs generalizing n with
  | nil => simp [layout] at hq
  | cons f fs ih =>
    rcases List.mem_cons.mp hq with rfl | hq
    · exact List.mem_cons_self
    · exact List.mem_cons_of_mem _ (ih hq)

/-- A frame that is rewritten is that of a live key in front of the tail. -/
theorem Inv.live_spot (h : Inv c history) {plan : Plan}
    (ho : c.started.compactedWal c.currentWalId plan = some o)
    {r : String × IndexEntry × Frame (LogEntry V H)} (hr : r ∈ o.live) :
    ∃ q ∈ spots c.disk.files, r.2.1 = entryOf q ∧ r.2.2 = q.frame ∧ (r.1, r.2.1) ∈ c.index ∧
      retained plan.tail r.2.1 = false ∧ resolve q r.1 = some (some r.2.1) := by
  obtain ⟨hlive, hframes, -⟩ := compactedWal_eq ho
  have hmem : (r.1, r.2.1) ∈ c.frozenIndex c.currentWalId plan.tail :=
    hlive ▸ List.mem_map_of_mem (f := fun r : String × IndexEntry × Frame (LogEntry V H) =>
      (r.1, r.2.1)) hr
  obtain ⟨hindex, -, hret⟩ := mem_frozenIndex.mp hmem
  obtain ⟨q, hq, hres⟩ := h.index.located _ hindex
  obtain ⟨he, -⟩ := resolve_put hres
  have he : r.2.1 = entryOf q := he
  have hframe := hframes r hr
  rw [he, entryOf_walId, entryOf_offset,
    frameAt_of_spot h.started.files.sorted ((spots_started c).symm ▸ hq)] at hframe
  exact ⟨q, hq, he, (Option.some.inj hframe).symm, hindex, hret, hres⟩

theorem Inv.output_frames (h : Inv c history) {retention : Retention}
    (ho : c.started.compactedWal c.currentWalId (c.planCompaction retention) = some o)
    {f : Frame (LogEntry V H)} (hf : f ∈ o.frames) : ∃ q ∈ spots c.disk.files, q.frame = f := by
  rcases List.mem_append.mp hf with hf | hf
  · obtain ⟨r, hr, rfl⟩ := List.mem_map.mp hf
    obtain ⟨q, hq, -, hframe, -⟩ := h.live_spot ho hr
    exact ⟨q, hq, hframe.symm⟩
  · obtain ⟨q, hq, rfl⟩ := List.mem_map.mp hf
    exact ⟨q, h.files.tail_spots (compactedWal_eq ho).2.2 hq, rfl⟩

theorem Inv.started_empty (h : Inv c history) {F : File (LogEntry V H)}
    (hF : F ∈ c.started.disk.files) (hlt : c.currentWalId < F.id) : F.chunks = [] := by
  rcases mem_openFile hF with hF | rfl
  · obtain ⟨E, hE, hid, hchunks⟩ := mem_onFile_sync hF
    rw [hchunks]
    exact h.files.above E hE (by omega)
  · rfl

def Coll.renamedFiles (c : Coll V H) (o : Output V H) : List (File (LogEntry V H)) :=
  placeFile (o.file (c.currentWalId + 1)) c.started.disk.files

theorem Inv.mem_renamed (h : Inv c history) {retention : Retention}
    (ho : c.started.compactedWal c.currentWalId (c.planCompaction retention) = some o)
    {q : Spot (LogEntry V H)} (hq : q ∈ spots (c.renamedFiles o)) :
    ∃ r ∈ spots c.disk.files, r.frame = q.frame := by
  obtain ⟨F, hF, hqF⟩ := List.mem_flatMap.mp hq
  rcases mem_placeFile.mp hF with rfl | ⟨hF, -⟩
  · exact h.output_frames ho (frame_of_layout hqF)
  · refine ⟨q, ?_, rfl⟩
    rw [← spots_started]
    exact List.mem_flatMap.mpr ⟨F, hF, hqF⟩

theorem Inv.renamed_ended (h : Inv c history) {F : File (LogEntry V H)}
    (hF : F ∈ c.renamedFiles o) : Ended F.chunks := by
  rcases mem_placeFile.mp hF with rfl | ⟨hF, -⟩
  · exact o.whole.ended
  · exact h.started.files.ended F hF

theorem Inv.filesOk_of_renamed (h : Inv c history) {c' : Coll V H} (keep : ℕ → Bool)
    (hfiles : c'.disk.files = (c.renamedFiles o).filter fun F => keep F.id)
    (hkeep : ∀ id, c.currentWalId < id → keep id = true)
    (hcur : c'.currentWalId = c.currentWalId + 2)
    (hsize : c'.currentWalSize = 0) (hcut : c'.disk.cut = none) : FilesOk c' := by
  have hmem : ∀ F ∈ c'.disk.files, F ∈ c.renamedFiles o :=
    fun F hF => List.mem_of_mem_filter (hfiles ▸ hF)
  refine ⟨?_, fun F hF => h.renamed_ended (hmem F hF), ?_, ?_, hcut, ?_⟩
  · rw [hfiles]
    exact (placeFile_sorted h.started.files.sorted).sublist (List.filter_sublist.map _)
  · obtain ⟨G, hG, hid, hwhole, hbytes⟩ := h.started.files.writer
    have hid : G.id = c.currentWalId + 2 := hid
    refine ⟨G, ?_, by omega, hwhole, by rw [hsize]; exact hbytes⟩
    rw [hfiles]
    refine List.mem_filter.mpr ⟨mem_placeFile.mpr (.inr ⟨hG, ?_⟩), hkeep _ (by omega)⟩
    change G.id ≠ c.currentWalId + 1
    omega
  · intro F hF hlt
    rcases mem_placeFile.mp (hmem F hF) with rfl | ⟨hF, -⟩
    · have hlt : c'.currentWalId < c.currentWalId + 1 := hlt
      omega
    · exact h.started_empty hF (by omega)
  · intro F hF
    rcases mem_placeFile.mp (hmem F hF) with rfl | ⟨hF, -⟩
    · exact Nat.succ_pos _
    · exact h.started.files.named F hF

end Files

section Compacted

variable {o : Output V H} {retention : Retention} {orphaned : List ℕ}

/-- No live key of the retained tail lies behind a WAL, of the tail too, that ends in a torn frame
with a whole header. -/
def Unblocked (c : Coll V H) (retention : Retention) : Prop :=
  ∀ t, (c.planCompaction retention).tail = some t → ∀ p ∈ c.index,
    t.covers p.2.walId p.2.offset = true →
    ∀ F ∈ c.disk.files, t.walId ≤ F.id → F.id < p.2.walId → ¬TornAfter (t.startIn F) F

theorem Inv.tail_of_unblocked (h : Inv c history)
    (ho : c.started.compactedWal c.currentWalId (c.planCompaction retention) = some o)
    (hub : Unblocked c retention) {key : String} {q : Spot (LogEntry V H)}
    (hget : c.index.get key = some (entryOf q)) (hq : q ∈ spots c.disk.files)
    (hret : retained (c.planCompaction retention).tail (entryOf q) = true) : q ∈ o.tail := by
  obtain ⟨-, -, htail⟩ := compactedWal_eq ho
  cases ht : (c.planCompaction retention).tail with
  | none => simp [ht, retained] at hret
  | some t =>
    rw [ht, retained, Option.any_some, entryOf_walId, entryOf_offset] at hret
    rw [htail, ht, h.files.mem_tail (h.files.startOk ht)]
    refine ⟨hq, hret, fun F hF hle hlt => ?_⟩
    have hcov : t.covers (entryOf q).walId (entryOf q).offset = true := by
      rw [entryOf_walId, entryOf_offset]
      exact hret
    exact hub t ht _ (Index.mem_of_get hget) hcov F hF hle (by rw [entryOf_walId]; exact hlt)

theorem resolve_frame {q r : Spot (LogEntry V H)} {key : String} (hframe : r.frame = q.frame)
    (hres : resolve q key = some (some (entryOf q))) : resolve r key = some (some (entryOf r)) := by
  obtain ⟨-, migration, value, ts, expireAt, hq⟩ := resolve_put hres
  rw [← hframe] at hq
  simp [resolve, hq]

/-- The entry of a key in `c'` names the frame of its entry in `c`. -/
def Follows (c c' : Coll V H) : Prop :=
  ∀ key q, c.index.get key = some (entryOf q) → q ∈ spots c.disk.files →
    c.retiredThrough < q.walId →
    ∃ r ∈ spots c'.disk.files, r.frame = q.frame ∧ c'.index.get key = some (entryOf r) ∧
      c'.retiredThrough < r.walId

theorem Follows.view {c c' : Coll V H} (h : Follows c c') (hindex : IndexOk c) (hfiles : FilesOk c)
    (hfiles' : FilesOk c') (hnone : ∀ key, c.index.get key = none → c'.index.get key = none)
    (key : String) : c'.view key = c.view key := by
  cases hget : c.index.get key with
  | none => simp [Coll.view, hget, hnone key hget]
  | some e =>
    obtain ⟨q, hq, rfl, halive, -⟩ := hindex.spot_of_get hget
    obtain ⟨r, hr, hframe, hget', halive'⟩ := h key q hget hq halive
    obtain ⟨hversion, hexpire⟩ := entryOf_frame hframe
    rw [view_of_spot hfiles.sorted hget hq halive,
      view_of_spot hfiles'.sorted hget' hr halive', hframe, hversion, hexpire]

omit [Encoded (LogEntry V H)] in
theorem remapMoved_keys (compactId : ℕ) (moved : List (Spot (LogEntry V H) × ℕ)) (m : Index) :
    (remapMoved compactId moved m).map Prod.fst = m.map Prod.fst := by
  rw [remapMoved_eq, List.map_map]
  rfl

theorem IndexOk.remapped_keys (h : IndexOk c) (o : Output V H) :
    ((c.remapped o).map Prod.fst).Nodup := by
  rw [Coll.remapped, remapMoved_keys]
  exact nodup_remapRelocated h.keys _

theorem Inv.compacted_filesOk (h : Inv c history) : FilesOk (c.compacted o orphaned) := by
  refine h.filesOk_of_renamed (o := o) (fun id => decide (c.currentWalId < id ∨ id ∈ orphaned))
    rfl (fun id hlt => ?_) rfl rfl h.files.noCut
  simp only [decide_eq_true_eq]
  exact .inl hlt

theorem mem_compacted (orphaned : List ℕ) {q : Spot (LogEntry V H)}
    (hq : q ∈ layout (c.currentWalId + 1) 0 o.chunks) :
    q ∈ spots (c.compacted o orphaned).disk.files := by
  refine List.mem_flatMap.mpr ⟨o.file (c.currentWalId + 1), ?_, hq⟩
  refine List.mem_filter.mpr ⟨mem_placeFile.mpr (.inl rfl), ?_⟩
  simp only [decide_eq_true_eq]
  exact .inl (Nat.lt_succ_self _)

theorem compacted_subset {q : Spot (LogEntry V H)}
    (hq : q ∈ spots (c.compacted o orphaned).disk.files) : q ∈ spots (c.renamedFiles o) := by
  obtain ⟨F, hF, hqF⟩ := List.mem_flatMap.mp hq
  exact List.mem_flatMap.mpr ⟨F, List.mem_of_mem_filter hF, hqF⟩

theorem LogOk.le_applied (h : LogOk c history) (hnil : c.pending = []) {q : Spot (LogEntry V H)}
    (hq : q ∈ spots c.disk.files) : q.frame.lsn ≤ c.appliedLsn := by
  obtain ⟨A, hA, hcommitted⟩ := h.split
  rw [hA, hnil, List.append_nil] at hq
  exact hcommitted q hq

theorem LogOk.of_frames (h : LogOk c history) (hnil : c.pending = []) {c' : Coll V H}
    (hpending : c'.pending = []) (happlied : c'.appliedLsn = c.appliedLsn)
    (htail : c'.tail = c.tail) (hmeta : c'.disk.appliedMeta ≠ none)
    (hframes : ∀ q ∈ spots c'.disk.files, ∃ r ∈ spots c.disk.files, r.frame = q.frame) :
    LogOk c' history := by
  refine ⟨⟨spots c'.disk.files, by rw [hpending, List.append_nil], ?_⟩, by simp [hpending],
    by simp [hpending], ?_, ?_, happlied.trans h.applied, ?_, ?_, fun hm => absurd hm hmeta⟩
  · intro q hq
    obtain ⟨r, hr, hrq⟩ := hframes q hq
    rw [← hrq, happlied]
    exact h.le_applied hnil hr
  · intro q hq
    obtain ⟨r, hr, hrq⟩ := hframes q hq
    rw [← hrq]
    exact h.positive r hr
  · intro q hq q' hq' heq
    obtain ⟨r, hr, hrq⟩ := hframes q hq
    obtain ⟨r', hr', hrq'⟩ := hframes q' hq'
    rw [← hrq, ← hrq'] at heq ⊢
    exact h.unique r hr r' hr' heq
  · intro q hq heq
    obtain ⟨r, hr, hrq⟩ := hframes q hq
    rw [← hrq] at heq ⊢
    exact h.term r hr (heq.trans happlied)
  · rw [htail, hpending, h.tail_of_nil hnil]
    rfl

/-- The collection at the end of a run, with other WALs retired. -/
def Coll.compactedAt (c : Coll V H) (o : Output V H) (orphaned : List ℕ) (retired : ℕ) : Coll V H :=
  { c.compacted o orphaned with retiredThrough := retired }

theorem Inv.compacted_indexOk (h : Inv c history)
    (ho : c.started.compactedWal c.currentWalId (c.planCompaction retention) = some o)
    (hnil : c.pending = []) {retired : ℕ} (hle : retired ≤ c.currentWalId)
    (hfollows : Follows c (c.compactedAt o orphaned retired)) :
    IndexOk (c.compactedAt o orphaned retired) := by
  have hkeys := h.index.remapped_keys o
  have hloc : ∀ p ∈ c.remapped o, ∃ q r, c.index.get p.1 = some (entryOf q) ∧
      r ∈ spots (c.compactedAt o orphaned retired).disk.files ∧ r.frame = q.frame ∧
        p.2 = entryOf r ∧
      resolve r p.1 = some (some p.2) ∧ retired < r.walId := by
    intro p hp
    have hget := Index.get_of_mem hkeys hp
    cases hold : c.index.get p.1 with
    | none =>
      rw [h.get_remapped_none ho hold] at hget
      cases hget
    | some e =>
      obtain ⟨q, hq, rfl, halive, hres⟩ := h.index.spot_of_get hold
      obtain ⟨r, hr, hframe, hget', halive'⟩ := hfollows p.1 q hold hq halive
      have he : p.2 = entryOf r := Option.some.inj (hget.symm.trans hget')
      exact ⟨q, r, rfl, hr, hframe, he, by rw [he]; exact resolve_frame hframe hres, halive'⟩
  have hlocated : ∀ p ∈ c.remapped o, Located (c.compactedAt o orphaned retired).disk.files p := by
    intro p hp
    obtain ⟨q, r, -, hr, -, -, hres, -⟩ := hloc p hp
    exact ⟨r, hr, hres⟩
  have hcommitted : ∀ p ∈ c.remapped o, p.2.lsn ≤ c.appliedLsn := by
    intro p hp
    obtain ⟨q, r, hget, -, hframe, he, -⟩ := hloc p hp
    have hle := h.index.committed _ (List.mem_append_left _ (Index.mem_of_get hget))
    rw [entryOf_lsn] at hle
    rw [he, entryOf_lsn, hframe]
    exact hle
  refine ⟨hkeys, hlocated, ?_, ?_, ?_, hkeys, hlocated, ?_⟩
  · intro p hp
    obtain ⟨q, r, -, -, -, he, -, halive⟩ := hloc p hp
    rw [he, entryOf_walId]
    exact halive
  · intro q hq
    have hq : q ∈ c.pending := hq
    simp [hnil] at hq
  · exact Nat.lt_of_le_of_lt hle (Nat.lt_add_of_pos_right (Nat.succ_pos 1))
  · intro p hp
    rcases List.mem_append.mp hp with hp | hp
    · exact hcommitted p hp
    · exact hcommitted p hp

/-- A run whose new entries name the frames of the old ones keeps the invariant. -/
theorem Inv.compactedAt (h : Inv c history)
    (ho : c.started.compactedWal c.currentWalId (c.planCompaction retention) = some o)
    (hnil : c.pending = []) {retired : ℕ} (hle : retired ≤ c.currentWalId)
    (hfollows : Follows c (c.compactedAt o orphaned retired)) :
    Inv (c.compactedAt o orphaned retired) history := by
  have hfiles : FilesOk (c.compacted o orphaned) := h.compacted_filesOk
  have hpending : (c.compactedAt o orphaned retired).pending = [] := hnil
  -- The index is saved with nothing staged: a replay resumes at the writer's position.
  have hresume : (c.compactedAt o orphaned retired).disk.snapshot =
      some ⟨c.currentWalId + 2, 0, c.lastAppendedLsn, c.lastAppendedTerm, c.remapped o⟩ := by
    have hsnap : (c.compactedAt o orphaned retired).disk.snapshot =
        some ((c.started.renameCompacted c.currentWalId o).remapIndex c.currentWalId
          o).indexSnapshot := rfl
    rw [hsnap, Coll.indexSnapshot]
    have hp : ((c.started.renameCompacted c.currentWalId o).remapIndex c.currentWalId o).pending =
      [] := hnil
    simp only [hp]
    rfl
  have hempty : replayedAll (c.compactedAt o orphaned retired).disk.snapshot
      (c.compactedAt o orphaned retired).disk.files = [] := by
    rw [hresume]
    exact hfiles.replayedAll_end rfl rfl
  refine ⟨⟨hfiles.sorted, hfiles.ended, hfiles.writer, hfiles.above, hfiles.noCut, hfiles.named⟩,
    ?_, h.compacted_indexOk ho hnil hle hfollows, ?_, ?_⟩
  · exact h.log.of_frames hnil hpending rfl rfl (Option.some_ne_none _) fun q hq =>
      h.mem_renamed ho (compacted_subset hq)
  · refine ⟨?_, ?_, ⟨[], ?_, by simp, by simp, ?_, ?_⟩⟩
    · rw [hresume]
      intro s hs F hF hid
      cases hs
      exact ⟨[], F.chunks, rfl, by simp [Whole], rfl⟩
    · rw [hresume]
      intro s hs
      cases hs
      exact Nat.le_refl _
    · rw [hempty, hpending]
      rfl
    · rw [hresume]
      rfl
    · rw [hresume]
      exact fun _ _ => h.log.tail_of_nil hnil
  · have hw := h.started.watermark
    exact ⟨hw.clean, hw.saved, hw.slots, hw.flag, hw.unrecorded⟩

/-- Without blocked keys, the entries name the frames of the old ones in the compacted WAL. -/
theorem Inv.follows_of_unblocked (h : Inv c history) (orphaned : List ℕ)
    (ho : c.started.compactedWal c.currentWalId (c.planCompaction retention) = some o)
    (hub : Unblocked c retention) {retired : ℕ} (hle : retired ≤ c.currentWalId) :
    Follows c (c.compactedAt o orphaned retired) := by
  intro key q hget hq _
  rcases h.get_remapped ho hget hq with ⟨r, hr, hframe, hnew, -⟩ | ⟨hret, hnot, -⟩
  · refine ⟨r, mem_compacted _ hr, hframe, hnew, ?_⟩
    rw [walId_of_layout hr]
    exact Nat.lt_succ_of_le hle
  · exact absurd (h.tail_of_unblocked ho hub hget hq hret) hnot

theorem Inv.compacted_retired (h : Inv c history) (o : Output V H) (orphaned : List ℕ) :
    (c.compacted o orphaned).retiredThrough = c.currentWalId :=
  Nat.max_eq_right (Nat.le_of_lt h.index.writing)

theorem Inv.compact (h : Inv c history) (orphaned : List ℕ)
    (ho : c.started.compactedWal c.currentWalId (c.planCompaction retention) = some o)
    (hnil : c.pending = []) (hub : Unblocked c retention) :
    Inv (c.compacted o orphaned) history := by
  have hat : c.compactedAt o orphaned c.currentWalId = c.compacted o orphaned := by
    rw [Coll.compactedAt, ← h.compacted_retired o orphaned]
  rw [← hat]
  exact h.compactedAt ho hnil (Nat.le_refl _)
    (h.follows_of_unblocked orphaned ho hub (Nat.le_refl _))

end Compacted

end DewDB.Recovery
