import DewDB.FencedLog
import DewDB.WalSound

/-!
# What a fenced log stands for

A cut can be carried out from wherever an earlier attempt stopped, and the files come out the same.
So a fenced log stands for the one that healing it gives, and opening it after a crash gives that
one too.
-/
namespace DewDB.FencedLog

open CollectionLog WalFile StorageEntry Recovery
open WalWriter (WalCut CutIo RotateIo WriteIo truncateFiles emptyAbove)
open FsyncSafety (cutFile onFile_emptyAbove emptyAbove_eq)

variable {V H : Type} [Encoded (LogEntry V H)]

section Truncation

variable {cut : WalCut} {fs : List (File (LogEntry V H))}

def truncatedTo (cut : WalCut) (fs : List (File (LogEntry V H))) : List (File (LogEntry V H)) :=
  onFile cut.walId (fun F => (F.setLen cut.offset).sync) (emptyAbove cut.walId (fun _ => true) fs)

theorem takeBytes_idem (n : ℕ) (cs : List (Chunk (LogEntry V H))) :
    takeBytes n (takeBytes n cs) = takeBytes n cs := by
  have := takeBytes_bytes (takeBytes n cs)
  rwa [bytes_takeBytes] at this

theorem setLen_idem (n : ℕ) (F : File (LogEntry V H)) : (F.setLen n).setLen n = F.setLen n := by
  simp only [File.setLen, takeBytes_idem, Nat.min_assoc, Nat.min_self]

omit [Encoded (LogEntry V H)] in
theorem sync_congr {F G : File (LogEntry V H)} (hid : F.id = G.id) (hchunks : F.chunks = G.chunks) :
    F.sync = G.sync := by
  rw [File.sync, File.sync, hid, hchunks]

theorem truncatedTo_map {g : File (LogEntry V H) → File (LogEntry V H)}
    (hid : ∀ F ∈ fs, (g F).id = F.id) (hbelow : ∀ F ∈ fs, F.id < cut.walId → g F = F)
    (hcut : ∀ F ∈ fs, F.id = cut.walId →
      ((g F).setLen cut.offset).sync = (F.setLen cut.offset).sync)
    (habove : ∀ F ∈ fs, cut.walId < F.id → (g F).setLen 0 = F.setLen 0) :
    truncatedTo cut (fs.map g) = truncatedTo cut fs := by
  simp only [truncatedTo, onFile_emptyAbove, List.map_map]
  refine List.map_congr_left fun F hF => ?_
  have hid := hid F hF
  simp only [Function.comp, cutFile, hid]
  rcases Nat.lt_trichotomy F.id cut.walId with hlt | heq | hgt
  · rw [hbelow F hF hlt]
  · rw [if_pos heq, if_pos heq, hcut F hF heq]
  · have hne : F.id ≠ cut.walId := Nat.ne_of_gt hgt
    simp only [if_neg hne, hgt, and_self, if_true]
    exact habove F hF hgt

/-- Wherever a cut stops, carrying it out from there gives the same files. -/
theorem truncatedTo_cutFile {reached : ℕ → Bool} {h : File (LogEntry V H) → File (LogEntry V H)}
    (hid : ∀ F, (h F).id = F.id)
    (hcut : ∀ F, ((h F).setLen cut.offset).sync = (F.setLen cut.offset).sync) :
    truncatedTo cut (fs.map (cutFile cut reached h)) = truncatedTo cut fs := by
  refine truncatedTo_map (fun F _ => ?_) (fun F _ hlt => ?_) (fun F _ heq => ?_) fun F _ hgt => ?_
  · unfold cutFile
    split
    · exact hid F
    · split <;> rfl
  · rw [cutFile, if_neg (Nat.ne_of_lt hlt), if_neg (by omega)]
  · rw [cutFile, if_pos heq]
    exact hcut F
  · rw [cutFile, if_neg (Nat.ne_of_gt hgt)]
    split
    · exact setLen_idem 0 F
    · rfl

structure Attempted (cut : WalCut) (fs fs' : List (File (LogEntry V H))) : Prop where
  same : truncatedTo cut fs' = truncatedTo cut fs
  ids : fs'.map File.id = fs.map File.id
  sizes : (∀ F ∈ fs, ∀ p ∈ F.chunks, 0 < p.size) → ∀ F ∈ fs', ∀ p ∈ F.chunks, 0 < p.size
  stable : truncatedTo cut fs = fs → fs' = fs

theorem setLen_of_cut {n : ℕ} {F : File (LogEntry V H)} (h : (F.setLen n).sync = F) :
    F.setLen n = F := by
  have hchunks : takeBytes n F.chunks = F.chunks := congrArg File.chunks h
  have hsynced : (takeBytes n F.chunks).length = F.synced := congrArg File.synced h
  have : F.setLen n = ⟨F.id, takeBytes n F.chunks,
    min F.synced (takeBytes n F.chunks).length⟩ := rfl
  rw [this, hsynced, Nat.min_self, hchunks]

theorem attempted_cutFile {reached : ℕ → Bool} {h : File (LogEntry V H) → File (LogEntry V H)}
    (hid : ∀ F, (h F).id = F.id)
    (hcut : ∀ F, ((h F).setLen cut.offset).sync = (F.setLen cut.offset).sync)
    (hsizes : ∀ F, (∀ p ∈ F.chunks, 0 < p.size) → ∀ p ∈ (h F).chunks, 0 < p.size)
    (hstable : ∀ F, (F.setLen cut.offset).sync = F → h F = F) :
    Attempted cut fs (fs.map (cutFile cut reached h)) := by
  refine ⟨truncatedTo_cutFile hid hcut, ?_, fun hfs F hF => ?_, fun hdone => ?_⟩
  · rw [List.map_map]
    refine List.map_congr_left fun F _ => ?_
    simp only [Function.comp, cutFile]
    split
    · exact hid F
    · split <;> rfl
  · obtain ⟨E, hE, rfl⟩ := List.mem_map.mp hF
    unfold cutFile
    split
    · exact hsizes E (hfs E hE)
    · split
      · exact takeBytes_sizes (hfs E hE)
      · exact hfs E hE
  · rw [truncatedTo, onFile_emptyAbove] at hdone
    have hfix := List.map_inj_left.mp (hdone.trans (List.map_id fs).symm)
    refine Eq.trans (List.map_congr_left fun F hF => ?_) (List.map_id fs)
    have hF := hfix F hF
    unfold cutFile at hF ⊢
    split
    · next heq =>
      rw [if_pos heq] at hF
      exact hstable F hF
    · next hne =>
      rw [if_neg hne] at hF
      split
      · next hreached =>
        rw [if_pos ⟨hreached.1, rfl⟩] at hF
        exact hF
      · rfl

theorem attempted_truncatedTo : Attempted cut fs (truncatedTo cut fs) := by
  have h : Attempted cut fs
      (fs.map (cutFile cut (fun _ => true) fun F => (F.setLen cut.offset).sync)) :=
    attempted_cutFile (fun _ => rfl) (fun _ => sync_congr rfl (takeBytes_idem _ _))
      (fun _ hF => takeBytes_sizes hF) fun _ hF => hF
  rwa [← onFile_emptyAbove] at h

theorem truncateFiles_ok {io : CutIo} {fs' : List (File (LogEntry V H))}
    (h : truncateFiles cut io fs = .ok fs') : fs' = truncatedTo cut fs := by
  unfold truncateFiles at h
  split at h
  · cases h
  · cases h
  · split at h
    · exact (Except.ok.inj h).symm
    · cases h

theorem truncateFiles_error {io : CutIo} {fs' : List (File (LogEntry V H))}
    (h : truncateFiles cut io fs = .error fs') : Attempted cut fs fs' := by
  have hemptied : ∀ reached, Attempted cut fs (emptyAbove cut.walId reached fs) := by
    intro reached
    rw [emptyAbove_eq]
    exact attempted_cutFile (fun _ => rfl) (fun _ => rfl) (fun _ hF => hF) fun _ _ => rfl
  unfold truncateFiles at h
  split at h
  · exact Except.error.inj h ▸ hemptied _
  · next shortened =>
    obtain rfl := Except.error.inj h
    rw [onFile_emptyAbove]
    refine attempted_cutFile (fun F => ?_) (fun F => ?_) (fun F hF => ?_) fun F hF => ?_
    · split <;> rfl
    · split
      · rw [setLen_idem]
      · rfl
    · split
      · exact takeBytes_sizes hF
      · exact hF
    · split
      · exact setLen_of_cut hF
      · rfl
  · split at h
    · cases h
    · exact Except.error.inj h ▸ hemptied _

end Truncation

section Healed

def cutTo (c : Coll V H) (cut : WalCut) : Coll V H :=
  (recordCut ((c.dropAbove cut.prevLsn).setFiles (truncatedTo cut c.disk.files)) none).moveTo cut

def Log.carried (s : Log V H) (cut : WalCut) : Log V H :=
  { s with
    coll := cutTo s.coll cut
    handle := cut.walId
    truncationFence := none
    durableLsn := cut.prevLsn
    recentFrames := s.recentFrames.cut cut.prevLsn }

def Log.healed (s : Log V H) : Log V H :=
  match s.truncationFence with
  | none => s
  | some cut => s.carried cut

def Log.base (s : Log V H) : Coll V H := { s.coll with currentWalId := s.handle }

def Log.spots (s : Log V H) : List (Spot (LogEntry V H)) := WalFile.spots s.coll.disk.files

def Log.frames (s : Log V H) : List (Frame (LogEntry V H)) := s.spots.map Spot.frame

def frameSpot (q : Spot (LogEntry V H)) : FrameSpot :=
  ⟨q.frame.lsn, q.frame.term, q.walId, q.offset⟩

def RecentOk (r : RecentFrames) (qs : List (Spot (LogEntry V H))) : Prop :=
  r.spots = (qs.filter fun q => r.floor < q.frame.lsn).map frameSpot

/-- A log that is not fenced: the published frames and the staged ones are on disk, in one chain,
and what is in memory describes them. -/
structure Ready (limit : ℕ) (s : Log V H) : Prop where
  unfenced : s.truncationFence = none
  inv : Inv s.base s.history
  kept : s.frames = s.history ++ s.coll.pending.map Spot.frame
  chained : Chained s.frames
  handle_le : s.handle ≤ s.coll.currentWalId
  full : s.handle = s.coll.currentWalId ∨ limit ≤ s.coll.currentWalSize
  last_le : s.coll.lastAppendedLsn ≤ s.nextLsn
  durable : s.durableLsn = 0 ∨ ∃ f ∈ s.frames, f.lsn = s.durableLsn
  recent : RecentOk s.recentFrames s.spots
  floor_le : s.recentFrames.floor ≤ s.coll.lastAppendedLsn

/-- A cut that was recorded and not finished, or finished and not known to be cleared. -/
structure Fenced (s : Log V H) (cut : WalCut) : Prop where
  pending_le : ∀ q ∈ s.coll.pending, q.frame.lsn ≤ cut.prevLsn
  walId_le : cut.walId ≤ s.handle
  handle_le : s.handle ≤ s.coll.currentWalId
  sizes : ∀ F ∈ s.coll.disk.files, ∀ p ∈ F.chunks, 0 < p.size
  there : ∃ F ∈ s.coll.disk.files, F.id = cut.walId
  recorded : s.coll.disk.cut = some cut ∨
    s.coll.disk.cut = none ∧ truncatedTo cut s.coll.disk.files = s.coll.disk.files

structure LogInv (limit : ℕ) (s : Log V H) : Prop where
  healed : Ready limit s.healed
  fenced : ∀ cut, s.truncationFence = some cut → Fenced s cut

theorem healed_of_unfenced {s : Log V H} (h : s.truncationFence = none) : s.healed = s := by
  rw [Log.healed, h]

theorem Ready.logInv {limit : ℕ} {s : Log V H} (h : Ready limit s) : LogInv limit s := by
  refine ⟨?_, fun cut hcut => ?_⟩
  · rw [healed_of_unfenced h.unfenced]
    exact h
  · rw [h.unfenced] at hcut
    cases hcut

theorem LogInv.ready {limit : ℕ} {s : Log V H} (h : LogInv limit s)
    (hfence : s.truncationFence = none) : Ready limit s := healed_of_unfenced hfence ▸ h.healed

end Healed

section Carrying

variable {s t : Log V H} {cut : WalCut} {carry : Carry}

omit [Encoded (LogEntry V H)] in
theorem dropAbove_eq {c : Coll V H} {lsn : ℕ} (h : ∀ q ∈ c.pending, q.frame.lsn ≤ lsn) :
    c.dropAbove lsn = c := by
  rw [Coll.dropAbove, List.filter_eq_self.mpr fun q hq => decide_eq_true (h q hq)]

theorem applyCut_ok (hle : ∀ q ∈ s.coll.pending, q.frame.lsn ≤ cut.prevLsn)
    (h : s.applyCut cut carry = .ok t) : t = s.carried cut := by
  unfold Log.applyCut at h
  split at h
  · cases h
  · next fs hfs =>
    split at h
    · cases h
    dsimp only at h
    split at h
    · cases h
    · rw [← Except.ok.inj h, Log.carried, cutTo, dropAbove_eq hle, truncateFiles_ok hfs]
      rfl

theorem applyCut_error (hs : Fenced s cut) (h : s.applyCut cut carry = .error t) :
    t.truncationFence = some cut ∧ t.carried cut = s.carried cut ∧ Fenced t cut := by
  have hfiles : ∀ {fs : List (File (LogEntry V H))}, Attempted cut s.coll.disk.files fs →
      ∃ F ∈ fs, F.id = cut.walId := by
    intro fs hfs
    obtain ⟨F, hF, hid⟩ := hs.there
    have : cut.walId ∈ fs.map File.id := hfs.ids ▸ hid ▸ List.mem_map_of_mem hF
    exact List.mem_map.mp this
  have hrecorded : ∀ {fs : List (File (LogEntry V H))}, Attempted cut s.coll.disk.files fs →
      s.coll.disk.cut = some cut ∨ s.coll.disk.cut = none ∧ truncatedTo cut fs = fs := by
    intro fs hfs
    rcases hs.recorded with hrec | ⟨hrec, hdone⟩
    · exact .inl hrec
    · exact .inr ⟨hrec, by rw [hfs.stable hdone, hdone]⟩
  unfold Log.applyCut at h
  split at h
  · next fs hfs =>
    have hatt := truncateFiles_error hfs
    obtain rfl := Except.error.inj h
    refine ⟨rfl, ?_, ⟨hs.pending_le, hs.walId_le, hs.handle_le, hatt.sizes hs.sizes, hfiles hatt,
      hrecorded hatt⟩⟩
    simp only [Log.carried, cutTo, Coll.setFiles, hatt.same]
    rfl
  · next fs hfs =>
    obtain rfl := truncateFiles_ok hfs
    have hatt : Attempted cut s.coll.disk.files (truncatedTo cut s.coll.disk.files) :=
      attempted_truncatedTo
    split at h
    · obtain rfl := Except.error.inj h
      refine ⟨rfl, ?_, ⟨hs.pending_le, hs.walId_le, hs.handle_le, hatt.sizes hs.sizes, hfiles hatt,
        hrecorded hatt⟩⟩
      simp only [Log.carried, cutTo, Coll.setFiles, hatt.same]
      rfl
    · dsimp only at h
      split at h
      · -- The files are done; the record is there or not.
        obtain rfl := Except.error.inj h
        cases carry.unlinked with
        | true =>
          refine ⟨rfl, ?_, ⟨hs.pending_le, Nat.le_refl _, Nat.le_refl _,
            hatt.sizes hs.sizes, hfiles hatt, .inr ⟨rfl, hatt.same⟩⟩⟩
          simp only [Log.carried, cutTo, Coll.setFiles, if_true, recordCut, hatt.same]
          rfl
        | false =>
          refine ⟨rfl, ?_, ⟨hs.pending_le, Nat.le_refl _, Nat.le_refl _,
            hatt.sizes hs.sizes, hfiles hatt, hrecorded hatt⟩⟩
          simp only [Log.carried, cutTo, Coll.setFiles, Bool.false_eq_true, if_false,
            recordCut, hatt.same]
          rfl
      · cases h

end Carrying

end DewDB.FencedLog
