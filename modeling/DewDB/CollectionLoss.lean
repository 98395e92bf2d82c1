import DewDB.CollectionRewind

/-!
# What a power cut takes

A power cut may take staged frames from the end of the log and leave a part of the first of them.
Opening cuts that part off, so that it comes to the same as if whole frames were lost. When nothing
is left to replay and the snapshot's tail lies above the watermark, the collection refuses to open.
-/
namespace DewDB.Recovery

open CollectionLog WalFile WalWriter StorageEntry

variable {V H : Type} [Encoded (LogEntry V H)] {c : Coll V H}
  {history : List (Frame (LogEntry V H))}

/-- The files once the frames from `q` on are lost, except for the first `n` bytes. -/
def lostFrom (q : Spot (LogEntry V H)) (n : ℕ) (fs : List (File (LogEntry V H))) :
    List (File (LogEntry V H)) :=
  onFile q.walId (fun F => (F.setLen (q.offset + n)).sync) (emptyAbove q.walId (fun _ => true) fs)

def Disk.lose (d : Disk V H) (q : Spot (LogEntry V H)) (n : ℕ) : Disk V H :=
  { d with files := lostFrom q n d.files }

section Settled

variable {snapshot : Option IndexSnapshot}

theorem takeBytes_append_add {as bs : List (Chunk (LogEntry V H))} (n : ℕ) :
    takeBytes (bytes as + n) (as ++ bs) = as ++ takeBytes n bs := by
  induction as with
  | nil => rw [bytes_nil, Nat.zero_add, List.nil_append, List.nil_append]
  | cons p as ih =>
    rw [List.cons_append, takeBytes, bytes_cons, if_pos (by omega), List.cons_append]
    rw [show p.size + bytes as + n - p.size = bytes as + n by omega, ih]

omit [Encoded (LogEntry V H)] in
theorem file_ext {F G : File (LogEntry V H)} (hid : F.id = G.id) (hchunks : F.chunks = G.chunks)
    (hsynced : F.synced = G.synced) : F = G := by
  cases F
  cases G
  simp_all

omit [Encoded (LogEntry V H)] in
theorem Whole.unique {as bs ss : List (Chunk (LogEntry V H))} (rs : List (Chunk (LogEntry V H)))
    (ha : Whole as) (hb : Whole bs) (hr : ∀ f cs, rs ≠ .frame f :: cs)
    (hs : ∀ f cs, ss ≠ .frame f :: cs) (h : as ++ rs = bs ++ ss) :
    as = bs := by
  induction as generalizing bs with
  | nil =>
    cases bs with
    | nil => rfl
    | cons p bs =>
      obtain ⟨f, rfl⟩ := hb p List.mem_cons_self
      exact absurd h (hr f _)
  | cons p as ih =>
    obtain ⟨f, rfl⟩ := ha p List.mem_cons_self
    cases bs with
    | nil => exact absurd h.symm (hs f _)
    | cons p' bs =>
      rw [List.cons_append, List.cons_append] at h
      obtain ⟨rfl, hrest⟩ := List.cons.inj h
      rw [ih (fun p hp => ha p (List.mem_cons_of_mem _ hp)) (fun p hp =>
        hb p (List.mem_cons_of_mem _ hp)) hrest]

theorem settled_synced (snapshot : Option IndexSnapshot) {F : File (LogEntry V H)}
    (h : F.synced ≤ F.chunks.length) :
    (settled snapshot F).synced = min F.synced (settled snapshot F).chunks.length := by
  unfold settled
  split
  · exact (Nat.min_eq_left h).symm
  · dsimp only
    split
    · rfl
    · exact (Nat.min_eq_left h).symm

theorem settled_chunks {F : File (LogEntry V H)} {as rest : List (Chunk (LogEntry V H))}
    (hw : Whole as) (hc : F.chunks = as ++ rest) (hrest : ∀ f cs, rest ≠ .frame f :: cs)
    (hsize : ∀ p ∈ F.chunks, 0 < p.size)
    (hresume : ∀ s ∈ snapshot, F.id = s.lastWalId → Boundary s.lastOffset F.chunks)
    (hread : resumeIn snapshot F ≠ none) : (settled snapshot F).chunks = as := by
  rcases settled_cases hsize hresume with ⟨hnone, -⟩ | ⟨as', ws, rest', hc', has', hws, -,
    hchunks, hlay⟩
  · exact absurd hnone hread
  · rw [hchunks]
    refine Whole.unique rest' (has'.append hws) hw (fun f cs hcs => ?_) hrest ?_
    · have := hlay 0 0
      rw [hcs] at this
      simp [layout] at this
    · rw [List.append_assoc, ← hc', hc]

end Settled

/-- What opening reads and leaves of the files is the same whether a part of a frame is left or not.
-/
theorem Inv.lostFrom_eq (h : Inv c history) {q : Spot (LogEntry V H)} (hq : q ∈ c.pending) {n : ℕ}
    (hn : n < frameLen q.frame) :
    (lostFrom q n c.disk.files).map (replayed c.disk.snapshot) =
        (truncatedAt q c.disk.files).map (replayed c.disk.snapshot) ∧
      (lostFrom q n c.disk.files).map (settled c.disk.snapshot) =
        (truncatedAt q c.disk.files).map (settled c.disk.snapshot) ∧
      nextWalId (lostFrom q n c.disk.files) = nextWalId (truncatedAt q c.disk.files) := by
  by_cases hzero : n = 0
  · subst hzero
    exact ⟨rfl, rfl, rfl⟩
  obtain ⟨A, hA, -⟩ := h.resume.replayed
  obtain ⟨P, R, hsplit⟩ := List.append_of_mem hq
  rw [hsplit, ← List.append_assoc] at hA
  obtain ⟨pre, G, post, A', B', hfs, hid, hpre, hpost, -, hG⟩ := replayedAll_split h.files.sorted hA
  have hGmem : G ∈ c.disk.files := hfs ▸ List.mem_append_right _ List.mem_cons_self
  have hresumeG := fun s hs => h.resume.resume s hs G hGmem
  have hqG : q ∈ G.spots :=
    replayed_subset hresumeG (hG ▸ List.mem_append_right _ List.mem_cons_self)
  obtain ⟨L, L', hlay⟩ := List.append_of_mem hqG
  obtain ⟨as, bs, hc, hw, -, -, hoff⟩ := layout_split hlay
  rw [Nat.zero_add] at hoff
  have hread : resumeIn c.disk.snapshot G ≠ none := by
    intro hnone
    rw [replayed, hnone] at hG
    simp at hG
  -- The file of the lost frame, cut inside the frame and in front of it.
  have hcut : (G.setLen (q.offset + n)).chunks = as ++ [tear q.frame n] := by
    have htake : takeBytes (bytes as + n) (as ++ .frame q.frame :: bs) =
      as ++ [tear q.frame n] := by
      rw [takeBytes_append_add, takeBytes, if_neg (by simp only [Chunk.size]; omega), if_neg hzero]
      rfl
    rw [← hoff, ← hc] at htake
    exact htake
  have hcut0 : (G.setLen q.offset).chunks = as := by
    have : takeBytes (bytes as) (as ++ .frame q.frame :: bs) = as :=
      takeBytes_append fun p hp => h.files.sizes G hGmem p (hc ▸ List.mem_append_right _ hp)
    rw [← hoff, ← hc] at this
    exact this
  have hresume0 : ∀ s ∈ c.disk.snapshot, G.id = s.lastWalId → Boundary s.lastOffset as := by
    intro s hs hGid
    have htrunc := (replayedAll_truncatedAt h.files.sorted h.resume.resume h.files.sizes hA).2
    rw [hfs, truncatedAt_split hid hpre hpost] at htrunc
    have hbound := htrunc s hs (G.setLen q.offset).sync
      (List.mem_append_right _ List.mem_cons_self) hGid
    rwa [show (G.setLen q.offset).sync.chunks = _ from hcut0] at hbound
  have hlost := cutFiles_split (g := fun F => (F.setLen (q.offset + n)).sync) hid hpre hpost
  have hold := truncatedAt_split (q := q) hid hpre hpost
  change lostFrom q n (pre ++ G :: post) = _ at hlost
  have hreplayed : replayed c.disk.snapshot (G.setLen (q.offset + n)).sync =
      replayed c.disk.snapshot (G.setLen q.offset).sync := by
    have hboundary : ∀ s ∈ c.disk.snapshot, (G.setLen q.offset).sync.id = s.lastWalId →
        Boundary s.lastOffset (G.setLen q.offset).sync.chunks :=
      fun s hs hGid => hcut0.symm ▸ hresume0 s hs hGid
    have hwrite := replayed_writeTorn hboundary (if headerLen ≤ n then some q.frame else none) n
    rw [← hwrite]
    refine replayed_congr rfl ?_
    exact hcut.trans (congrArg (· ++ [tear q.frame n]) hcut0.symm)
  have hsettled : settled c.disk.snapshot (G.setLen (q.offset + n)).sync =
      settled c.disk.snapshot (G.setLen q.offset).sync := by
    have hchunks : (settled c.disk.snapshot (G.setLen (q.offset + n)).sync).chunks = as := by
      refine settled_chunks hw hcut (by simp [tear]) ?_ ?_ hread
      · intro p hp
        rw [show (G.setLen (q.offset + n)).sync.chunks = _ from hcut] at hp
        rcases List.mem_append.mp hp with hp | hp
        · exact hw.sizes p hp
        · rw [List.mem_singleton.mp hp]
          exact Nat.pos_of_ne_zero hzero
      · intro s hs hGid
        rw [show (G.setLen (q.offset + n)).sync.chunks = _ from hcut]
        exact (hresume0 s hs hGid).append _
    have hchunks0 : (settled c.disk.snapshot (G.setLen q.offset).sync).chunks = as := by
      refine settled_chunks hw (hcut0.trans (List.append_nil as).symm) (by simp) ?_ ?_ hread
      · intro p hp
        rw [show (G.setLen q.offset).sync.chunks = _ from hcut0] at hp
        exact hw.sizes p hp
      · intro s hs hGid
        rw [show (G.setLen q.offset).sync.chunks = _ from hcut0]
        exact hresume0 s hs hGid
    have hsynced := settled_synced c.disk.snapshot
      (show (G.setLen (q.offset + n)).sync.synced ≤ (G.setLen (q.offset + n)).sync.chunks.length
        from
        Nat.le_refl _)
    have hsynced0 := settled_synced c.disk.snapshot
      (show (G.setLen q.offset).sync.synced ≤ (G.setLen q.offset).sync.chunks.length
        from Nat.le_refl _)
    rw [hchunks] at hsynced
    rw [hchunks0] at hsynced0
    have hlen : (G.setLen (q.offset + n)).sync.synced = as.length + 1 := by
      change (G.setLen (q.offset + n)).chunks.length = as.length + 1
      simp [hcut]
    have hlen0 : (G.setLen q.offset).sync.synced = as.length := congrArg List.length hcut0
    rw [hlen] at hsynced
    rw [hlen0] at hsynced0
    exact file_ext (by rw [settled_id, settled_id]; rfl) (hchunks.trans hchunks0.symm) (by omega)
  rw [hfs, hlost, hold]
  refine ⟨?_, ?_, ?_⟩
  · rw [List.map_append, List.map_append, List.map_cons, List.map_cons, hreplayed]
  · rw [List.map_append, List.map_append, List.map_cons, List.map_cons, hsettled]
  · cases post with
    | nil =>
      simp only [nextWalId, List.map_nil, List.getLast?_append, List.getLast?_singleton,
        Option.some_or]
      rfl
    | cons E post => simp [nextWalId, List.getLast?_cons]

/-- Opening after the loss of a part of a frame is opening after the loss of the whole of it. -/
theorem Inv.open_lose (h : Inv c history) {q : Spot (LogEntry V H)} (hq : q ∈ c.pending) {n : ℕ}
    (hn : n < frameLen q.frame) :
    (c.disk.lose q n).openCollection = (c.disk.lose q 0).openCollection := by
  obtain ⟨hreplayed, hsettled, hnext⟩ := h.lostFrom_eq hq hn
  have hcut := h.files.noCut
  have hall : replayedAll c.disk.snapshot (lostFrom q n c.disk.files) =
      replayedAll c.disk.snapshot (truncatedAt q c.disk.files) := by
    rw [replayedAll, List.flatMap_def, hreplayed, replayedAll, List.flatMap_def]
  have htail : recoveredTail c.disk.snapshot (lostFrom q n c.disk.files) =
      recoveredTail c.disk.snapshot (truncatedAt q c.disk.files) := by
    rw [recoveredTail, hreplayed, recoveredTail]
  have hzero : lostFrom q 0 c.disk.files = truncatedAt q c.disk.files := rfl
  simp only [Disk.openCollection, Disk.completeRecorded, Disk.lose, hcut, Disk.recordedWatermark,
    Disk.position,
    Except.bind, Disk.replay, Disk.seed, Disk.opened, hall, htail, hsettled, hnext, hzero]
  rfl

/-- A collection that opens after staged frames are lost holds the rest of them. -/
theorem Inv.lost (h : Inv c history) {q : Spot (LogEntry V H)} (hq : q ∈ c.pending) {n : ℕ}
    (hn : n < frameLen q.frame) {c' : Coll V H}
    (hopen : (c.disk.lose q n).openCollection = .ok c') : Inv c' history := by
  rw [h.open_lose hq hn] at hopen
  obtain ⟨P, R, hpending⟩ := List.append_of_mem hq
  have hmeta : c.disk.appliedMeta ≠ none := by
    intro hm
    have := h.log.pending_mem hq
    rw [h.log.unwritten hm] at this
    simp at this
  have hinv : Inv (c.truncated P q id ((P.getLast?.map fun q => (q.frame.lsn, q.frame.term)).getD
      (committedTail history))) history := by
    refine h.truncated hpending (fun _ => rfl) (fun _ => rfl) (by rw [Option.map_id, id]) rfl ?_
    intro hread hor
    rw [Option.map_id, id] at hor ⊢
    rcases Nat.lt_or_ge c.appliedLsn (snapshotTail c.disk.snapshot).1 with hlt | hle
    · -- Nothing is left to replay: the collection would not have opened.
      obtain rfl : P = [] := hor.resolve_left (by omega)
      exfalso
      obtain ⟨m, hm⟩ := Option.ne_none_iff_exists'.mp hmeta
      obtain ⟨position, hpos, -, hrec⟩ := h.watermark.recorded
      have htail : recoveredTail c.disk.snapshot (truncatedAt q c.disk.files) =
        snapshotTail c.disk.snapshot := by
        rw [recoveredTail, foldl_foldTail_nil]
        rw [← replayedAll_eq_flatten]
        exact hread
      have hrec' : (c.disk.lose q 0).recordedWatermark = .ok (some c.appliedLsn) := by
        rw [hm] at hrec
        exact hrec
      have hpos' : (c.disk.lose q 0).position = .ok position := hpos
      have hdone : (c.disk.lose q 0).completeRecorded = .ok (c.disk.lose q 0) := by
        simp only [Disk.completeRecorded, Disk.lose, h.files.noCut]
      have hreplay : ((c.disk.lose q 0).replay (some c.appliedLsn)).pending = [] := by
        have hall : replayedAll (c.disk.lose q 0).snapshot (c.disk.lose q 0).files = [] := hread
        rw [Disk.replay, hall]
        rfl
      have htail' : recoveredTail (c.disk.lose q 0).snapshot (c.disk.lose q 0).files =
          snapshotTail c.disk.snapshot := htail
      rw [Disk.openCollection, hrec', hpos'] at hopen
      simp only [Except.bind, hdone, htail', hreplay] at hopen
      rw [if_pos ⟨by simpa [above] using hlt, trivial⟩] at hopen
      cases hopen
    · exact h.blank hpending hread hle
  have hdisk : (c.truncated P q id ((P.getLast?.map fun q => (q.frame.lsn, q.frame.term)).getD
      (committedTail history))).disk = c.disk.lose q 0 := by
    simp only [Coll.truncated, Option.map_id, id]
    rfl
  have hsame := hinv.open_eq
  rw [hdisk, hopen] at hsame
  rw [Except.ok.inj hsame]
  exact hinv.reopen

end DewDB.Recovery
