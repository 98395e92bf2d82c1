import DewDB.CollectionOps

/-!
# What a replay reads after each change to the files

The frames that a replay reads from a snapshot's position on, as a list of positions: what a write,
a new WAL, a truncation at a staged frame and a replay itself do to that list. Reading without a
snapshot gives the positions of all frames.
-/
namespace DewDB.Recovery

open CollectionLog WalFile WalWriter StorageEntry

variable {V H : Type}

def Whole (cs : List (Chunk (LogEntry V H))) : Prop := ∀ c ∈ cs, ∃ f, c = .frame f

theorem Whole.append {as bs : List (Chunk (LogEntry V H))} (ha : Whole as) (hb : Whole bs) :
    Whole (as ++ bs) := by
  intro c hc
  rcases List.mem_append.mp hc with h | h
  · exact ha c h
  · exact hb c h

variable [Encoded (LogEntry V H)]

theorem Whole.sizes {cs : List (Chunk (LogEntry V H))} (h : Whole cs) : ∀ p ∈ cs, 0 < p.size := by
  intro p hp
  obtain ⟨f, rfl⟩ := h p hp
  exact frameLen_pos f

section Layout

variable {id n : ℕ}

theorem layout_append_whole {as bs : List (Chunk (LogEntry V H))} (h : Whole as) :
    layout id n (as ++ bs) = layout id n as ++ layout id (n + bytes as) bs := by
  induction as generalizing n with
  | nil => simp [layout]
  | cons c as ih =>
    obtain ⟨f, rfl⟩ := h c List.mem_cons_self
    simp only [List.cons_append, layout, bytes_cons, Chunk.size]
    rw [ih fun c hc => h c (List.mem_cons_of_mem _ hc), Nat.add_assoc]

theorem layout_append_torn (cs : List (Chunk (LogEntry V H)))
    (f : Option (Frame (LogEntry V H))) (m : ℕ) :
    layout id n (cs ++ [Chunk.torn f m]) = layout id n cs := by
  induction cs generalizing n with
  | nil => rfl
  | cons c cs ih =>
    cases c with
    | frame g => simp only [List.cons_append, layout, ih]
    | torn g k => rfl

theorem layout_split {cs : List (Chunk (LogEntry V H))} {A B : List (Spot (LogEntry V H))}
    {q : Spot (LogEntry V H)} (h : layout id n cs = A ++ q :: B) :
    ∃ as bs, cs = as ++ .frame q.frame :: bs ∧ Whole as ∧ A = layout id n as ∧ q.walId = id ∧
      q.offset = n + bytes as := by
  induction cs generalizing n A with
  | nil => simp [layout] at h
  | cons c cs ih =>
    cases c with
    | torn g k => simp [layout] at h
    | frame f =>
      cases A with
      | nil =>
        simp only [layout, List.nil_append, List.cons.injEq] at h
        obtain ⟨rfl, -⟩ := h
        exact ⟨[], cs, rfl, by simp [Whole], rfl, rfl, by simp⟩
      | cons a A =>
        simp only [layout, List.cons_append, List.cons.injEq] at h
        obtain ⟨rfl, h⟩ := h
        obtain ⟨as, bs, rfl, hw, rfl, hid, hoff⟩ := ih h
        refine ⟨.frame f :: as, bs, rfl, ?_, rfl, hid, ?_⟩
        · intro c hc
          rcases List.mem_cons.mp hc with rfl | hc
          · exact ⟨f, rfl⟩
          · exact hw c hc
        · rw [hoff, bytes_cons, Chunk.size, Nat.add_assoc]

theorem walId_of_layout {cs : List (Chunk (LogEntry V H))} {q : Spot (LogEntry V H)}
    (h : q ∈ layout id n cs) : q.walId = id := by
  obtain ⟨A, B, h⟩ := List.append_of_mem h
  obtain ⟨-, -, -, -, -, hid, -⟩ := layout_split h
  exact hid

theorem dropBytes_append {as bs : List (Chunk (LogEntry V H))} (h : Whole as) :
    dropBytes (bytes as) (as ++ bs) = bs := by
  induction as with
  | nil => cases bs <;> simp [dropBytes]
  | cons c as ih =>
    obtain ⟨f, rfl⟩ := h c List.mem_cons_self
    have hpos : 0 < (Chunk.frame f).size := frameLen_pos f
    have ih := ih fun c hc => h c (List.mem_cons_of_mem _ hc)
    simp only [List.cons_append, dropBytes, bytes_cons]
    rw [if_neg (by omega), if_pos (by omega), Nat.add_sub_cancel_left, ih]

theorem takeBytes_append {as bs : List (Chunk (LogEntry V H))} (hb : ∀ c ∈ bs, 0 < c.size) :
    takeBytes (bytes as) (as ++ bs) = as := by
  induction as with
  | nil =>
    cases bs with
    | nil => rfl
    | cons c bs =>
      have := hb c List.mem_cons_self
      simp only [List.nil_append, bytes_nil, takeBytes]
      rw [if_neg (by omega), if_pos trivial]
  | cons c as ih =>
    simp only [List.cons_append, takeBytes, bytes_cons]
    rw [if_pos (by omega), Nat.add_sub_cancel_left, ih]

theorem takeBytes_sizes {n : ℕ} {cs : List (Chunk (LogEntry V H))} (h : ∀ p ∈ cs, 0 < p.size) :
    ∀ p ∈ takeBytes n cs, 0 < p.size := by
  induction cs generalizing n with
  | nil =>
    intro p hp
    rw [takeBytes] at hp
    split at hp
    · simp at hp
    · obtain rfl := List.mem_singleton.mp hp
      exact Nat.pos_of_ne_zero ‹_›
  | cons c cs ih =>
    intro p hp
    rw [takeBytes] at hp
    split at hp
    · rcases List.mem_cons.mp hp with rfl | hp
      · exact h p List.mem_cons_self
      · exact ih (fun p hp => h p (List.mem_cons_of_mem _ hp)) p hp
    · split at hp
      · simp at hp
      · obtain rfl := List.mem_singleton.mp hp
        cases c <;> exact Nat.pos_of_ne_zero ‹_›

end Layout

/-- The position lies between two pieces, and nothing in front of it is torn. -/
def Boundary (offset : ℕ) (cs : List (Chunk (LogEntry V H))) : Prop :=
  ∃ as bs, cs = as ++ bs ∧ Whole as ∧ bytes as = offset

def ResumeOk (snapshot : Option IndexSnapshot) (fs : List (File (LogEntry V H))) : Prop :=
  ∀ s ∈ snapshot, ∀ F ∈ fs, F.id = s.lastWalId → Boundary s.lastOffset F.chunks

theorem readFrom_boundary {F : File (LogEntry V H)} {as bs : List (Chunk (LogEntry V H))}
    (h : F.chunks = as ++ bs) (hw : Whole as) :
    readFrom F (bytes as) = layout F.id (bytes as) bs := by
  have hstart : startIn F (bytes as) = bytes as := by
    rw [startIn, h, bytes_append, if_neg (by omega)]
  rw [readFrom, hstart, h, dropBytes_append hw]

theorem readFrom_zero (F : File (LogEntry V H)) : readFrom F 0 = F.spots := by
  have := readFrom_boundary (List.nil_append F.chunks).symm (by simp [Whole])
  simpa [File.spots] using this

theorem replayed_none (F : File (LogEntry V H)) : replayed none F = F.spots := readFrom_zero F

theorem replayedAll_none (fs : List (File (LogEntry V H))) : replayedAll none fs = spots fs := by
  rw [replayedAll, spots, funext replayed_none]

theorem resumeOk_none (fs : List (File (LogEntry V H))) : ResumeOk none fs := by
  intro s hs
  simp at hs

/-- What a replay reads from a file: nothing, or the pieces behind a boundary. -/
theorem replayed_cases {snapshot : Option IndexSnapshot} {F : File (LogEntry V H)}
    (h : ∀ s ∈ snapshot, F.id = s.lastWalId → Boundary s.lastOffset F.chunks) :
    (resumeIn snapshot F = none ∧ replayed snapshot F = []) ∨
      ∃ as bs, F.chunks = as ++ bs ∧ Whole as ∧ resumeIn snapshot F = some (bytes as) ∧
        replayed snapshot F = layout F.id (bytes as) bs := by
  unfold replayed
  cases hr : resumeIn snapshot F with
  | none => exact .inl ⟨rfl, rfl⟩
  | some o =>
    refine .inr ?_
    by_cases ho : o = 0
    · subst ho
      exact ⟨[], F.chunks, rfl, by simp [Whole], rfl, readFrom_zero F⟩
    · unfold resumeIn at hr
      split at hr
      · exact absurd (Option.some.inj hr).symm ho
      · next s =>
        split at hr
        · cases hr
        · split at hr
          · next hid =>
            cases hr
            obtain ⟨as, bs, hc, hw, hb⟩ := h s rfl hid
            rw [← hb]
            exact ⟨as, bs, hc, hw, rfl, readFrom_boundary hc hw⟩
          · exact absurd (Option.some.inj hr).symm ho

section Files

variable {snapshot : Option IndexSnapshot} {fs : List (File (LogEntry V H))}

theorem replayedAll_onFile {id : ℕ} {g : File (LogEntry V H) → File (LogEntry V H)}
    (h : ∀ F ∈ fs, F.id = id → replayed snapshot (g F) = replayed snapshot F) :
    replayedAll snapshot (onFile id g fs) = replayedAll snapshot fs := by
  rw [replayedAll, onFile, List.flatMap_map, replayedAll]
  refine List.flatMap_congr fun F hF => ?_
  by_cases hid : F.id = id
  · rw [if_pos hid, h F hF hid]
  · rw [if_neg hid]

theorem replayed_congr {F G : File (LogEntry V H)} (hid : F.id = G.id)
    (hchunks : F.chunks = G.chunks) : replayed snapshot F = replayed snapshot G := by
  unfold replayed resumeIn readFrom startIn
  rw [hid, hchunks]

theorem replayed_sync (F : File (LogEntry V H)) :
    replayed snapshot F.sync = replayed snapshot F := rfl

theorem replayedAll_sync (id : ℕ) :
    replayedAll snapshot (onFile id File.sync fs) = replayedAll snapshot fs :=
  replayedAll_onFile fun F _ _ => replayed_sync F

theorem replayed_empty (id m : ℕ) : replayed snapshot (⟨id, [], m⟩ : File (LogEntry V H)) = [] := by
  unfold replayed
  split
  · rfl
  · simp [readFrom, dropBytes, layout]

theorem replayedAll_openFile (id : ℕ) :
    replayedAll snapshot (openFile id fs) = replayedAll snapshot fs := by
  induction fs with
  | nil => simp [openFile, replayedAll, replayed_empty]
  | cons F fs ih =>
    simp only [openFile]
    split
    · simp [replayedAll, replayed_empty]
    · split
      · rfl
      · simp only [replayedAll, List.flatMap_cons] at ih ⊢
        rw [ih]

theorem ResumeOk.onFile {id : ℕ} {g : File (LogEntry V H) → File (LogEntry V H)}
    (hid : ∀ F, (g F).id = F.id) (h : ResumeOk snapshot fs)
    (hg : ∀ F ∈ fs, F.id = id → ∀ o, Boundary o F.chunks → (∀ s ∈ snapshot, s.lastOffset = o →
      F.id = s.lastWalId → Boundary o (g F).chunks)) :
    ResumeOk snapshot (onFile id g fs) := by
  intro s hs F hF hF'
  obtain ⟨E, hE, rfl⟩ := mem_onFile.mp hF
  by_cases he : E.id = id
  · rw [if_pos he] at hF' ⊢
    rw [hid] at hF'
    exact hg E hE he _ (h s hs E hE hF') s hs rfl hF'
  · rw [if_neg he] at hF' ⊢
    exact h s hs E hE hF'

theorem Boundary.append {o : ℕ} {cs : List (Chunk (LogEntry V H))} (h : Boundary o cs)
    (ds : List (Chunk (LogEntry V H))) : Boundary o (cs ++ ds) := by
  obtain ⟨as, bs, rfl, hw, hb⟩ := h
  exact ⟨as, bs ++ ds, List.append_assoc _ _ _, hw, hb⟩

theorem ResumeOk.write {id : ℕ} {c : Chunk (LogEntry V H)} (h : ResumeOk snapshot fs) :
    ResumeOk snapshot (WalFile.onFile id (File.write c) fs) :=
  h.onFile (fun _ => rfl) fun _ _ _ _ hb _ _ _ _ => hb.append _

theorem ResumeOk.openFile {id : ℕ} (h : ResumeOk snapshot fs)
    (hid : ∀ s ∈ snapshot, s.lastWalId ≠ id) : ResumeOk snapshot (WalFile.openFile id fs) := by
  intro s hs F hF hF'
  rcases mem_openFile hF with hF | rfl
  · exact h s hs F hF hF'
  · exact absurd hF'.symm (hid s hs)

omit [Encoded (LogEntry V H)] in
theorem files_split (hsorted : (fs.map File.id).Pairwise (· < ·)) {G : File (LogEntry V H)}
    (hG : G ∈ fs) :
    ∃ pre post, fs = pre ++ G :: post ∧ (∀ F ∈ pre, F.id < G.id) ∧ ∀ F ∈ post, G.id < F.id := by
  obtain ⟨pre, post, rfl⟩ := List.append_of_mem hG
  rw [List.map_append, List.map_cons, List.pairwise_append, List.pairwise_cons] at hsorted
  refine ⟨pre, post, rfl, fun F hF => ?_, fun F hF => ?_⟩
  · exact hsorted.2.2 _ (List.mem_map_of_mem hF) _ List.mem_cons_self
  · exact hsorted.2.1.1 _ (List.mem_map_of_mem hF)

omit [Encoded (LogEntry V H)] in
theorem onFile_split {g : File (LogEntry V H) → File (LogEntry V H)}
    {pre post : List (File (LogEntry V H))}
    {G : File (LogEntry V H)} (hpre : ∀ F ∈ pre, F.id < G.id) (hpost : ∀ F ∈ post, G.id < F.id) :
    onFile G.id g (pre ++ G :: post) = pre ++ g G :: post := by
  have hsame : ∀ fs : List (File (LogEntry V H)), (∀ F ∈ fs, F.id ≠ G.id) →
    onFile G.id g fs = fs := by
    intro fs h
    rw [onFile]
    refine (List.map_congr_left fun F hF => if_neg (h F hF)).trans (List.map_id _)
  have hpre' := hsame pre fun F hF => Nat.ne_of_lt (hpre F hF)
  have hpost' := hsame post fun F hF => Nat.ne_of_gt (hpost F hF)
  simp only [onFile] at hpre' hpost' ⊢
  rw [List.map_append, List.map_cons, hpre', hpost', if_pos rfl]

theorem replayed_of_empty {F : File (LogEntry V H)} (h : F.chunks = []) :
    replayed snapshot F = [] := by
  obtain ⟨id, chunks, m⟩ := F
  subst h
  exact replayed_empty id m

/-- A frame written to the file that the last frames are in is read last. -/
theorem replayedAll_write (hsorted : (fs.map File.id).Pairwise (· < ·))
    (hresume : ResumeOk snapshot fs)
    {G : File (LogEntry V H)} (hG : G ∈ fs) (hle : ∀ s ∈ snapshot, s.lastWalId ≤ G.id)
    (hwhole : Whole G.chunks) (habove : ∀ F ∈ fs, G.id < F.id → F.chunks = [])
    (f : Frame (LogEntry V H)) :
    replayedAll snapshot (onFile G.id (File.write (.frame f)) fs) =
      replayedAll snapshot fs ++ [⟨f, G.id, bytes G.chunks⟩] := by
  obtain ⟨pre, post, rfl, hpre, hpost⟩ := files_split hsorted hG
  have hpost0 : post.flatMap (replayed snapshot) = [] := by
    refine List.flatMap_eq_nil_iff.mpr fun F hF => replayed_of_empty ?_
    exact habove F (List.mem_append_right _ (List.mem_cons_of_mem _ hF)) (hpost F hF)
  have hwrite : replayed snapshot (G.write (.frame f)) =
      replayed snapshot G ++ [⟨f, G.id, bytes G.chunks⟩] := by
    have hG' : ∀ s ∈ snapshot, G.id = s.lastWalId → Boundary s.lastOffset G.chunks :=
      fun s hs => hresume s hs G hG
    have hin : resumeIn snapshot (G.write (.frame f)) = resumeIn snapshot G := rfl
    rcases replayed_cases hG' with ⟨hnone, -⟩ | ⟨as, bs, hc, hw, hsome, hr⟩
    · exfalso
      unfold resumeIn at hnone
      split at hnone
      · simp at hnone
      · next s =>
        have := hle s rfl
        rw [if_neg (by omega)] at hnone
        split at hnone <;> simp at hnone
    · have hc' : (G.write (.frame f)).chunks = as ++ (bs ++ [Chunk.frame f]) := by
        rw [File.write, hc, List.append_assoc]
      have hbs : Whole bs := fun c hc' => hwhole c (hc ▸ List.mem_append_right _ hc')
      rw [replayed, hin, hsome]
      dsimp only
      rw [readFrom_boundary hc' hw, hr, layout_append_whole hbs, hc, bytes_append]
      rfl
  rw [onFile_split hpre hpost]
  simp only [replayedAll, List.flatMap_append, List.flatMap_cons, hpost0, hwrite, List.append_nil,
    List.append_assoc]

theorem replayed_writeTorn {F : File (LogEntry V H)}
    (h : ∀ s ∈ snapshot, F.id = s.lastWalId → Boundary s.lastOffset F.chunks)
    (f : Option (Frame (LogEntry V H))) (n : ℕ) :
    replayed snapshot (F.write (.torn f n)) = replayed snapshot F := by
  have hin : resumeIn snapshot (F.write (.torn f n)) = resumeIn snapshot F := rfl
  rcases replayed_cases h with ⟨hnone, hr⟩ | ⟨as, bs, hc, hw, hsome, hr⟩
  · rw [hr, replayed, hin, hnone]
  · have hc' : (F.write (.torn f n)).chunks = as ++ (bs ++ [Chunk.torn f n]) := by
      rw [File.write, hc, List.append_assoc]
    rw [hr, replayed, hin, hsome]
    dsimp only
    rw [readFrom_boundary hc' hw, layout_append_torn]
    rfl

def truncatedAt (q : Spot (LogEntry V H)) (fs : List (File (LogEntry V H))) :
    List (File (LogEntry V H)) :=
  onFile q.walId (fun F => (F.setLen q.offset).sync) (emptyAbove q.walId (fun _ => true) fs)

theorem walId_of_replayed {F : File (LogEntry V H)} {q : Spot (LogEntry V H)}
    (h : q ∈ replayed snapshot F) : q.walId = F.id := by
  unfold replayed at h
  split at h
  · simp at h
  · exact walId_of_layout h

theorem setLen_zero_chunks (F : File (LogEntry V H)) (h : ∀ c ∈ F.chunks, 0 < c.size) :
    (F.setLen 0).chunks = [] := by
  change takeBytes (bytes ([] : List (Chunk (LogEntry V H)))) ([] ++ F.chunks) = []
  exact takeBytes_append h

theorem cutFiles_split {pre post : List (File (LogEntry V H))} {G : File (LogEntry V H)}
    {q : Spot (LogEntry V H)} {g : File (LogEntry V H) → File (LogEntry V H)} (hq : q.walId = G.id)
    (hpre : ∀ F ∈ pre, F.id < G.id) (hpost : ∀ F ∈ post, G.id < F.id) :
    onFile q.walId g (emptyAbove q.walId (fun _ => true) (pre ++ G :: post)) =
      pre ++ g G :: post.map (File.setLen 0) := by
  have hpre' : emptyAbove q.walId (fun _ => true) pre = pre := by
    refine (List.map_congr_left fun F hF => if_neg ?_).trans (List.map_id _)
    have := hpre F hF
    omega
  have hpost' : emptyAbove q.walId (fun _ => true) post = post.map (File.setLen 0) := by
    refine List.map_congr_left fun F hF => if_pos ⟨?_, rfl⟩
    have := hpost F hF
    omega
  have hG : emptyAbove q.walId (fun _ => true) [G] = [G] := by
    simp [emptyAbove, hq]
  have hsplit : emptyAbove q.walId (fun _ => true) (pre ++ G :: post) =
      pre ++ G :: post.map (File.setLen 0) := by
    rw [← List.singleton_append, ← List.singleton_append (l := post.map _), ← hpost']
    nth_rewrite 2 [← hpre']
    nth_rewrite 2 [← hG]
    simp only [emptyAbove, List.map_append]
  rw [hsplit, hq, onFile_split hpre]
  intro F hF
  obtain ⟨E, hE, rfl⟩ := List.mem_map.mp hF
  exact hpost E hE

theorem truncatedAt_split {pre post : List (File (LogEntry V H))} {G : File (LogEntry V H)}
    {q : Spot (LogEntry V H)} (hq : q.walId = G.id) (hpre : ∀ F ∈ pre, F.id < G.id)
    (hpost : ∀ F ∈ post, G.id < F.id) :
    truncatedAt q (pre ++ G :: post) =
      pre ++ (G.setLen q.offset).sync :: post.map (File.setLen 0) :=
  cutFiles_split (g := fun F => (F.setLen q.offset).sync) hq hpre hpost

/-- Where the reading of a list of files meets a frame: in one file, behind what is in front of it.
-/
theorem replayedAll_split (hsorted : (fs.map File.id).Pairwise (· < ·))
    {A B : List (Spot (LogEntry V H))}
    {q : Spot (LogEntry V H)} (h : replayedAll snapshot fs = A ++ q :: B) :
    ∃ pre G post A' B', fs = pre ++ G :: post ∧ q.walId = G.id ∧ (∀ F ∈ pre, F.id < G.id) ∧
      (∀ F ∈ post, G.id < F.id) ∧ A = replayedAll snapshot pre ++ A' ∧
      replayed snapshot G = A' ++ q :: B' := by
  have hmem : q ∈ replayedAll snapshot fs := h ▸ List.mem_append_right _ List.mem_cons_self
  obtain ⟨G, hG, hq⟩ := List.mem_flatMap.mp hmem
  obtain ⟨pre, post, rfl, hpre, hpost⟩ := files_split hsorted hG
  have hid := walId_of_replayed hq
  have hnot : ∀ fs' : List (File (LogEntry V H)), (∀ F ∈ fs', F.id ≠ G.id) →
      q ∉ replayedAll snapshot fs' := by
    intro fs' hne hq'
    obtain ⟨F, hF, hqF⟩ := List.mem_flatMap.mp hq'
    exact hne F hF ((walId_of_replayed hqF).symm.trans hid)
  have hpre' := hnot pre fun F hF => Nat.ne_of_lt (hpre F hF)
  have hpost' := hnot post fun F hF => Nat.ne_of_gt (hpost F hF)
  have hall : replayedAll snapshot (pre ++ G :: post) =
      replayedAll snapshot pre ++ (replayed snapshot G ++ replayedAll snapshot post) := by
    simp [replayedAll]
  rw [hall] at h
  rcases List.append_eq_append_iff.mp h with ⟨A', rfl, h'⟩ | ⟨C, hC, h'⟩
  · rcases List.append_eq_append_iff.mp h' with ⟨A'', rfl, h''⟩ | ⟨C, hC, h''⟩
    · exact absurd (h'' ▸ List.mem_append_right _ List.mem_cons_self) hpost'
    · cases C with
      | nil =>
        rw [List.nil_append] at h''
        exact absurd (h'' ▸ List.mem_cons_self) hpost'
      | cons c C =>
        rw [List.cons_append, List.cons.injEq] at h''
        obtain ⟨rfl, -⟩ := h''
        exact ⟨pre, G, post, A', C, rfl, hid, hpre, hpost, rfl, hC⟩
  · cases C with
    | nil =>
      rw [List.nil_append] at h'
      rw [List.append_nil] at hC
      cases hR : replayed snapshot G with
      | nil => simp [hR] at hq
      | cons c C =>
        rw [hR, List.cons_append, List.cons.injEq] at h'
        obtain ⟨rfl, -⟩ := h'
        exact ⟨pre, G, post, [], C, rfl, hid, hpre, hpost, by rw [hC, List.append_nil], hR⟩
    | cons c C =>
      rw [List.cons_append, List.cons.injEq] at h'
      obtain ⟨rfl, -⟩ := h'
      exact absurd (hC ▸ List.mem_append_right _ List.mem_cons_self) hpre'

/-- A cut in front of a frame that is read leaves what is read in front of it. -/
theorem replayedAll_truncatedAt (hsorted : (fs.map File.id).Pairwise (· < ·))
    (hresume : ResumeOk snapshot fs) (hsize : ∀ F ∈ fs, ∀ c ∈ F.chunks, 0 < c.size)
    {A B : List (Spot (LogEntry V H))} {q : Spot (LogEntry V H)}
    (h : replayedAll snapshot fs = A ++ q :: B) :
    replayedAll snapshot (truncatedAt q fs) = A ∧ ResumeOk snapshot (truncatedAt q fs) := by
  obtain ⟨pre, G, post, A', B', rfl, hid, hpre, hpost, rfl, hR⟩ := replayedAll_split hsorted h
  have hG : G ∈ pre ++ G :: post := List.mem_append_right _ List.mem_cons_self
  rcases replayed_cases fun s hs => hresume s hs G hG with ⟨-, hnil⟩ | ⟨as, bs, hc, hw, hsome, hr⟩
  · rw [hnil] at hR
    simp at hR
  · rw [hr] at hR
    obtain ⟨as', bs', rfl, hw', rfl, -, hoff⟩ := layout_split hR
    have hchunks : ((G.setLen q.offset).sync).chunks = as ++ as' := by
      have hsize' : ∀ c ∈ Chunk.frame q.frame :: bs', 0 < c.size := fun c hc' =>
        hsize G hG c (hc ▸ List.mem_append_right _ (List.mem_append_right _ hc'))
      have : takeBytes (bytes (as ++ as')) ((as ++ as') ++ .frame q.frame :: bs') = as ++ as' :=
        takeBytes_append hsize'
      rw [bytes_append, ← hoff, List.append_assoc, ← hc] at this
      exact this
    have hempty : ∀ F ∈ post.map (File.setLen 0), F.chunks = [] := by
      intro F hF
      obtain ⟨E, hE, rfl⟩ := List.mem_map.mp hF
      exact setLen_zero_chunks E (hsize E (List.mem_append_right _ (List.mem_cons_of_mem _ hE)))
    have hin : resumeIn snapshot (G.setLen q.offset).sync = some (bytes as) := hsome
    have hread : replayed snapshot (G.setLen q.offset).sync = layout G.id (bytes as) as' := by
      rw [replayed, hin]
      exact readFrom_boundary hchunks hw
    rw [truncatedAt_split hid hpre hpost]
    constructor
    · have : (post.map (File.setLen 0)).flatMap (replayed snapshot) = [] :=
        List.flatMap_eq_nil_iff.mpr fun F hF => replayed_of_empty (hempty F hF)
      simp only [replayedAll, List.flatMap_append, List.flatMap_cons, this, hread, List.append_nil]
    · intro s hs F hF hF'
      rcases List.mem_append.mp hF with hF | hF
      · exact hresume s hs F (List.mem_append_left _ hF) hF'
      · rcases List.mem_cons.mp hF with rfl | hF
        · have hGid : G.id = s.lastWalId := hF'
          obtain rfl : snapshot = some s := hs
          rw [resumeIn, if_neg (by omega), if_pos hGid] at hsome
          exact ⟨as, as', hchunks, hw, (Option.some.inj hsome).symm⟩
        · obtain ⟨E, hE, rfl⟩ := List.mem_map.mp hF
          have hlt := hpost E hE
          have hEid : E.id = s.lastWalId := hF'
          obtain rfl : snapshot = some s := hs
          rw [resumeIn, if_pos (by omega)] at hsome
          cases hsome

theorem layout_prefix (id n : ℕ) (cs : List (Chunk (LogEntry V H))) :
    ∃ ws rest, cs = ws ++ rest ∧ Whole ws ∧ layout id n cs = layout id n ws ∧
      ((layout id n cs).map fun q => frameLen q.frame).sum = bytes ws ∧
      ∀ id' n', layout id' n' rest = [] := by
  induction cs generalizing n with
  | nil => exact ⟨[], [], rfl, by simp [Whole], rfl, rfl, fun _ _ => rfl⟩
  | cons c cs ih =>
    cases c with
    | torn f m => exact ⟨[], .torn f m :: cs, rfl, by simp [Whole], rfl, rfl, fun _ _ => rfl⟩
    | frame f =>
      obtain ⟨ws, rest, rfl, hw, hl, hb, hrest⟩ := ih (n + frameLen f)
      refine ⟨.frame f :: ws, rest, rfl, ?_, ?_, ?_, hrest⟩
      · intro c hc
        rcases List.mem_cons.mp hc with rfl | hc
        · exact ⟨f, rfl⟩
        · exact hw c hc
      · rw [layout, layout, hl]
      · rw [layout, List.map_cons, List.sum_cons, hb, bytes_cons, Chunk.size]

/-- A file after the replay: as it was, or the pieces that could be read. -/
theorem settled_cases {F : File (LogEntry V H)} (hsize : ∀ c ∈ F.chunks, 0 < c.size)
    (h : ∀ s ∈ snapshot, F.id = s.lastWalId → Boundary s.lastOffset F.chunks) :
    (resumeIn snapshot F = none ∧ settled snapshot F = F) ∨
      ∃ as ws rest, F.chunks = as ++ (ws ++ rest) ∧ Whole as ∧ Whole ws ∧
        resumeIn snapshot F = some (bytes as) ∧ (settled snapshot F).chunks = as ++ ws ∧
        ∀ id n, layout id n rest = [] := by
  rcases replayed_cases h with ⟨hnone, -⟩ | ⟨as, bs, hc, hw, hsome, hr⟩
  · exact .inl ⟨hnone, by rw [settled, hnone]⟩
  · obtain ⟨ws, rest, rfl, hws, hl, hb, hrest⟩ := layout_prefix F.id (bytes as) bs
    refine .inr ⟨as, ws, rest, hc, hw, hws, hsome, ?_, hrest⟩
    have hstart : startIn F (bytes as) = bytes as := by
      rw [startIn, hc, bytes_append, if_neg (by omega)]
    have hvalid : startIn F (bytes as) + ((readFrom F (bytes as)).map fun q =>
      frameLen q.frame).sum =
        bytes (as ++ ws) := by
      rw [hstart, readFrom_boundary hc hw, hb, bytes_append]
    have hrestsize : ∀ c ∈ rest, 0 < c.size := fun c hc' =>
      hsize c (hc ▸ List.mem_append_right _ (List.mem_append_right _ hc'))
    have htake : takeBytes (bytes (as ++ ws)) F.chunks = as ++ ws := by
      rw [hc, ← List.append_assoc]
      exact takeBytes_append hrestsize
    rw [settled, hsome]
    dsimp only
    rw [hvalid]
    split
    · exact htake
    · next hge =>
      rw [hc, ← List.append_assoc] at hge
      cases rest with
      | nil => rw [hc, List.append_nil]
      | cons c rest =>
        have := hrestsize c List.mem_cons_self
        rw [bytes_append _ (c :: rest), bytes_cons] at hge
        omega

theorem settled_id (F : File (LogEntry V H)) : (settled snapshot F).id = F.id := by
  unfold settled
  split
  · rfl
  · dsimp only
    split <;> rfl

omit [Encoded (LogEntry V H)] in
theorem resumeIn_id {F G : File (LogEntry V H)} (h : F.id = G.id) :
    resumeIn snapshot F = resumeIn snapshot G := by
  unfold resumeIn
  rw [h]

theorem replayed_settled {F : File (LogEntry V H)} (hsize : ∀ c ∈ F.chunks, 0 < c.size)
    (h : ∀ s ∈ snapshot, F.id = s.lastWalId → Boundary s.lastOffset F.chunks) :
    replayed snapshot (settled snapshot F) = replayed snapshot F := by
  rcases settled_cases hsize h with ⟨-, hF⟩ | ⟨as, ws, rest, hc, hw, hws, hsome, hchunks, hrest⟩
  · rw [hF]
  · rw [replayed, resumeIn_id (settled_id F), hsome, replayed, hsome]
    dsimp only
    rw [readFrom_boundary hchunks hw, readFrom_boundary hc hw, settled_id, layout_append_whole hws,
      hrest, List.append_nil]

theorem spots_settled {F : File (LogEntry V H)} (hsize : ∀ c ∈ F.chunks, 0 < c.size)
    (h : ∀ s ∈ snapshot, F.id = s.lastWalId → Boundary s.lastOffset F.chunks) :
    (settled snapshot F).spots = F.spots := by
  rcases settled_cases hsize h with ⟨-, hF⟩ | ⟨as, ws, rest, hc, hw, hws, hsome, hchunks, hrest⟩
  · rw [hF]
  · rw [File.spots, File.spots, settled_id, hchunks, hc, ← List.append_assoc,
      layout_append_whole (hw.append hws), hrest, List.append_nil]

theorem boundary_settled {F : File (LogEntry V H)} (hsize : ∀ c ∈ F.chunks, 0 < c.size)
    (h : ∀ s ∈ snapshot, F.id = s.lastWalId → Boundary s.lastOffset F.chunks) {s : IndexSnapshot}
    (hs : s ∈ snapshot) (hid : F.id = s.lastWalId) :
    Boundary s.lastOffset (settled snapshot F).chunks := by
  rcases settled_cases hsize h with ⟨-, hF⟩ | ⟨as, ws, rest, hc, hw, hws, hsome, hchunks, hrest⟩
  · rw [hF]
    exact h s hs hid
  · obtain rfl : snapshot = some s := hs
    rw [resumeIn, if_neg (by omega), if_pos hid] at hsome
    exact ⟨as, ws, hchunks, hw, (Option.some.inj hsome).symm⟩

end Files

end DewDB.Recovery
