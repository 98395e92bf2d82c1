import DewDB.CompactionMoves

/-!
# The retained tail

The tail starts between two frames, or behind the last of them, of a frozen WAL. What is copied are
the frames from there on, up to a WAL that ends in a torn frame with a whole header: what lies
behind that one stays where it is.
-/
namespace DewDB.Recovery

open CollectionLog WalFile WalWriter StorageEntry

variable {V H : Type} [Encoded (LogEntry V H)] {fs : List (File (LogEntry V H))} {t : TailStart}

section Positions

variable {id n : ℕ} {q : Spot (LogEntry V H)}

theorem le_offset_of_layout {cs : List (Chunk (LogEntry V H))} (hq : q ∈ layout id n cs) :
    n ≤ q.offset := by
  obtain ⟨A, B, h⟩ := List.append_of_mem hq
  obtain ⟨as, bs, -, -, -, -, hoff⟩ := layout_split h
  omega

theorem offset_lt_of_layout {cs : List (Chunk (LogEntry V H))} (hq : q ∈ layout id n cs) :
    q.offset < n + bytes cs := by
  obtain ⟨A, B, h⟩ := List.append_of_mem hq
  obtain ⟨as, bs, hc, -, -, -, hoff⟩ := layout_split h
  have := frameLen_pos q.frame
  rw [hc, bytes_append, bytes_cons, Chunk.size]
  omega

theorem dropBytes_beyond {cs : List (Chunk (LogEntry V H))} {m : ℕ} (h : bytes cs ≤ m)
    (hsize : ∀ p ∈ cs, 0 < p.size) : dropBytes m cs = [] := by
  induction cs generalizing m with
  | nil => rfl
  | cons p cs ih =>
    have hp := hsize p List.mem_cons_self
    rw [bytes_cons] at h
    rw [dropBytes, if_neg (by omega), if_pos (by omega)]
    exact ih (by omega) fun r hr => hsize r (List.mem_cons_of_mem _ hr)

end Positions

section Ends

theorem Ended.of_cons {f : Frame (LogEntry V H)} {cs : List (Chunk (LogEntry V H))}
    (h : Ended (.frame f :: cs)) : Ended cs := by
  obtain ⟨ws, hw, rfl | ⟨header, n, hcs, hn, hshort⟩⟩ := h
  · exact Whole.ended fun p hp => hw p (List.mem_cons_of_mem _ hp)
  · cases ws with
    | nil => simp at hcs
    | cons p ws =>
      rw [List.cons_append] at hcs
      obtain ⟨-, rfl⟩ := List.cons.inj hcs
      exact ⟨ws, fun p hp => hw p (List.mem_cons_of_mem _ hp), .inr ⟨header, n, rfl, hn, hshort⟩⟩

theorem Ended.of_torn {header : Option (Frame (LogEntry V H))} {n : ℕ}
    {cs : List (Chunk (LogEntry V H))}
    (h : Ended (.torn header n :: cs)) : cs = [] ∧ ∀ f ∈ header, n < frameLen f := by
  obtain ⟨ws, hw, rfl | ⟨header', m, hcs, -, hshort⟩⟩ := h
  · obtain ⟨f, hf⟩ := hw _ List.mem_cons_self
    cases hf
  · cases ws with
    | nil =>
      rw [List.nil_append] at hcs
      obtain ⟨hp, rfl⟩ := List.cons.inj hcs
      cases hp
      exact ⟨rfl, hshort⟩
    | cons p ws =>
      rw [List.cons_append] at hcs
      obtain ⟨f, hf⟩ := hw p List.mem_cons_self
      rw [(List.cons.inj hcs).1.symm] at hf
      cases hf

theorem Ended.of_append {as bs : List (Chunk (LogEntry V H))} (hw : Whole as)
    (h : Ended (as ++ bs)) : Ended bs := by
  induction as with
  | nil => exact h
  | cons p as ih =>
    obtain ⟨f, rfl⟩ := hw p List.mem_cons_self
    exact ih (fun p hp => hw p (List.mem_cons_of_mem _ hp)) h.of_cons

/-- The copy of a WAL ends the tail when the WAL ends in a piece that has a whole header. -/
theorem copyFile_snd {cs : List (Chunk (LogEntry V H))} (h : Ended cs) (id n : ℕ) :
    (copyFile id n cs).2 = true ↔ ∃ header m, cs.getLast? = some (.torn header m) ∧
      headerLen ≤ m := by
  induction cs generalizing n with
  | nil => simp [copyFile]
  | cons p cs ih =>
    cases p with
    | frame f =>
      rw [copyFile, ih h.of_cons]
      cases cs with
      | nil => simp
      | cons r cs => simp
    | torn header m =>
      obtain ⟨rfl, -⟩ := h.of_torn
      simp only [copyFile, decide_eq_true_eq, List.getLast?_singleton, Option.some.injEq,
        Chunk.torn.injEq]
      constructor
      · exact fun hm => ⟨header, m, ⟨rfl, rfl⟩, hm⟩
      · rintro ⟨header', m', ⟨-, rfl⟩, hm⟩
        exact hm

end Ends

/-- The WAL ends, at the start or behind it, in a torn frame whose header is whole. -/
def TornAfter (start : ℕ) (F : File (LogEntry V H)) : Prop :=
  ∃ header m, F.chunks.getLast? = some (.torn header m) ∧ headerLen ≤ m ∧ start + m ≤ bytes F.chunks

/-- The tail starts between two pieces of its WAL or behind them all. -/
def StartOk (fs : List (File (LogEntry V H))) (t : TailStart) : Prop :=
  ∀ F ∈ fs, F.id = t.walId → Boundary t.offset F.chunks ∨ bytes F.chunks ≤ t.offset

section Copied

variable {F : File (LogEntry V H)}

theorem StartOk.startIn (h : StartOk fs t) (hF : F ∈ fs) :
    Boundary (t.startIn F) F.chunks ∨ bytes F.chunks ≤ t.startIn F := by
  unfold TailStart.startIn
  split
  · next hid => exact h F hF hid
  · exact .inl ⟨[], F.chunks, rfl, by simp [Whole], rfl⟩

theorem mem_copied (h : StartOk fs t) (hF : F ∈ fs) (hended : Ended F.chunks)
    {q : Spot (LogEntry V H)} : q ∈ (t.copied F).1 ↔ q ∈ F.spots ∧ t.startIn F ≤ q.offset := by
  rw [TailStart.copied, copyFile_fst]
  rcases h.startIn hF with ⟨as, bs, hc, hw, hstart⟩ | hle
  · have hspots : F.spots = layout F.id 0 as ++ layout F.id (t.startIn F) bs := by
      rw [File.spots, hc, layout_append_whole hw, Nat.zero_add, hstart]
    rw [hspots, ← hstart, hc, dropBytes_append hw, hstart, List.mem_append]
    constructor
    · exact fun hq => ⟨.inr hq, le_offset_of_layout hq⟩
    · rintro ⟨hq | hq, hle⟩
      · have := offset_lt_of_layout hq
        omega
      · exact hq
  · rw [dropBytes_beyond hle hended.sizes]
    constructor
    · intro hq
      simp [layout] at hq
    · rintro ⟨hq, hle'⟩
      have := offset_lt_of_layout hq
      omega

omit [Encoded (LogEntry V H)] in
theorem Whole.getLast? {cs : List (Chunk (LogEntry V H))} (h : Whole cs)
    {header : Option (Frame (LogEntry V H))} {m : ℕ} : cs.getLast? ≠ some (.torn header m) := by
  intro hlast
  obtain ⟨f, hf⟩ := h _ (List.mem_of_getLast? hlast)
  cases hf

theorem le_bytes_of_getLast? {cs : List (Chunk (LogEntry V H))} {p : Chunk (LogEntry V H)}
    (h : cs.getLast? = some p) : p.size ≤ bytes cs := by
  obtain ⟨as, rfl⟩ := List.getLast?_eq_some_iff.mp h
  rw [bytes_append, bytes_cons]
  omega

theorem copied_ends (h : StartOk fs t) (hF : F ∈ fs) (hended : Ended F.chunks) :
    (t.copied F).2 = true ↔ TornAfter (t.startIn F) F := by
  rw [TailStart.copied]
  rcases h.startIn hF with ⟨as, bs, hc, hw, hstart⟩ | hle
  · unfold TornAfter
    rw [hc] at hended ⊢
    rw [← hstart, dropBytes_append hw, copyFile_snd (hended.of_append hw), List.getLast?_append]
    constructor
    · rintro ⟨header, m, hlast, hm⟩
      have := le_bytes_of_getLast? hlast
      rw [Chunk.size] at this
      exact ⟨header, m, by rw [hlast, Option.some_or], hm, by rw [bytes_append]; omega⟩
    · rintro ⟨header, m, hlast, hm, -⟩
      refine ⟨header, m, ?_, hm⟩
      cases hbs : bs.getLast? with
      | none =>
        rw [hbs, Option.none_or] at hlast
        exact absurd hlast hw.getLast?
      | some p =>
        rw [hbs, Option.some_or] at hlast
        exact hlast
  · rw [dropBytes_beyond hle hended.sizes]
    constructor
    · intro hend
      simp [copyFile] at hend
    · rintro ⟨header, m, -, hm, hle'⟩
      have : 0 < headerLen := by decide
      omega

end Copied

section Planning

/-- The offsets that are found lie between frames; the end lies there too, or behind the file. -/
theorem frameOffsets_spec {cs : List (Chunk (LogEntry V H))} (h : Ended cs) (n : ℕ) :
    (∀ o ∈ (frameOffsets n cs).1, ∃ as bs, cs = as ++ bs ∧ Whole as ∧ o.1 = n + bytes as) ∧
      ((∃ as bs, cs = as ++ bs ∧ Whole as ∧ (frameOffsets n cs).2 = n + bytes as) ∨
        n + bytes cs ≤ (frameOffsets n cs).2) := by
  have hnil : Whole ([] : List (Chunk (LogEntry V H))) := by simp [Whole]
  induction cs generalizing n with
  | nil => exact ⟨by simp [frameOffsets], .inl ⟨[], [], rfl, hnil, by simp [frameOffsets]⟩⟩
  | cons p cs ih =>
    cases p with
    | frame f =>
      obtain ⟨hoffsets, hend⟩ := ih h.of_cons (n + frameLen f)
      have hcons : ∀ {as : List (Chunk (LogEntry V H))}, Whole as → Whole (.frame f :: as) := by
        intro as has p hp
        rcases List.mem_cons.mp hp with rfl | hp
        · exact ⟨f, rfl⟩
        · exact has p hp
      have hstep : ∀ {m : ℕ}, (∃ as bs, cs = as ++ bs ∧ Whole as ∧ m = n + frameLen f + bytes as) →
          ∃ as bs, .frame f :: cs = as ++ bs ∧ Whole as ∧ m = n + bytes as := by
        rintro m ⟨as, bs, rfl, has, rfl⟩
        exact ⟨.frame f :: as, bs, rfl, hcons has, by rw [bytes_cons, Chunk.size, Nat.add_assoc]⟩
      constructor
      · intro o ho
        rcases List.mem_cons.mp ho with rfl | ho
        · exact ⟨[], _, rfl, hnil, rfl⟩
        · exact hstep (hoffsets o ho)
      · rcases hend with hend | hend
        · exact .inl (hstep hend)
        · refine .inr ?_
          rw [bytes_cons, Chunk.size, ← Nat.add_assoc]
          exact hend
    | torn header m =>
      obtain ⟨rfl, hshort⟩ := h.of_torn
      cases header with
      | none => exact ⟨by simp [frameOffsets], .inl ⟨[], _, rfl, hnil, by simp [frameOffsets]⟩⟩
      | some f =>
        refine ⟨fun o ho => ⟨[], _, rfl, hnil, ?_⟩, .inr ?_⟩
        · rw [List.mem_singleton.mp ho]
          rfl
        · have := hshort f rfl
          simp only [frameOffsets, bytes_cons, bytes_nil, Chunk.size]
          omega

theorem startOk_of_offsets (hsorted : (fs.map File.id).Pairwise (· < ·))
    (hended : ∀ F ∈ fs, Ended F.chunks) {id offset bytes : ℕ}
    (h : (∃ o ∈ (offsetsOf fs id).1, o.1 = offset) ∨ (offsetsOf fs id).2 = offset) :
    StartOk fs ⟨id, offset, bytes⟩ := by
  intro F hF hid
  have hid : F.id = id := hid
  have hoff : offsetsOf fs id = frameOffsets 0 F.chunks := by
    rw [offsetsOf, ← hid, find_file hsorted hF]
    rfl
  obtain ⟨hoffsets, hend⟩ := frameOffsets_spec (hended F hF) 0
  rw [hoff] at h
  rcases h with ⟨o, ho, rfl⟩ | rfl
  · obtain ⟨as, bs, hc, hw, ho'⟩ := hoffsets o ho
    exact .inl ⟨as, bs, hc, hw, by simp only [ho', Nat.zero_add]⟩
  · rcases hend with ⟨as, bs, hc, hw, ho⟩ | hle
    · exact .inl ⟨as, bs, hc, hw, by simp only [ho, Nat.zero_add]⟩
    · rw [Nat.zero_add] at hle
      exact .inr hle

theorem startOk_of_trimmed (hsorted : (fs.map File.id).Pairwise (· < ·))
    (hended : ∀ F ∈ fs, Ended F.chunks)
    {maxBytes : ℕ} {wals : List FrozenWal} (h : trimmed fs maxBytes wals = some t) :
    StartOk fs t := by
  induction wals with
  | nil => cases h
  | cons w wals ih =>
    rw [trimmed] at h
    split at h
    · exact ih h
    · cases h
      apply startOk_of_offsets hsorted hended
      cases hfind : ((offsetsOf fs w.id).1.map Prod.fst).find? fun o =>
          w.size - (maxBytes - sizes wals) ≤ o with
      | none => exact .inr (by rfl)
      | some o =>
        obtain ⟨p, hp, rfl⟩ := List.mem_map.mp (List.mem_of_find?_eq_some hfind)
        exact .inl ⟨p, hp, rfl⟩

theorem size_of_frozenWals {retired through : ℕ} {wals : List FrozenWal} {w : FrozenWal}
    (h : frozenWals retired through fs = some wals) (hw : w ∈ wals) :
    ∃ F ∈ fs, F.id = w.id ∧ bytes F.chunks = w.size := by
  unfold frozenWals at h
  generalize hfs : (fs.filter fun F => retired < F.id ∧ F.id ≤ through ∧ bytes F.chunks ≠ 0) = gs
    at h
  have hsub : ∀ F ∈ gs, F ∈ fs := fun F hF => List.mem_of_mem_filter (hfs ▸ hF)
  clear hfs
  induction gs generalizing wals with
  | nil =>
    have : wals = [] := by simpa using h.symm
    simp [this] at hw
  | cons F gs ih =>
    rw [List.mapM_cons] at h
    obtain ⟨v, hv, h⟩ := Option.bind_eq_some_iff.mp h
    obtain ⟨vs, hvs, h⟩ := Option.bind_eq_some_iff.mp h
    obtain rfl : v :: vs = wals := Option.some.inj h
    rcases List.mem_cons.mp hw with rfl | hw
    · obtain ⟨f, -, rfl⟩ := Option.map_eq_some_iff.mp hv
      exact ⟨F, hsub F List.mem_cons_self, rfl, rfl⟩
    · exact ih hw hvs fun E hE => hsub E (List.mem_cons_of_mem _ hE)

theorem startOk_of_planTail (hsorted : (fs.map File.id).Pairwise (· < ·))
    (hended : ∀ F ∈ fs, Ended F.chunks)
    {wals : List FrozenWal} {last : FrozenWal} {lastLsn : ℕ} {retention : Retention}
    (hlast : ∃ F ∈ fs, F.id = last.id ∧ bytes F.chunks = last.size)
    (h : planTail fs wals last lastLsn retention = some t) : StartOk fs t := by
  have hend : StartOk fs ⟨last.id, last.size, 0⟩ := by
    intro F hF hid
    obtain ⟨G, hG, hGid, hsize⟩ := hlast
    rw [eq_of_id_eq hsorted hF hG (hid.trans hGid.symm)]
    exact .inr (Nat.le_of_eq hsize)
  unfold planTail at h
  dsimp only at h
  split at h
  · cases h
  split at h
  · cases h
    exact hend
  split at h
  · cases h
    exact hend
  next w rest _ =>
  have hstart : ∀ n, StartOk fs ⟨w.id, (((offsetsOf fs w.id).1.filter fun o =>
      retention.aboveLsn < o.2).map Prod.fst).min?.getD (offsetsOf fs w.id).2, n⟩ := by
    intro n
    apply startOk_of_offsets hsorted hended
    cases hmin : (((offsetsOf fs w.id).1.filter fun o =>
      retention.aboveLsn < o.2).map Prod.fst).min? with
    | none => exact .inr rfl
    | some o =>
      obtain ⟨p, hp, rfl⟩ := List.mem_map.mp (List.min?_mem hmin)
      exact .inl ⟨p, List.mem_of_mem_filter hp, rfl⟩
  split at h
  · cases h
    exact hstart _
  · cases htrim : trimmed fs retention.maxBytes (w :: rest) with
    | none =>
      rw [htrim] at h
      cases h
      exact hstart _
    | some t' =>
      rw [htrim] at h
      cases h
      exact startOk_of_trimmed hsorted hended htrim

theorem FilesOk.startOk {c : Coll V H} (h : FilesOk c) {retention : Retention}
    (ht : (c.planCompaction retention).tail = some t) : StartOk c.disk.files t := by
  unfold Coll.planCompaction at ht
  split at ht
  · cases ht
  next wals hwals =>
  split at ht
  · cases ht
  next last hlast =>
  exact startOk_of_planTail h.sorted h.ended
    (size_of_frozenWals hwals (List.mem_of_getLast? hlast)) ht

end Planning

end DewDB.Recovery
