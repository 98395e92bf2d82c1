import DewDB.CollectionRewind

/-!
# Where a compaction moves the frames

A live key is read where its entry says and rewritten; a frame of the retained tail is copied as it
stands. For both, the position in the compacted WAL holds the same frame, and the index is pointed
at it.
-/
namespace DewDB.Recovery

open CollectionLog WalFile WalWriter StorageEntry

variable {V H : Type} [Encoded (LogEntry V H)] {fs : List (File (LogEntry V H))}

section Reading

omit [Encoded (LogEntry V H)] in
theorem find_file (hsorted : (fs.map File.id).Pairwise (· < ·)) {F : File (LogEntry V H)}
    (hF : F ∈ fs) : (fs.find? fun G => G.id = F.id) = some F := by
  cases hfind : fs.find? fun G => G.id = F.id with
  | none => simpa using List.find?_eq_none.mp hfind F hF
  | some G =>
    have hid : G.id = F.id := by simpa using List.find?_some hfind
    rw [eq_of_id_eq hsorted (List.mem_of_find?_eq_some hfind) hF hid]

theorem frameAt_of_spot (hsorted : (fs.map File.id).Pairwise (· < ·)) {q : Spot (LogEntry V H)}
    (hq : q ∈ spots fs) : frameAt fs q.walId q.offset = some q.frame := by
  obtain ⟨F, hF, hid, hqF⟩ := walId_of_spots hq
  obtain ⟨A, B, hsplit⟩ := List.append_of_mem hqF
  obtain ⟨as, bs, hc, hw, -, -, hoff⟩ := layout_split hsplit
  rw [Nat.zero_add] at hoff
  rw [frameAt, ← hid, find_file hsorted hF, Option.bind_some, hc, hoff, dropBytes_append hw]

theorem spot_of_position (hsorted : (fs.map File.id).Pairwise (· < ·)) {q r : Spot (LogEntry V H)}
    (hq : q ∈ spots fs) (hr : r ∈ spots fs) (hwal : r.walId = q.walId)
    (hoff : r.offset = q.offset) : r = q := by
  have hframe := frameAt_of_spot hsorted hr
  rw [hwal, hoff, frameAt_of_spot hsorted hq] at hframe
  obtain ⟨f, w, o⟩ := r
  obtain ⟨g, w', o'⟩ := q
  simp only at hwal hoff hframe
  rw [hwal, hoff, Option.some.inj hframe]

variable {c : Coll V H}

theorem payloadAt_of_spot (hsorted : (c.disk.files.map File.id).Pairwise (· < ·))
    {q : Spot (LogEntry V H)} (hq : q ∈ spots c.disk.files) (halive : c.retiredThrough < q.walId) :
    c.payloadAt (entryOf q) = some q.frame.entry := by
  rw [Coll.payloadAt, entryOf_walId, entryOf_offset, if_neg (by omega), frameAt_of_spot hsorted hq,
    Option.bind_some, entryOf_len, if_pos rfl]

theorem view_of_spot (hsorted : (c.disk.files.map File.id).Pairwise (· < ·))
    {q : Spot (LogEntry V H)}
    {key : String} (hget : c.index.get key = some (entryOf q)) (hq : q ∈ spots c.disk.files)
    (halive : c.retiredThrough < q.walId) :
    c.view key = some (some q.frame.entry, (entryOf q).version, (entryOf q).expireAt) := by
  rw [Coll.view, hget, Option.map_some, payloadAt_of_spot hsorted hq halive]

theorem entryOf_frame {q r : Spot (LogEntry V H)} (h : r.frame = q.frame) :
    (entryOf r).version = (entryOf q).version ∧ (entryOf r).expireAt = (entryOf q).expireAt := by
  obtain ⟨f, w, o⟩ := r
  obtain ⟨g, w', o'⟩ := q
  obtain rfl : f = g := h
  rw [entryOf_move f w' w o' o]
  exact ⟨rfl, rfl⟩

end Reading

section Tail

theorem copyFile_fst (id n : ℕ) (cs : List (Chunk (LogEntry V H))) :
    (copyFile id n cs).1 = layout id n cs := by
  induction cs generalizing n with
  | nil => rfl
  | cons p cs ih =>
    cases p with
    | frame f => simp only [copyFile, layout, ih]
    | torn header m => rfl

def TailStart.startIn (t : TailStart) (F : File (LogEntry V H)) : ℕ :=
  if F.id = t.walId then t.offset else 0

def TailStart.copied (t : TailStart) (F : File (LogEntry V H)) :
    List (Spot (LogEntry V H)) × Bool :=
  copyFile F.id (t.startIn F) (dropBytes (t.startIn F) F.chunks)

theorem mem_copyFiles {t : TailStart} {q : Spot (LogEntry V H)} :
    q ∈ copyFiles t fs ↔ ∃ pre F post, fs = pre ++ F :: post ∧ q ∈ (t.copied F).1 ∧
      ∀ E ∈ pre, (t.copied E).2 = false := by
  induction fs with
  | nil => simp [copyFiles]
  | cons F fs ih =>
    have hstep : copyFiles t (F :: fs) =
        if (t.copied F).2 then (t.copied F).1 else (t.copied F).1 ++ copyFiles t fs := rfl
    rw [hstep]
    constructor
    · intro hq
      by_cases hend : (t.copied F).2 = true
      · rw [if_pos hend] at hq
        exact ⟨[], F, fs, rfl, hq, by simp⟩
      · rw [if_neg hend] at hq
        rcases List.mem_append.mp hq with hq | hq
        · exact ⟨[], F, fs, rfl, hq, by simp⟩
        · obtain ⟨pre, G, post, rfl, hqG, hpre⟩ := ih.mp hq
          refine ⟨F :: pre, G, post, rfl, hqG, fun E hE => ?_⟩
          rcases List.mem_cons.mp hE with rfl | hE
          · exact Bool.eq_false_iff.mpr hend
          · exact hpre E hE
    · rintro ⟨pre, G, post, hsplit, hq, hpre⟩
      cases pre with
      | nil =>
        obtain ⟨rfl, rfl⟩ := List.cons.inj hsplit
        split
        · exact hq
        · exact List.mem_append_left _ hq
      | cons E pre =>
        rw [List.cons_append] at hsplit
        obtain ⟨rfl, rfl⟩ := List.cons.inj hsplit
        rw [if_neg (by simp [hpre F List.mem_cons_self])]
        exact List.mem_append_right _ (ih.mpr ⟨pre, G, post, rfl, hq,
          fun E hE => hpre E (List.mem_cons_of_mem _ hE)⟩)

end Tail

section Placing

variable {id n : ℕ}

theorem mem_movedTo {qs : List (Spot (LogEntry V H))} {r : Spot (LogEntry V H) × ℕ}
    (h : r ∈ movedTo n qs) :
    r.1 ∈ qs ∧ ⟨r.1.frame, id, r.2⟩ ∈ layout id n (qs.map fun q => .frame q.frame) := by
  induction qs generalizing n with
  | nil => simp [movedTo] at h
  | cons q qs ih =>
    rcases List.mem_cons.mp h with rfl | h
    · exact ⟨List.mem_cons_self, List.mem_cons_self⟩
    · obtain ⟨hmem, hlay⟩ := ih h
      exact ⟨List.mem_cons_of_mem _ hmem, List.mem_cons_of_mem _ hlay⟩

theorem exists_movedTo {qs : List (Spot (LogEntry V H))} {q : Spot (LogEntry V H)} (h : q ∈ qs) :
    ∃ o, (q, o) ∈ movedTo n qs := by
  induction qs generalizing n with
  | nil => simp at h
  | cons p qs ih =>
    rcases List.mem_cons.mp h with rfl | h
    · exact ⟨n, List.mem_cons_self⟩
    · obtain ⟨o, ho⟩ := ih (n := n + frameLen p.frame) h
      exact ⟨o, List.mem_cons_of_mem _ ho⟩

theorem placed_keys (id n : ℕ) (rs : List (String × IndexEntry × Frame (LogEntry V H))) :
    (placed id n rs).map (fun r => (r.1, r.2.1)) = rs.map fun r => (r.1, r.2.1) := by
  induction rs generalizing n with
  | nil => rfl
  | cons r rs ih => simp only [placed, List.map_cons, ih]

theorem mem_placed {rs : List (String × IndexEntry × Frame (LogEntry V H))}
    {r : String × IndexEntry × IndexEntry} (h : r ∈ placed id n rs) :
    ∃ f o, (r.1, r.2.1, f) ∈ rs ∧ r.2.2 = entryOf ⟨f, id, o⟩ ∧
      ⟨f, id, o⟩ ∈ layout id n (rs.map fun r => .frame r.2.2) := by
  induction rs generalizing n with
  | nil => simp [placed] at h
  | cons p rs ih =>
    rcases List.mem_cons.mp h with rfl | h
    · exact ⟨p.2.2, n, List.mem_cons_self, rfl, List.mem_cons_self⟩
    · obtain ⟨f, o, hmem, he, hlay⟩ := ih h
      exact ⟨f, o, List.mem_cons_of_mem _ hmem, he, List.mem_cons_of_mem _ hlay⟩

theorem readLive_eq {ps : List (String × IndexEntry)}
    {rs : List (String × IndexEntry × Frame (LogEntry V H))} (h : readLive fs ps = some rs) :
    rs.map (fun r => (r.1, r.2.1)) = ps ∧ ∀ r ∈ rs,
      frameAt fs r.2.1.walId r.2.1.offset = some r.2.2 := by
  induction ps generalizing rs with
  | nil =>
    have : rs = [] := by simpa [readLive] using h.symm
    simp [this]
  | cons p ps ih =>
    rw [readLive, List.mapM_cons] at h
    obtain ⟨r, hr, h⟩ := Option.bind_eq_some_iff.mp h
    obtain ⟨rs', hrs', h⟩ := Option.bind_eq_some_iff.mp h
    obtain rfl : r :: rs' = rs := Option.some.inj h
    obtain ⟨f, hf, hr⟩ := Option.bind_eq_some_iff.mp hr
    split at hr
    · cases hr
      obtain ⟨hmap, hall⟩ := ih hrs'
      refine ⟨by rw [List.map_cons, hmap], fun r hr => ?_⟩
      rcases List.mem_cons.mp hr with rfl | hr
      · exact hf
      · exact hall r hr
    · cases hr

end Placing

section Remapping

omit [Encoded (LogEntry V H)]

theorem nodup_remapRelocated {m : Index} (hm : (m.map Prod.fst).Nodup)
    (rs : List (String × IndexEntry × IndexEntry)) :
    ((remapRelocated m rs).map Prod.fst).Nodup := by
  induction rs generalizing m with
  | nil => exact hm
  | cons r rs ih =>
    rw [remapRelocated, List.foldl_cons]
    apply ih
    split
    · exact Index.nodup_insert hm _ _
    · exact hm

/-- A key that was rewritten and has its old entry gets the new one; the others keep theirs. -/
theorem get_remapRelocated {m : Index} {rs : List (String × IndexEntry × IndexEntry)}
    (hkeys : (rs.map Prod.fst).Nodup) (hold : ∀ r ∈ rs, m.get r.1 = some r.2.1) (key : String) :
    (∀ r ∈ rs, r.1 = key → (remapRelocated m rs).get key = some r.2.2) ∧
      (key ∉ rs.map Prod.fst → (remapRelocated m rs).get key = m.get key) := by
  induction rs generalizing m with
  | nil => simp [remapRelocated]
  | cons r rs ih =>
    rw [List.map_cons, List.nodup_cons] at hkeys
    have hr := hold r List.mem_cons_self
    have hstep : remapRelocated m (r :: rs) = remapRelocated (m.insert r.1 r.2.2) rs := by
      rw [remapRelocated, List.foldl_cons, if_pos]
      · rfl
      · simp [hr]
    have hrest : ∀ r' ∈ rs, (m.insert r.1 r.2.2).get r'.1 = some r'.2.1 := by
      intro r' hr'
      have hne : r.1 ≠ r'.1 := fun heq => hkeys.1 (heq ▸ List.mem_map_of_mem hr')
      rw [Index.get_insert, if_neg hne]
      exact hold r' (List.mem_cons_of_mem _ hr')
    obtain ⟨hmem, hother⟩ := ih hkeys.2 hrest
    rw [hstep]
    constructor
    · intro r' hr' hkey
      rcases List.mem_cons.mp hr' with rfl | hr'
      · rw [hother (hkey ▸ hkeys.1), Index.get_insert, if_pos hkey]
      · exact hmem r' hr' hkey
    · intro hnot
      rw [List.map_cons, List.mem_cons, not_or] at hnot
      rw [hother hnot.2, Index.get_insert, if_neg (Ne.symm hnot.1)]

def movedEntry (compactId : ℕ) (moved : List (Spot (LogEntry V H) × ℕ))
    (e : IndexEntry) : IndexEntry :=
  match moved.find? fun r => r.1.walId = e.walId ∧ r.1.offset = e.offset with
  | none => e
  | some r => { e with
      walId := compactId
      offset := r.2 }

theorem remapMoved_eq (compactId : ℕ) (moved : List (Spot (LogEntry V H) × ℕ)) (m : Index) :
    remapMoved compactId moved m = m.map fun p => (p.1, movedEntry compactId moved p.2) := by
  refine List.map_congr_left fun p _ => ?_
  unfold movedEntry
  cases moved.find? fun r => r.1.walId = p.2.walId ∧ r.1.offset = p.2.offset with
  | none => rfl
  | some r => rfl

end Remapping

end DewDB.Recovery
