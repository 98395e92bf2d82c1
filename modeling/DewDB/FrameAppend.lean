import DewDB.CollectionLog

/-!
# Taking a leader's frames

`appendRawFrame` on a frame of the log of the leader of a term: whatever it answers, the log stays
one whose prefixes the leaders had, it keeps what it shares with the leader, and an accepted frame
comes with everything the leader has before it.
-/
namespace DewDB.FrameAppend

open LogReplication CollectionLog

variable {β V κ : Type} {s : State V κ (Frame β)} {k : κ} {lead : List (Frame β)}
  {col : Collection β} {f : Frame β} {p q : List (Frame β)}

/-- Log matching: two logs that share a position and its term are equal through it. -/
theorem prefix_eq_of_stamp_eq {A B : List (Frame β)} {x y : Frame β}
    (hwf : ∀ t, WellFormed (s.leaderLog t k)) (hA : Matches s k A) (hB : Matches s k B)
    (hx : p ++ [x] <+: A) (hy : q ++ [y] <+: B) (hterm : x.term = y.term) (hlsn : x.lsn = y.lsn) :
    p ++ [x] = q ++ [y] := by
  have hx' := hA p x hx
  have hy' := hB q y hy
  simp only [stamped_term, hterm] at hx' hy'
  rw [← cut_eq_of_isPrefix (hwf _) hx', ← cut_eq_of_isPrefix (hwf _) hy', hlsn]

/-- The part of the log through the watermark, when it is one of the leader's prefixes. -/
def AppliedIn (col : Collection β) (lead : List (Frame β)) : Prop :=
  col.applied = 0 ∨ Shared col.frames lead col.applied

/-- A log together with the log of a leader, both made of prefixes that leaders had. -/
structure Against (s : State V κ (Frame β)) (k : κ) (col : Collection β) (lead : List (Frame β)) :
    Prop where
  leaders : ∀ t, WellFormed (s.leaderLog t k)
  own : Grounded s k col.frames
  ok : ColOk col
  leading : Grounded s k lead
  chained : Chained lead
  applied : AppliedIn col lead

theorem staged_eq_some {lsn : ℕ} (h : col.staged lsn = some f) :
    f ∈ col.frames ∧ f.lsn = lsn ∧ col.applied < f.lsn := by
  have hmem := List.mem_of_find?_eq_some h
  have hprop := List.find?_some h
  simp only [Bool.and_eq_true, beq_iff_eq, decide_eq_true_eq] at hprop
  exact ⟨hmem, hprop⟩

theorem staged_of_mem (hwf : WellFormed col.frames) (hf : f ∈ col.frames)
    (happ : col.applied < f.lsn) : col.staged f.lsn = some f := by
  cases hs : col.staged f.lsn with
  | none =>
    have := List.find?_eq_none.mp hs f hf
    simp [happ] at this
  | some g =>
    obtain ⟨hg, hlsn, -⟩ := staged_eq_some hs
    rw [eq_of_lsn_eq hwf hg hf hlsn]

theorem lsn_le_last (hwf : WellFormed col.frames) (hok : ColOk col) (hf : f ∈ col.frames) :
    f.lsn ≤ col.lastAppendedLsn := by
  rw [hok.lsn]
  rcases List.eq_nil_or_concat' col.frames with hnil | ⟨p, x, heq⟩
  · simp [hnil] at hf
  · rw [heq, lsnOf_concat]
    rw [heq] at hf hwf
    exact (hwf.le_last hf).2

theorem duplicate_guard_of_mem (h : Against s k col lead) (hf : f ∈ col.frames) :
    f.lsn ≤ col.lastAppendedLsn ∧ (f.lsn ≤ col.applied ∨ col.stagedTerm f.lsn = some f.term) := by
  refine ⟨lsn_le_last h.own.wellFormed h.ok hf, ?_⟩
  by_cases happ : f.lsn ≤ col.applied
  · exact .inl happ
  · exact .inr (by simp [Collection.stagedTerm, staged_of_mem h.own.wellFormed hf (by omega)])

/-- A frame of the leader that is answered as a duplicate is in the log, with all before it. -/
theorem prefix_of_duplicate (h : Against s k col lead) (hf : q ++ [f] <+: lead)
    (hdup : f.lsn ≤ col.applied ∨ col.stagedTerm f.lsn = some f.term) :
    q ++ [f] <+: col.frames := by
  rcases hdup with happ | hstaged
  · have hpos : 0 < f.lsn := h.chained.lsn_pos (hf.subset (by simp))
    rcases h.applied with h0 | ⟨p, x, hpx, hpl, hx⟩
    · omega
    · have := h.leading.wellFormed.prefix_of_pos_le hf hpl (by simp [hx, happ])
      exact this.trans hpx
  · obtain ⟨g, hg, hgt⟩ := Option.map_eq_some_iff.mp hstaged
    obtain ⟨hmem, hlsn, -⟩ := staged_eq_some hg
    obtain ⟨p, hp⟩ := exists_isPrefix_of_mem hmem
    have := prefix_eq_of_stamp_eq h.leaders h.own.matched h.leading.matched hp hf hgt hlsn
    rwa [this] at hp

/-- The log up to the predecessor of the leader's frame is the leader's log up to it, when the log
has that position in that term, or has it as the watermark. -/
theorem cut_eq_of_predecessor (h : Against s k col lead) (hf : q ++ [f] <+: lead)
    (hpred : (∃ g ∈ col.frames, g.lsn = f.prevLsn ∧ g.term = f.prevTerm) ∨
      f.prevLsn = col.applied) : cut f.prevLsn col.frames = q := by
  obtain ⟨hprev, hprevt, -⟩ := h.chained q f hf
  have hq : q <+: lead := (List.prefix_append q [f]).trans hf
  rcases List.eq_nil_or_concat' q with rfl | ⟨q, x, rfl⟩
  · rw [hprev, lsnOf_nil]
    exact cut_zero h.ok.chained
  · rw [lsnOf_concat] at hprev
    rw [termOf_concat] at hprevt
    have hagree : q ++ [x] <+: col.frames := by
      rcases hpred with ⟨g, hg, hgl, hgt⟩ | happ
      · obtain ⟨p, hp⟩ := exists_isPrefix_of_mem hg
        have := prefix_eq_of_stamp_eq h.leaders h.own.matched h.leading.matched hp hq
          (hgt.trans hprevt) (hgl.trans hprev)
        rwa [this] at hp
      · have hpos : 0 < x.lsn := h.chained.lsn_pos (hq.subset (by simp))
        rcases h.applied with h0 | ⟨p, y, hpy, hpl, hy⟩
        · omega
        · have hxy : x.lsn = y.lsn := by omega
          have heq : q ++ [x] = p ++ [y] := by
            rw [← cut_eq_of_isPrefix h.leading.wellFormed hq,
              ← cut_eq_of_isPrefix h.leading.wellFormed hpl, hxy]
          rwa [heq]
    rw [hprev]
    exact cut_eq_of_isPrefix h.own.wellFormed hagree

/-- How a leader's frame leaves the log: as it was with the frame in it, ending at the frame, or as
it was with a refusal. -/
theorem appendRawFrame_cases (h : Against s k col lead) (hf : q ++ [f] <+: lead) :
    (col.appendRawFrame f = (col, .duplicate col.lastAppendedLsn) ∧ q ++ [f] <+: col.frames) ∨
    (∃ col', col.appendRawFrame f = (col', .applied f.lsn) ∧ col'.frames = q ++ [f] ∧
      col'.applied = col.applied ∧ ColOk col' ∧
      ∀ p, p <+: col.frames → p <+: lead → p <+: q ++ [f]) ∨
    ∃ refused, col.appendRawFrame f = (col, refused) ∧
      ((∃ l t, refused = .gap l t) ∨ ∃ l t, refused = .divergent l t) := by
  obtain ⟨hprev, hprevt, hlt⟩ := h.chained q f hf
  by_cases hdup : f.lsn ≤ col.lastAppendedLsn ∧
      (f.lsn ≤ col.applied ∨ col.stagedTerm f.lsn = some f.term)
  · exact .inl ⟨by simp [Collection.appendRawFrame, hdup], prefix_of_duplicate h hf hdup.2⟩
  right
  -- What the log shares with the leader ends before the frame, else it were a duplicate.
  have hkeep : ∀ p, p <+: col.frames → p <+: lead → p <+: q ++ [f] := by
    intro p hp hpl
    rcases List.prefix_or_prefix_of_prefix hpl hf with hle | hle
    · exact hle
    · exact absurd (duplicate_guard_of_mem h ((hle.trans hp).subset (by simp))) hdup
  have hok : ∀ applied, ColOk (⟨q ++ [f], f.lsn, f.term, applied⟩ : Collection β) := fun _ =>
    ⟨by simp, by simp, h.chained.of_isPrefix hf⟩
  unfold Collection.appendRawFrame
  dsimp only
  rw [if_neg hdup]
  by_cases hgap : col.lastAppendedLsn < f.prevLsn
  · rw [if_pos hgap]
    exact .inr ⟨_, rfl, .inl ⟨_, _, rfl⟩⟩
  rw [if_neg hgap]
  by_cases hbelow : f.prevLsn < col.lastAppendedLsn
  · rw [if_pos hbelow]
    cases hrw : col.rewindTo f.prevLsn f.prevTerm with
    | none => exact .inr ⟨_, rfl, .inr ⟨_, _, rfl⟩⟩
    | some cutCol =>
      left
      unfold Collection.rewindTo at hrw
      split_ifs at hrw with h1 h2 h3 h4
      obtain rfl := Option.some.inj hrw
      have hcut : cut f.prevLsn col.frames = q := by
        refine cut_eq_of_predecessor h hf ?_
        cases hst : col.staged f.prevLsn with
        | none => exact .inr (by simpa [hst] using h3)
        | some g =>
          obtain ⟨hg, hgl, -⟩ := staged_eq_some hst
          exact .inl ⟨g, hg, hgl, by simpa [hst] using h2⟩
      refine ⟨_, rfl, ?_, rfl, ?_, hkeep⟩
      · simp [Collection.push, hcut]
      · have := hok col.applied
        simpa [Collection.push, hcut] using this
  · rw [if_neg hbelow]
    have hat : f.prevLsn = col.lastAppendedLsn := by omega
    by_cases hterm : f.prevTerm = col.lastAppendedTerm
    · rw [if_neg (by simpa using hterm)]
      left
      have hframes : col.frames = q := by
        rcases List.eq_nil_or_concat' col.frames with hnil | ⟨c, x, hcx⟩
        · have hq : lsnOf q = 0 := by
            rw [← hprev, hat, h.ok.lsn, hnil, lsnOf_nil]
          rcases List.eq_nil_or_concat' q with rfl | ⟨q, y, rfl⟩
          · exact hnil
          · rw [lsnOf_concat] at hq
            have := h.chained.lsn_pos (hf.subset (show y ∈ _ by simp))
            omega
        · have hx : x.lsn = f.prevLsn ∧ x.term = f.prevTerm := by
            rw [hat, hterm, h.ok.lsn, h.ok.term, hcx]
            simp
          have hcut := cut_eq_of_predecessor h hf (.inl ⟨x, by simp [hcx], hx⟩)
          rw [← hcut, ← hx.1, cut_eq_of_isPrefix h.own.wellFormed (by rw [hcx]), hcx]
      refine ⟨_, rfl, ?_, rfl, ?_, hkeep⟩
      · simp [Collection.push, hframes]
      · have := hok col.applied
        simpa [Collection.push, hframes] using this
    · rw [if_pos (by simpa using hterm)]
      exact .inr ⟨_, rfl, .inr ⟨_, _, rfl⟩⟩

/-- A log that ends at a frame of the leader again stands against the leader's. -/
theorem Against.of_isPrefix (h : Against s k col lead) {col' : Collection β} (hok : ColOk col')
    (happ : col'.applied = col.applied) (hp : col'.frames <+: lead)
    (hkeep : ∀ p, p <+: col.frames → p <+: lead → p <+: col'.frames) : Against s k col' lead where
  leaders := h.leaders
  own := ⟨h.leading.wellFormed.of_isPrefix hp, fun p e hpe => h.leading.matched p e (hpe.trans hp)⟩
  ok := hok
  leading := h.leading
  chained := h.chained
  applied := by
    rcases h.applied with h0 | ⟨p, x, hpx, hpl, hx⟩
    · exact .inl (happ.trans h0)
    · exact .inr ⟨p, x, hkeep _ hpx hpl, hpl, hx.trans happ.symm⟩

structure BatchOk (lead : List (Frame β)) (col : Collection β) (high : ℕ) (before : Option ℕ)
    (fs : List (Frame β)) (r : BatchResult β) : Prop where
  ok : ColOk r.col
  applied : r.col.applied = col.applied
  log : r.col = col ∨ (r.col.frames <+: lead ∧
    ∀ p, p <+: col.frames → p <+: lead → p <+: r.col.frames)
  matched : ∀ m, r.matched = some m → Shared lead r.col.frames m
  le : high ≤ r.highest
  counter : ∀ x ∈ r.col.frames, x ∈ col.frames ∨ x.lsn ≤ r.highest
  whole : r.refusal = none → r.matched = (fs.getLast?.map Frame.lsn).or before
  highest : r.highest = high ∨ ∃ f ∈ fs, f.lsn = r.highest

theorem getLast?_cons_or (f : Frame β) (fs : List (Frame β)) (matched : Option ℕ) :
    (fs.getLast?.map Frame.lsn).or (some f.lsn) =
      ((f :: fs).getLast?.map Frame.lsn).or matched := by
  rcases List.eq_nil_or_concat' fs with rfl | ⟨p, x, rfl⟩
  · rfl
  · simp [List.getLast?_cons]

theorem appendBatch_ok (fs : List (Frame β)) {pre : List (Frame β)} {highest : ℕ}
    {matched : Option ℕ} {previous : Option (ℕ × ℕ)} (h : Against s k col lead)
    (hfs : pre ++ fs <+: lead) (hm : ∀ m, matched = some m → Shared lead col.frames m) :
    BatchOk lead col highest matched fs (appendBatch col highest matched previous fs) := by
  -- What is left of the batch is a run of the leader's log, whatever was taken before.
  induction fs generalizing pre col highest matched previous with
  | nil => exact ⟨h.ok, rfl, .inl rfl, hm, le_rfl, fun x hx => .inl hx, fun _ => rfl, .inl rfl⟩
  | cons f fs ih =>
    have hf : pre ++ [f] <+: lead := (List.prefix_append (pre ++ [f]) fs).trans (by simpa using hfs)
    have hrest : (pre ++ [f]) ++ fs <+: lead := by simpa using hfs
    have hstop : ∀ refusal,
        BatchOk lead col highest matched (f :: fs) ⟨col, highest, matched, some refusal⟩ := fun _ =>
      ⟨h.ok, rfl, .inl rfl, hm, le_rfl, fun x hx => .inl hx, fun h => (by simp at h), .inl rfl⟩
    unfold appendBatch
    split_ifs with hchain
    · rcases appendRawFrame_cases h hf with ⟨heq, hin⟩ | ⟨col', heq, hfr, happ, hok, hkeep⟩ |
        ⟨refused, heq, hrefused⟩
      · simp only [heq]
        have hr : BatchOk lead col highest (some f.lsn) fs
            (appendBatch col highest (some f.lsn) (some (f.term, f.lsn)) fs) :=
          ih h hrest fun m hm' => ⟨pre, f, hf, hin, Option.some.inj hm'⟩
        exact { hr with
          whole := fun hnone => (hr.whole hnone).trans (getLast?_cons_or f fs matched)
          highest := hr.highest.imp_right fun ⟨x, hx, hxl⟩ => ⟨x, List.mem_cons_of_mem f hx, hxl⟩ }
      · simp only [heq]
        have hp : col'.frames <+: lead := hfr ▸ hf
        have h' := h.of_isPrefix hok happ hp (hfr ▸ hkeep)
        have hr : BatchOk lead col' (max highest f.lsn) (some f.lsn) fs
            (appendBatch col' (max highest f.lsn) (some f.lsn) (some (f.term, f.lsn)) fs) :=
          ih h' hrest fun m hm' => ⟨pre, f, hf, hfr ▸ List.prefix_rfl, Option.some.inj hm'⟩
        refine ⟨hr.ok, hr.applied.trans happ, .inr ?_, hr.matched, (le_max_left _ _).trans hr.le,
          fun x hx => .inr ?_, fun hnone => (hr.whole hnone).trans (getLast?_cons_or f fs matched),
          ?_⟩
        · rcases hr.log with heq' | ⟨hpre, hkeep'⟩
          · rw [heq']
            exact ⟨hp, hfr ▸ hkeep⟩
          · exact ⟨hpre, fun p hp1 hp2 => hkeep' p (hfr ▸ hkeep p hp1 hp2) hp2⟩
        · rcases hr.counter x hx with hx | hx
          · have hwf := h.leading.wellFormed.of_isPrefix hf
            have := (hwf.le_last (hfr ▸ hx)).2
            exact (le_trans this (le_max_right _ _)).trans hr.le
          · exact hx
        · rcases hr.highest with hh | ⟨x, hx, hxl⟩
          · rcases Nat.le_total highest f.lsn with hle | hle
            · exact .inr ⟨f, List.mem_cons_self, by rw [hh, Nat.max_eq_right hle]⟩
            · exact .inl (by rw [hh, Nat.max_eq_left hle])
          · exact .inr ⟨x, List.mem_cons_of_mem f hx, hxl⟩
      · rcases hrefused with ⟨l, t, rfl⟩ | ⟨l, t, rfl⟩
        · simpa only [heq] using hstop _
        · simpa only [heq] using hstop _
    · exact hstop _

end DewDB.FrameAppend
