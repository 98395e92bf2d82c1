import Mathlib.Algebra.Order.BigOperators.Group.List
import Mathlib.Algebra.Order.Group.Nat
import Mathlib.Data.Prod.Lex
import DewDB.RingLaws

/-!
# What changes hands between two rings

The movement is added up arc by arc, each judged by the hash just inside it. That counts every hash
of the arc but the last, which is a token and may have another owner when several shards have it.
And it tells owners apart by the text of their URLs. Each of the two makes a difference; the
movement is exact where neither does.
-/
namespace DewDB.TokenRing

open Clockwise Endpoint

section Order

theorem textLt_iff (as bs : List Char) : textLt as bs = true ↔ as < bs := by
  induction as generalizing bs with
  | nil =>
    cases bs with
    | nil => simp [textLt]
    | cons b bs => exact ⟨fun _ => .nil, fun _ => rfl⟩
  | cons a as ih =>
    cases bs with
    | nil => exact ⟨fun h => (nomatch h), fun h => (nomatch h)⟩
    | cons b bs =>
      have hcons : a :: as < b :: bs ↔ a < b ∨ a = b ∧ as < bs := List.cons_lex_cons_iff
      have hlt : a < b ↔ a.toNat < b.toNat := Iff.rfl
      rw [hcons, ← ih, hlt]
      simp [textLt]

def Transfer.pair (t : Transfer) : Lex (Url × Url) := toLex (t.source, t.target)

theorem Transfer.pair_eq_iff {t : Transfer} {o : Url × Url} :
    t.pair = toLex o ↔ t.source = o.1 ∧ t.target = o.2 :=
  Prod.ext_iff

theorem pairLt_iff (source target : Url) (t : Transfer) :
    (textLt source t.source || (source == t.source && textLt target t.target)) = true ↔
      toLex (source, target) < t.pair := by
  rw [Transfer.pair, Prod.Lex.toLex_lt_toLex]
  simp [textLt_iff]

end Order

section Shares

variable {source target s t : Url} {width : ℕ} {ts : List Transfer} {u : Transfer}

def share (ts : List Transfer) (s t : Url) : ℕ :=
  (ts.map fun u => if u.source = s ∧ u.target = t then u.width else 0).sum

theorem share_cons : share
    (u :: ts) s t = (if u.source = s ∧ u.target = t then u.width else 0) + share ts s t := by
  rw [share, List.map_cons, List.sum_cons, share]

theorem share_addWidth : share (addWidth source target width ts) s t =
    share ts s t + if source = s ∧ target = t then width else 0 := by
  induction ts with
  | nil => simp [addWidth, share]
  | cons u ts ih =>
    rw [addWidth]
    by_cases hsame : u.source = source ∧ u.target = target
    · obtain ⟨rfl, rfl⟩ := hsame
      rw [if_pos ⟨rfl, rfl⟩, share_cons, share_cons]
      by_cases hpair : u.source = s ∧ u.target = t
      · simp only [if_pos hpair]
        omega
      · simp only [if_neg hpair]
        omega
    · rw [if_neg hsame]
      by_cases hless : (textLt source u.source || (source == u.source && textLt target u.target)) =
        true
      · rw [if_pos hless, share_cons]
        exact Nat.add_comm _ _
      · rw [if_neg hless, share_cons, share_cons, ih]
        exact (Nat.add_assoc _ _ _).symm

theorem pair_of_mem_addWidth (h : u ∈ addWidth source target width ts) :
    u.pair = toLex (source, target) ∨ ∃ u' ∈ ts, u'.pair = u.pair := by
  induction ts with
  | nil => exact .inl (by rw [List.mem_singleton.mp h, Transfer.pair])
  | cons v ts ih =>
    simp only [addWidth] at h
    split_ifs at h with hsame hless
    · rcases List.mem_cons.mp h with rfl | h
      · exact .inr ⟨v, List.mem_cons_self, rfl⟩
      · exact .inr ⟨u, List.mem_cons_of_mem _ h, rfl⟩
    · rcases List.mem_cons.mp h with rfl | h
      · exact .inl rfl
      · exact .inr ⟨u, h, rfl⟩
    · rcases List.mem_cons.mp h with rfl | h
      · exact .inr ⟨u, List.mem_cons_self, rfl⟩
      · rcases ih h with hpair | ⟨u', hu', hpair⟩
        · exact .inl hpair
        · exact .inr ⟨u', List.mem_cons_of_mem _ hu', hpair⟩

theorem pairwise_addWidth (hs : ts.Pairwise fun u v => u.pair < v.pair) :
    (addWidth source target width ts).Pairwise fun u v => u.pair < v.pair := by
  induction ts with
  | nil => exact List.pairwise_singleton _ _
  | cons v ts ih =>
    obtain ⟨hv, hts⟩ := List.pairwise_cons.mp hs
    simp only [addWidth]
    split_ifs with hsame hless
    · exact List.pairwise_cons.mpr ⟨hv, hts⟩
    · rw [pairLt_iff] at hless
      refine List.pairwise_cons.mpr ⟨fun u hu => ?_, hs⟩
      rcases List.mem_cons.mp hu with rfl | hu
      · exact hless
      · exact hless.trans (hv u hu)
    · rw [pairLt_iff] at hless
      refine List.pairwise_cons.mpr ⟨fun u hu => ?_, ih hts⟩
      rcases pair_of_mem_addWidth hu with hpair | ⟨u', hu', hpair⟩
      · rw [hpair]
        refine lt_of_le_of_ne (not_lt.mp hless) fun heq => hsame ?_
        exact Prod.mk.inj (toLex.injective heq)
      · exact hpair ▸ hv u' hu'

theorem share_eq_zero (h : ∀ u ∈ ts, u.pair ≠ toLex (s, t)) : share ts s t = 0 := by
  induction ts with
  | nil => rfl
  | cons v ts ih =>
    have hne : ¬(v.source = s ∧ v.target = t) := by
      rintro ⟨rfl, rfl⟩
      exact h v List.mem_cons_self rfl
    rw [share_cons, if_neg hne, ih fun u hu => h u (List.mem_cons_of_mem _ hu)]

theorem share_eq_width (hs : ts.Pairwise fun u v => u.pair < v.pair) (hu : u ∈ ts) :
    share ts u.source u.target = u.width := by
  induction ts with
  | nil => cases hu
  | cons v ts ih =>
    obtain ⟨hv, hts⟩ := List.pairwise_cons.mp hs
    rw [share_cons]
    rcases List.mem_cons.mp hu with rfl | hu
    · rw [if_pos ⟨rfl, rfl⟩, share_eq_zero fun w hw => (hv w hw).ne', Nat.add_zero]
    · have hne : ¬(v.source = u.source ∧ v.target = u.target) := by
        rintro ⟨hsource, htarget⟩
        have hlt := hv u hu
        rw [Transfer.pair, Transfer.pair, hsource, htarget] at hlt
        exact lt_irrefl _ hlt
      rw [if_neg hne, Nat.zero_add]
      exact ih hts hu

theorem exists_addWidth (source target : Url) (width : ℕ) (ts : List Transfer) :
    ∃ u ∈ addWidth source target width ts, u.pair = toLex (source, target) := by
  induction ts with
  | nil => exact ⟨_, List.mem_cons_self, rfl⟩
  | cons v ts ih =>
    simp only [addWidth]
    split_ifs with hsame hless
    · exact ⟨_, List.mem_cons_self, by rw [Transfer.pair, hsame.1, hsame.2]⟩
    · exact ⟨_, List.mem_cons_self, rfl⟩
    · obtain ⟨u, hu, hpair⟩ := ih
      exact ⟨u, List.mem_cons_of_mem _ hu, hpair⟩

theorem exists_addWidth_of_mem (hu : u ∈ ts) :
    ∃ u' ∈ addWidth source target width ts, u'.pair = u.pair := by
  induction ts with
  | nil => cases hu
  | cons v ts ih =>
    simp only [addWidth]
    split_ifs with hsame hless
    · rcases List.mem_cons.mp hu with rfl | hu
      · exact ⟨_, List.mem_cons_self, rfl⟩
      · exact ⟨u, List.mem_cons_of_mem _ hu, rfl⟩
    · exact ⟨u, List.mem_cons_of_mem _ hu, rfl⟩
    · rcases List.mem_cons.mp hu with rfl | hu
      · exact ⟨u, List.mem_cons_self, rfl⟩
      · obtain ⟨u', hu', hpair⟩ := ih hu
        exact ⟨u', List.mem_cons_of_mem _ hu', hpair⟩

theorem sum_addWidth (source target : Url) (width : ℕ) (ts : List Transfer) :
    ((addWidth source target width ts).map Transfer.width).sum =
      (ts.map Transfer.width).sum + width := by
  induction ts with
  | nil => simp [addWidth]
  | cons v ts ih =>
    simp only [addWidth]
    split_ifs
    · simp only [List.map_cons, List.sum_cons]
      omega
    · simp only [List.map_cons, List.sum_cons]
      omega
    · simp only [List.map_cons, List.sum_cons, ih]
      omega

end Shares

section Books

variable {before after : BuiltRing} {arc : ℕ × ℕ} {done : List (ℕ × ℕ)} {m : Movement}

def probe (arc : ℕ × ℕ) : ℕ := (arc.1 + 1) % ringSize

/-- The owners of a hash in the two rings, as their URLs are written. -/
def urls (before after : BuiltRing) (hash : ℕ) : Url × Url :=
  (before.ownerUrl hash, after.ownerUrl hash)

structure Booked (before after : BuiltRing) (done : List (ℕ × ℕ)) (m : Movement) : Prop where
  sorted : m.transfers.Pairwise fun u v => u.pair < v.pair
  moved : m.moved = (done.map fun a =>
    if (urls before after (probe a)).1 = (urls before after (probe a)).2 then 0
      else width ringSize a).sum
  total : (m.transfers.map Transfer.width).sum = m.moved
  share : ∀ s t, s ≠ t → share m.transfers s t =
    (done.map fun a => if urls before after (probe a) = (s, t) then width ringSize a else 0).sum
  origin : ∀ u ∈ m.transfers, u.source ≠ u.target ∧ ∃ a ∈ done,
    u.pair = toLex (urls before after (probe a))
  listed : ∀ a ∈ done, (urls before after (probe a)).1 ≠ (urls before after (probe a)).2 →
    ∃ u ∈ m.transfers, u.pair = toLex (urls before after (probe a))

theorem moveArc_eq (before after : BuiltRing) (m : Movement) (arc : ℕ × ℕ) :
    moveArc before after m arc =
      if (urls before after (probe arc)).1 = (urls before after (probe arc)).2 then m
      else ⟨m.moved + width ringSize arc, addWidth (urls before after (probe arc)).1
        (urls before after (probe arc)).2 (width ringSize arc) m.transfers⟩ := rfl

theorem Booked.moveArc (h : Booked before after done m) (arc : ℕ × ℕ) :
    Booked before after (done ++ [arc]) (moveArc before after m arc) := by
  rw [moveArc_eq]
  split_ifs with hsame
  · refine ⟨h.sorted, ?_, h.total, ?_, ?_, ?_⟩
    · simp [h.moved, hsame]
    · intro s t hst
      have hne : urls before after (probe arc) ≠ (s, t) :=
        fun heq => hst (by rw [heq] at hsame; exact hsame)
      simp [h.share s t hst, hne]
    · intro u hu
      obtain ⟨hne, a, ha, heq⟩ := h.origin u hu
      exact ⟨hne, a, List.mem_append_left _ ha, heq⟩
    · intro a ha hne
      rcases List.mem_append.mp ha with ha | ha
      · exact h.listed a ha hne
      · obtain rfl := List.mem_singleton.mp ha
        exact absurd hsame hne
  · refine ⟨pairwise_addWidth h.sorted, ?_, ?_, ?_, ?_, ?_⟩
    · simp [h.moved, hsame]
    · rw [sum_addWidth, h.total]
    · intro s t hst
      rw [share_addWidth, h.share s t hst]
      simp [Prod.ext_iff]
    · intro u hu
      rcases pair_of_mem_addWidth hu with hpair | ⟨u', hu', hpair⟩
      · obtain ⟨hsource, htarget⟩ := Transfer.pair_eq_iff.mp hpair
        exact ⟨fun heq => hsame (hsource.symm.trans (heq.trans htarget)), arc, by simp, hpair⟩
      · obtain ⟨hne, a, ha, heq⟩ := h.origin u' hu'
        obtain ⟨hsource, htarget⟩ := Transfer.pair_eq_iff.mp hpair
        exact ⟨fun h => hne (hsource.trans (h.trans htarget.symm)), a,
          List.mem_append_left _ ha, hpair ▸ heq⟩
    · intro a ha hne
      rcases List.mem_append.mp ha with ha | ha
      · obtain ⟨u, hu, hpair⟩ := h.listed a ha hne
        obtain ⟨u', hu', heq⟩ := exists_addWidth_of_mem hu
        exact ⟨u', hu', heq.trans hpair⟩
      · obtain rfl := List.mem_singleton.mp ha
        exact exists_addWidth _ _ _ _

theorem Booked.foldl (h : Booked before after done m) (as : List (ℕ × ℕ)) :
    Booked before after (done ++ as) (as.foldl (TokenRing.moveArc before after) m) := by
  induction as generalizing done m with
  | nil => simpa using h
  | cons a as ih => simpa using ih (h.moveArc a)

def mergedBoundaries (before after : BuiltRing) : List ℕ :=
  ((before.tokens ++ after.tokens).map Prod.fst).insertionSort (· ≤ ·) |>.dedup

def mergedArcs (before after : BuiltRing) : List (ℕ × ℕ) := arcs (mergedBoundaries before after)

theorem booked_keyspaceMovement (before after : BuiltRing) : ∃ m : Movement,
    Booked before after (mergedArcs before after) m ∧
      (keyspaceMovement before after).moved = m.moved ∧
      (keyspaceMovement before after).transfers.Perm m.transfers := by
  have hnil : Booked before after [] ⟨0, []⟩ :=
    ⟨.nil, rfl, rfl, fun _ _ _ => rfl, fun _ hu => (nomatch hu), fun _ ha => (nomatch ha)⟩
  exact ⟨_, hnil.foldl _, rfl, List.perm_insertionSort _ _⟩

end Books

section Inside

variable {xxh64 : Xxh64} {before after ring : HashRing} {arc : ℕ × ℕ} {h : ℕ}

theorem mergedBoundaries_pairwise (before after : BuiltRing) :
    (mergedBoundaries before after).Pairwise (· < ·) := by
  have hle := (List.pairwise_insertionSort (· ≤ ·)
    ((before.tokens ++ after.tokens).map Prod.fst)).sublist (List.dedup_sublist _)
  exact (hle.and (List.nodup_dedup _)).imp fun h => lt_of_le_of_ne h.1 h.2

theorem mergedArcs_eq (before after : BuiltRing) : mergedArcs before after = around
    (mergedBoundaries before after) :=
  zip_rotate_eq_around _

theorem mem_mergedBoundaries {before after : BuiltRing} {b : ℕ} :
    b ∈ mergedBoundaries before after ↔ (∃ t ∈ before.tokens, t.1 = b) ∨
      ∃ t ∈ after.tokens, t.1 = b := by
  simp [mergedBoundaries]

theorem lt_of_mem_mergedBoundaries {b : ℕ}
    (hb : b ∈ mergedBoundaries (before.build xxh64) (after.build xxh64)) : b < ringSize := by
  have hpos : 0 < ringSize := by simp [ringSize]
  rcases mem_mergedBoundaries.mp hb with ⟨t, ht, rfl⟩ | ⟨t, ht, rfl⟩
  · obtain ⟨i, s, -, v, -, rfl⟩ := mem_build_tokens.mp ht
    exact Nat.mod_lt _ hpos
  · obtain ⟨i, s, -, v, -, rfl⟩ := mem_build_tokens.mp ht
    exact Nat.mod_lt _ hpos

theorem probe_eq (hstart : arc.1 < ringSize) :
    probe arc = if arc.1 + 1 = ringSize then 0 else arc.1 + 1 := by
  rw [probe]
  split_ifs with htop
  · rw [htop, Nat.mod_self]
  · exact Nat.mod_eq_of_lt (by omega)

theorem probe_mem (hstart : arc.1 < ringSize) (hend : arc.2 < ringSize) : InArc arc
    (probe arc) := by
  rw [probe_eq hstart]
  by_cases htop : arc.1 + 1 = ringSize
  · rw [if_pos htop, InArc, if_neg (by omega)]
    exact .inr (Nat.zero_le _)
  · rw [if_neg htop]
    unfold InArc
    split_ifs <;> omega

theorem probe_ne (hh : h < ringSize) (hin : InArc arc h) (hne : h ≠ arc.2)
    (hstart : arc.1 < ringSize) : probe arc ≠ arc.2 := by
  rw [probe_eq hstart]
  unfold InArc at hin
  split_ifs at * <;> omega

theorem owner_inside (hgap : ∀ t ∈ (ring.build xxh64).tokens, InArc arc t.1 → t.1 = arc.2)
    (hh : h < ringSize)
    (hin : InArc arc h) (hne : h ≠ arc.2) (hstart : arc.1 < ringSize) (hend : arc.2 < ringSize) :
    (ring.build xxh64).ownerUrl h = (ring.build xxh64).ownerUrl (probe arc) := by
  have hprobe := probe_mem hstart hend
  have hpne := probe_ne hh hin hne hstart
  rw [BuiltRing.ownerUrl, BuiltRing.ownerUrl, BuiltRing.owner_eq tokens_pairwise,
    BuiltRing.owner_eq tokens_pairwise,
    (apart_of_free hgap hin (free_of_inside hgap hin hne) hprobe
      (free_of_inside hgap hprobe hpne)).next_eq]

theorem urls_inside (harc : arc ∈ mergedArcs (before.build xxh64) (after.build xxh64))
    (hh : h < ringSize) (hin : InArc arc h) (hne : h ≠ arc.2) :
    urls (before.build xxh64) (after.build xxh64) h = urls (before.build xxh64) (after.build xxh64)
      (probe arc) := by
  rw [mergedArcs_eq] at harc
  have hstart := lt_of_mem_mergedBoundaries (mem_of_around harc).1
  have hend := lt_of_mem_mergedBoundaries (mem_of_around harc).2
  have hgap : ∀ b ∈ mergedBoundaries (before.build xxh64) (after.build xxh64),
    InArc arc b → b = arc.2 :=
    fun b hb => eq_end_of_mem_around (mergedBoundaries_pairwise _ _) harc hb
  have hbefore := owner_inside (fun t ht =>
    hgap t.1 (mem_mergedBoundaries.mpr (.inl ⟨t, ht, rfl⟩))) hh hin hne hstart hend
  have hafter := owner_inside (fun t ht =>
    hgap t.1 (mem_mergedBoundaries.mpr (.inr ⟨t, ht, rfl⟩))) hh hin hne hstart hend
  rw [urls, urls, hbefore, hafter]

end Inside

section Weigh

variable {xxh64 : Xxh64} {before after : HashRing}

theorem sum_width_split (as : List (ℕ × ℕ)) (w : ℕ × ℕ → ℕ) (hw : ∀ a ∈ as, 0 < w a)
    (p : ℕ × ℕ → Bool) :
    (as.map fun a => if p a then w a else 0).sum = (as.map fun a => if p a then w a - 1
      else 0).sum + as.countP p := by
  induction as with
  | nil => rfl
  | cons a as ih =>
    have ha := hw a List.mem_cons_self
    rw [List.map_cons, List.sum_cons, List.map_cons, List.sum_cons, List.countP_cons,
      ih fun b hb => hw b (List.mem_cons_of_mem _ hb)]
    split_ifs <;> omega

theorem sum_add_countP (as : List (ℕ × ℕ)) (f : ℕ × ℕ → ℕ) (p : ℕ × ℕ → Bool) :
    (as.map fun a => f a + if p a then 1 else 0).sum = (as.map f).sum + as.countP p := by
  induction as with
  | nil => rfl
  | cons a as ih =>
    rw [List.map_cons, List.sum_cons, List.map_cons, List.sum_cons, List.countP_cons, ih]
    omega

theorem width_pos {a : ℕ × ℕ} (ha : a.1 < ringSize) : 0 < width ringSize a := by
  unfold width
  split_ifs <;> omega

theorem count_urls (P : Url × Url → Prop) [DecidablePred P]
    (hne : mergedBoundaries (before.build xxh64) (after.build xxh64) ≠ []) :
    Nat.count (fun h => P (urls (before.build xxh64) (after.build xxh64) h)) ringSize =
      ((mergedArcs (before.build xxh64) (after.build xxh64)).map fun a =>
        (if P (urls (before.build xxh64) (after.build xxh64) (probe a)) then width ringSize a - 1
          else 0)).sum +
      (mergedArcs (before.build xxh64) (after.build xxh64)).countP fun a =>
        P (urls (before.build xxh64) (after.build xxh64) a.2) := by
  rw [← sum_count_around (mergedBoundaries_pairwise _ _) hne, ← sum_add_countP, mergedArcs_eq]
  apply congrArg List.sum
  apply List.map_congr_left
  intro a ha
  have hstart := lt_of_mem_mergedBoundaries (mem_of_around ha).1
  have hend := lt_of_mem_mergedBoundaries (mem_of_around ha).2
  rw [← mergedArcs_eq] at ha
  rw [count_arc hstart hend fun h hh hin hne => by rw [urls_inside ha hh hin hne]]
  simp only [decide_eq_true_eq]

/-- The width of the arcs whose insides have a property is the number of hashes with it, if as many
ends have it. -/
theorem weight_eq_count_iff (P : Url × Url → Prop) [DecidablePred P]
    (hne : mergedBoundaries (before.build xxh64) (after.build xxh64) ≠ []) :
    ((mergedArcs (before.build xxh64) (after.build xxh64)).map fun a =>
        if P (urls (before.build xxh64) (after.build xxh64) (probe a))
          then width ringSize a else 0).sum =
      Nat.count (fun h => P (urls (before.build xxh64) (after.build xxh64) h)) ringSize ↔
    (mergedArcs (before.build xxh64) (after.build xxh64)).countP (fun a =>
        P (urls (before.build xxh64) (after.build xxh64) (probe a))) =
      (mergedArcs (before.build xxh64) (after.build xxh64)).countP fun a =>
        P (urls (before.build xxh64) (after.build xxh64) a.2) := by
  have hpos : ∀ a ∈ mergedArcs (before.build xxh64) (after.build xxh64), 0 < width ringSize a := by
    intro a ha
    rw [mergedArcs_eq] at ha
    exact width_pos (lt_of_mem_mergedBoundaries (mem_of_around ha).1)
  have hsplit := sum_width_split _ _ hpos fun a =>
    P (urls (before.build xxh64) (after.build xxh64) (probe a))
  simp only [decide_eq_true_eq] at hsplit
  rw [count_urls P hne, hsplit]
  omega

end Weigh

section Exactness

variable {xxh64 : Xxh64} {before after ring : HashRing}

structure Movement.Exact (before after : BuiltRing) (m : Movement) : Prop where
  moved : m.moved = Nat.count (fun h => sameEndpoint (before.ownerUrl h) (after.ownerUrl h) =
    false) ringSize
  total : (m.transfers.map Transfer.width).sum = m.moved
  pairs : ∀ t ∈ m.transfers, t.width = Nat.count (fun h =>
    sameEndpoint (before.ownerUrl h) (after.ownerUrl h) = false ∧
      sameEndpoint (before.ownerUrl h) t.source = true ∧
      sameEndpoint (after.ownerUrl h) t.target = true) ringSize
  unmoved : m.moved = 0 ↔ ∀ h < ringSize, sameEndpoint (before.ownerUrl h) (after.ownerUrl h) = true

/-- A node that keeps the inside of an arc is written alike in both rings. -/
def SpelledAlike (before after : BuiltRing) : Prop :=
  ∀ a ∈ mergedArcs before after, sameEndpoint (before.ownerUrl (probe a))
    (after.ownerUrl (probe a)) = true → before.ownerUrl (probe a) = after.ownerUrl (probe a)

def endpoints (o : Url × Url) : Url × Url := (nodeKey o.1, nodeKey o.2)

def movesAt (before after : BuiltRing) (hashes : List ℕ) : List (Url × Url) :=
  (hashes.map fun h => endpoints (urls before after h)).filter fun o => o.1 ≠ o.2

/-- The ends of the arcs move between the same endpoints as their insides, up to order. -/
def EndsMatch (before after : BuiltRing) : Prop :=
  (movesAt before after ((mergedArcs before after).map probe)).Perm
    (movesAt before after ((mergedArcs before after).map Prod.snd))

theorem sameEndpoint_eq_false_iff {a b : Url} :
    sameEndpoint a b = false ↔ nodeKey a ≠ nodeKey b := by
  rw [← Bool.not_eq_true, sameEndpoint_iff]

theorem length_movesAt (before after : BuiltRing) (as : List (ℕ × ℕ)) (f : ℕ × ℕ → ℕ) :
    (movesAt before after (as.map f)).length = as.countP fun a =>
      (endpoints (urls before after (f a))).1 ≠ (endpoints (urls before after (f a))).2 := by
  rw [movesAt, List.map_map, ← List.countP_eq_length_filter, List.countP_map]
  rfl

theorem count_movesAt (before after : BuiltRing) (as : List (ℕ × ℕ)) (f : ℕ × ℕ → ℕ) {x : Url × Url}
    (hx : x.1 ≠ x.2) : (movesAt before after (as.map f)).count x =
      as.countP fun a => endpoints (urls before after (f a)) = x := by
  rw [movesAt, List.map_map, List.count_filter (by simpa using hx), List.count_eq_countP,
    List.countP_map]
  apply List.countP_congr
  simp

theorem mem_movesAt {before after : BuiltRing} {as : List (ℕ × ℕ)} {f : ℕ × ℕ → ℕ} {x : Url × Url} :
    x ∈ movesAt before after (as.map f) ↔ (∃ a ∈ as, endpoints (urls before after (f a)) = x) ∧
      x.1 ≠ x.2 := by
  simp [movesAt]

theorem ownerUrl_eq_of_nodeKey (hvalid : ring.validate = .ok ()) {h h' : ℕ}
    (hkey : nodeKey ((ring.build xxh64).ownerUrl h) = nodeKey ((ring.build xxh64).ownerUrl h')) :
    (ring.build xxh64).ownerUrl h = (ring.build xxh64).ownerUrl h' := by
  obtain ⟨hshards, hvnodes⟩ := nonempty_of_validate hvalid
  obtain ⟨s, hs, hown⟩ : ∃ s ∈ ring.shards, (ring.build xxh64).owner h = some s :=
    exists_owner_build hshards hvnodes h
  obtain ⟨t, ht, hown'⟩ : ∃ t ∈ ring.shards, (ring.build xxh64).owner h' = some t :=
    exists_owner_build hshards hvnodes h'
  rw [BuiltRing.ownerUrl, BuiltRing.ownerUrl, hown, hown'] at hkey ⊢
  rw [List.inj_on_of_nodup_map (nodup_of_validate hvalid) hs ht hkey]

theorem mergedBoundaries_ne_nil (xxh64 : Xxh64) (after : HashRing)
    (hvalid : before.validate = .ok ()) :
    mergedBoundaries (before.build xxh64) (after.build xxh64) ≠ [] := by
  obtain ⟨hshards, hvnodes⟩ := nonempty_of_validate hvalid
  obtain ⟨s, rest, hs⟩ := List.exists_cons_of_ne_nil hshards
  have hmem : (vnodeToken xxh64 s.nodeUrl 0, 0) ∈ (before.build xxh64).tokens :=
    mem_build_tokens.mpr ⟨0, s, by simp [hs], 0, Nat.pos_of_ne_zero hvnodes, rfl⟩
  exact List.ne_nil_of_mem (mem_mergedBoundaries.mpr (.inl ⟨_, hmem, rfl⟩))

theorem urls_eq_iff (hbefore : before.validate = .ok ())
    (hafter : after.validate = .ok ()) {h h' : ℕ} :
    endpoints (urls (before.build xxh64) (after.build xxh64) h) =
        endpoints (urls (before.build xxh64) (after.build xxh64) h') ↔
      urls (before.build xxh64) (after.build xxh64) h = urls (before.build xxh64)
        (after.build xxh64) h' := by
  constructor
  · intro heq
    obtain ⟨hfst, hsnd⟩ := Prod.mk.inj heq
    exact Prod.ext (ownerUrl_eq_of_nodeKey hbefore hfst) (ownerUrl_eq_of_nodeKey hafter hsnd)
  · exact congrArg endpoints

theorem share_eq_count_iff (hbefore : before.validate = .ok ()) (hafter : after.validate = .ok ())
    {m : Movement}
    (hm : Booked (before.build xxh64) (after.build xxh64)
      (mergedArcs (before.build xxh64) (after.build xxh64)) m)
    {u : Transfer} (hu : u ∈ m.transfers) {a : ℕ × ℕ}
    (hpair : u.pair = toLex (urls (before.build xxh64) (after.build xxh64) (probe a)))
    (hne : nodeKey u.source ≠ nodeKey u.target) :
    u.width = Nat.count (fun h =>
        sameEndpoint ((before.build xxh64).ownerUrl h) ((after.build xxh64).ownerUrl h) = false ∧
          sameEndpoint ((before.build xxh64).ownerUrl h) u.source = true ∧
          sameEndpoint ((after.build xxh64).ownerUrl h) u.target = true) ringSize ↔
      (mergedArcs (before.build xxh64) (after.build xxh64)).countP (fun b =>
          endpoints (urls (before.build xxh64) (after.build xxh64) (probe b)) = endpoints
            (u.source, u.target)) =
        (mergedArcs (before.build xxh64) (after.build xxh64)).countP fun b =>
          endpoints (urls (before.build xxh64) (after.build xxh64) b.2) = endpoints
            (u.source, u.target) := by
  have hpairs : (u.source, u.target) = urls (before.build xxh64) (after.build xxh64) (probe a) :=
    hpair
  have hweight := weight_eq_count_iff (fun o => endpoints o = endpoints (u.source, u.target))
    (mergedBoundaries_ne_nil xxh64 after hbefore)
  have hshare : u.width = ((mergedArcs (before.build xxh64) (after.build xxh64)).map fun b =>
      if endpoints (urls (before.build xxh64) (after.build xxh64) (probe b)) = endpoints
        (u.source, u.target) then
        width ringSize b else 0).sum := by
    rw [← share_eq_width hm.sorted hu, hm.share _ _ fun heq => hne (congrArg nodeKey heq), hpairs]
    simp only [urls_eq_iff hbefore hafter]
  have hcount : ∀ h, endpoints (urls (before.build xxh64) (after.build xxh64) h) = endpoints
    (u.source, u.target) ↔
      sameEndpoint ((before.build xxh64).ownerUrl h) ((after.build xxh64).ownerUrl h) = false ∧
        sameEndpoint ((before.build xxh64).ownerUrl h) u.source = true ∧
        sameEndpoint ((after.build xxh64).ownerUrl h) u.target = true := by
    intro h
    rw [sameEndpoint_eq_false_iff, sameEndpoint_iff, sameEndpoint_iff, endpoints, endpoints,
      Prod.mk.injEq]
    constructor
    · rintro ⟨hsource, htarget⟩
      exact ⟨fun heq => hne (hsource.symm.trans (heq.trans htarget)), hsource, htarget⟩
    · rintro ⟨-, hsource, htarget⟩
      exact ⟨hsource, htarget⟩
  rw [hshare, ← hweight]
  simp only [hcount]

theorem width_pos_of_mem {a : ℕ × ℕ}
    (ha : a ∈ mergedArcs (before.build xxh64) (after.build xxh64)) : 0 < width ringSize a := by
  rw [mergedArcs_eq] at ha
  exact width_pos (lt_of_mem_mergedBoundaries (mem_of_around ha).1)

theorem Booked.width_pos {m : Movement}
    (hm : Booked (before.build xxh64) (after.build xxh64)
      (mergedArcs (before.build xxh64) (after.build xxh64)) m)
    {u : Transfer} (hu : u ∈ m.transfers) : 0 < u.width := by
  obtain ⟨hne, a, ha, hpair⟩ := hm.origin u hu
  have hpairs : urls (before.build xxh64) (after.build xxh64) (probe a) = (u.source, u.target) :=
    hpair.symm
  rw [← share_eq_width hm.sorted hu, hm.share _ _ hne]
  apply (width_pos_of_mem ha).trans_le
  exact List.le_sum_of_mem (List.mem_map.mpr ⟨a, ha, if_pos hpairs⟩)

theorem spelledAlike_of_exact {m : Movement} {ts : List Transfer} (hts : ts.Perm m.transfers)
    (hm : Booked (before.build xxh64) (after.build xxh64)
      (mergedArcs (before.build xxh64) (after.build xxh64)) m)
    (hpairs : ∀ t ∈ ts, t.width = Nat.count (fun h =>
      sameEndpoint ((before.build xxh64).ownerUrl h) ((after.build xxh64).ownerUrl h) = false ∧
        sameEndpoint ((before.build xxh64).ownerUrl h) t.source = true ∧
        sameEndpoint ((after.build xxh64).ownerUrl h) t.target = true) ringSize) :
    SpelledAlike (before.build xxh64) (after.build xxh64) := by
  intro a ha hsame
  by_contra hne
  obtain ⟨u, hu, hpair⟩ := hm.listed a ha hne
  obtain ⟨hsource, htarget⟩ := Transfer.pair_eq_iff.mp hpair
  have hzero : u.width = 0 := by
    rw [hpairs u (hts.mem_iff.mpr hu), Nat.count_iff_forall_not]
    rintro h - ⟨hdiffer, hbefore, hafter⟩
    have hends : sameEndpoint u.source u.target = true := hsource ▸ htarget ▸ hsame
    have hkeep := sameEndpoint_trans (sameEndpoint_trans hbefore hends)
      (sameEndpoint_comm _ _ ▸ hafter)
    rw [hkeep] at hdiffer
    cases hdiffer
  have := hm.width_pos hu
  omega

theorem moved_eq_count_iff (hbefore : before.validate = .ok ()) {m : Movement}
    (hm : Booked (before.build xxh64) (after.build xxh64)
      (mergedArcs (before.build xxh64) (after.build xxh64)) m)
    (hspelled : SpelledAlike (before.build xxh64) (after.build xxh64)) :
    m.moved = Nat.count (fun h =>
        sameEndpoint ((before.build xxh64).ownerUrl h) ((after.build xxh64).ownerUrl h) =
          false) ringSize ↔
      (movesAt (before.build xxh64) (after.build xxh64)
          ((mergedArcs (before.build xxh64) (after.build xxh64)).map probe)).length =
        (movesAt (before.build xxh64) (after.build xxh64)
          ((mergedArcs (before.build xxh64) (after.build xxh64)).map Prod.snd)).length := by
  have hweight := weight_eq_count_iff (fun o => (endpoints o).1 ≠ (endpoints o).2)
    (mergedBoundaries_ne_nil xxh64 after hbefore)
  have hmoved : m.moved = ((mergedArcs (before.build xxh64) (after.build xxh64)).map fun a =>
      if (endpoints (urls (before.build xxh64) (after.build xxh64) (probe a))).1 ≠
        (endpoints (urls (before.build xxh64) (after.build xxh64) (probe a))).2
          then width ringSize a else 0).sum := by
    rw [hm.moved]
    apply congrArg List.sum
    apply List.map_congr_left
    intro a ha
    by_cases hsame : (urls (before.build xxh64) (after.build xxh64) (probe a)).1 =
        (urls (before.build xxh64) (after.build xxh64) (probe a)).2
    · have hkeep : ¬(endpoints (urls (before.build xxh64) (after.build xxh64) (probe a))).1 ≠
          (endpoints (urls (before.build xxh64) (after.build xxh64) (probe a))).2 :=
        not_not.mpr (congrArg nodeKey hsame)
      rw [if_pos hsame, if_neg hkeep]
    · have hdiffer : (endpoints (urls (before.build xxh64) (after.build xxh64) (probe a))).1 ≠
          (endpoints (urls (before.build xxh64) (after.build xxh64) (probe a))).2 :=
        fun heq => hsame (hspelled a ha (sameEndpoint_iff.mpr heq))
      rw [if_neg hsame, if_pos hdiffer]
  rw [hmoved, length_movesAt, length_movesAt, ← hweight]
  simp only [sameEndpoint_eq_false_iff]
  rfl

theorem count_movesAt_eq_iff (hbefore : before.validate = .ok ()) (hafter : after.validate = .ok ())
    {m : Movement}
    (hm : Booked (before.build xxh64) (after.build xxh64)
      (mergedArcs (before.build xxh64) (after.build xxh64)) m)
    {u : Transfer} (hu : u ∈ m.transfers) {a : ℕ × ℕ}
    (hpair : u.pair = toLex (urls (before.build xxh64) (after.build xxh64) (probe a)))
    (hne : nodeKey u.source ≠ nodeKey u.target) :
    u.width = Nat.count (fun h =>
        sameEndpoint ((before.build xxh64).ownerUrl h) ((after.build xxh64).ownerUrl h) = false ∧
          sameEndpoint ((before.build xxh64).ownerUrl h) u.source = true ∧
          sameEndpoint ((after.build xxh64).ownerUrl h) u.target = true) ringSize ↔
      (movesAt (before.build xxh64) (after.build xxh64)
          ((mergedArcs (before.build xxh64) (after.build xxh64)).map probe)).count
            (endpoints (u.source, u.target)) =
        (movesAt (before.build xxh64) (after.build xxh64)
          ((mergedArcs (before.build xxh64) (after.build xxh64)).map Prod.snd)).count
            (endpoints (u.source, u.target)) := by
  rw [share_eq_count_iff hbefore hafter hm hu hpair hne, count_movesAt _ _ _ _ hne,
    count_movesAt _ _ _ _ hne]

theorem endsMatch_of_exact (hbefore : before.validate = .ok ()) (hafter : after.validate = .ok ())
    {m : Movement}
    (hm : Booked (before.build xxh64) (after.build xxh64)
      (mergedArcs (before.build xxh64) (after.build xxh64)) m)
    (hspelled : SpelledAlike (before.build xxh64) (after.build xxh64))
    (hmoved : m.moved = Nat.count (fun h =>
      sameEndpoint ((before.build xxh64).ownerUrl h) ((after.build xxh64).ownerUrl h) =
        false) ringSize)
    (hpairs : ∀ t ∈ m.transfers, t.width = Nat.count (fun h =>
      sameEndpoint ((before.build xxh64).ownerUrl h) ((after.build xxh64).ownerUrl h) = false ∧
        sameEndpoint ((before.build xxh64).ownerUrl h) t.source = true ∧
        sameEndpoint ((after.build xxh64).ownerUrl h) t.target = true) ringSize) :
    EndsMatch (before.build xxh64) (after.build xxh64) := by
  have hlength := (moved_eq_count_iff hbefore hm hspelled).mp hmoved
  refine List.Subperm.perm_of_length_le (List.subperm_ext_iff.mpr fun x hx => ?_) hlength.ge
  obtain ⟨⟨a, ha, rfl⟩, hne⟩ := mem_movesAt.mp hx
  obtain ⟨u, hu, hpair⟩ := hm.listed a ha fun heq => hne (congrArg nodeKey heq)
  have hpairs' : (u.source, u.target) = urls (before.build xxh64) (after.build xxh64) (probe a) :=
    hpair
  rw [← hpairs'] at hne ⊢
  exact ((count_movesAt_eq_iff hbefore hafter hm hu hpair hne).mp (hpairs u hu)).le

/-- The movement is exact just where nodes are written alike and the ends of the arcs match their
insides. -/
theorem exact_iff (hbefore : before.validate = .ok ()) (hafter : after.validate = .ok ()) :
    (keyspaceMovement (before.build xxh64) (after.build xxh64)).Exact (before.build xxh64)
    (after.build xxh64) ↔
      SpelledAlike (before.build xxh64) (after.build xxh64) ∧
        EndsMatch (before.build xxh64) (after.build xxh64) := by
  obtain ⟨m, hm, hmoved, hperm⟩ := booked_keyspaceMovement (before.build xxh64) (after.build xxh64)
  constructor
  · intro hexact
    have hspelled := spelledAlike_of_exact hperm hm hexact.pairs
    exact ⟨hspelled, endsMatch_of_exact hbefore hafter hm hspelled (hmoved ▸ hexact.moved)
      fun t ht => hexact.pairs t (hperm.mem_iff.mpr ht)⟩
  · rintro ⟨hspelled, hends⟩
    have hcount := (moved_eq_count_iff hbefore hm hspelled).mpr hends.length_eq
    refine ⟨hmoved ▸ hcount, ?_, fun t ht => ?_, ?_⟩
    · rw [hmoved, ← hm.total]
      exact (hperm.map _).sum_eq
    · have htm := hperm.mem_iff.mp ht
      obtain ⟨hne, a, ha, hpair⟩ := hm.origin t htm
      obtain ⟨hsource, htarget⟩ := Transfer.pair_eq_iff.mp hpair
      have hkeys : nodeKey t.source ≠ nodeKey t.target := by
        intro heq
        rw [hsource, htarget] at hne heq
        exact hne (hspelled a ha (sameEndpoint_iff.mpr heq))
      exact (count_movesAt_eq_iff hbefore hafter hm htm hpair hkeys).mpr (hends.count_eq _)
    · rw [hmoved, hcount, Nat.count_iff_forall_not]
      simp only [Bool.not_eq_false]

/-- Nodes that are written alike in the shard lists are written alike on the arcs. -/
theorem spelledAlike_of_shards (hbefore : before.validate = .ok ())
    (hafter : after.validate = .ok ())
    (hurls : ∀ s ∈ before.shards, ∀ t ∈ after.shards, nodeKey s.nodeUrl = nodeKey t.nodeUrl →
      s.nodeUrl = t.nodeUrl) :
    SpelledAlike (before.build xxh64) (after.build xxh64) := by
  intro a _ hsame
  obtain ⟨hshards, hvnodes⟩ := nonempty_of_validate hbefore
  obtain ⟨s, hs, hown⟩ : ∃ s ∈ before.shards, (before.build xxh64).owner (probe a) = some s :=
    exists_owner_build hshards hvnodes _
  obtain ⟨hshards', hvnodes'⟩ := nonempty_of_validate hafter
  obtain ⟨t, ht, hown'⟩ : ∃ t ∈ after.shards, (after.build xxh64).owner (probe a) = some t :=
    exists_owner_build hshards' hvnodes' _
  rw [BuiltRing.ownerUrl, BuiltRing.ownerUrl, hown, hown'] at hsame ⊢
  exact hurls s hs t ht (sameEndpoint_iff.mp hsame)

theorem nodeKey_probe (hvalid : ring.validate = .ok ())
    (hsplit : ¬ring.SplitToken xxh64) {a : ℕ × ℕ}
    (hgap : ∀ p ∈ ring.points xxh64, InArc a p.1 → p.1 = a.2) (hstart : a.1 < ringSize)
    (hend : a.2 < ringSize) :
    nodeKey ((ring.build xxh64).ownerUrl (probe a)) = nodeKey
      ((ring.build xxh64).ownerUrl a.2) := by
  have hpos : 0 < ringSize := by simp [ringSize]
  have hkey := ownerKey_end hsplit hgap (Nat.mod_lt _ hpos) (probe_mem hstart hend)
  obtain ⟨hshards, hvnodes⟩ := nonempty_of_validate hvalid
  obtain ⟨s, hs, hown⟩ : ∃ s ∈ ring.shards, (ring.build xxh64).owner (probe a) = some s :=
    exists_owner_build hshards hvnodes _
  obtain ⟨t, ht, hown'⟩ : ∃ t ∈ ring.shards, (ring.build xxh64).owner a.2 = some t :=
    exists_owner_build hshards hvnodes _
  unfold HashRing.ownerKey at hkey
  change ((ring.build xxh64).owner (probe a)).map _ = _ at hkey
  rw [hown, hown'] at hkey
  rw [BuiltRing.ownerUrl, BuiltRing.ownerUrl, hown, hown']
  exact Option.some.inj hkey

/-- Where no token of either ring is split, the ends of the arcs match their insides. -/
theorem endsMatch_of_not_split (hbefore : before.validate = .ok ())
    (hafter : after.validate = .ok ())
    (hsplit : ¬before.SplitToken xxh64) (hsplit' : ¬after.SplitToken xxh64) :
    EndsMatch (before.build xxh64) (after.build xxh64) := by
  apply List.Perm.of_eq
  rw [movesAt, movesAt, List.map_map, List.map_map]
  apply congrArg (List.filter _)
  apply List.map_congr_left
  intro a ha
  rw [mergedArcs_eq] at ha
  obtain ⟨hstart, hend⟩ := mem_of_around ha
  have hgap := fun b hb => eq_end_of_mem_around (mergedBoundaries_pairwise _ _) ha (x := b) hb
  have hpoints : ∀ p ∈ before.points xxh64, InArc a p.1 → p.1 = a.2 := by
    intro p hp
    obtain ⟨t, ht, rfl⟩ := List.mem_map.mp hp
    exact hgap _ (mem_mergedBoundaries.mpr (.inl ⟨t, ht, rfl⟩))
  have hpoints' : ∀ p ∈ after.points xxh64, InArc a p.1 → p.1 = a.2 := by
    intro p hp
    obtain ⟨t, ht, rfl⟩ := List.mem_map.mp hp
    exact hgap _ (mem_mergedBoundaries.mpr (.inr ⟨t, ht, rfl⟩))
  have hlt := lt_of_mem_mergedBoundaries hstart
  have hlt' := lt_of_mem_mergedBoundaries hend
  exact Prod.ext (nodeKey_probe hbefore hsplit hpoints hlt hlt')
    (nodeKey_probe hafter hsplit' hpoints' hlt hlt')

def oneShard : HashRing := ⟨1, [⟨['a', ':', '1'], []⟩]⟩

theorem exact_twoShards :
    (keyspaceMovement (oneShard.build fun text => (text.head?.map Char.toNat).getD 0)
        (twoShards.build fun text => (text.head?.map Char.toNat).getD 0)).Exact
      (oneShard.build fun text => (text.head?.map Char.toNat).getD 0)
      (twoShards.build fun text => (text.head?.map Char.toNat).getD 0) :=
  (exact_iff (by decide) (by decide)).mpr
    ⟨by unfold SpelledAlike; decide, by unfold EndsMatch; decide⟩

def respelled : HashRing := ⟨1, [⟨['A', ':', '1'], []⟩]⟩

/-- Every hash keeps its owner, and the whole keyspace is said to move. -/
theorem not_exact_respelled : oneShard.validate = .ok () ∧ respelled.validate = .ok () ∧
    (keyspaceMovement (oneShard.build List.length) (respelled.build List.length)).moved = ringSize ∧
      ¬(keyspaceMovement (oneShard.build List.length) (respelled.build List.length)).Exact
        (oneShard.build List.length) (respelled.build List.length) := by
  refine ⟨by decide, by decide, by decide, fun hexact => ?_⟩
  obtain ⟨m, hm, -, hperm⟩ :=
    booked_keyspaceMovement (oneShard.build List.length) (respelled.build List.length)
  have hspelled := spelledAlike_of_exact hperm hm hexact.pairs
  exact absurd (hspelled (5, 5) (by decide) (by decide)) (by decide)

end Exactness

end DewDB.TokenRing
