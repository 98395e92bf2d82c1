import Mathlib.Algebra.Ring.Nat
import Mathlib.Data.Nat.Count
import Mathlib.Order.Basic

/-!
# The next point on a circle

Points with a position and a label, in a list. The next point for a position is the last one that
lies there, or else the first one behind it, or else the first of all. Taking other points away does
not change it, and between two neighbouring points it is the same for all positions. Where several
points share the end of an arc, though, the positions inside it get the first of them and the end
itself the last.
-/
namespace DewDB.Clockwise

variable {κ : Type*}

def next (h : ℕ) (points : List (ℕ × κ)) : Option (ℕ × κ) :=
  ((points.filter fun p => p.1 = h).getLast?).or
    (((points.filter fun p => h < p.1).head?).or points.head?)

section Basic

variable {h h' : ℕ} {points A B : List (ℕ × κ)} {p : ℕ × κ}

theorem next_hit (hp : p.1 = h) (hB : ∀ q ∈ B, h < q.1) : next h (A ++ p :: B) = some p := by
  have hnone : B.filter (fun q => q.1 = h) = [] :=
    List.filter_eq_nil_iff.mpr fun q hq => by have := hB q hq; simp; omega
  rw [next, List.filter_append, List.filter_cons_of_pos (by simpa using hp), hnone,
    List.getLast?_concat]
  rfl

theorem next_miss (hA : ∀ q ∈ A, q.1 < h) (hB : ∀ q ∈ B, h < q.1) :
    next h (A ++ B) = B.head?.or (A ++ B).head? := by
  have hhit : (A ++ B).filter (fun q => q.1 = h) = [] := by
    apply List.filter_eq_nil_iff.mpr
    intro q hq
    rcases List.mem_append.mp hq with hq | hq
    · have := hA q hq
      simp only [decide_eq_true_eq]
      omega
    · have := hB q hq
      simp only [decide_eq_true_eq]
      omega
  have hbelow : A.filter (fun q => h < q.1) = [] :=
    List.filter_eq_nil_iff.mpr fun q hq => by have := hA q hq; simp; omega
  have habove : B.filter (fun q => h < q.1) = B := List.filter_eq_self.mpr fun q hq =>
    by simpa using hB q hq
  rw [next, hhit, List.filter_append, hbelow, habove, List.nil_append]
  rfl

theorem mem_of_next (hp : next h points = some p) : p ∈ points := by
  unfold next at hp
  rcases hlast : (points.filter fun p => p.1 = h).getLast? with - | q
  · rw [hlast, Option.none_or] at hp
    rcases hhead : (points.filter fun p => h < p.1).head? with - | q
    · rw [hhead, Option.none_or] at hp
      exact List.mem_of_head? hp
    · rw [hhead, Option.some_or, Option.some.injEq] at hp
      exact hp ▸ List.mem_of_mem_filter (List.mem_of_head? hhead)
  · rw [hlast, Option.some_or, Option.some.injEq] at hp
    exact hp ▸ List.mem_of_mem_filter (List.mem_of_getLast? hlast)

theorem exists_next (hne : points ≠ []) : ∃ p, next h points = some p := by
  obtain ⟨q, qs, rfl⟩ := List.exists_cons_of_ne_nil hne
  rw [next, List.head?_cons]
  cases ((q :: qs).filter fun p => p.1 = h).getLast? with
  | some p => exact ⟨p, rfl⟩
  | none =>
    cases ((q :: qs).filter fun p => h < p.1).head? with
    | some p => exact ⟨p, rfl⟩
    | none => exact ⟨q, rfl⟩

theorem next_map {ι : Type*} (g : κ → ι) :
    next h (points.map fun p => (p.1, g p.2)) = (next h points).map fun p => (p.1, g p.2) := by
  have hhit : (points.map fun p => (p.1, g p.2)).filter (fun p => p.1 = h) =
      (points.filter fun p => p.1 = h).map fun p => (p.1, g p.2) := by
    rw [List.filter_map]
    rfl
  have habove : (points.map fun p => (p.1, g p.2)).filter (fun p => h < p.1) =
      (points.filter fun p => h < p.1).map fun p => (p.1, g p.2) := by
    rw [List.filter_map]
    rfl
  rw [next, next, hhit, habove, List.getLast?_map, List.head?_map, List.head?_map, Option.map_or,
    Option.map_or]

end Basic

section Movement

variable {h : ℕ} {points : List (ℕ × κ)} {p : ℕ × κ} {keep : ℕ × κ → Bool}

theorem head?_filter_of_head? {α : Type*} {keep : α → Bool} {as : List α} {a : α}
    (ha : as.head? = some a) (hkeep : keep a = true) : (as.filter keep).head? = some a := by
  cases as with
  | nil => cases ha
  | cons b as =>
    obtain rfl : b = a := Option.some.inj ha
    rw [List.filter_cons_of_pos hkeep]
    rfl

theorem getLast?_filter_of_getLast? {α : Type*} {keep : α → Bool} {as : List α} {a : α}
    (ha : as.getLast? = some a) (hkeep : keep a = true) : (as.filter keep).getLast? = some a := by
  obtain ⟨bs, rfl⟩ := List.getLast?_eq_some_iff.mp ha
  rw [List.filter_append, List.filter_cons_of_pos hkeep, List.filter_nil, List.getLast?_concat]

/-- Taking points away moves only the positions whose next point is taken. -/
theorem next_filter (hp : next h points = some p) (hkeep : keep p = true) :
    next h (points.filter keep) = some p := by
  unfold next at hp ⊢
  rw [List.filter_comm, List.filter_comm (p := fun p : ℕ × κ => h < p.1)]
  rcases hlast : (points.filter fun p => p.1 = h).getLast? with - | q
  · have hhit := List.getLast?_eq_none_iff.mp hlast
    rw [hlast, Option.none_or] at hp
    rw [hhit, List.filter_nil, List.getLast?_nil, Option.none_or]
    rcases hhead : (points.filter fun p => h < p.1).head? with - | q
    · have habove := List.head?_eq_none_iff.mp hhead
      rw [hhead, Option.none_or] at hp
      rw [habove, List.filter_nil, List.head?_nil, Option.none_or]
      exact head?_filter_of_head? hp hkeep
    · rw [hhead, Option.some_or, Option.some.injEq] at hp
      rw [head?_filter_of_head? (hp ▸ hhead) hkeep, Option.some_or]
  · rw [hlast, Option.some_or, Option.some.injEq] at hp
    rw [getLast?_filter_of_getLast? (hp ▸ hlast) hkeep, Option.some_or]

end Movement

section Between

variable {h h' : ℕ} {points : List (ℕ × κ)}

/-- No point lies between the two positions, in the order of the positions or around the circle. -/
structure Apart (h h' : ℕ) (points : List (ℕ × κ)) : Prop where
  left : ∀ p ∈ points, p.1 ≠ h
  right : ∀ p ∈ points, p.1 ≠ h'
  between : (∀ p ∈ points, h < p.1 ↔ h' < p.1) ∨ (∀ p ∈ points, ¬h < p.1 ∧ h' < p.1) ∨
    ∀ p ∈ points, h < p.1 ∧ ¬h' < p.1

theorem next_of_none (hhit : ∀ p ∈ points, p.1 ≠ h) :
    next h points = ((points.filter fun p => h < p.1).head?).or points.head? := by
  have hnil : points.filter (fun p => p.1 = h) = [] :=
    List.filter_eq_nil_iff.mpr fun p hp => by simpa using hhit p hp
  rw [next, hnil]
  rfl

theorem next_eq_head? (hhit : ∀ p ∈ points, p.1 ≠ h)
    (hside : (∀ p ∈ points, h < p.1) ∨ ∀ p ∈ points, ¬h < p.1) : next h points = points.head? := by
  rw [next_of_none hhit]
  rcases hside with hall | hnone
  · rw [List.filter_eq_self.mpr fun p hp => decide_eq_true (hall p hp), Option.or_self]
  · rw [List.filter_eq_nil_iff.mpr fun p hp => by simpa using hnone p hp]
    rfl

theorem Apart.next_eq (hapart : Apart h h' points) : next h points = next h' points := by
  rcases hapart.between with hsame | hleft | hright
  · have hfilter : points.filter (fun p => h < p.1) = points.filter fun p => h' < p.1 :=
      List.filter_congr fun p hp => by rw [decide_eq_decide]; exact hsame p hp
    rw [next_of_none hapart.left, next_of_none hapart.right, hfilter]
  · rw [next_eq_head? hapart.left (.inr fun p hp => (hleft p hp).1),
      next_eq_head? hapart.right (.inl fun p hp => (hleft p hp).2)]
  · rw [next_eq_head? hapart.left (.inl fun p hp => (hright p hp).1),
      next_eq_head? hapart.right (.inr fun p hp => (hright p hp).2)]

end Between

section Ordered

variable [PartialOrder κ] {h : ℕ} {points points' : List (ℕ × κ)} {p q : ℕ × κ}

def Precedes (p q : ℕ × κ) : Prop := p.1 < q.1 ∨ p.1 = q.1 ∧ p.2 ≤ q.2

theorem Precedes.le (hpq : Precedes p q) : p.1 ≤ q.1 := by
  rcases hpq with hlt | ⟨heq, -⟩
  · exact hlt.le
  · exact heq.le

theorem Precedes.label_le (hpq : Precedes p q) (hpos : p.1 = q.1) : p.2 ≤ q.2 := by
  rcases hpq with hlt | ⟨-, hle⟩
  · omega
  · exact hle

theorem Precedes.antisymm (hpq : Precedes p q) (hqp : Precedes q p) : p = q := by
  have hpos : p.1 = q.1 := le_antisymm hpq.le hqp.le
  exact Prod.ext hpos (le_antisymm (hpq.label_le hpos) (hqp.label_le hpos.symm))

theorem Precedes.trans {r : ℕ × κ} (hpq : Precedes p q) (hqr : Precedes q r) : Precedes p r := by
  rcases hpq with hlt | ⟨heq, hle⟩
  · exact .inl (hlt.trans_le hqr.le)
  · rcases hqr with hlt' | ⟨heq', hle'⟩
    · exact .inl (heq.trans_lt hlt')
    · exact .inr ⟨heq.trans heq', hle.trans hle'⟩

theorem eq_of_perm (hs : points.Pairwise Precedes) (hs' : points'.Pairwise Precedes)
    (hperm : points.Perm points') : points = points' :=
  hperm.eq_of_pairwise (fun _ _ _ _ hpq hqp => hpq.antisymm hqp) hs hs'

theorem head?_precedes (hs : points.Pairwise Precedes) (hp : points.head? = some p)
    (hq : q ∈ points) : p = q ∨ Precedes p q := by
  cases points with
  | nil => cases hp
  | cons r rest =>
    obtain rfl : r = p := Option.some.inj hp
    rcases List.mem_cons.mp hq with rfl | hrest
    · exact .inl rfl
    · exact .inr ((List.pairwise_cons.mp hs).1 q hrest)

theorem precedes_getLast? (hs : points.Pairwise Precedes) (hp : points.getLast? = some p)
    (hq : q ∈ points) : q = p ∨ Precedes q p := by
  obtain ⟨front, rfl⟩ := List.getLast?_eq_some_iff.mp hp
  rcases List.mem_append.mp hq with hfront | hlast
  · exact .inr ((List.pairwise_append.mp hs).2.2 q hfront p List.mem_cons_self)
  · exact .inl (List.mem_singleton.mp hlast)

theorem next_at (hs : points.Pairwise Precedes) (hp : next h points = some p) (hq : q ∈ points)
    (hpos : q.1 = h) : p.1 = h ∧ q.2 ≤ p.2 := by
  have hmem : q ∈ points.filter fun p => p.1 = h := List.mem_filter.mpr ⟨hq, decide_eq_true hpos⟩
  unfold next at hp
  rcases hlast : (points.filter fun p => p.1 = h).getLast? with - | r
  · rw [List.getLast?_eq_none_iff.mp hlast] at hmem
    cases hmem
  · rw [hlast, Option.some_or, Option.some.injEq] at hp
    have hr : r.1 = h := by simpa using (List.mem_filter.mp (List.mem_of_getLast? hlast)).2
    rw [← hp]
    rcases precedes_getLast? (hs.filter _) hlast hmem with rfl | hpre
    · exact ⟨hr, le_rfl⟩
    · exact ⟨hr, hpre.label_le (hpos.trans hr.symm)⟩

end Ordered

section Arcs

/-- The arc from the first position, which it leaves out, clockwise to the second one, which it has.
-/
def InArc (arc : ℕ × ℕ) (h : ℕ) : Prop := if arc.1 < arc.2 then arc.1 < h ∧ h ≤ arc.2
  else arc.1 < h ∨ h ≤ arc.2

instance (arc : ℕ × ℕ) : DecidablePred (InArc arc) := fun h =>
  inferInstanceAs (Decidable (if arc.1 < arc.2 then arc.1 < h ∧ h ≤ arc.2
    else arc.1 < h ∨ h ≤ arc.2))

def links : ℕ → List ℕ → List (ℕ × ℕ)
  | _, [] => []
  | b, c :: cs => (b, c) :: links c cs

/-- The arcs between neighbours, the last one back to the first position. -/
def around : List ℕ → List (ℕ × ℕ)
  | [] => []
  | b :: cs => links b cs ++ [(cs.getLastD b, b)]

variable {a : ℕ × ℕ} {b h h' x : ℕ} {bs cs : List ℕ}

theorem zip_eq_links (b x : ℕ) (cs : List ℕ) :
    (b :: cs).zip (cs ++ [x]) = links b cs ++ [(cs.getLastD b, x)] := by
  induction cs generalizing b with
  | nil => rfl
  | cons c cs ih => rw [List.cons_append, List.zip_cons_cons, ih, List.getLastD_cons, links,
      List.cons_append]

theorem zip_rotate_eq_around (bs : List ℕ) : bs.zip (bs.drop 1 ++ bs.take 1) = around bs := by
  cases bs with
  | nil => rfl
  | cons b cs => exact zip_eq_links b b cs

theorem getLastD_mem (b : ℕ) (cs : List ℕ) : cs.getLastD b ∈ b :: cs := by
  induction cs generalizing b with
  | nil => exact List.mem_cons_self
  | cons c cs ih =>
    rw [List.getLastD_cons]
    exact List.mem_cons_of_mem _ (ih c)

theorem le_getLastD (hs : (b :: cs).Pairwise (· < ·)) (hx : x ∈ b :: cs) : x ≤ cs.getLastD b := by
  induction cs generalizing b x with
  | nil => exact (List.mem_singleton.mp hx).le
  | cons c cs ih =>
    obtain ⟨hb, hcs⟩ := List.pairwise_cons.mp hs
    rw [List.getLastD_cons]
    rcases List.mem_cons.mp hx with rfl | hx
    · exact (hb c List.mem_cons_self).le.trans (ih hcs List.mem_cons_self)
    · exact ih hcs hx

theorem links_lt (hs : (b :: cs).Pairwise (· < ·)) (ha : a ∈ links b cs) : b ≤ a.1 ∧ a.1 < a.2 := by
  induction cs generalizing b with
  | nil => cases ha
  | cons c cs ih =>
    obtain ⟨hb, hcs⟩ := List.pairwise_cons.mp hs
    have hbc := hb c List.mem_cons_self
    rcases List.mem_cons.mp ha with rfl | ha
    · exact ⟨le_rfl, hbc⟩
    · obtain ⟨hle, hlt⟩ := ih hcs ha
      exact ⟨hbc.le.trans hle, hlt⟩

theorem links_gap (hs : (b :: cs).Pairwise (· < ·)) (ha : a ∈ links b cs) (hx : x ∈ b :: cs) :
    x ≤ a.1 ∨ a.2 ≤ x := by
  induction cs generalizing b with
  | nil => cases ha
  | cons c cs ih =>
    obtain ⟨hb, hcs⟩ := List.pairwise_cons.mp hs
    have hbc := hb c List.mem_cons_self
    rcases List.mem_cons.mp ha with rfl | htail
    · rcases List.mem_cons.mp hx with rfl | hx
      · exact .inl le_rfl
      · rcases List.mem_cons.mp hx with rfl | hx
        · exact .inr le_rfl
        · exact .inr ((List.pairwise_cons.mp hcs).1 x hx).le
    · rcases List.mem_cons.mp hx with rfl | hx
      · obtain ⟨hle, -⟩ := links_lt hcs htail
        exact .inl (hbc.le.trans hle)
      · exact ih hcs htail hx

theorem eq_end_of_mem_around (hs : bs.Pairwise (· < ·)) (ha : a ∈ around bs) (hx : x ∈ bs)
    (harc : InArc a x) : x = a.2 := by
  cases bs with
  | nil => cases ha
  | cons b cs =>
    rcases List.mem_append.mp ha with ha | ha
    · have hlt := (links_lt hs ha).2
      rw [InArc, if_pos hlt] at harc
      rcases links_gap hs ha hx with hle | hle
      · omega
      · omega
    · obtain rfl := List.mem_singleton.mp ha
      have hb : b ≤ x := by
        rcases List.mem_cons.mp hx with rfl | hx
        · exact le_rfl
        · exact ((List.pairwise_cons.mp hs).1 x hx).le
      have hlast := le_getLastD hs hx
      have hnot : ¬cs.getLastD b < b := by
        have := le_getLastD hs (List.mem_cons_self (a := b) (l := cs))
        omega
      simp only [InArc, if_neg hnot] at harc ⊢
      omega

theorem exists_link (hx : x ∈ cs) : ∃ a ∈ links b cs, a.2 = x := by
  induction cs generalizing b with
  | nil => cases hx
  | cons c cs ih =>
    rcases List.mem_cons.mp hx with rfl | hx
    · exact ⟨(b, x), List.mem_cons_self, rfl⟩
    · obtain ⟨a, ha, hend⟩ := ih (b := c) hx
      exact ⟨a, List.mem_cons_of_mem _ ha, hend⟩

theorem mem_of_links (ha : a ∈ links b cs) : a.1 ∈ b :: cs ∧ a.2 ∈ cs := by
  induction cs generalizing b with
  | nil => cases ha
  | cons c cs ih =>
    rcases List.mem_cons.mp ha with rfl | ha
    · exact ⟨List.mem_cons_self, List.mem_cons_self⟩
    · obtain ⟨hfst, hsnd⟩ := ih ha
      exact ⟨List.mem_cons_of_mem _ hfst, List.mem_cons_of_mem _ hsnd⟩

theorem mem_of_around (ha : a ∈ around bs) : a.1 ∈ bs ∧ a.2 ∈ bs := by
  cases bs with
  | nil => cases ha
  | cons b cs =>
    rcases List.mem_append.mp ha with ha | ha
    · exact ⟨(mem_of_links ha).1, List.mem_cons_of_mem _ (mem_of_links ha).2⟩
    · obtain rfl := List.mem_singleton.mp ha
      exact ⟨getLastD_mem b cs, List.mem_cons_self⟩

theorem exists_around (hx : x ∈ bs) : ∃ a ∈ around bs, a.2 = x := by
  cases bs with
  | nil => cases hx
  | cons b cs =>
    rcases List.mem_cons.mp hx with rfl | hx
    · exact ⟨_, List.mem_append_right _ List.mem_cons_self, rfl⟩
    · obtain ⟨a, ha, hend⟩ := exists_link (b := b) hx
      exact ⟨a, List.mem_append_left _ ha, hend⟩

end Arcs

section Inside

variable {a : ℕ × ℕ} {h h' : ℕ} {points : List (ℕ × κ)}

theorem free_of_inside (hgap : ∀ p ∈ points, InArc a p.1 → p.1 = a.2) (hh : InArc a h)
    (hne : h ≠ a.2) : ∀ p ∈ points, p.1 ≠ h :=
  fun p hp heq => hne (heq.symm.trans (hgap p hp (heq.symm ▸ hh)))

/-- Two free positions of an arc that has points at most at its end have nothing between them. -/
theorem apart_of_free (hgap : ∀ p ∈ points, InArc a p.1 → p.1 = a.2) (hh : InArc a h)
    (hfree : ∀ p ∈ points, p.1 ≠ h)
    (hh' : InArc a h') (hfree' : ∀ p ∈ points, p.1 ≠ h') : Apart h h' points := by
  refine ⟨hfree, hfree', ?_⟩
  unfold InArc at hgap hh hh'
  by_cases hlt : a.1 < a.2
  · simp only [if_pos hlt] at hgap hh hh'
    refine .inl fun p hp => ?_
    have := hgap p hp
    have := hfree p hp
    have := hfree' p hp
    omega
  · simp only [if_neg hlt] at hgap hh hh'
    have hall : ∀ p ∈ points, a.2 ≤ p.1 ∧ p.1 ≤ a.1 ∧ p.1 ≠ h ∧ p.1 ≠ h' := by
      intro p hp
      have := hgap p hp
      exact ⟨by omega, by omega, hfree p hp, hfree' p hp⟩
    by_cases hside : a.1 < h
    · by_cases hside' : a.1 < h'
      · refine .inl fun p hp => ?_
        have := hall p hp
        omega
      · refine .inr (.inl fun p hp => ?_)
        have := hall p hp
        omega
    · by_cases hside' : a.1 < h'
      · refine .inr (.inr fun p hp => ?_)
        have := hall p hp
        omega
      · refine .inl fun p hp => ?_
        have := hall p hp
        omega

theorem next_inside [PartialOrder κ] {p q : ℕ × κ} (hs : points.Pairwise Precedes)
    (hgap : ∀ p ∈ points, InArc a p.1 → p.1 = a.2) (hh : InArc a h) (hne : h ≠ a.2)
    (hp : next h points = some p) (hq : q ∈ points) (hend : q.1 = a.2) : p.1 = a.2 ∧ p.2 ≤ q.2 := by
  have hmem := mem_of_next hp
  rw [next_of_none (free_of_inside hgap hh hne)] at hp
  suffices hfirst : (p = q ∨ Precedes p q) ∧ (p.1 ≤ a.2 → InArc a p.1) by
    rcases hfirst with ⟨rfl | hpre, hin⟩
    · exact ⟨hend, le_rfl⟩
    · have hpos := hgap p hmem (hin (hend ▸ hpre.le))
      exact ⟨hpos, hpre.label_le (hpos.trans hend.symm)⟩
  by_cases habove : h < q.1
  · have hin : q ∈ points.filter fun r => h < r.1 := List.mem_filter.mpr ⟨hq, decide_eq_true habove⟩
    rcases hhead : (points.filter fun r => h < r.1).head? with - | r
    · rw [List.head?_eq_none_iff.mp hhead] at hin
      cases hin
    · rw [hhead, Option.some_or, Option.some.injEq] at hp
      have hr : h < r.1 := by simpa using (List.mem_filter.mp (List.mem_of_head? hhead)).2
      rw [hp] at hr hhead
      refine ⟨head?_precedes (hs.filter _) hhead hin, fun hle => ?_⟩
      unfold InArc at hh ⊢
      split_ifs at hh ⊢
      · omega
      · omega
  · -- the arc passes the top, and the position lies above all points
    have hwrap : ¬a.1 < a.2 := fun hlt => by
      rw [InArc, if_pos hlt] at hh
      omega
    have hnone : points.filter (fun r => h < r.1) = [] := by
      apply List.filter_eq_nil_iff.mpr
      intro r hr
      have := hgap r hr
      simp only [InArc, if_neg hwrap] at this hh
      simp only [decide_eq_true_eq]
      omega
    rw [hnone, List.head?_nil, Option.none_or] at hp
    refine ⟨head?_precedes hs hp hq, fun hle => ?_⟩
    rw [InArc, if_neg hwrap]
    exact .inr hle

end Inside

section Count

variable {a : ℕ × ℕ} {b h size : ℕ} {bs cs : List ℕ} {P : ℕ → Prop} [DecidablePred P]

/-- The number of positions of an arc, on a circle of a given size. -/
def width (size : ℕ) (arc : ℕ × ℕ) : ℕ := if arc.1 < arc.2 then arc.2 - arc.1
  else size - arc.1 + arc.2

theorem countP_links (hs : (b :: cs).Pairwise (· < ·)) :
    (links b cs).countP (fun a => InArc a h) = if b < h ∧ h ≤ cs.getLastD b then 1 else 0 := by
  induction cs generalizing b with
  | nil =>
    have hnot : ¬(b < h ∧ h ≤ b) := by omega
    rw [links, List.countP_nil, List.getLastD_nil, if_neg hnot]
  | cons c cs ih =>
    obtain ⟨hb, hcs⟩ := List.pairwise_cons.mp hs
    have hbc := hb c List.mem_cons_self
    have hlast : c ≤ cs.getLastD c := le_getLastD hcs List.mem_cons_self
    have harc : InArc (b, c) h ↔ b < h ∧ h ≤ c := by rw [InArc, if_pos hbc]
    rw [links, List.countP_cons, ih hcs, List.getLastD_cons]
    simp only [decide_eq_true_eq, harc]
    split_ifs <;> omega

theorem countP_around (hs : bs.Pairwise (· < ·)) (hne : bs ≠ []) (h : ℕ) :
    (around bs).countP (fun a => InArc a h) = 1 := by
  obtain ⟨b, cs, rfl⟩ := List.exists_cons_of_ne_nil hne
  have hlast : b ≤ cs.getLastD b := le_getLastD hs List.mem_cons_self
  have hwrap : InArc (cs.getLastD b, b) h ↔ cs.getLastD b < h ∨ h ≤ b := by
    rw [InArc, if_neg (by simpa using hlast)]
  rw [around, List.countP_append, countP_links hs, List.countP_singleton]
  simp only [decide_eq_true_eq, hwrap]
  split_ifs <;> omega

theorem sum_count_succ (as : List (ℕ × ℕ)) (n : ℕ) :
    (as.map fun a => Nat.count (fun h => InArc a h ∧ P h) (n + 1)).sum =
      (as.map fun a => Nat.count (fun h => InArc a h ∧ P h) n).sum +
        if P n then as.countP (fun a => InArc a n) else 0 := by
  induction as with
  | nil => simp
  | cons a as ih =>
    rw [List.map_cons, List.sum_cons, List.map_cons, List.sum_cons, ih, Nat.count_succ,
      List.countP_cons]
    simp only [decide_eq_true_eq]
    split_ifs <;> first | omega | simp_all

theorem sum_count_around (hs : bs.Pairwise (· < ·)) (hne : bs ≠ []) (n : ℕ) :
    ((around bs).map fun a => Nat.count (fun h => InArc a h ∧ P h) n).sum = Nat.count P n := by
  induction n with
  | zero => simp
  | succ n ih => rw [sum_count_succ, ih, countP_around hs hne, Nat.count_succ]

theorem inArc_end (arc : ℕ × ℕ) : InArc arc arc.2 := by
  unfold InArc
  split_ifs with hlt
  · exact ⟨hlt, le_rfl⟩
  · exact .inr le_rfl

theorem count_inside (ha : a.1 < size) (hend : a.2 < size) :
    Nat.count (fun h => InArc a h ∧ h ≠ a.2) size = width size a - 1 := by
  have hcount : ∀ n, Nat.count (fun h => InArc a h ∧ h ≠ a.2) n =
      if a.1 < a.2 then min n a.2 - (a.1 + 1) else min n a.2 + (n - (a.1 + 1)) := by
    intro n
    induction n with
    | zero => simp
    | succ n ih =>
      rw [Nat.count_succ, ih]
      unfold InArc
      split_ifs <;> omega
  rw [hcount, width]
  split_ifs <;> omega

/-- A property that is the same at all positions inside an arc, counted over the arc. -/
theorem count_arc (ha : a.1 < size) (hend : a.2 < size)
    (hP : ∀ h < size, InArc a h → h ≠ a.2 → (P h ↔ P b)) :
    Nat.count (fun h => InArc a h ∧ P h) size =
      (if P b then width size a - 1 else 0) + if P a.2 then 1 else 0 := by
  rw [← count_inside ha hend]
  have hcount : ∀ n ≤ size, Nat.count (fun h => InArc a h ∧ P h) n =
      (if P b then Nat.count (fun h => InArc a h ∧ h ≠ a.2) n else 0) + if a.2 < n ∧
        P a.2 then 1 else 0 := by
    intro n
    induction n with
    | zero => simp
    | succ n ih =>
      intro hn
      rw [Nat.count_succ, Nat.count_succ, ih (by omega)]
      by_cases heq : n = a.2
      · simp [heq, inArc_end]
      · have hstep : a.2 < n + 1 ↔ a.2 < n := by omega
        by_cases hin : InArc a n
        · have hPn := hP n (by omega) hin heq
          simp only [hstep, hin, heq, hPn, true_and, ne_eq, not_false_eq_true, and_self, if_true]
          split_ifs <;> omega
        · simp [hin, hstep]
  simpa [hend] using hcount size le_rfl

end Count

end DewDB.Clockwise
