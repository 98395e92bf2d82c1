import Mathlib.Order.Lattice
import Mathlib.Data.List.Basic
import Mathlib.Data.List.Count

/-!
# Half-open intervals that tile a range

Intervals in the order of their lower ends tile a range when each of them begins where the one
before it ends. That is the case just when every point of the range lies in one of them and every
point in front of it in none.
-/
namespace DewDB.Tiling

variable {α : Type*} [LinearOrder α]

def coverCount (x : α) (segs : List (α × α)) : ℕ := segs.countP fun s => s.1 ≤ x ∧ x < s.2

def Tiles : α → α → List (α × α) → Prop
  | a, b, [] => a = b
  | a, b, s :: ss => s.1 = a ∧ Tiles s.2 b ss

section Counting

variable {x : α} {s : α × α} {segs : List (α × α)}

@[simp] theorem coverCount_nil : coverCount x ([] : List (α × α)) = 0 := rfl

theorem coverCount_cons : coverCount x
    (s :: segs) = coverCount x segs + if s.1 ≤ x ∧ x < s.2 then 1 else 0 := by
  simp [coverCount, List.countP_cons]

theorem coverCount_append (segs' : List (α × α)) :
    coverCount x (segs ++ segs') = coverCount x segs + coverCount x segs' := List.countP_append

theorem coverCount_perm {segs' : List (α × α)} (h : segs.Perm segs') :
    coverCount x segs = coverCount x segs' :=
  h.countP_eq _

theorem coverCount_of_lt (h : ∀ s ∈ segs, x < s.1) : coverCount x segs = 0 := by
  apply List.countP_eq_zero.mpr
  intro s hs
  have hlt := h s hs
  simp [not_le.mpr hlt]

end Counting

theorem tiles_iff {a b : α} {segs : List (α × α)} (hsorted : segs.Pairwise fun s t => s.1 ≤ t.1)
    (hne : ∀ s ∈ segs, s.1 < s.2) (hle : ∀ s ∈ segs, s.2 ≤ b) (hab : a ≤ b) :
    Tiles a b segs ↔ ∀ x < b, coverCount x segs = if a ≤ x then 1 else 0 := by
  induction segs generalizing a with
  | nil =>
    constructor
    · rintro rfl x hx
      rw [coverCount_nil, if_neg (not_le.mpr hx)]
    · intro h
      by_contra hne
      have := h a (lt_of_le_of_ne hab hne)
      simp at this
  | cons s segs ih =>
    rw [List.pairwise_cons] at hsorted
    have hs := hne s List.mem_cons_self
    have hsb := hle s List.mem_cons_self
    have ih := ih (a := s.2) hsorted.2 (fun t ht => hne t (List.mem_cons_of_mem _ ht))
      (fun t ht => hle t (List.mem_cons_of_mem _ ht)) hsb
    constructor
    · rintro ⟨rfl, htiles⟩ x hx
      rw [coverCount_cons, ih.mp htiles x hx]
      rcases lt_or_ge x s.2 with hlt | hge
      · simp [hlt, not_le.mpr hlt]
      · simp [hge, not_lt.mpr hge, hs.le.trans hge]
    · intro h
      have hlow : a ≤ s.1 := by
        have hx := h s.1 (hs.trans_le hsb)
        rw [coverCount_cons, if_pos ⟨le_refl _, hs⟩] at hx
        by_contra hlt
        rw [if_neg hlt] at hx
        omega
      have hstart : s.1 = a := by
        by_contra hne'
        have halt : a < s.1 := lt_of_le_of_ne hlow (Ne.symm hne')
        have hx := h a (halt.trans (hs.trans_le hsb))
        rw [coverCount_cons, if_neg fun hc => not_le.mpr halt hc.1, if_pos (le_refl _),
          coverCount_of_lt fun t ht => halt.trans_le (hsorted.1 t ht)] at hx
        omega
      refine ⟨hstart, ih.mpr fun x hx => ?_⟩
      have hcount := h x hx
      rw [coverCount_cons] at hcount
      rcases lt_or_ge x s.2 with hlt | hge
      · rw [if_neg (not_le.mpr hlt)]
        by_cases hin : s.1 ≤ x
        · rw [if_pos ⟨hin, hlt⟩, if_pos (hstart ▸ hin)] at hcount
          omega
        · rw [if_neg fun hc => hin hc.1, if_neg (hstart ▸ hin)] at hcount
          omega
      · rw [if_neg fun hc => not_lt.mpr hge hc.2, if_pos (hlow.trans (hs.le.trans hge))] at hcount
        rw [if_pos hge]
        omega

end DewDB.Tiling
