import Mathlib.Data.Finset.Card

/-!
# Majorities of two sets

When every majority of one finite set meets every majority of another, by counting alone: what a
majority cannot take outside the common part it takes inside it, and two such takings do not fit.
-/
namespace DewDB.MajorityOverlap

variable {α : Type*} [DecidableEq α]

/-- `A` holds more than half of `V`. -/
def IsMajority (V A : Finset α) : Prop := V.card / 2 + 1 ≤ (V ∩ A).card

/-- The two least majorities take more of the common part than it has. -/
def Overlap (V W : Finset α) : Prop :=
  (V ∩ W).card < (V.card / 2 + 1 - (V \ W).card) + (W.card / 2 + 1 - (W \ V).card)

instance (V A : Finset α) : Decidable (IsMajority V A) := inferInstanceAs (Decidable (_ ≤ _))

instance (V W : Finset α) : Decidable (Overlap V W) := inferInstanceAs (Decidable (_ < _))

/-- A majority of `V` takes at least the rest of its number from the part shared with `W`. -/
theorem IsMajority.le_common {V W A : Finset α} (h : IsMajority V A) :
    V.card / 2 + 1 - (V \ W).card ≤ (V ∩ W ∩ A).card := by
  have hsplit : V ∩ A ⊆ V ∩ W ∩ A ∪ V \ W := by
    intro x hx
    obtain ⟨hV, hA⟩ := Finset.mem_inter.mp hx
    by_cases hW : x ∈ W
    · simp [hV, hW, hA]
    · simp [hV, hW]
  have hle := (Finset.card_le_card hsplit).trans (Finset.card_union_le _ _)
  unfold IsMajority at h
  omega

theorem Overlap.meet {V W A B : Finset α} (h : Overlap V W) (hA : IsMajority V A)
    (hB : IsMajority W B) : (A ∩ B).Nonempty := by
  by_contra hnone
  have hdisj : Disjoint (V ∩ W ∩ A) (V ∩ W ∩ B) := by
    rw [Finset.disjoint_left]
    intro x hxA hxB
    exact hnone ⟨x, Finset.mem_inter.mpr ⟨(Finset.mem_inter.mp hxA).2, (Finset.mem_inter.mp hxB).2⟩⟩
  have hsum : (V ∩ W ∩ A).card + (V ∩ W ∩ B).card ≤ (V ∩ W).card := by
    rw [← Finset.card_union_of_disjoint hdisj]
    exact Finset.card_le_card
      (Finset.union_subset Finset.inter_subset_left Finset.inter_subset_left)
  have hVA := hA.le_common (W := W)
  have hWB := hB.le_common (W := V)
  rw [Finset.inter_comm W V] at hWB
  unfold Overlap at h
  omega

theorem isMajority_sdiff_union {V W C : Finset α} (hC : C ⊆ V ∩ W)
    (hcard : V.card / 2 + 1 - (V \ W).card ≤ C.card) : IsMajority V (V \ W ∪ C) := by
  have hsub : V \ W ∪ C ⊆ V :=
    Finset.union_subset Finset.sdiff_subset (hC.trans Finset.inter_subset_left)
  have hdisj : Disjoint (V \ W) C := by
    rw [Finset.disjoint_left]
    intro x hx hxC
    exact (Finset.mem_sdiff.mp hx).2 (Finset.mem_inter.mp (hC hxC)).2
  unfold IsMajority
  rw [Finset.inter_eq_right.mpr hsub, Finset.card_union_of_disjoint hdisj]
  omega

theorem overlap_of_meet {V W : Finset α}
    (h : ∀ A B, IsMajority V A → IsMajority W B → (A ∩ B).Nonempty) : Overlap V W := by
  by_contra hnot
  unfold Overlap at hnot
  obtain ⟨C, hC, hCcard⟩ : ∃ C ⊆ V ∩ W, C.card = V.card / 2 + 1 - (V \ W).card :=
    Finset.exists_subset_card_eq (by omega)
  have hrest : W.card / 2 + 1 - (W \ V).card ≤ ((V ∩ W) \ C).card := by
    rw [Finset.card_sdiff_of_subset hC]
    omega
  obtain ⟨D, hD, hDcard⟩ : ∃ D ⊆ (V ∩ W) \ C, D.card = W.card / 2 + 1 - (W \ V).card :=
    Finset.exists_subset_card_eq hrest
  have hDW : D ⊆ W ∩ V := by
    rw [Finset.inter_comm]
    exact hD.trans Finset.sdiff_subset
  obtain ⟨x, hx⟩ := h _ _ (isMajority_sdiff_union hC hCcard.ge)
    (isMajority_sdiff_union hDW hDcard.ge)
  -- The two majorities share nothing: outside the common part by the sides, inside by the choice.
  obtain ⟨hxA, hxB⟩ := Finset.mem_inter.mp hx
  rcases Finset.mem_union.mp hxA with hxV | hxC
  · obtain ⟨hxV, hxW⟩ := Finset.mem_sdiff.mp hxV
    rcases Finset.mem_union.mp hxB with hxB | hxD
    · exact hxW (Finset.mem_sdiff.mp hxB).1
    · exact hxW (Finset.mem_inter.mp (hDW hxD)).1
  · rcases Finset.mem_union.mp hxB with hxB | hxD
    · exact (Finset.mem_sdiff.mp hxB).2 (Finset.mem_inter.mp (hC hxC)).1
    · exact (Finset.mem_sdiff.mp (hD hxD)).2 hxC

theorem overlap_iff {V W : Finset α} :
    Overlap V W ↔ ∀ A B, IsMajority V A → IsMajority W B → (A ∩ B).Nonempty :=
  ⟨fun h _ _ => h.meet, overlap_of_meet⟩

theorem Overlap.refl (V : Finset α) : Overlap V V := by
  unfold Overlap
  simp only [Finset.inter_self, Finset.sdiff_self, Finset.card_empty]
  omega

theorem Overlap.symm {V W : Finset α} (h : Overlap V W) : Overlap W V := by
  unfold Overlap at *
  rw [Finset.inter_comm]
  omega

end DewDB.MajorityOverlap
