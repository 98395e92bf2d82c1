import Mathlib.Data.List.Sort
import Mathlib.Data.List.Count

/-!
# Majorities of a list

Two majorities of one list share a member, and the entry at position `k` of the list sorted
downwards is reached by at least `k + 1` of its members.
-/
namespace DewDB.Majority

variable {α : Type*}

/-- More than half of `l` satisfies `p`. -/
def HasMajority (l : List α) (p : α → Bool) : Prop := l.length / 2 + 1 ≤ l.countP p

instance (l : List α) (p : α → Bool) : Decidable (HasMajority l p) :=
  inferInstanceAs (Decidable (_ ≤ _))

theorem countP_add_countP_le {l : List α} {p q : α → Bool}
    (h : ∀ x ∈ l, ¬ (p x = true ∧ q x = true)) : l.countP p + l.countP q ≤ l.length := by
  induction l with
  | nil => simp
  | cons x xs ih =>
    have hx := h x (by simp)
    have := ih fun y hy => h y (by simp [hy])
    simp only [List.countP_cons, List.length_cons]
    split <;> split <;> simp_all <;> omega

theorem HasMajority.inter {l : List α} {p q : α → Bool} (hp : HasMajority l p)
    (hq : HasMajority l q) : ∃ x ∈ l, p x = true ∧ q x = true := by
  by_contra hnone
  push Not at hnone
  have hle : l.countP p + l.countP q ≤ l.length :=
    countP_add_countP_le fun x hx h => hnone x hx h.1 h.2
  unfold HasMajority at hp hq
  omega

theorem HasMajority.mono {l : List α} {p q : α → Bool} (h : ∀ x ∈ l, p x = true → q x = true)
    (hp : HasMajority l p) : HasMajority l q :=
  le_trans hp (List.countP_mono_left h)

def sortedDown (l : List ℕ) : List ℕ := l.insertionSort (· ≥ ·)

theorem sortedDown_pairwise (l : List ℕ) : (sortedDown l).Pairwise (· ≥ ·) :=
  List.pairwise_insertionSort _ l

theorem length_sortedDown (l : List ℕ) : (sortedDown l).length = l.length :=
  List.length_insertionSort _ l

theorem succ_le_countP_of_pairwise {l : List ℕ} (hl : l.Pairwise (· ≥ ·)) {k : ℕ}
    (hk : k < l.length) : k + 1 ≤ l.countP (fun x => decide (l[k] ≤ x)) := by
  induction l generalizing k with
  | nil => simp at hk
  | cons x xs ih =>
    rw [List.pairwise_cons] at hl
    cases k with
    | zero => simp
    | succ k =>
      have hk' : k < xs.length := by simpa using hk
      have hx : xs[k] ≤ x := hl.1 _ (List.getElem_mem hk')
      have := ih hl.2 hk'
      simp only [List.getElem_cons_succ, List.countP_cons, hx, decide_true, if_true]
      omega

/-- `k + 1` members of `l` reach the value at position `k` of the list sorted downwards. -/
theorem succ_le_countP_sortedDown {l : List ℕ} {k : ℕ} (hk : k < (sortedDown l).length) :
    k + 1 ≤ l.countP (fun x => decide ((sortedDown l)[k] ≤ x)) := by
  have h := succ_le_countP_of_pairwise (sortedDown_pairwise l) hk
  have hperm : (sortedDown l).Perm l := List.perm_insertionSort _ l
  rwa [hperm.countP_eq] at h

theorem le_of_pairwise_of_countP {l : List ℕ} (hl : l.Pairwise (· ≥ ·)) {k n : ℕ}
    (hk : k < l.length) (h : k + 1 ≤ l.countP fun x => decide (n ≤ x)) : n ≤ l[k] := by
  induction l generalizing k with
  | nil => simp at hk
  | cons x xs ih =>
    rw [List.pairwise_cons] at hl
    by_cases hx : n ≤ x
    · cases k with
      | zero => exact hx
      | succ k =>
        simp only [List.countP_cons, hx, decide_true, if_true] at h
        exact ih hl.2 (by simpa using hk) (by omega)
    · have hnone : (x :: xs).countP (fun y => decide (n ≤ y)) = 0 := by
        apply List.countP_eq_zero.mpr
        intro y hy
        rw [decide_eq_true_eq]
        rcases List.mem_cons.mp hy with rfl | hy
        · exact hx
        · have := hl.1 y hy
          omega
      omega

/-- What `k + 1` members of `l` reach is at most the value at position `k`. -/
theorem le_sortedDown_of_countP {l : List ℕ} {k n : ℕ} (hk : k < (sortedDown l).length)
    (h : k + 1 ≤ l.countP fun x => decide (n ≤ x)) : n ≤ (sortedDown l)[k] := by
  have hperm : (sortedDown l).Perm l := List.perm_insertionSort _ l
  apply le_of_pairwise_of_countP (sortedDown_pairwise l) hk
  rwa [hperm.countP_eq]

end DewDB.Majority
