import Mathlib.Order.Lattice
import Mathlib.Data.List.Basic

/-!
# The newest of a number of stamped values

A register that takes a value when its stamp is above the one it holds ends with the newest value it
was offered. Where a stamp belongs to one value, neither the order of the offers nor their
repetition matters.
-/
namespace DewDB.NewestStamp

variable {α σ : Type*} [LinearOrder σ] (stamp : α → σ)

def offer (held : Option α) (x : α) : Option α :=
  match held with
  | none => some x
  | some a => if stamp a < stamp x then some x else some a

def newest (held : Option α) (xs : List α) : Option α := xs.foldl (offer stamp) held

variable {stamp}

@[simp] theorem newest_nil (held : Option α) : newest stamp held [] = held := rfl

@[simp] theorem newest_cons (held : Option α) (x : α) (xs : List α) :
    newest stamp held (x :: xs) = newest stamp (offer stamp held x) xs := rfl

theorem newest_append (held : Option α) (xs ys : List α) :
    newest stamp held (xs ++ ys) = newest stamp (newest stamp held xs) ys := List.foldl_append

theorem le_offer (held : Option α) (x : α) :
    ∃ r, offer stamp held x = some r ∧ stamp x ≤ stamp r ∧ (r = x ∨ held = some r) ∧
      ∀ a, held = some a → stamp a ≤ stamp r := by
  cases held with
  | none => exact ⟨x, rfl, le_rfl, .inl rfl, by simp⟩
  | some a =>
    by_cases h : stamp a < stamp x
    · refine ⟨x, if_pos h, le_rfl, .inl rfl, fun b hb => ?_⟩
      obtain rfl := Option.some.inj hb
      exact h.le
    · refine ⟨a, if_neg h, not_lt.mp h, .inr rfl, fun b hb => ?_⟩
      obtain rfl := Option.some.inj hb
      exact le_rfl

/-- The value that is held at the end is one of those offered or the first one, and none is newer.
-/
theorem newest_spec {held : Option α} {xs : List α} {r : α} (h : newest stamp held xs = some r) :
    (held = some r ∨ r ∈ xs) ∧ (∀ a, held = some a → stamp a ≤ stamp r) ∧
      ∀ x ∈ xs, stamp x ≤ stamp r := by
  induction xs generalizing held with
  | nil =>
    refine ⟨.inl h, fun a ha => ?_, by simp⟩
    obtain rfl := Option.some.inj (ha.symm.trans h)
    exact le_rfl
  | cons x xs ih =>
    obtain ⟨b, hb, hxb, hfrom, hheld⟩ := @le_offer _ _ _ stamp held x
    obtain ⟨hmem, hle, hrest⟩ := ih h
    have hbr : stamp b ≤ stamp r := hle b hb
    refine ⟨?_, fun a ha => (hheld a ha).trans hbr, fun y hy => ?_⟩
    · rcases hmem with hr | hr
      · obtain rfl := Option.some.inj (hb.symm.trans hr)
        rcases hfrom with rfl | hfrom
        · exact .inr List.mem_cons_self
        · exact .inl hfrom
      · exact .inr (List.mem_cons_of_mem x hr)
    · rcases List.mem_cons.mp hy with rfl | hy
      · exact hxb.trans hbr
      · exact hrest y hy

theorem newest_eq_none {held : Option α} {xs : List α} :
    newest stamp held xs = none ↔ held = none ∧ xs = [] := by
  constructor
  · intro h
    induction xs generalizing held with
    | nil => exact ⟨h, rfl⟩
    | cons x xs ih =>
      obtain ⟨r, hr, -⟩ := @le_offer _ _ _ stamp held x
      rw [newest_cons, hr] at h
      exact absurd (ih h).1 (by simp)
  · rintro ⟨rfl, rfl⟩
    rfl

/-- Where a stamp belongs to one value, a register ends with the same value whatever the order in
which the same values were offered to it and however often. -/
theorem newest_congr {held : Option α} {xs ys : List α} (hmem : ∀ x, x ∈ xs ↔ x ∈ ys)
    (hone : ∀ a b, (held = some a ∨ a ∈ xs) → (held = some b ∨ b ∈ xs) →
      stamp a = stamp b → a = b) :
    newest stamp held xs = newest stamp held ys := by
  cases hx : newest stamp held xs with
  | none =>
    obtain ⟨rfl, rfl⟩ := newest_eq_none.mp hx
    have hys : ys = [] := List.eq_nil_iff_forall_not_mem.mpr fun y hy =>
      by simpa using (hmem y).mpr hy
    rw [hys]
    rfl
  | some r =>
    obtain ⟨hr, hheld, hle⟩ := newest_spec hx
    cases hy : newest stamp held ys with
    | none =>
      obtain ⟨rfl, rfl⟩ := newest_eq_none.mp hy
      rcases hr with hr | hr
      · cases hr
      · exact absurd ((hmem r).mp hr) (by simp)
    | some s =>
      obtain ⟨hs, hheld', hle'⟩ := newest_spec hy
      have hs' : held = some s ∨ s ∈ xs := hs.imp_right (hmem s).mpr
      have hrs : stamp r ≤ stamp s := hr.elim (hheld' r) fun h => hle' r ((hmem r).mp h)
      have hsr : stamp s ≤ stamp r := hs'.elim (hheld s) (hle s)
      rw [hone r s hr hs' (le_antisymm hrs hsr)]

end DewDB.NewestStamp
