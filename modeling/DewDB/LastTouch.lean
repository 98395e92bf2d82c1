import Mathlib.Data.List.Basic

/-!
# The last touch of a key

A fold whose every step says, for each key, either what it leaves there or nothing. What the fold
leaves at a key is what the last step that touches it says, or else what was there. So folding a
list again over its own result changes nothing.
-/
namespace DewDB.LastTouch

variable {α κ ρ σ : Type*} (touch : α → κ → Option ρ)

def lastTouch (as : List α) (k : κ) : Option ρ :=
  match as with
  | [] => none
  | a :: as => (lastTouch as k).or (touch a k)

variable {touch}

@[simp] theorem lastTouch_nil (k : κ) : lastTouch touch [] k = none := rfl

@[simp] theorem lastTouch_cons (a : α) (as : List α) (k : κ) :
    lastTouch touch (a :: as) k = (lastTouch touch as k).or (touch a k) := rfl

theorem lastTouch_append (as bs : List α) (k : κ) :
    lastTouch touch (as ++ bs) k = (lastTouch touch bs k).or (lastTouch touch as k) := by
  induction as with
  | nil => simp
  | cons a as ih =>
    rw [List.cons_append, lastTouch_cons, ih, lastTouch_cons, Option.or_assoc]

theorem lastTouch_eq_none {as : List α} {k : κ} :
    lastTouch touch as k = none ↔ ∀ a ∈ as, touch a k = none := by
  induction as with
  | nil => simp
  | cons a as ih => simp [ih, and_comm]

theorem lastTouch_eq_some {as : List α} {k : κ} {r : ρ} :
    lastTouch touch as k = some r ↔
      ∃ bs a cs, as = bs ++ a :: cs ∧ touch a k = some r ∧ ∀ c ∈ cs, touch c k = none := by
  constructor
  · intro h
    induction as with
    | nil => simp at h
    | cons a as ih =>
      rw [lastTouch_cons, Option.or_eq_some_iff] at h
      rcases h with h | ⟨hnone, h⟩
      · obtain ⟨bs, b, cs, rfl, hb, hcs⟩ := ih h
        exact ⟨a :: bs, b, cs, rfl, hb, hcs⟩
      · exact ⟨[], a, as, rfl, h, lastTouch_eq_none.mp hnone⟩
  · rintro ⟨bs, a, cs, rfl, ha, hcs⟩
    rw [lastTouch_append, lastTouch_cons, lastTouch_eq_none.mpr hcs, ha]
    rfl

theorem findSome?_reverse (as : List α) (k : κ) :
    (as.reverse.findSome? fun a => touch a k) = lastTouch touch as k := by
  induction as with
  | nil => rfl
  | cons a as ih =>
    rw [List.reverse_cons, List.findSome?_append, ih, lastTouch_cons]
    cases h : touch a k with
    | none => simp [List.findSome?, h]
    | some r => simp [List.findSome?, h]

/-- The fold rule: one step is described by `touch`, so the whole fold is by `lastTouch`. -/
theorem look_foldl {step : σ → α → σ} {look : σ → κ → ρ}
    (hstep : ∀ s a k, look (step s a) k = (touch a k).getD (look s k)) (s : σ)
    (as : List α) (k : κ) : look (as.foldl step s) k = (lastTouch touch as k).getD (look s k) := by
  induction as generalizing s with
  | nil => rfl
  | cons a as ih =>
    rw [List.foldl_cons, ih, hstep, lastTouch_cons]
    cases lastTouch touch as k <;> simp

end DewDB.LastTouch
