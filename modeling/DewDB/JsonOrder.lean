import DewDB.QuerySort

/-!
# The order of JSON values as a preorder

`json_cmp` ranks values of any nesting, and values that compare equal are interchangeable in it. An
index keeps its postings under that comparison, with equality defined by it. Rows of one sort
compare equal only when they are of one key, whatever the sort keys are.
-/
namespace DewDB.JsonOrder

open JsonValue QuerySort Std

variable {N : Type}

structure IndexKey (N : Type) where
  val : Json N

section Order

variable [Number N]

namespace IndexKey

def eq (k l : IndexKey N) : Bool := jsonCmp k.val l.val = .eq

def cmp (k l : IndexKey N) : Ordering := jsonCmp k.val l.val

def partialCmp (k l : IndexKey N) : Option Ordering := some (k.cmp l)

instance : TransCmp (cmp (N := N)) where
  eq_swap {k l} := @OrientedCmp.eq_swap _ jsonCmp _ k.val l.val
  isLE_trans {k l m} := @TransCmp.isLE_trans _ jsonCmp _ k.val l.val m.val

end IndexKey

/-- A comparison that answers for every two values, either way round, and carries over a third one.
-/
structure TotalPreorder {α : Type} (cmp : α → α → Ordering) : Prop where
  self : ∀ a, cmp a a = .eq
  reverse : ∀ a b, cmp b a = (cmp a b).swap
  trans : ∀ a b c, cmp a b ≠ .gt → cmp b c ≠ .gt → cmp a c ≠ .gt
  strict : ∀ a b c, cmp a b = .lt → cmp b c = .lt → cmp a c = .lt
  through_equal : ∀ a b c, cmp a b = .eq → cmp a c = cmp b c ∧ cmp c a = cmp c b

theorem ne_gt_iff_isLE {o : Ordering} : o ≠ .gt ↔ o.isLE = true := by
  cases o <;> simp

theorem totalPreorder_of_transCmp {α : Type} (cmp : α → α → Ordering) [TransCmp cmp] :
    TotalPreorder cmp where
  self _ := ReflCmp.compare_self
  reverse _ _ := OrientedCmp.eq_swap
  trans a b c hab hbc := by
    rw [ne_gt_iff_isLE] at *
    exact TransCmp.isLE_trans hab hbc
  strict _ _ _ := TransCmp.lt_trans
  through_equal _ _ _ h := ⟨TransCmp.congr_left h, TransCmp.congr_right h⟩

/-- Values of any nesting are in a total preorder, the equality of index keys is that of their
order, and rows of a sort with different keys never compare equal. -/
theorem jsonCmp_total :
    TotalPreorder (jsonCmp (N := N)) ∧
    (TotalPreorder (IndexKey.cmp (N := N)) ∧ ∀ k l : IndexKey N,
      (k.eq l = true ↔ k.cmp l = .eq) ∧ k.partialCmp l = some (k.cmp l)) ∧
    ∀ order : SortOrder, TotalPreorder (compareRows (N := N) order) ∧
      ∀ a b : SortedRow N, a.key ≠ b.key → compareRows order a b = .lt ∨
        compareRows order b a = .lt := by
  have hkey : ∀ k l : IndexKey N, k.eq l = true ↔ k.cmp l = .eq := by
    intro k l
    simp [IndexKey.eq, IndexKey.cmp]
  have hrows : ∀ (order : SortOrder) (a b : SortedRow N), a.key ≠ b.key →
      compareRows order a b = .lt ∨ compareRows order b a = .lt := by
    intro order a b hne
    have hswap : compareRows order b a = (compareRows order a b).swap := OrientedCmp.eq_swap
    cases hab : compareRows order a b with
    | lt => exact .inl rfl
    | eq => exact absurd (key_eq_of_compareBy_eq hab) hne
    | gt => exact .inr (by rw [hswap, hab]; rfl)
  exact ⟨totalPreorder_of_transCmp _, ⟨totalPreorder_of_transCmp _, fun k l => ⟨hkey k l, rfl⟩⟩,
    fun order => ⟨totalPreorder_of_transCmp _, hrows order⟩⟩

/-- Two rows that tie on the sort field. -/
theorem jsonCmp_total_tie :
    compareRows ⟨[⟨['n'], true⟩]⟩ ⟨['a'], .num (1 : ℤ)⟩ ⟨['b'], .num 1⟩ = .lt ∨
      compareRows ⟨[⟨['n'], true⟩]⟩ ⟨['b'], .num (1 : ℤ)⟩ ⟨['a'], .num 1⟩ = .lt :=
  (jsonCmp_total.2.2 ⟨[⟨['n'], true⟩]⟩).2 ⟨['a'], .num 1⟩ ⟨['b'], .num 1⟩ (by decide)

end Order

end DewDB.JsonOrder
