import Mathlib.Data.List.Sort

/-!
# Stable sorting

`sortBy` is the stable sort by a total preorder. It inserts the first element, in front of its
equals, into what is sorted behind it; it merges what two parts are sorted to; and the first
elements of a merge need no more than the first elements of its parts.
-/
namespace DewDB.StableSort

variable {α : Type*} {le : α → α → Bool} {a x : α} {l l' xs ys : List α} {k n : ℕ}

structure Preorder (le : α → α → Bool) : Prop where
  trans : ∀ a b c, le a b = true → le b c = true → le a c = true
  total : ∀ a b, (le a b || le b a) = true

def sortBy (le : α → α → Bool) (l : List α) : List α := l.mergeSort le

def insertBy (le : α → α → Bool) (a : α) : List α → List α
  | [] => [a]
  | b :: l => if le a b then a :: b :: l else b :: insertBy le a l

def Ordered (le : α → α → Bool) (l : List α) : Prop := l.Pairwise fun a b => le a b = true

def leBy (cmp : α → α → Ordering) (a b : α) : Bool := (cmp a b).isLE

section Preorders

theorem preorder_leBy (cmp : α → α → Ordering) [Std.TransCmp cmp] : Preorder (leBy cmp) where
  trans _ _ _ := Std.TransCmp.isLE_trans
  total a b := by
    rw [leBy, leBy, @Std.OrientedCmp.eq_swap _ cmp _ b]
    cases cmp a b <;> rfl

theorem eq_lt_iff_leBy {cmp : α → α → Ordering} [Std.TransCmp cmp] {a b : α} :
    cmp a b = .lt ↔ leBy cmp b a = false := by
  rw [leBy, @Std.OrientedCmp.eq_swap _ cmp _ b]
  cases cmp a b <;> simp

theorem Preorder.refl (h : Preorder le) (a : α) : le a a = true := by
  simpa using h.total a a

theorem Preorder.le_of_not (h : Preorder le) {a b : α} (hab : le a b = false) : le b a = true := by
  simpa [hab] using h.total a b

theorem Preorder.not_le_trans (h : Preorder le) {a b c : α} (hab : le b a = false)
    (hbc : le b c = true) : le c a = false := by
  cases hca : le c a with
  | false => rfl
  | true =>
    rw [h.trans b c a hbc hca] at hab
    cases hab

end Preorders

section Sorting

theorem insertBy_append (hl : ∀ b ∈ l, le a b = false) (hl' : ∀ b ∈ l', le a b = true) :
    insertBy le a (l ++ l') = l ++ a :: l' := by
  induction l with
  | nil =>
    cases l' with
    | nil => rfl
    | cons b l' => simp [insertBy, hl' b List.mem_cons_self]
  | cons b l ih =>
    have hb := hl b List.mem_cons_self
    rw [List.cons_append, insertBy, hb, if_neg Bool.false_ne_true, ih fun c hc =>
      hl c (List.mem_cons_of_mem b hc), List.cons_append]

theorem ordered_sortBy (h : Preorder le) (l : List α) : Ordered le (sortBy le l) :=
  List.pairwise_mergeSort h.trans h.total l

theorem sortBy_perm (le : α → α → Bool) (l : List α) : (sortBy le l).Perm l :=
  List.mergeSort_perm l le

@[simp] theorem mem_sortBy : a ∈ sortBy le l ↔ a ∈ l := List.mem_mergeSort

@[simp] theorem length_sortBy (le : α → α → Bool) (l : List α) : (sortBy le l).length = l.length :=
  List.length_mergeSort l

theorem sortBy_of_ordered (h : Ordered le l) : sortBy le l = l := List.mergeSort_of_pairwise h

@[simp] theorem sortBy_nil (le : α → α → Bool) : sortBy le [] = [] := by
  simp [sortBy]

theorem sortBy_cons (h : Preorder le) (a : α) (l : List α) :
    sortBy le (a :: l) = insertBy le a (sortBy le l) := by
  obtain ⟨l₁, l₂, hcons, hl, hbelow⟩ := List.mergeSort_cons h.trans h.total a l
  have hordered := ordered_sortBy h (a :: l)
  rw [sortBy, hcons, Ordered, List.pairwise_append, List.pairwise_cons] at hordered
  rw [sortBy, sortBy, hcons, hl, insertBy_append]
  · intro b hb
    simpa using hbelow b hb
  · exact hordered.2.1.1

theorem sortBy_cons_least (h : Preorder le) (hleast : ∀ b ∈ l, le a b = true) :
    sortBy le (a :: l) = a :: sortBy le l := by
  rw [sortBy_cons h]
  apply @insertBy_append _ le a [] (sortBy le l)
  · simp
  · intro b hb
    exact hleast b (mem_sortBy.mp hb)

/-- Of two elements the one strictly below may be inserted first or last. -/
theorem insertBy_comm (h : Preorder le) (hlt : le a x = false) (l : List α) :
    insertBy le a (insertBy le x l) = insertBy le x (insertBy le a l) := by
  have hxa := h.le_of_not hlt
  induction l with
  | nil => simp [insertBy, hlt, hxa]
  | cons b l ih =>
    by_cases hxb : le x b = true
    · by_cases hab : le a b = true
      · simp [insertBy, hxb, hab, hlt, hxa]
      · simp [insertBy, hxb, hab, hlt]
    · have hbx := h.le_of_not (Bool.eq_false_iff.mpr hxb)
      have hab : le a b = false := by
        cases hab : le a b with
        | false => rfl
        | true =>
          rw [h.trans a b x hab hbx] at hlt
          cases hlt
      simp [insertBy, hxb, hab, ih]

/-- An element that is strictly below what stands in front of it may stand in front. -/
theorem sortBy_append_cons (h : Preorder le) (hlt : ∀ b ∈ l, le b x = false) (l' : List α) :
    sortBy le (l ++ x :: l') = sortBy le (x :: (l ++ l')) := by
  induction l with
  | nil => rfl
  | cons b l ih =>
    have hrest := ih fun c hc => hlt c (List.mem_cons_of_mem b hc)
    calc sortBy le (b :: (l ++ x :: l'))
        = insertBy le b (sortBy le (l ++ x :: l')) := sortBy_cons h b _
      _ = insertBy le b (insertBy le x (sortBy le (l ++ l'))) := by rw [hrest, sortBy_cons h x]
      _ = insertBy le x (insertBy le b (sortBy le (l ++ l'))) :=
        insertBy_comm h (hlt b List.mem_cons_self) _
      _ = sortBy le (x :: (b :: l ++ l')) := by
        rw [← sortBy_cons h b, ← sortBy_cons h x, List.cons_append]

theorem filter_insertBy (h : Preorder le) (p : α → Bool) (hl : Ordered le l) :
    (insertBy le a l).filter p = if p a then insertBy le a (l.filter p) else l.filter p := by
  induction l with
  | nil => simp [insertBy, List.filter_cons]
  | cons b l ih =>
    rw [Ordered, List.pairwise_cons] at hl
    by_cases hab : le a b = true
    · -- nothing that is selected is below the element
      have hbelow : ∀ c ∈ (b :: l).filter p, le a c = true := by
        intro c hc
        rcases List.mem_cons.mp (List.mem_filter.mp hc).1 with rfl | hc
        · exact hab
        · exact h.trans a b c hab (hl.1 c hc)
      have hfront := @insertBy_append _ le a [] ((b :: l).filter p) (by simp) hbelow
      rw [List.nil_append, List.nil_append] at hfront
      rw [insertBy, if_pos hab, List.filter_cons, hfront]
    · rw [insertBy, if_neg hab, List.filter_cons, ih hl.2, List.filter_cons]
      by_cases hb : p b = true
      · by_cases ha : p a = true
        · simp [ha, hb, insertBy, hab]
        · simp [ha, hb]
      · simp [hb]

theorem sortBy_filter (h : Preorder le) (p : α → Bool) (l : List α) :
    (sortBy le l).filter p = sortBy le (l.filter p) := by
  induction l with
  | nil => simp
  | cons a l ih =>
    rw [sortBy_cons h, filter_insertBy h p (ordered_sortBy h l), ih, List.filter_cons]
    split_ifs
    · rw [sortBy_cons h]
    · rfl

end Sorting

section Merging

theorem insertBy_merge (h : Preorder le) (a : α) (xs ys : List α) :
    insertBy le a (xs.merge ys le) = (insertBy le a xs).merge ys le := by
  induction xs generalizing ys with
  | nil =>
    induction ys with
    | nil => simp [insertBy]
    | cons y ys ih =>
      by_cases hay : le a y = true
      · simp [insertBy, hay]
      · simpa [insertBy, hay] using ih
  | cons x xs ihx =>
    induction ys with
    | nil => simp
    | cons y ys ihy =>
      by_cases hxy : le x y = true
      · by_cases hax : le a x = true
        · have hay := h.trans a x y hax hxy
          simp [insertBy, hxy, hax, hay]
        · simp [insertBy, hxy, hax, ihx]
      · have hyx := h.le_of_not (Bool.eq_false_iff.mpr hxy)
        by_cases hax : le a x = true
        · by_cases hay : le a y = true
          · simp [insertBy, hxy, hax, hay]
          · simpa [insertBy, List.cons_merge_cons, hxy, hax, hay] using ihy
        · have hay : le a y = false := by
            cases hay : le a y with
            | false => rfl
            | true => exact absurd (h.trans a y x hay hyx) hax
          simpa [insertBy, List.cons_merge_cons, hxy, hax, hay] using ihy

theorem sortBy_append (h : Preorder le) (l l' : List α) :
    sortBy le (l ++ l') = (sortBy le l).merge (sortBy le l') le := by
  induction l with
  | nil => simp
  | cons a l ih => rw [List.cons_append, sortBy_cons h, ih, insertBy_merge h, sortBy_cons h]

theorem sortBy_flatten_map (h : Preorder le) (lists : List (List α)) :
    sortBy le (lists.map (sortBy le)).flatten = sortBy le lists.flatten := by
  induction lists with
  | nil => rfl
  | cons l lists ih =>
    rw [List.map_cons, List.flatten_cons, List.flatten_cons, sortBy_append h, sortBy_append h, ih,
      sortBy_of_ordered (ordered_sortBy h l)]

theorem take_merge_left (hk : n ≤ k) :
    ((xs.take k).merge ys le).take n = (xs.merge ys le).take n := by
  induction xs generalizing ys k n with
  | nil => simp
  | cons x xs ihx =>
    induction ys generalizing n with
    | nil => simp [List.take_take, Nat.min_eq_left hk]
    | cons y ys ihy =>
      cases n with
      | zero => simp
      | succ n =>
        obtain ⟨k, rfl⟩ : ∃ j, k = j + 1 := ⟨k - 1, by omega⟩
        rw [List.take_succ_cons, List.cons_merge_cons, List.cons_merge_cons]
        split_ifs
        · rw [List.take_succ_cons, List.take_succ_cons, ihx (by omega)]
        · have hrest := @ihy n (by omega)
          rw [List.take_succ_cons] at hrest
          simp only [List.take_succ_cons, hrest]

theorem take_merge_right (hk : n ≤ k) :
    (xs.merge (ys.take k) le).take n = (xs.merge ys le).take n := by
  induction xs generalizing ys k n with
  | nil => simp [List.take_take, Nat.min_eq_left hk]
  | cons x xs ihx =>
    induction ys generalizing n k with
    | nil => simp
    | cons y ys ihy =>
      cases n with
      | zero => simp
      | succ n =>
        obtain ⟨k, rfl⟩ : ∃ j, k = j + 1 := ⟨k - 1, by omega⟩
        rw [List.take_succ_cons, List.cons_merge_cons, List.cons_merge_cons]
        split_ifs
        · have hrest := @ihx (y :: ys) (k + 1) n (by omega)
          rw [List.take_succ_cons] at hrest
          simp only [List.take_succ_cons, hrest]
        · rw [List.take_succ_cons, List.take_succ_cons, ihy (by omega)]

theorem take_sortBy_append (h : Preorder le) (hk : n ≤ k) (l l' : List α) :
    (sortBy le ((sortBy le l).take k ++ l')).take n = (sortBy le (l ++ l')).take n := by
  have hsorted : sortBy le ((sortBy le l).take k) = (sortBy le l).take k :=
    sortBy_of_ordered ((ordered_sortBy h l).sublist (List.take_sublist k _))
  rw [sortBy_append h, sortBy_append h, hsorted, take_merge_left hk]

end Merging

end DewDB.StableSort
