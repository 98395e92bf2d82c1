import DewDB.SortedMap
import Mathlib.Data.Finset.Lattice.Basic

/-!
# Grouping

A list is grouped by a function into a map that covers it: one entry for each value of the function,
and that entry says something of the elements with this value. Taking in elements of one value
changes one entry. A loop whose steps succeed within a bound on the number of entries and fail
beyond it does so as a whole.
-/
namespace DewDB.Grouping

variable {α κ γ : Type*} [LinearOrder κ] {f : α → κ} {k l : κ} {xs ys : List α} {g : γ}
  {Q : List α → γ → Prop} {m : SortedMap κ γ}

def fiber (f : α → κ) (k : κ) (xs : List α) : List α := xs.filter fun x => f x = k

def image (f : α → κ) (xs : List α) : Finset κ := (xs.map f).toFinset

def Covers (Q : List α → γ → Prop) (f : α → κ) (xs : List α) (m : SortedMap κ γ) : Prop :=
  ∀ k, (m.get? k = none ∧ fiber f k xs = []) ∨ ∃ g, m.get? k = some g ∧ fiber f k xs ≠ [] ∧
    Q (fiber f k xs) g

theorem fiber_append (k : κ) (xs ys : List α) : fiber f k
    (xs ++ ys) = fiber f k xs ++ fiber f k ys :=
  List.filter_append xs ys

theorem fiber_same (h : ∀ x ∈ xs, f x = k) : fiber f k xs = xs :=
  List.filter_eq_self.mpr fun x hx => decide_eq_true (h x hx)

theorem fiber_other (h : ∀ x ∈ xs, f x = k) (hne : l ≠ k) : fiber f l xs = [] :=
  List.filter_eq_nil_iff.mpr fun x hx => by
    rw [h x hx, decide_eq_true_eq]
    exact hne.symm

theorem mem_fiber {x : α} : x ∈ fiber f k xs ↔ x ∈ xs ∧ f x = k := by
  rw [fiber, List.mem_filter, decide_eq_true_eq]

theorem mem_image_iff : k ∈ image f xs ↔ fiber f k xs ≠ [] := by
  rw [image, List.mem_toFinset, List.mem_map]
  constructor
  · rintro ⟨x, hx, hk⟩
    exact List.ne_nil_of_mem (mem_fiber.mpr ⟨hx, hk⟩)
  · intro h
    obtain ⟨x, hx⟩ := List.exists_mem_of_ne_nil _ h
    exact ⟨x, mem_fiber.mp hx⟩

theorem image_append (f : α → κ) (xs ys : List α) : image f
    (xs ++ ys) = image f xs ∪ image f ys := by
  rw [image, List.map_append, List.toFinset_append, image, image]

theorem image_same (h : ∀ x ∈ xs, f x = k) (hne : xs ≠ []) : image f xs = {k} := by
  ext l
  rw [mem_image_iff, Finset.mem_singleton]
  constructor
  · intro hl
    by_contra hlk
    exact hl (fiber_other h hlk)
  · rintro rfl
    rwa [fiber_same h]

theorem card_image_le (f : α → κ) (h : xs ⊆ ys) : (image f xs).card ≤ (image f ys).card := by
  apply Finset.card_le_card
  intro k hk
  obtain ⟨x, hx⟩ := List.exists_mem_of_ne_nil _ (mem_image_iff.mp hk)
  rw [mem_fiber] at hx
  exact mem_image_iff.mpr (List.ne_nil_of_mem (mem_fiber.mpr ⟨h hx.1, hx.2⟩))

theorem image_congr (h : ∀ k, (fiber f k xs).Perm (fiber f k ys)) : image f xs = image f ys := by
  ext k
  rw [mem_image_iff, mem_image_iff]
  constructor
  · exact fun hx hy => hx (List.perm_nil.mp (hy ▸ h k))
  · exact fun hy hx => hy (List.nil_perm.mp (hx ▸ h k))

section Covers

theorem covers_empty : Covers Q f [] (.empty : SortedMap κ γ) := fun _ => .inl ⟨rfl, rfl⟩

theorem Covers.size (h : Covers Q f xs m) : m.size = (image f xs).card := by
  apply SortedMap.size_eq_card
  intro k
  rw [mem_image_iff]
  rcases h k with ⟨hget, hnil⟩ | ⟨g, hget, hne, -⟩
  · simp [hget, hnil]
  · simp [hget, hne]

theorem Covers.insert (h : Covers Q f xs m) (hys : ∀ y ∈ ys, f y = k) (hne : ys ≠ [])
    (hg : Q (fiber f k xs ++ ys) g) : Covers Q f (xs ++ ys) (m.insert k g) := by
  intro l
  rw [SortedMap.get?_insert, fiber_append]
  by_cases hl : l = k
  · rw [if_pos hl, hl, fiber_same hys]
    exact .inr ⟨g, rfl, List.append_ne_nil_of_right_ne_nil _ hne, hg⟩
  · rw [if_neg hl, fiber_other hys hl, List.append_nil]
    exact h l

theorem Covers.card_append (h : Covers Q f xs m) (hys : ∀ y ∈ ys, f y = k) (hne : ys ≠ []) :
    (image f (xs ++ ys)).card = if (m.get? k).isSome then m.size else m.size + 1 := by
  rw [image_append, image_same hys hne, h.size]
  rcases h k with ⟨hget, hnil⟩ | ⟨g, hget, hin, -⟩
  · have hnot : k ∉ image f xs := by
      rw [mem_image_iff, hnil]
      exact fun h => h rfl
    rw [hget, Finset.union_comm, ← Finset.insert_eq, Finset.card_insert_of_notMem hnot]
    rfl
  · have hmem : k ∈ image f xs := mem_image_iff.mpr hin
    rw [hget, Finset.union_eq_left.mpr (Finset.singleton_subset_iff.mpr hmem)]
    rfl

theorem Covers.congr (hQ : ∀ xs ys g, xs.Perm ys → Q xs g → Q ys g) (h : Covers Q f xs m)
    (hperm : ∀ k, (fiber f k xs).Perm (fiber f k ys)) : Covers Q f ys m := by
  intro k
  rcases h k with ⟨hget, hnil⟩ | ⟨g, hget, hne, hg⟩
  · exact .inl ⟨hget, List.nil_perm.mp (hnil ▸ hperm k)⟩
  · exact .inr ⟨g, hget, fun hnil => hne (List.perm_nil.mp (hnil ▸ hperm k)), hQ _ _ g (hperm k) hg⟩

theorem Covers.map {δ : Type*} {P : List α → δ → Prop} (φ : γ → δ) (h : Covers Q f xs m)
    (hP : ∀ ys g, Q ys g → P ys (φ g)) : Covers P f xs (m.mapValues φ) := by
  intro k
  rw [SortedMap.get?_mapValues]
  rcases h k with ⟨hget, hnil⟩ | ⟨g, hget, hne, hg⟩
  · exact .inl ⟨by rw [hget]; rfl, hnil⟩
  · exact .inr ⟨φ g, by rw [hget]; rfl, hne, hP _ g hg⟩

theorem Covers.fiber_entries (h : Covers Q f xs m) (k : κ) :
    fiber f k (m.entries.flatMap fun e => fiber f e.1 xs) = fiber f k xs := by
  have hone : ∀ e : κ × γ, fiber f k (fiber f e.1 xs) = if e.1 = k then fiber f k xs else [] := by
    intro e
    split_ifs with hk
    · rw [hk, fiber_same fun x hx => (mem_fiber.mp hx).2]
    · exact fiber_other (fun x hx => (mem_fiber.mp hx).2) (Ne.symm hk)
  have hflat : fiber f k (m.entries.flatMap fun e => fiber f e.1 xs) =
      m.entries.flatMap fun e => if e.1 = k then fiber f k xs else [] := by
    rw [fiber, List.filter_flatMap]
    exact List.flatMap_congr fun e _ => hone e
  rw [hflat, SortedMap.flatMap_entry m.sorted]
  rcases h k with ⟨hget, hnil⟩ | ⟨g, hget, -, -⟩
  · rw [hnil, ite_self]
  · exact if_pos (by rw [show SortedMap.find k m.entries = some g from hget]; rfl)

theorem Covers.forall₂ {δ : Type*} {P : List α → δ → Prop} {n : SortedMap κ δ} {R : γ → δ → Prop}
    (hm : Covers Q f xs m) (hn : Covers P f xs n)
    (hR : ∀ ys g d, ys ≠ [] → Q ys g → P ys d → R g d) : List.Forall₂ R m.values n.values := by
  apply SortedMap.forall₂_values
  intro k
  rcases hm k with ⟨hmk, hnil⟩ | ⟨g, hmk, hne, hg⟩
  · rcases hn k with ⟨hnk, -⟩ | ⟨d, -, hne, -⟩
    · rw [hmk, hnk]
      exact .none
    · exact absurd hnil hne
  · rcases hn k with ⟨-, hnil⟩ | ⟨d, hnk, -, hd⟩
    · exact absurd hnil hne
    · rw [hmk, hnk]
      exact .some (hR _ g d hne hg hd)

end Covers

section Loops

variable {σ ι ε : Type*} {Inv : List α → σ → Prop}
  {card : List α → ℕ} {limit : ℕ} {err : ε}

/-- A step succeeds while the measure stays within the limit and fails beyond it. -/
def Bounded (Inv : List α → σ → Prop) (card : List α → ℕ) (limit : ℕ) (err : ε) (xs : List α)
    (r : Except ε σ) : Prop :=
  (card xs ≤ limit → ∃ s, r = .ok s ∧ Inv xs s) ∧ (limit < card xs → r = .error err)

theorem foldlM_bounded (step : σ → ι → Except ε σ) (elems : ι → List α)
    (hmono : ∀ xs ys, card xs ≤ card (xs ++ ys)) (items : List ι)
    (hstep : ∀ i ∈ items, ∀ xs s, Inv xs s → card xs ≤ limit →
      Bounded Inv card limit err (xs ++ elems i) (step s i)) :
    ∀ xs s, Inv xs s → card xs ≤ limit →
      Bounded Inv card limit err (xs ++ items.flatMap elems) (items.foldlM step s) := by
  induction items with
  | nil =>
    intro xs s hs hcard
    rw [List.flatMap_nil, List.append_nil]
    exact ⟨fun _ => ⟨s, rfl, hs⟩, fun h => absurd hcard (Nat.not_le_of_lt h)⟩
  | cons i items ih =>
    intro xs s hs hcard
    have hi := hstep i List.mem_cons_self xs s hs hcard
    have hrest := ih fun j hj => hstep j (List.mem_cons_of_mem _ hj)
    rw [List.flatMap_cons, ← List.append_assoc, List.foldlM_cons]
    by_cases hwithin : card (xs ++ elems i) ≤ limit
    · obtain ⟨s', hs', hinv⟩ := hi.1 hwithin
      rw [hs']
      exact hrest (xs ++ elems i) s' hinv hwithin
    · have hbeyond := Nat.lt_of_not_le hwithin
      rw [hi.2 hbeyond]
      have hall := Nat.lt_of_lt_of_le hbeyond (hmono (xs ++ elems i) (items.flatMap elems))
      exact ⟨fun h => absurd h (Nat.not_le_of_lt hall), fun _ => rfl⟩

theorem mapM_ok {f : ι → Except ε σ} {R : ι → σ → Prop} {items : List ι}
    (h : ∀ i ∈ items, ∃ s, f i = .ok s ∧ R i s) :
    ∃ out, items.mapM f = .ok out ∧ List.Forall₂ R items out := by
  induction items with
  | nil => exact ⟨[], rfl, .nil⟩
  | cons i items ih =>
    obtain ⟨s, hs, hr⟩ := h i List.mem_cons_self
    obtain ⟨out, hout, hall⟩ := ih fun j hj => h j (List.mem_cons_of_mem _ hj)
    exact ⟨s :: out, by rw [List.mapM_cons, hs, hout]; rfl, .cons hr hall⟩

theorem mapM_error {f : ι → Except ε σ} {items : List ι}
    (h : ∀ i ∈ items, (∃ s, f i = .ok s) ∨ f i = .error err)
    (hfail : ∃ i ∈ items, f i = .error err) : items.mapM f = .error err := by
  induction items with
  | nil =>
    obtain ⟨i, hi, -⟩ := hfail
    cases hi
  | cons i items ih =>
    rw [List.mapM_cons]
    rcases h i List.mem_cons_self with ⟨s, hs⟩ | herr
    · obtain ⟨j, hj, hjfail⟩ := hfail
      have hjrest : j ∈ items := by
        rcases List.mem_cons.mp hj with rfl | hj
        · rw [hs] at hjfail
          cases hjfail
        · exact hj
      rw [hs, ih (fun k hk => h k (List.mem_cons_of_mem _ hk)) ⟨j, hjrest, hjfail⟩]
      rfl
    · rw [herr]
      rfl

end Loops

end DewDB.Grouping
