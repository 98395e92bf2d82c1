import Mathlib.Data.List.Sort
import Mathlib.Order.Defs.LinearOrder

/-!
# Sorting by keys

Lists of elements that are compared by a key of theirs. Where no two elements share a key the sorted
list is that of any permutation, and a sorted list in which an element stands more than once loses
the repetitions when neighbours with one key are merged. Permutations are seen through a map by
whatever the map determines.
-/
namespace DewDB.KeyedSort

variable {α κ : Type*} [LinearOrder κ] {key : α → κ} {le same : α → α → Bool}

/-- An element and what stands behind it, without those that are the same as the last one kept. -/
def dedupFrom (same : α → α → Bool) (a : α) : List α → List α
  | [] => [a]
  | b :: rest => if same b a then dedupFrom same a rest else a :: dedupFrom same b rest

/-- `Vec::dedup_by`: of neighbours that are the same the first stays. -/
def dedupBy (same : α → α → Bool) : List α → List α
  | [] => []
  | a :: rest => dedupFrom same a rest

def sortBy (le : α → α → Bool) (l : List α) : List α := l.insertionSort fun a b => le a b = true

theorem perm_sortBy (le : α → α → Bool) (l : List α) : (sortBy le l).Perm l :=
  List.perm_insertionSort _ l

@[simp] theorem mem_sortBy {a : α} {l : List α} : a ∈ sortBy le l ↔ a ∈ l :=
  (perm_sortBy le l).mem_iff

theorem pairwise_sortBy (hle : ∀ a b, le a b = true ↔ key a ≤ key b) (l : List α) :
    (sortBy le l).Pairwise fun a b => key a ≤ key b := by
  have : Std.Total fun a b => le a b = true := ⟨fun a b => by
    rw [hle, hle]
    exact le_total _ _⟩
  have : IsTrans α fun a b => le a b = true := ⟨fun a b c hab hbc => by
    rw [hle] at *
    exact hab.trans hbc⟩
  exact (List.pairwise_insertionSort (fun a b => le a b = true) l).imp fun h => (hle _ _).mp h

theorem map_sortBy (hle : ∀ a b, le a b = true ↔ key a ≤ key b) (l : List α) :
    (sortBy le l).map key = (l.map key).insertionSort (· ≤ ·) :=
  List.map_insertionSort _ _ _ _ fun a _ b _ => hle a b

theorem insertionSort_eq_of_perm {l m : List κ} (h : l.Perm m) :
    l.insertionSort (· ≤ ·) = m.insertionSort (· ≤ ·) :=
  (((List.perm_insertionSort _ l).trans h).trans (List.perm_insertionSort _ m).symm).eq_of_pairwise
    (fun _ _ _ _ => le_antisymm) (List.pairwise_insertionSort _ l) (List.pairwise_insertionSort _ m)

theorem eq_of_mem_iff {l m : List α} (hl : l.Pairwise fun a b => key a < key b)
    (hm : m.Pairwise fun a b => key a < key b) (h : ∀ a, a ∈ l ↔ a ∈ m) : l = m := by
  have hnodup : ∀ {n : List α}, (n.Pairwise fun a b => key a < key b) → n.Nodup := fun hn =>
    hn.imp fun {a b} hlt => fun heq : a = b => lt_irrefl _ (heq ▸ hlt)
  exact ((List.perm_ext_iff_of_nodup (hnodup hl) (hnodup hm)).mpr h).eq_of_pairwise
    (fun a b _ _ hab hba => absurd (hab.trans hba) (lt_irrefl _)) hl hm

theorem pairwise_lt_sortBy (hle : ∀ a b, le a b = true ↔ key a ≤ key b) {l : List α}
    (hnodup : (l.map key).Nodup) : (sortBy le l).Pairwise fun a b => key a < key b := by
  have hkeys : ((sortBy le l).map key).Nodup := ((perm_sortBy le l).map key).nodup_iff.mpr hnodup
  exact ((pairwise_sortBy hle l).and (List.pairwise_map.mp hkeys)).imp fun h =>
    lt_of_le_of_ne h.1 h.2

theorem sortBy_eq_of_perm (hle : ∀ a b, le a b = true ↔ key a ≤ key b) {l m : List α}
    (hnodup : (l.map key).Nodup) (h : l.Perm m) : sortBy le l = sortBy le m :=
  eq_of_mem_iff (pairwise_lt_sortBy hle hnodup)
    (pairwise_lt_sortBy hle ((h.map key).nodup_iff.mp hnodup)) fun a => by
    rw [mem_sortBy, mem_sortBy, h.mem_iff]

theorem mem_of_mem_dedupFrom {x : α} (a : α) (l : List α) (h : x ∈ dedupFrom same a l) :
    x ∈ a :: l := by
  induction l generalizing a with
  | nil => exact h
  | cons b rest ih =>
    rw [dedupFrom] at h
    split_ifs at h
    · rcases List.mem_cons.mp (ih a h) with rfl | h
      · exact List.mem_cons_self
      · exact List.mem_cons_of_mem _ (List.mem_cons_of_mem _ h)
    · rcases List.mem_cons.mp h with rfl | h
      · exact List.mem_cons_self
      · exact List.mem_cons_of_mem _ (ih b h)

theorem mem_of_mem_dedupBy {x : α} {l : List α} (h : x ∈ dedupBy same l) : x ∈ l := by
  cases l with
  | nil => exact h
  | cons a l => exact mem_of_mem_dedupFrom a l h

omit [LinearOrder κ] in
theorem exists_mem_dedupFrom (hsame : ∀ a b, same a b = true ↔ key a = key b) (a : α) (l : List α) :
    ∀ x ∈ a :: l, ∃ b ∈ dedupFrom same a l, key b = key x := by
  induction l generalizing a with
  | nil => exact fun x h => ⟨x, h, rfl⟩
  | cons b rest ih =>
    intro x h
    rw [dedupFrom]
    split_ifs with hab
    · rcases List.mem_cons.mp h with rfl | h
      · exact ih _ _ List.mem_cons_self
      · rcases List.mem_cons.mp h with rfl | h
        · obtain ⟨d, hd, hkey⟩ := ih a a List.mem_cons_self
          exact ⟨d, hd, hkey.trans ((hsame _ _).mp hab).symm⟩
        · exact ih a x (List.mem_cons_of_mem _ h)
    · rcases List.mem_cons.mp h with rfl | h
      · exact ⟨x, List.mem_cons_self, rfl⟩
      · obtain ⟨d, hd, hkey⟩ := ih b x h
        exact ⟨d, List.mem_cons_of_mem _ hd, hkey⟩

omit [LinearOrder κ] in
theorem exists_mem_dedupBy (hsame : ∀ a b, same a b = true ↔ key a = key b) {l : List α}
    {x : α} (h : x ∈ l) : ∃ b ∈ dedupBy same l, key b = key x := by
  cases l with
  | nil => cases h
  | cons a l => exact exists_mem_dedupFrom hsame a l x h

theorem pairwise_lt_dedupFrom (hsame : ∀ a b, same a b = true ↔ key a = key b) (a : α) (l : List α)
    (h : (a :: l).Pairwise fun a b => key a ≤ key b) :
    (dedupFrom same a l).Pairwise fun a b => key a < key b := by
  induction l generalizing a with
  | nil => exact List.pairwise_singleton _ a
  | cons b rest ih =>
    rw [List.pairwise_cons] at h
    rw [dedupFrom]
    split_ifs with hab
    · exact ih a (List.pairwise_cons.mpr
        ⟨fun c hc => h.1 c (List.mem_cons_of_mem _ hc), (List.pairwise_cons.mp h.2).2⟩)
    · refine List.pairwise_cons.mpr ⟨fun c hc => ?_, ih b h.2⟩
      have hlt : key a < key b :=
        lt_of_le_of_ne (h.1 b List.mem_cons_self) fun heq => hab ((hsame b a).mpr heq.symm)
      rcases List.mem_cons.mp (mem_of_mem_dedupFrom b rest hc) with rfl | hc
      · exact hlt
      · exact hlt.trans_le ((List.pairwise_cons.mp h.2).1 c hc)

theorem pairwise_lt_dedupBy (hsame : ∀ a b, same a b = true ↔ key a = key b) {l : List α}
    (h : l.Pairwise fun a b => key a ≤ key b) :
    (dedupBy same l).Pairwise fun a b => key a < key b := by
  cases l with
  | nil => exact .nil
  | cons a l => exact pairwise_lt_dedupFrom hsame a l h

theorem dedupBy_sortBy (hle : ∀ a b, le a b = true ↔ key a ≤ key b)
    (hsame : ∀ a b, same a b = true ↔ key a = key b)
    {l m : List α} (hnodup : (m.map key).Nodup) (h : ∀ a, a ∈ l ↔ a ∈ m) :
    dedupBy same (sortBy le l) = sortBy le m := by
  apply eq_of_mem_iff (pairwise_lt_dedupBy hsame (pairwise_sortBy hle l))
    (pairwise_lt_sortBy hle hnodup)
  intro a
  rw [mem_sortBy, ← h]
  refine ⟨fun ha => mem_sortBy.mp (mem_of_mem_dedupBy ha), fun ha => ?_⟩
  obtain ⟨b, hb, hkey⟩ := exists_mem_dedupBy hsame (mem_sortBy.mpr ha)
  have hbm : b ∈ m := (h b).mp (mem_sortBy.mp (mem_of_mem_dedupBy hb))
  exact List.inj_on_of_nodup_map hnodup hbm ((h a).mp ha) hkey ▸ hb

theorem perm_map_of_factors {α β γ : Type*} {f : α → β} {g : α → γ} [Inhabited γ] {ls ms : List α}
    (hfg : Function.FactorsThrough g f) (h : (ls.map f).Perm (ms.map f)) :
    (ls.map g).Perm (ms.map g) := by
  have hext : g = Function.extend f g (fun _ => default) ∘ f := by
    funext a
    exact (hfg.extend_apply _ a).symm
  rw [hext, ← List.map_map, ← List.map_map]
  exact h.map _

theorem perm_filter_map_of_factors {α β γ : Type*} {f : α → β} {g : α → γ} {p : α → Bool}
    {ls ms : List α}
    (hp : ∀ a b, f a = f b → p a = p b) (hg : ∀ a b, f a = f b → g a = g b)
    (h : (ls.map f).Perm (ms.map f)) : ((ls.filter p).map g).Perm ((ms.filter p).map g) := by
  have hselect : ∀ as : List α, (as.filter p).map g =
      (as.map fun a => if p a then some (g a) else none).filterMap id := by
    intro as
    induction as with
    | nil => rfl
    | cons a as ih => cases hpa : p a <;> simp [hpa, ih]
  have hfactors : Function.FactorsThrough (fun a => if p a then some (g a) else none) f := by
    intro a b hab
    dsimp only
    rw [hp a b hab, hg a b hab]
  rw [hselect, hselect]
  exact (perm_map_of_factors hfactors h).filterMap _

end DewDB.KeyedSort
