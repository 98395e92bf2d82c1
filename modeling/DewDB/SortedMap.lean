import Mathlib.Algebra.Ring.Nat
import Mathlib.Order.Lattice
import Mathlib.Data.List.Basic
import Mathlib.Data.List.Pairwise
import Mathlib.Data.Finset.Card

/-!
# Sorted maps

A map as the list of its entries in the order of their keys. Two maps with the same lookups are
equal. A total over the entries changes by one entry at a time, and maps whose entries are related
key by key have related lists of values.
-/
namespace DewDB

structure SortedMap (κ α : Type*) [LinearOrder κ] where
  entries : List (κ × α)
  sorted : (entries.map Prod.fst).Pairwise (· < ·)

namespace SortedMap

variable {κ α β : Type*} [LinearOrder κ]

def find (k : κ) : List (κ × α) → Option α
  | [] => none
  | (l, a) :: es => if k = l then some a else find k es

def put (k : κ) (a : α) : List (κ × α) → List (κ × α)
  | [] => [(k, a)]
  | (l, b) :: es => if k < l then (k, a) :: (l, b) :: es else if k = l then (k, a) :: es
      else (l, b) :: put k a es

def discard (k : κ) : List (κ × α) → List (κ × α)
  | [] => []
  | (l, b) :: es => if k = l then es else (l, b) :: discard k es

section Entries

variable {es : List (κ × α)} {k l : κ} {a : α}

theorem mem_put {e : κ × α} (h : e ∈ put k a es) : e = (k, a) ∨ e ∈ es := by
  induction es with
  | nil => exact .inl (List.mem_singleton.mp h)
  | cons d es ih =>
    simp only [put] at h
    split_ifs at h with hlt heq
    · exact List.mem_cons.mp h
    · rcases List.mem_cons.mp h with h | h
      · exact .inl h
      · exact .inr (List.mem_cons_of_mem _ h)
    · rcases List.mem_cons.mp h with h | h
      · exact .inr (h ▸ List.mem_cons_self)
      · exact (ih h).imp_right (List.mem_cons_of_mem _)

theorem discard_sublist (k : κ) (es : List (κ × α)) : (discard k es).Sublist es := by
  induction es with
  | nil => exact List.Sublist.slnil
  | cons d es ih =>
    rw [discard]
    split_ifs
    · exact List.sublist_cons_self _ _
    · exact ih.cons_cons _

theorem sorted_cons {d : κ × α} (h : ((d :: es).map Prod.fst).Pairwise (· < ·)) :
    (∀ e ∈ es, d.1 < e.1) ∧ (es.map Prod.fst).Pairwise (· < ·) := by
  rw [List.map_cons, List.pairwise_cons] at h
  exact ⟨fun e he => h.1 e.1 (List.mem_map_of_mem he), h.2⟩

theorem sorted_of_cons {d : κ × α} (hd : ∀ e ∈ es, d.1 < e.1)
    (h : (es.map Prod.fst).Pairwise (· < ·)) : ((d :: es).map Prod.fst).Pairwise (· < ·) := by
  rw [List.map_cons, List.pairwise_cons]
  refine ⟨fun x hx => ?_, h⟩
  obtain ⟨e, he, rfl⟩ := List.mem_map.mp hx
  exact hd e he

theorem sorted_put (h : (es.map Prod.fst).Pairwise (· < ·)) :
    ((put k a es).map Prod.fst).Pairwise (· < ·) := by
  induction es with
  | nil => exact List.pairwise_singleton _ _
  | cons d es ih =>
    have hd := sorted_cons h
    rw [put]
    split_ifs with hlt heq
    · apply sorted_of_cons _ h
      intro e he
      rcases List.mem_cons.mp he with rfl | he
      · exact hlt
      · exact hlt.trans (hd.1 e he)
    · exact sorted_of_cons (fun e he => heq ▸ hd.1 e he) hd.2
    · apply sorted_of_cons _ (ih hd.2)
      intro e he
      rcases mem_put he with rfl | he
      · exact lt_of_le_of_ne (not_lt.mp hlt) (Ne.symm heq)
      · exact hd.1 e he

theorem find_put (k l : κ) (a : α) (es : List (κ × α)) :
    find l (put k a es) = if l = k then some a else find l es := by
  induction es with
  | nil => rfl
  | cons d es ih =>
    rw [put]
    by_cases hl : l = k
    · rw [if_pos hl]
      split_ifs with hlt heq
      · rw [find, if_pos hl]
      · rw [find, if_pos hl]
      · rw [find, if_neg fun h => heq (hl.symm.trans h), ih, if_pos hl]
    · rw [if_neg hl]
      split_ifs with hlt heq
      · rw [find, if_neg hl]
      · rw [find, if_neg hl, find, if_neg fun h => hl (h.trans heq.symm)]
      · rw [find, find, ih, if_neg hl]

theorem find_eq_none (h : ∀ e ∈ es, e.1 ≠ k) : find k es = none := by
  induction es with
  | nil => rfl
  | cons d es ih =>
    rw [find, if_neg fun hk => h d List.mem_cons_self hk.symm]
    exact ih fun e he => h e (List.mem_cons_of_mem _ he)

theorem mem_of_find (h : find k es = some a) : (k, a) ∈ es := by
  induction es with
  | nil => cases h
  | cons d es ih =>
    rw [find] at h
    split_ifs at h with hk
    · rw [hk, ← Option.some.inj h]
      exact List.mem_cons_self
    · exact List.mem_cons_of_mem _ (ih h)

theorem find_of_mem (hs : (es.map Prod.fst).Pairwise (· < ·)) (h : (k, a) ∈ es) :
    find k es = some a := by
  induction es with
  | nil => cases h
  | cons d es ih =>
    have hd := sorted_cons hs
    rw [find]
    rcases List.mem_cons.mp h with rfl | h
    · exact if_pos rfl
    · rw [if_neg (ne_of_gt (hd.1 _ h))]
      exact ih hd.2 h

theorem find_discard (hs : (es.map Prod.fst).Pairwise (· < ·)) (l : κ) :
    find l (discard k es) = if l = k then none else find l es := by
  induction es with
  | nil => exact (ite_self _).symm
  | cons d es ih =>
    have hd := sorted_cons hs
    rw [discard]
    by_cases hk : k = d.1
    · rw [if_pos hk]
      by_cases hl : l = k
      · rw [if_pos hl]
        exact find_eq_none fun e he => hl ▸ hk ▸ ne_of_gt (hd.1 e he)
      · rw [if_neg hl, find, if_neg fun h => hl (h.trans hk.symm)]
    · rw [if_neg hk, find, ih hd.2, find]
      by_cases hl : l = k
      · rw [if_pos hl, if_neg (hl ▸ hk)]
        exact (if_pos hl).symm
      · rw [if_neg hl, if_neg hl]

theorem eq_of_find_eq {ds : List (κ × α)} (hd : (ds.map Prod.fst).Pairwise (· < ·))
    (he : (es.map Prod.fst).Pairwise (· < ·)) (h : ∀ k, find k ds = find k es) : ds = es := by
  have hmem : ∀ e : κ × α, e ∈ ds ↔ e ∈ es := by
    intro e
    constructor
    · intro hm
      exact mem_of_find ((h e.1).symm.trans (find_of_mem hd hm))
    · intro hm
      exact mem_of_find ((h e.1).trans (find_of_mem he hm))
  have hlt : ∀ {fs : List (κ × α)}, (fs.map Prod.fst).Pairwise (· < ·) →
    fs.Pairwise fun a b => a.1 < b.1 :=
    fun hp => List.pairwise_map.mp hp
  have hnodup : ∀ {fs : List (κ × α)}, (fs.map Prod.fst).Pairwise (· < ·) → fs.Nodup :=
    fun hp => (hlt hp).imp fun hab heq => ne_of_lt hab (congrArg Prod.fst heq)
  have hperm : ds.Perm es := (List.perm_ext_iff_of_nodup (hnodup hd) (hnodup he)).mpr hmem
  exact hperm.eq_of_pairwise (fun a b _ _ hab hba => absurd hab (not_lt.mpr hba.le))
    (hlt hd) (hlt he)

theorem find_none_of_lt (h : ∀ e ∈ es, k < e.1) : find k es = none :=
  find_eq_none fun e he => ne_of_gt (h e he)

theorem forall₂_of_find {β : Type*} {R : α → β → Prop} {ds : List (κ × β)}
    (he : (es.map Prod.fst).Pairwise (· < ·)) (hd : (ds.map Prod.fst).Pairwise (· < ·))
    (h : ∀ k, Option.Rel R (find k es) (find k ds)) :
    List.Forall₂ R (es.map Prod.snd) (ds.map Prod.snd) := by
  induction es generalizing ds with
  | nil =>
    cases ds with
    | nil => exact .nil
    | cons d ds =>
      have := h d.1
      rw [find, find, if_pos rfl] at this
      cases this
  | cons e es ih =>
    have hes := sorted_cons he
    cases ds with
    | nil =>
      have := h e.1
      rw [find, find, if_pos rfl] at this
      cases this
    | cons d ds =>
      have hds := sorted_cons hd
      have hkey : e.1 = d.1 := by
        rcases lt_trichotomy e.1 d.1 with hlt | heq | hgt
        · have hnone : find e.1 (d :: ds) = none := find_none_of_lt fun x hx => by
            rcases List.mem_cons.mp hx with rfl | hx
            · exact hlt
            · exact hlt.trans (hds.1 x hx)
          have := h e.1
          rw [hnone, find, if_pos rfl] at this
          cases this
        · exact heq
        · have hnone : find d.1 (e :: es) = none := find_none_of_lt fun x hx => by
            rcases List.mem_cons.mp hx with rfl | hx
            · exact hgt
            · exact hgt.trans (hes.1 x hx)
          have := h d.1
          rw [hnone, find, if_pos rfl] at this
          cases this
      rw [List.map_cons, List.map_cons]
      refine .cons ?_ (ih hes.2 hds.2 fun k => ?_)
      · have := h e.1
        rw [find, if_pos rfl, find, if_pos hkey] at this
        cases this with
        | some hr => exact hr
      · by_cases hk : k = e.1
        · rw [hk, find_none_of_lt hes.1, hkey, find_none_of_lt hds.1]
          exact .none
        · have := h k
          rwa [find, if_neg hk, find, if_neg (hkey ▸ hk)] at this

/-- What the entry of a key contributes, when the others contribute nothing. -/
theorem flatMap_entry {γ : Type*} (hs : (es.map Prod.fst).Pairwise (· < ·)) (xs : List γ) :
    (es.flatMap fun e => if e.1 = k then xs else []) = if (find k es).isSome then xs else [] := by
  induction es with
  | nil => rfl
  | cons d es ih =>
    have hd := sorted_cons hs
    rw [List.flatMap_cons, ih hd.2, find]
    by_cases hk : k = d.1
    · rw [if_pos hk.symm, if_pos hk, hk, find_none_of_lt hd.1]
      exact List.append_nil xs
    · rw [if_neg fun h => hk h.symm, if_neg hk]
      rfl

theorem find_map (g : α → β) (k : κ) (es : List (κ × α)) :
    find k (es.map fun e => (e.1, g e.2)) = (find k es).map g := by
  induction es with
  | nil => rfl
  | cons d es ih =>
    rw [List.map_cons, find, find, ih]
    split_ifs
    · rfl
    · rfl

def weigh (w : α → ℕ) (es : List (κ × α)) : ℕ := (es.map fun e => w e.2).sum

theorem weigh_put (w : α → ℕ) (k : κ) (a : α) (hs : (es.map Prod.fst).Pairwise (· < ·)) :
    weigh w (put k a es) + (find k es).elim 0 w = weigh w es + w a := by
  induction es with
  | nil => exact Nat.add_comm _ _
  | cons d es ih =>
    have hd := sorted_cons hs
    have ih := ih hd.2
    rw [put, find]
    split_ifs with hlt heq heq
    · exact absurd heq (ne_of_lt hlt)
    · rw [find_none_of_lt fun e he => hlt.trans (hd.1 e he)]
      simp only [weigh, List.map_cons, List.sum_cons, Option.elim_none]
      omega
    · simp only [weigh, List.map_cons, List.sum_cons, Option.elim_some]
      omega
    · simp only [weigh, List.map_cons, List.sum_cons] at ih ⊢
      omega

theorem weigh_discard (w : α → ℕ) (k : κ) (es : List (κ × α)) :
    weigh w (discard k es) + (find k es).elim 0 w = weigh w es := by
  induction es with
  | nil => rfl
  | cons d es ih =>
    rw [discard, find]
    split_ifs with heq
    · simp only [weigh, List.map_cons, List.sum_cons, Option.elim_some]
      omega
    · simp only [weigh, List.map_cons, List.sum_cons] at ih ⊢
      omega

omit [LinearOrder κ] in
theorem weigh_filter (w : α → ℕ) (p : κ → Bool) (es : List (κ × α)) :
    weigh w (es.filter fun e => p e.1) + weigh w (es.filter fun e => !p e.1) = weigh w es := by
  induction es with
  | nil => rfl
  | cons d es ih =>
    cases hp : p d.1 with
    | true =>
      simp only [List.filter_cons, hp, Bool.not_true, Bool.false_eq_true, if_true, if_false, weigh,
        List.map_cons, List.sum_cons] at ih ⊢
      omega
    | false =>
      simp only [List.filter_cons, hp, Bool.not_false, Bool.false_eq_true, if_true, if_false, weigh,
        List.map_cons, List.sum_cons] at ih ⊢
      omega

end Entries

def empty : SortedMap κ α := ⟨[], List.Pairwise.nil⟩

def get? (m : SortedMap κ α) (k : κ) : Option α := find k m.entries

def insert (m : SortedMap κ α) (k : κ) (a : α) : SortedMap κ α :=
  ⟨put k a m.entries, sorted_put m.sorted⟩

def erase (m : SortedMap κ α) (k : κ) : SortedMap κ α :=
  ⟨discard k m.entries, m.sorted.sublist ((discard_sublist k m.entries).map Prod.fst)⟩

def size (m : SortedMap κ α) : ℕ := m.entries.length

def keys (m : SortedMap κ α) : List κ := m.entries.map Prod.fst

def values (m : SortedMap κ α) : List α := m.entries.map Prod.snd

def mapValues (g : α → β) (m : SortedMap κ α) : SortedMap κ β :=
  ⟨m.entries.map fun e => (e.1, g e.2), by rw [List.map_map]; exact m.sorted⟩

def filterKeys (p : κ → Bool) (m : SortedMap κ α) : SortedMap κ α :=
  ⟨m.entries.filter fun e => p e.1, m.sorted.sublist (List.filter_sublist.map Prod.fst)⟩

def total (w : α → ℕ) (m : SortedMap κ α) : ℕ := weigh w m.entries

section Totals

variable (w : α → ℕ) (m : SortedMap κ α)

/-- A new entry adds its weight, and the one it takes the place of loses its own. -/
theorem total_insert (k : κ) (a : α) :
    (m.insert k a).total w + (m.get? k).elim 0 w = m.total w + w a :=
  weigh_put w k a m.sorted

theorem total_erase (k : κ) : (m.erase k).total w + (m.get? k).elim 0 w = m.total w :=
  weigh_discard w k m.entries

theorem total_filterKeys (p : κ → Bool) :
    (m.filterKeys p).total w + (m.filterKeys fun k => !p k).total w = m.total w :=
      weigh_filter w p m.entries

theorem total_mapValues (g : α → α) (h : ∀ a, w (g a) = w a) :
    (m.mapValues g).total w = m.total w := by
  rw [total, mapValues, weigh, List.map_map]
  exact congrArg List.sum (List.map_congr_left fun e _ => h e.2)

end Totals

section Lookups

variable {m m' : SortedMap κ α} {k l : κ} {a : α}

@[simp] theorem get?_empty (k : κ) : (empty : SortedMap κ α).get? k = none := rfl

theorem get?_insert (m : SortedMap κ α) (k l : κ) (a : α) :
    (m.insert k a).get? l = if l = k then some a else m.get? l := find_put k l a m.entries

theorem get?_foldl_insert {γ : Type*} (key : γ → κ) (val : γ → α) (cs : List γ)
    (m : SortedMap κ α) (k : κ) :
    (cs.foldl (fun m c => m.insert (key c) (val c)) m).get? k =
      ((cs.filter fun c => key c = k).getLast?.map val).or (m.get? k) := by
  induction cs using List.reverseRecOn with
  | nil => rfl
  | append_singleton cs c ih =>
    rw [List.foldl_append, List.foldl_cons, List.foldl_nil, get?_insert, List.filter_append, ih]
    by_cases hk : k = key c
    · rw [if_pos hk, List.filter_cons_of_pos (by simpa using hk.symm), List.filter_nil,
        List.getLast?_concat]
      rfl
    · rw [if_neg hk, List.filter_cons_of_neg (by simpa using Ne.symm hk), List.filter_nil,
        List.append_nil]

theorem mem_entries_iff {e : κ × α} : e ∈ m.entries ↔ m.get? e.1 = some e.2 :=
  ⟨fun h => find_of_mem m.sorted h, fun h => mem_of_find h⟩

theorem mem_keys_iff : k ∈ m.keys ↔ (m.get? k).isSome = true := by
  rw [Option.isSome_iff_exists, keys, List.mem_map]
  constructor
  · rintro ⟨e, he, rfl⟩
    exact ⟨e.2, mem_entries_iff.mp he⟩
  · rintro ⟨a, ha⟩
    exact ⟨(k, a), mem_entries_iff.mpr ha, rfl⟩

theorem get?_mapValues (g : α → β) (m : SortedMap κ α) (k : κ) :
    (m.mapValues g).get? k = (m.get? k).map g :=
  find_map g k m.entries

theorem values_mapValues (g : α → β) (m : SortedMap κ α) :
    (m.mapValues g).values = m.values.map g := by
  rw [values, mapValues, List.map_map, values, List.map_map]
  rfl

theorem ext_get? (h : ∀ k, m.get? k = m'.get? k) : m = m' := by
  have hentries : m.entries = m'.entries := eq_of_find_eq m.sorted m'.sorted h
  cases m
  cases m'
  cases hentries
  rfl

theorem size_eq_card {s : Finset κ} (h : ∀ k, k ∈ s ↔ (m.get? k).isSome = true) :
    m.size = s.card := by
  have hnodup : m.keys.Nodup := m.sorted.imp ne_of_lt
  have hs : s = m.keys.toFinset := by
    ext k
    rw [h, List.mem_toFinset, mem_keys_iff]
  rw [hs, List.toFinset_card_of_nodup hnodup, keys, List.length_map, size]

theorem total_mono {w w' : α → ℕ} (h : ∀ k a, m.get? k = some a → w a ≤ w' a) :
    m.total w ≤ m.total w' := by
  have hsum : ∀ es : List (κ × α), (∀ e ∈ es, w e.2 ≤ w' e.2) → weigh w es ≤ weigh w' es := by
    intro es
    induction es with
    | nil => exact fun _ => Nat.le_refl 0
    | cons e es ih =>
      intro hle
      have hrest := ih fun e' he' => hle e' (List.mem_cons_of_mem e he')
      have hhead := hle e List.mem_cons_self
      simp only [weigh, List.map_cons, List.sum_cons] at hrest ⊢
      omega
  exact hsum m.entries fun e he => h e.1 e.2 (mem_entries_iff.mp he)

theorem total_one : (m.total fun _ => 1) = m.size := by
  simp [total, weigh, size]

theorem total_eq_zero {w : α → ℕ} (h : ∀ k a, m.get? k = some a → w a = 0) : m.total w = 0 := by
  have hle : m.total w ≤ m.total fun _ => 0 := total_mono fun k a ha => Nat.le_of_eq (h k a ha)
  have hzero : (m.total fun _ => 0) = 0 := by simp [total, weigh]
  omega

/-- A value that takes the place of another moves the total by the difference of their weights. -/
theorem total_replace (w : α → ℕ) {a : α} (h : m.get? k = some a) (b : α) :
    (m.insert k b).total w + w a = m.total w + w b := by
  have htotal := total_insert w m k b
  rwa [h] at htotal

theorem total_add (w : α → ℕ) (h : m.get? k = none) (b : α) :
    (m.insert k b).total w = m.total w + w b := by
  have htotal := total_insert w m k b
  rwa [h] at htotal

theorem forall₂_values {β : Type*} {R : α → β → Prop} {n : SortedMap κ β}
    (h : ∀ k, Option.Rel R (m.get? k) (n.get? k)) : List.Forall₂ R m.values n.values :=
  forall₂_of_find m.sorted n.sorted h

end Lookups

end SortedMap

end DewDB
