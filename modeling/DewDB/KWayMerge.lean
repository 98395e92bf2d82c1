import DewDB.StableSort

/-!
# Merging any number of sorted lists

A head is kept in every list, and the least of the heads is taken, of equal ones the first. What
comes out is the start of the stable sort of the lists one behind the other, and it depends on no
more of each list than is asked for in all.
-/
namespace DewDB.KWayMerge

open StableSort

variable {α : Type*} {cmp : α → α → Ordering} {lists pages : List (List α)} {heads : List ℕ}
  {i n : ℕ} {x y : α}

def headAt (lists : List (List α)) (heads : List ℕ) (i : ℕ) : Option α :=
  lists[i]?.bind fun l => heads[i]?.bind fun h => l[h]?

def better (cmp : α → α → Ordering) (lists : List (List α)) (heads : List ℕ)
    (best : Option (ℕ × α)) (i : ℕ) : Option (ℕ × α) :=
  match headAt lists heads i, best with
  | none, _ => best
  | some x, none => some (i, x)
  | some x, some (b, y) => if cmp x y = .lt then some (i, x) else some (b, y)

def bestHead (cmp : α → α → Ordering) (lists : List (List α)) (heads : List ℕ) : Option (ℕ × α) :=
  (List.range lists.length).foldl (better cmp lists heads) none

def mergeFrom (cmp : α → α → Ordering) (lists : List (List α)) : ℕ → List ℕ → List α
  | 0, _ => []
  | n + 1, heads =>
    match bestHead cmp lists heads with
    | none => []
    | some (i, x) => x :: mergeFrom cmp lists n (heads.modify i (· + 1))

def kwayMerge (cmp : α → α → Ordering) (lists : List (List α)) (limit : ℕ) : List α :=
  mergeFrom cmp lists limit (List.replicate lists.length 0)

def rest (lists : List (List α)) (heads : List ℕ) : List (List α) :=
  List.zipWith (fun l h => l.drop h) lists heads

section Heads

theorem headAt_eq (lists : List (List α)) (heads : List ℕ) (i : ℕ) :
    headAt lists heads i = (rest lists heads)[i]?.bind List.head? := by
  rw [headAt, rest, List.getElem?_zipWith]
  cases lists[i]? with
  | none => simp
  | some l =>
    cases heads[i]? with
    | none => simp
    | some h => simp

/-- Among the first `m` lists, the best head is below the heads in front of it and not above those
behind. -/
inductive IsBest (cmp : α → α → Ordering) (lists : List (List α)) (heads : List ℕ) (m : ℕ) :
    Option (ℕ × α) → Prop where
  | none (hnone : ∀ i < m, headAt lists heads i = none) : IsBest cmp lists heads m none
  | some {i : ℕ} {x : α} (hlt : i < m) (hhead : headAt lists heads i = some x)
      (hfront : ∀ j < i, ∀ y, headAt lists heads j = some y → leBy cmp y x = false)
      (hbehind : ∀ j, i < j → j < m → ∀ y, headAt lists heads j = some y → leBy cmp x y = true) :
      IsBest cmp lists heads m (some (i, x))

variable [Std.TransCmp cmp]

theorem IsBest.step {m : ℕ} {best : Option (ℕ × α)} (h : IsBest cmp lists heads m best) :
    IsBest cmp lists heads (m + 1) (better cmp lists heads best m) := by
  have hle := preorder_leBy cmp
  unfold better
  cases hm : headAt lists heads m with
  | none =>
    cases h with
    | none hnone =>
      refine .none fun i hi => ?_
      rcases Nat.lt_succ_iff_lt_or_eq.mp hi with hi | rfl
      · exact hnone i hi
      · exact hm
    | some hlt hhead hfront hbehind =>
      refine .some (Nat.lt_succ_of_lt hlt) hhead hfront fun j hij hj y hy => ?_
      rcases Nat.lt_succ_iff_lt_or_eq.mp hj with hj | rfl
      · exact hbehind j hij hj y hy
      · cases hm.symm.trans hy
  | some x =>
    cases h with
    | none hnone =>
      refine .some (Nat.lt_succ_self m) hm (fun j hj y hy => ?_) fun j hij hj => ?_
      · cases (hnone j hj).symm.trans hy
      · omega
    | @some b z hlt hhead hfront hbehind =>
      by_cases hx : cmp x z = .lt
      · have hxz := eq_lt_iff_leBy.mp hx
        simp only [hx, if_true]
        refine .some (Nat.lt_succ_self m) hm (fun j hj y hy => ?_) fun j hij hj => ?_
        · rcases Nat.lt_trichotomy j b with hjb | rfl | hbj
          · cases hyx : leBy cmp y x with
            | false => rfl
            | true =>
              have := hfront j hjb y hy
              rw [hle.trans y x z hyx (hle.le_of_not hxz)] at this
              cases this
          · obtain rfl := Option.some.inj (hhead.symm.trans hy)
            exact hxz
          · exact hle.not_le_trans hxz (hbehind j hbj hj y hy)
        · omega
      · simp only [hx, if_false]
        refine .some (Nat.lt_succ_of_lt hlt) hhead hfront fun j hij hj y hy => ?_
        rcases Nat.lt_succ_iff_lt_or_eq.mp hj with hj | rfl
        · exact hbehind j hij hj y hy
        · obtain rfl := Option.some.inj (hm.symm.trans hy)
          cases hzx : leBy cmp z x with
          | true => rfl
          | false => exact absurd (eq_lt_iff_leBy.mpr hzx) hx

theorem bestHead_isBest (cmp : α → α → Ordering) [Std.TransCmp cmp] (lists : List (List α))
    (heads : List ℕ) : IsBest cmp lists heads lists.length (bestHead cmp lists heads) := by
  unfold bestHead
  induction lists.length with
  | zero => exact .none fun i hi => absurd hi (Nat.not_lt_zero i)
  | succ m ih =>
    rw [List.range_succ, List.foldl_append]
    exact ih.step

end Heads

section Rest

theorem rest_split (hhead : headAt lists heads i = some x) :
    ∃ pre l post, rest lists heads = pre ++ (x :: l) :: post ∧
    pre.length = i ∧ rest lists (heads.modify i (· + 1)) = pre ++ l :: post := by
  induction lists generalizing heads i with
  | nil => simp [headAt] at hhead
  | cons p ps ih =>
    cases heads with
    | nil => simp [headAt] at hhead
    | cons h hs =>
      cases i with
      | zero =>
        have hget : p[h]? = some x := by simpa [headAt] using hhead
        obtain ⟨hlt, hx⟩ := List.getElem?_eq_some_iff.mp hget
        refine ⟨[], p.drop (h + 1), rest ps hs, ?_, rfl, ?_⟩
        · rw [rest, List.zipWith_cons_cons, List.drop_eq_getElem_cons hlt, hx]
          rfl
        · simp [rest]
      | succ i =>
        obtain ⟨pre, l, post, hrest, hlen, hnext⟩ := @ih hs i (by simpa [headAt] using hhead)
        refine ⟨p.drop h :: pre, l, post, ?_, by simp [hlen], ?_⟩
        · rw [rest, List.zipWith_cons_cons, ← rest, hrest]
          rfl
        · rw [List.modify_succ_cons, rest, List.zipWith_cons_cons, ← rest, hnext]
          rfl

theorem rest_ordered {le : α → α → Bool} (hordered : ∀ l ∈ lists, Ordered le l) :
    ∀ l ∈ rest lists heads, Ordered le l := by
  intro l hl
  obtain ⟨j, hj, rfl⟩ := List.mem_iff_getElem.mp hl
  simp only [rest, List.getElem_zipWith]
  exact (hordered _ (List.getElem_mem _)).sublist (List.drop_sublist _ _)

theorem head_le {le : α → α → Bool} (h : Preorder le)
    (hordered : ∀ l ∈ lists, Ordered le l) {l : List α}
    (hl : (rest lists heads)[i]? = some l) (hy : y ∈ l) :
    ∃ z, headAt lists heads i = some z ∧ le z y = true := by
  cases l with
  | nil => cases hy
  | cons z l =>
    refine ⟨z, by rw [headAt_eq, hl]; rfl, ?_⟩
    rcases List.mem_cons.mp hy with rfl | hy
    · exact h.refl y
    · exact (List.pairwise_cons.mp (rest_ordered hordered _ (List.mem_of_getElem? hl))).1 y hy

@[simp] theorem rest_replicate_zero (lists : List (List α)) :
    rest lists (List.replicate lists.length 0) = lists := by
  induction lists with
  | nil => rfl
  | cons l ls ih =>
    rw [List.length_cons, List.replicate_succ, rest, List.zipWith_cons_cons, ← rest, ih]
    rfl

end Rest

variable [Std.TransCmp cmp]

/-- From wherever the heads are, the merge goes on with the sort of what they have not passed. -/
theorem mergeFrom_eq (hordered : ∀ l ∈ lists, Ordered (leBy cmp) l)
    (hlen : heads.length = lists.length) (n : ℕ) :
    mergeFrom cmp lists n heads = (sortBy (leBy cmp) (rest lists heads).flatten).take n := by
  have hle := preorder_leBy cmp
  induction n generalizing heads with
  | zero => simp [mergeFrom]
  | succ n ih =>
    have hbest := bestHead_isBest cmp lists heads
    have hlen' : (rest lists heads).length = lists.length := by simp [rest, hlen]
    rw [mergeFrom]
    generalize bestHead cmp lists heads = best at hbest
    cases hbest with
    | none hnone =>
      have hempty : (rest lists heads).flatten = [] := by
        apply List.eq_nil_iff_forall_not_mem.mpr
        intro y hy
        obtain ⟨l, hl, hy⟩ := List.mem_flatten.mp hy
        obtain ⟨j, hj⟩ := List.mem_iff_getElem?.mp hl
        obtain ⟨z, hz, -⟩ := head_le hle hordered hj hy
        have hlt := (List.getElem?_eq_some_iff.mp hj).1
        cases (hnone j (hlen' ▸ hlt)).symm.trans hz
      simp [hempty]
    | @some i x hlt hhead hfront hbehind =>
      obtain ⟨pre, l, post, hrest, hpre, hnext⟩ := rest_split hhead
      have hbelow : ∀ y ∈ pre.flatten, leBy cmp y x = false := by
        intro y hy
        obtain ⟨p, hp, hy⟩ := List.mem_flatten.mp hy
        obtain ⟨j, hj⟩ := List.mem_iff_getElem?.mp hp
        have hji := (List.getElem?_eq_some_iff.mp hj).1
        have hget : (rest lists heads)[j]? = some p := by
          rw [hrest, List.getElem?_append_left hji, hj]
        obtain ⟨z, hz, hzy⟩ := head_le hle hordered hget hy
        exact hle.not_le_trans (hfront j (hpre ▸ hji) z hz) hzy
      have hleast : ∀ y ∈ l ++ post.flatten, leBy cmp x y = true := by
        intro y hy
        rcases List.mem_append.mp hy with hy | hy
        · have hmem : (x :: l) ∈ rest lists heads :=
            hrest ▸ List.mem_append_right _ List.mem_cons_self
          exact (List.pairwise_cons.mp (rest_ordered hordered _ hmem)).1 y hy
        · obtain ⟨p, hp, hy⟩ := List.mem_flatten.mp hy
          obtain ⟨j, hj⟩ := List.mem_iff_getElem?.mp hp
          have hget : (rest lists heads)[i + 1 + j]? = some p := by
            rw [hrest, List.getElem?_append_right (by omega)]
            have : i + 1 + j - pre.length = j + 1 := by omega
            rw [this, List.getElem?_cons_succ, hj]
          obtain ⟨z, hz, hzy⟩ := head_le hle hordered hget hy
          have hji := (List.getElem?_eq_some_iff.mp hget).1
          exact hle.trans x z y (hbehind _ (by omega) (hlen' ▸ hji) z hz) hzy
      have hall : ∀ y ∈ pre.flatten ++ (l ++ post.flatten), leBy cmp x y = true := by
        intro y hy
        rcases List.mem_append.mp hy with hy | hy
        · exact hle.le_of_not (hbelow y hy)
        · exact hleast y hy
      have hflat : (rest lists heads).flatten = pre.flatten ++ x :: (l ++ post.flatten) := by
        simp [hrest]
      have hflat' : (rest lists (heads.modify i (· + 1))).flatten =
        pre.flatten ++ (l ++ post.flatten) := by
        simp [hnext]
      dsimp only
      rw [ih (by simpa using hlen), hflat, hflat', sortBy_append_cons hle hbelow,
        sortBy_cons_least hle hall, List.take_succ_cons]

/-- The merge of sorted lists is the start of the stable sort of all their elements. -/
theorem kwayMerge_eq (hordered : ∀ l ∈ lists, Ordered (leBy cmp) l) (n : ℕ) :
    kwayMerge cmp lists n = (sortBy (leBy cmp) lists.flatten).take n := by
  rw [kwayMerge, mergeFrom_eq hordered (by simp), rest_replicate_zero]

theorem ordered_pages {le : α → α → Bool}
    (h : List.Forall₂ (fun page l => page <+: l ∧ (n ≤ page.length ∨ page = l)) pages lists)
    (hordered : ∀ l ∈ lists, Ordered le l) : ∀ page ∈ pages, Ordered le page := by
  induction h with
  | nil => simp
  | @cons page l pages lists hpage _ ih =>
    intro p hp
    rcases List.mem_cons.mp hp with rfl | hp
    · exact (hordered l List.mem_cons_self).sublist hpage.1.sublist
    · exact ih (fun l' hl' => hordered l' (List.mem_cons_of_mem l hl')) p hp

theorem take_sortBy_pages
    (h : List.Forall₂ (fun page l => page <+: l ∧ (n ≤ page.length ∨ page = l)) pages lists)
    (hordered : ∀ l ∈ lists, Ordered (leBy cmp) l) :
    (sortBy (leBy cmp) pages.flatten).take n = (sortBy (leBy cmp) lists.flatten).take n := by
  have hle := preorder_leBy cmp
  induction h with
  | nil => rfl
  | @cons page l pages lists hpage _ ih =>
    have hl := hordered l List.mem_cons_self
    have ih := ih fun l' hl' => hordered l' (List.mem_cons_of_mem l hl')
    have htake : page = l.take page.length := List.prefix_iff_eq_take.mp hpage.1
    have hsort : sortBy (leBy cmp) page = page := sortBy_of_ordered (hl.sublist hpage.1.sublist)
    have hfirst : ∀ rows, (page.merge rows (leBy cmp)).take n =
      (l.merge rows (leBy cmp)).take n := by
      intro rows
      rcases hpage.2 with hlong | rfl
      · rw [htake, take_merge_left hlong]
      · rfl
    rw [List.flatten_cons, List.flatten_cons, sortBy_append hle, sortBy_append hle, hsort,
      sortBy_of_ordered hl,
      hfirst, ← take_merge_right (Nat.le_refl n), ih, take_merge_right (Nat.le_refl n)]

end DewDB.KWayMerge
