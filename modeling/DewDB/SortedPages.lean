import DewDB.QueryPages

/-!
# Pages of a sorted query

A sorted page reads the whole range within a budget and keeps the rows behind its cursor. It sorts
and cuts its buffer whenever it has grown to twice a page, which loses none of the first rows. The
next page begins behind the position of the last row of this one.
-/
namespace DewDB.SortedPages

open JsonValue QueryFilter Secondary QuerySort QueryScan QueryPages StableSort Std

variable {N : Type} [Number N] [DecidableEq N]

structure SortedState (N : Type) where
  rows : List (SortedRow N)
  matched : ℕ
  scanned : ℕ

def overBudget (budget : ℕ) : IoError :=
  ⟨.invalidInput, s!"sorted query exceeded max_docs {budget}; narrow the range or filter"⟩

/-- What the walk does with a key; the buffer is cut to `keep` rows when it holds `spill`. -/
def sortedVisit (col : Collection N) (filter : Option (QueryFilter.Filter N)) (order : SortOrder)
    (after : Option (SortCursor N)) (keep spill budget : ℕ) (owned : Key → Bool)
    (s : SortedState N) (key : Key) : Except IoError (SortedState N × Bool) :=
  if !owned key then .ok (s, true)
  else if budget ≤ s.scanned then .error (overBudget budget)
  else
    let s := { s with scanned := s.scanned + 1 }
    match col.get key with
    | .error e => .error e
    | .ok none => .ok (s, true)
    | .ok (some value) =>
      if !filter.all fun f => f.matches value then .ok (s, true)
      else
        let row : SortedRow N := ⟨key, value⟩
        if after.any fun c => !isAfter row c order then .ok (s, true)
        else
          let rows := s.rows ++ [row]
          .ok ({ s with
            rows := if spill ≤ rows.length then (sortRows order rows).take keep else rows
            matched := s.matched + 1 }, true)

/-- The first rows behind the cursor and whether there are more. -/
def sortedPageOwned (col : Collection N) (start stop : Option Key)
    (filter : Option (QueryFilter.Filter N))
    (order : SortOrder) (after : Option (SortCursor N)) (limit budget : ℕ) (owned : Key → Bool) :
    Except IoError (List (SortedRow N) × Bool) := do
  col.checkLive
  let keep := min limit maxQueryLimit
  let spill := max (keep * 2) 1
  let s ← col.scanFor (col.indexPlan filter) none start stop
    (sortedVisit col filter order after keep spill budget owned) ⟨[], 0, 0⟩
  return ((sortRows order s.rows).take keep, decide (keep < s.matched))

section Buffers

/-- The buffer stands for the rows as far as the first `keep` of them go. -/
def Buffers (order : SortOrder) (keep : ℕ) (rows full : List (SortedRow N)) : Prop :=
  ∀ (l : List (SortedRow N)) (n : ℕ), n ≤ keep →
    (sortRows order (rows ++ l)).take n = (sortRows order (full ++ l)).take n

variable {order : SortOrder} {keep : ℕ} {rows full : List (SortedRow N)}

omit [DecidableEq N] in
theorem Buffers.append (h : Buffers order keep rows full) (row : SortedRow N) :
    Buffers order keep (rows ++ [row]) (full ++ [row]) := by
  intro l n hn
  rw [List.append_assoc, List.append_assoc]
  exact h ([row] ++ l) n hn

omit [DecidableEq N] in
theorem Buffers.cut (h : Buffers order keep rows full) :
    Buffers order keep ((sortRows order rows).take keep) full := by
  intro l n hn
  rw [← h l n hn]
  exact take_sortBy_append (preorder_rows order) hn rows l

end Buffers

section Visits

variable {col : Collection N} {filter : Option (QueryFilter.Filter N)} {order : SortOrder}
  {after : Option (SortCursor N)} {keep spill budget : ℕ} {owned : Key → Bool}

def behind (order : SortOrder) (after : Option (SortCursor N)) (rows : List (SortedRow N)) :
    List (SortedRow N) :=
  rows.filter fun row => after.all fun c => isAfter row c order

structure Reads (col : Collection N) (filter : Option (QueryFilter.Filter N)) (order : SortOrder)
    (after : Option (SortCursor N)) (keep : ℕ) (owned : Key → Bool) (s : SortedState N)
    (keys : List Key) : Prop where
  scanned : s.scanned = (keys.filter owned).length
  matched : s.matched = (behind order after (keys.filterMap (rowAt col.docs filter owned))).length
  rows : Buffers order keep s.rows
    (behind order after (keys.filterMap (rowAt col.docs filter owned)))

omit [DecidableEq N] in
theorem behind_append (rows : List (SortedRow N)) (row : SortedRow N) :
    behind order after (rows ++ [row]) = behind order after rows ++
      if after.all fun c => isAfter row c order then [row] else [] := by
  rw [behind, behind, List.filter_append, List.filter_cons, List.filter_nil]

theorem filterMap_append_some {docs : ExtTreeMap Key (Json N) strCmp} {key : Key}
    {row : SortedRow N} (keys : List Key) (hrow : rowAt docs filter owned key = some row) :
    (keys ++ [key]).filterMap (rowAt docs filter owned) = keys.filterMap
      (rowAt docs filter owned) ++ [row] := by
  simp [hrow]

theorem filterMap_append_none {docs : ExtTreeMap Key (Json N) strCmp} {key : Key} (keys : List Key)
    (hrow : rowAt docs filter owned key = none) :
    (keys ++ [key]).filterMap (rowAt docs filter owned) = keys.filterMap
      (rowAt docs filter owned) := by
  simp [hrow]

theorem sortedVisit_over {key : Key} {keys : List Key} {s : SortedState N}
    (h : Reads col filter order after keep owned s keys) (howned : owned key = true)
    (hover : budget ≤ (keys.filter owned).length) :
    sortedVisit col filter order after keep spill budget owned s key = .error
      (overBudget budget) := by
  simp [sortedVisit, howned, h.scanned, hover]

theorem sortedVisit_reads (hlive : col.released = false) {key : Key} {doc : Json N}
    (hdoc : col.docs[key]? = some doc)
    {keys : List Key} {s : SortedState N} (h : Reads col filter order after keep owned s keys)
    (hbudget : owned key = true → (keys.filter owned).length < budget) :
    ∃ s', sortedVisit col filter order after keep spill budget owned s key = .ok (s', true) ∧
      Reads col filter order after keep owned s' (keys ++ [key]) := by
  have hget : col.get key = .ok (some doc) := by
    rw [Collection.get, Collection.checkLive, hlive, hdoc]
    rfl
  cases howned : owned key with
  | false =>
    have hrow : rowAt col.docs filter owned key = none := by simp [rowAt, howned]
    have hkeys : (keys ++ [key]).filter owned = keys.filter owned := by simp [howned]
    refine ⟨s, by simp [sortedVisit, howned], ?_⟩
    constructor
    · rw [hkeys, h.scanned]
    · rw [filterMap_append_none keys hrow, h.matched]
    · rw [filterMap_append_none keys hrow]
      exact h.rows
  | true =>
    have hunspent : ¬ budget ≤ s.scanned := by
      rw [h.scanned]
      exact Nat.not_le.mpr (hbudget howned)
    have hkeys : ((keys ++ [key]).filter owned).length = s.scanned + 1 := by
      simp [howned, h.scanned]
    have hrow := @rowAt_owned _ _ _ filter owned _ _ _ howned hdoc
    by_cases hmatch : (filter.all fun f => f.matches doc) = true
    · rw [if_pos hmatch] at hrow
      by_cases hafter : (after.all fun c => isAfter ⟨key, doc⟩ c order) = true
      · have hbehind : (after.any fun c => !isAfter ⟨key, doc⟩ c order) = false := by
          cases after <;> simp_all
        have hadd := @behind_append _ _ order after
          (keys.filterMap (rowAt col.docs filter owned)) ⟨key, doc⟩
        rw [if_pos hafter] at hadd
        refine ⟨_, by simp only [sortedVisit, howned, hunspent, hget, hmatch, hbehind]; rfl, ?_⟩
        constructor
        · exact hkeys.symm
        · rw [filterMap_append_some keys hrow, hadd]
          simp [h.matched]
        · rw [filterMap_append_some keys hrow, hadd]
          dsimp only
          split_ifs
          · exact (h.rows.append _).cut
          · exact h.rows.append _
      · have hbehind : (after.any fun c => !isAfter ⟨key, doc⟩ c order) = true := by
          cases after <;> simp_all
        have hadd := @behind_append _ _ order after
          (keys.filterMap (rowAt col.docs filter owned)) ⟨key, doc⟩
        rw [if_neg hafter, List.append_nil] at hadd
        refine ⟨_, by simp only [sortedVisit, howned, hunspent, hget, hmatch, hbehind]; rfl, ?_⟩
        constructor
        · exact hkeys.symm
        · rw [filterMap_append_some keys hrow, hadd, h.matched]
        · rw [filterMap_append_some keys hrow, hadd]
          exact h.rows
    · rw [if_neg hmatch] at hrow
      refine ⟨_, by simp only [sortedVisit, howned, hunspent, hget, hmatch]; rfl, ?_⟩
      constructor
      · exact hkeys.symm
      · rw [filterMap_append_none keys hrow, h.matched]
      · rw [filterMap_append_none keys hrow]
        exact h.rows

theorem visitAll_reads (hlive : col.released = false) (rest : List Key)
    (hdocs : ∀ k ∈ rest, ∃ doc, col.docs[k]? = some doc) {keys : List Key} {s : SortedState N}
    (h : Reads col filter order after keep owned s keys) :
    (((keys ++ rest).filter owned).length ≤ budget →
      ∃ s', Collection.visitAll (sortedVisit col filter order after keep spill budget owned) s
        rest = .ok (s', true) ∧ Reads col filter order after keep owned s' (keys ++ rest)) ∧
    ((keys.filter owned).length ≤ budget → budget < ((keys ++ rest).filter owned).length →
      Collection.visitAll (sortedVisit col filter order after keep spill budget owned) s rest =
        .error (overBudget budget)) := by
  induction rest generalizing keys s with
  | nil =>
    rw [List.append_nil]
    exact ⟨fun _ => ⟨s, rfl, h⟩, fun hle hlt => absurd hlt (Nat.not_lt.mpr hle)⟩
  | cons key rest ih =>
    obtain ⟨doc, hdoc⟩ := hdocs key List.mem_cons_self
    have hrest := fun k hk => hdocs k (List.mem_cons_of_mem key hk)
    have hsplit : keys ++ key :: rest = keys ++ [key] ++ rest := by simp
    have hgrows : ((keys ++ [key]).filter owned).length ≤
      ((keys ++ key :: rest).filter owned).length := by
      rw [hsplit, List.filter_append (keys ++ [key]), List.length_append]
      exact Nat.le_add_right _ _
    have howned_length : owned key = true →
      ((keys ++ [key]).filter owned).length = (keys.filter owned).length + 1 := by
      intro howned
      simp [howned]
    by_cases hread : owned key = true → (keys.filter owned).length < budget
    · obtain ⟨s', hvisit, hreads⟩ :=
        @sortedVisit_reads _ _ _ _ _ _ _ _ spill _ _ hlive _ _ hdoc _ _ h hread
      have hnext := ih hrest hreads
      rw [Collection.visitAll, hvisit, hsplit]
      refine ⟨hnext.1, fun hle => hnext.2 ?_⟩
      by_cases howned : owned key = true
      · rw [howned_length howned]
        exact hread howned
      · simpa [howned] using hle
    · rw [Classical.not_imp, Nat.not_lt] at hread
      obtain ⟨howned, hspent⟩ := hread
      rw [howned_length howned] at hgrows
      refine ⟨fun hle => by omega, fun _ _ => ?_⟩
      rw [Collection.visitAll, sortedVisit_over h howned hspent]

end Visits

section Pages

variable {col : Collection N} {filter : Option (QueryFilter.Filter N)} {order : SortOrder}
  {owned : Key → Bool} {start stop : Option Key} {limit budget : ℕ}

def reads (col : Collection N) (filter : Option (QueryFilter.Filter N)) (start stop : Option Key)
    (owned : Key → Bool) : ℕ :=
  ((col.walked (col.indexPlan filter) none start stop).filter owned).length

def sortedBehind (docs : ExtTreeMap Key (Json N) strCmp) (filter : Option (QueryFilter.Filter N))
    (owned : Key → Bool)
    (start stop : Option Key) (order : SortOrder) (after : Option (SortCursor N)) :
    List (SortedRow N) :=
  sortRows order (behind order after (rowsIn docs filter owned none start stop))

/-- A page is the first rows behind the cursor when reading the range is within the budget, and
refused when not. -/
theorem sortedPageOwned_eq (hlive : col.released = false) (after : Option (SortCursor N)) :
    sortedPageOwned col start stop filter order after limit budget owned =
      if reads col filter start stop owned ≤ budget then
        .ok ((sortedBehind col.docs filter owned start stop order after).take
          (min limit maxQueryLimit),
          decide (min limit maxQueryLimit <
            (sortedBehind col.docs filter owned start stop order after).length))
      else .error (overBudget budget) := by
  have hresumes : Resumes none start := by
    intro a ha
    cases ha
  have hdocs : ∀ k ∈ col.walked (col.indexPlan filter) none start stop, ∃ doc,
    col.docs[k]? = some doc :=
    fun _ hk => exists_doc_of_walked hresumes hk
  have hinit : Reads col filter order after (min limit maxQueryLimit) owned ⟨[], 0, 0⟩ [] := by
    constructor
    · rfl
    · rfl
    · exact fun _ _ _ => rfl
  obtain ⟨hwithin, hover⟩ :=
    @visitAll_reads _ _ _ _ _ _ _ _ (max (min limit maxQueryLimit * 2) 1) budget _ hlive _
    hdocs _ _ hinit
  have hpage : sortedPageOwned col start stop filter order after limit budget owned =
      ((Collection.visitAll (sortedVisit col filter order after (min limit maxQueryLimit)
        (max (min limit maxQueryLimit * 2) 1) budget owned) ⟨[], 0, 0⟩
          (col.walked (col.indexPlan filter) none start stop)).map Prod.fst).map fun s =>
            ((sortRows order s.rows).take (min limit maxQueryLimit),
              decide (min limit maxQueryLimit < s.matched)) := by
    unfold sortedPageOwned
    dsimp only
    rw [Collection.checkLive, hlive, scanFor_eq]
    rfl
  rw [hpage]
  split_ifs with hbudget
  · obtain ⟨s, hvisit, hreads⟩ := hwithin hbudget
    have hrows := @walked_rows _ _ _ col none start stop filter hresumes owned
    rw [List.nil_append] at hreads
    have hfirst := hreads.rows [] (min limit maxQueryLimit) (Nat.le_refl _)
    rw [List.append_nil, List.append_nil, hrows] at hfirst
    have hmatched := hreads.matched
    rw [hrows] at hmatched
    have hlength : (sortedBehind col.docs filter owned start stop order after).length =
      s.matched := by
      rw [hmatched, sortedBehind, sortRows, length_sortBy]
      rfl
    rw [hvisit, hlength, sortedBehind]
    exact congrArg (fun rows => Except.ok (rows, _)) hfirst
  · rw [hover (Nat.zero_le _) (Nat.not_le.mp hbudget)]
    rfl

omit [DecidableEq N] in
theorem behind_position {rows done rest : List (SortedRow N)} {last : SortedRow N}
    (hdistinct : rows.Pairwise fun a b => a.key ≠ b.key)
    (h : sortRows order rows = done ++ last :: rest) :
    sortRows order (behind order (some (.ofPosition (sortPosition last.value order) last.key))
      rows) = rest := by
  have hordered : Ordered (leBy (compareRows order)) (done ++ last :: rest) :=
    h ▸ ordered_sortBy (preorder_rows order) rows
  have hkeys : (done ++ last :: rest).Pairwise fun a b : SortedRow N => a.key ≠ b.key :=
    h ▸ (List.Perm.pairwise_iff (fun hab => hab.symm) (sortBy_perm _ rows)).mpr hdistinct
  rw [Ordered, List.pairwise_append, List.pairwise_cons] at hordered
  rw [List.pairwise_append, List.pairwise_cons] at hkeys
  have hafter : ∀ row, isAfter row (.ofPosition (sortPosition last.value order) last.key) order =
      !leBy (compareRows order) row last := by
    intro row
    rw [Bool.eq_iff_iff, isAfter_iff, Bool.not_eq_true']
  have hdone : done.filter (fun row => !leBy (compareRows order) row last) = [] := by
    rw [List.filter_eq_nil_iff]
    intro row hrow
    rw [hordered.2.2 row hrow last List.mem_cons_self]
    exact Bool.false_ne_true
  have hrest : rest.filter (fun row => !leBy (compareRows order) row last) = rest := by
    rw [List.filter_eq_self]
    intro row hrow
    have hle := hordered.2.1.1 row hrow
    cases hback : leBy (compareRows order) row last with
    | false => rfl
    | true =>
      -- rows that compare equal have one key
      have heq : compareRows order last row = .eq := by
        rw [leBy, @OrientedCmp.eq_swap _ (compareRows order) _ row] at hback
        rw [leBy] at hle
        cases hcmp : compareRows order last row <;> simp_all
      exact absurd (key_eq_of_compareBy_eq heq) (hkeys.2.1.1 row hrow)
  rw [behind, sortRows, ← sortBy_filter (preorder_rows order)]
  simp only [Option.all_some, hafter]
  rw [← sortRows, h, List.filter_append, hdone, List.filter_cons,
    (preorder_rows order).refl last, hrest]
  rfl

omit [Number N] [DecidableEq N] in
theorem split_page {keep : ℕ} (hkeep : 0 < keep) {rows : List (SortedRow N)}
    (h : keep < rows.length) :
    ∃ init last, rows.take keep = init ++ [last] ∧ rows = init ++ last :: rows.drop keep := by
  have hne : rows.take keep ≠ [] := by
    apply List.ne_nil_of_length_pos
    rw [List.length_take]
    omega
  refine ⟨_, _, (List.dropLast_append_getLast hne).symm, ?_⟩
  rw [← List.singleton_append, ← List.append_assoc, List.dropLast_append_getLast hne,
    List.take_append_drop]

/-- Follows the cursors, each at the position of the last row of the page before. -/
def followSorted (cols : ℕ → Collection N) (start stop : Option Key)
    (filter : Option (QueryFilter.Filter N))
    (order : SortOrder) (limit budget : ℕ) (owned : Key → Bool) :
    ℕ → ℕ → Option (SortCursor N) → Option (List (List (SortedRow N)))
  | 0, _, _ => none
  | fuel + 1, i, after =>
    match sortedPageOwned (cols i) start stop filter order after limit budget owned with
    | .error _ => none
    | .ok (rows, more) =>
      match more, rows.getLast? with
      | true, some last =>
        (followSorted cols start stop filter order limit budget owned fuel (i + 1)
          (some (.ofPosition (sortPosition last.value order) last.key))).map
            fun pages => rows :: pages
      | _, _ => some [rows]

theorem rowsIn_distinct (docs : ExtTreeMap Key (Json N) strCmp) :
    (rowsIn docs filter owned none start stop).Pairwise fun a b => a.key ≠ b.key := by
  have hascending := @rowsIn_ascending _ _ _ filter owned none start stop docs
  apply (List.pairwise_map.mp hascending).imp
  intro a b hlt heq
  rw [heq, strCmp_self] at hlt
  cases hlt

/-- Each page takes rows of those that are left, so the cursors come to an end. -/
theorem followSorted_rows {docs : ExtTreeMap Key (Json N) strCmp} {cols : ℕ → Collection N}
    (hdocs : ∀ i, (cols i).docs = docs) (hlive : ∀ i, (cols i).released = false)
    (hlimit : 0 < limit)
    (hbudget : ∀ i, reads (cols i) filter start stop owned ≤ budget) (fuel i : ℕ)
    (after : Option (SortCursor N)) {done rest : List (SortedRow N)}
    (hsorted : sortRows order (rowsIn docs filter owned none start stop) = done ++ rest)
    (hrest : sortedBehind docs filter owned start stop order after = rest)
    (hfuel : rest.length < fuel) :
    ∃ pages, followSorted cols start stop filter order limit budget owned fuel i
      after = some pages ∧ pages.flatten = rest := by
  have hkeep : 0 < min limit maxQueryLimit := Nat.lt_min.mpr ⟨hlimit, Nat.succ_pos 9999⟩
  induction fuel generalizing i after done rest with
  | zero => cases hfuel
  | succ fuel ih =>
    have hpage := @sortedPageOwned_eq _ _ _ (cols i) filter order owned start stop limit budget
      (hlive i) after
    rw [if_pos (hbudget i), hdocs i, hrest] at hpage
    rw [followSorted, hpage]
    by_cases hmore : min limit maxQueryLimit < rest.length
    · obtain ⟨init, last, htake, hsplit⟩ := split_page hkeep hmore
      have hbehind : sortedBehind docs filter owned start stop order
          (some (.ofPosition (sortPosition last.value order) last.key)) = rest.drop
            (min limit maxQueryLimit) := by
        apply @behind_position _ _ order _ (done ++ init) _ last (rowsIn_distinct docs)
        rw [hsorted, List.append_assoc, ← hsplit]
      obtain ⟨pages, hpages, hflat⟩ := @ih (i + 1) _ (done ++ rest.take (min limit maxQueryLimit))
        (rest.drop (min limit maxQueryLimit))
          (by rw [hsorted, List.append_assoc, List.take_append_drop]) hbehind
        (by rw [List.length_drop]; omega)
      refine ⟨rest.take (min limit maxQueryLimit) :: pages, ?_, ?_⟩
      · have hlast : (rest.take (min limit maxQueryLimit)).getLast? = some last := by
          rw [htake, List.getLast?_append_of_ne_nil _ (List.cons_ne_nil last []),
            List.getLast?_singleton]
        dsimp only
        rw [decide_eq_true hmore, hlast]
        exact congrArg (Option.map _) hpages
      · rw [List.flatten_cons, hflat, List.take_append_drop]
    · refine ⟨[rest.take (min limit maxQueryLimit)], ?_, ?_⟩
      · dsimp only
        rw [decide_eq_false hmore]
      · rw [List.flatten_singleton, List.take_of_length_le (Nat.le_of_not_lt hmore)]

end Pages

section Exactness

variable {cols : ℕ → Collection N} {docs : ExtTreeMap Key (Json N) strCmp}

/-- A page whose read stays within the budget is the first `min limit 10000` rows behind the cursor
of all rows sorted, and says whether there are more; a page whose read does not is refused. Where
every read stays within the budget, following the cursors gives all rows sorted, each once. -/
theorem sortedPages_exact (hdocs : ∀ i, (cols i).docs = docs)
    (hlive : ∀ i, (cols i).released = false)
    (start stop : Option Key) (filter : Option (QueryFilter.Filter N)) (order : SortOrder)
    (owned : Key → Bool) {limit : ℕ} (hlimit : 1 ≤ limit) (budget : ℕ) :
    (∀ i after, sortedPageOwned (cols i) start stop filter order after limit budget owned =
      if reads (cols i) filter start stop owned ≤ budget then
        .ok ((sortRows order (behind order after (rowsIn docs filter owned none start stop))).take
          (min limit 10000),
          decide (min limit 10000 <
            (behind order after (rowsIn docs filter owned none start stop)).length))
      else .error (overBudget budget)) ∧
    ((∀ i, reads (cols i) filter start stop owned ≤ budget) →
      ∃ pages, followSorted cols start stop filter order limit budget owned
        (docs.size + 1) 0 none = some pages ∧
        pages.flatten = sortRows order (rowsIn docs filter owned none start stop)) := by
  constructor
  · intro i after
    rw [sortedPageOwned_eq (hlive i) after, hdocs i, sortedBehind]
    have hlength := length_sortBy (leBy (compareRows order))
      (behind order after (rowsIn docs filter owned none start stop))
    rw [sortRows, hlength]
    rfl
  · intro hbudget
    have hfuel : (sortRows order (rowsIn docs filter owned none start stop)).length <
      docs.size + 1 := by
      apply Nat.lt_succ_of_le
      calc (sortRows order (rowsIn docs filter owned none start stop)).length
          = (rowsIn docs filter owned none start stop).length := length_sortBy _ _
        _ ≤ ((docs.toList.map Prod.fst).filter fun k =>
          fromLower none start k && toUpper stop k).length :=
            List.length_filterMap_le _ _
        _ ≤ (docs.toList.map Prod.fst).length := List.length_filter_le _ _
        _ = docs.size := by rw [List.length_map, ExtTreeMap.length_toList]
    have hall : sortedBehind docs filter owned start stop order none =
        sortRows order (rowsIn docs filter owned none start stop) := by
      rw [sortedBehind, behind]
      exact congrArg (sortRows order) (List.filter_eq_self.mpr fun _ _ => rfl)
    exact @followSorted_rows _ _ _ filter order owned start stop limit budget docs cols hdocs hlive
      hlimit hbudget (docs.size + 1) 0 none [] _ (List.nil_append _).symm hall hfuel

/-- Two documents in sorted pages of one row. -/
theorem sortedPages_exact_two :
    (∀ (_ : ℕ) after, sortedPageOwned (.unindexed twoDocs) none none none
      ⟨[⟨['n'], false⟩]⟩ after 1 2 (fun _ => true) =
      if reads (.unindexed twoDocs) none none none (fun _ => true) ≤ 2 then
        .ok ((sortRows ⟨[⟨['n'], false⟩]⟩ (behind ⟨[⟨['n'], false⟩]⟩ after
            (rowsIn twoDocs none (fun _ => true) none none none))).take (min 1 10000),
          decide (min 1 10000 < (behind ⟨[⟨['n'], false⟩]⟩ after
            (rowsIn twoDocs none (fun _ => true) none none none)).length))
      else .error (overBudget 2)) ∧
    ((∀ _ : ℕ, reads (.unindexed twoDocs) none none none (fun _ => true) ≤ 2) →
      ∃ pages, followSorted (fun _ => .unindexed twoDocs) none none none ⟨[⟨['n'], false⟩]⟩ 1 2
        (fun _ => true)
          (twoDocs.size + 1) 0 none = some pages ∧
        pages.flatten = sortRows ⟨[⟨['n'], false⟩]⟩
          (rowsIn twoDocs none (fun _ => true) none none none)) :=
  sortedPages_exact (fun _ => rfl) (fun _ => rfl) none none none ⟨[⟨['n'], false⟩]⟩ (fun _ => true)
    (Nat.le_refl 1) 2

/-- A page of one row is refused when there are two documents to read and the budget is one. -/
theorem sortedPage_refused :
    sortedPageOwned (.unindexed twoDocs) none none none ⟨[⟨['n'], false⟩]⟩ none 1 1
      (fun _ => true) =
        .error (overBudget 1) ∧
      sortedPageOwned (.unindexed twoDocs) none none none ⟨[⟨['n'], false⟩]⟩ none 1 1
        (fun _ => true) ≠
        .ok ((sortRows ⟨[⟨['n'], false⟩]⟩ (rowsIn twoDocs none (fun _ => true) none none none)).take
          1, true) := by
  have hrefused : sortedPageOwned (.unindexed twoDocs) none none none ⟨[⟨['n'], false⟩]⟩ none 1 1
    (fun _ => true) =
      .error (overBudget 1) := by
    have hlive : (Collection.unindexed twoDocs).released = false := rfl
    rw [sortedPageOwned_eq hlive, if_neg]
    decide
  rw [hrefused]
  exact ⟨rfl, fun h => by cases h⟩

end Exactness

end DewDB.SortedPages
