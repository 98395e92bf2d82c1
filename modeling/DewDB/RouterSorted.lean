import DewDB.RouterPages

/-!
# Following the cursors of a sorted query over all shards

One position in the sort order stands for every shard. Each shard gives the first rows that it has
behind it, which together hold the first rows behind it of all shards.
-/
namespace DewDB.RouterQuery

open Endpoint TokenRing Vote ClusterMeta KeyOwnership JsonValue QueryFilter Secondary QuerySort
  QueryScan QueryPages SortedPages StableSort Std

variable {N : Type} [Number N] [DecidableEq N]

section Rows

variable (xxh64 : Xxh64) (v : ClusterMetadata) (collection : CollectionName)
  (nodes : ℕ → Url → Node N) (p : QueryParams N)

def sortedShard (order : SortOrder) (cursor : Option (SortCursor N)) (o : Url × List Url) :
    List (SortedRow N) :=
  sortRows order (behind order cursor (shardRows xxh64 v collection nodes p o.1 none))

def holdsCollection (o : Url × List Url) : Bool := (nodes 0 o.1).col.isSome

/-- The node that answers for the shard reads no more than the budget. -/
def ReadsWithin (budget i : ℕ) (o : Url × List Url) : Prop :=
  ∀ col ∈ (nodes i o.1).col, reads col p.filter p.start p.stop
    (scans xxh64 v collection o.1) ≤ budget

instance (budget i : ℕ) (o : Url × List Url) : Decidable
    (ReadsWithin xxh64 v collection nodes p budget i o) :=
  inferInstanceAs (Decidable (∀ col ∈ (nodes i o.1).col, _))

def clusterRows (docs : ExtTreeMap Key (Json N) strCmp) : List (SortedRow N) :=
  rowsIn docs p.filter (fun key => (ownerOf xxh64 v collection key).isSome) none p.start p.stop

end Rows

section Orders

variable {order : SortOrder}

omit [DecidableEq N] in
theorem sortRows_perm {rows rows' : List (SortedRow N)} (h : rows.Perm rows')
    (hdistinct : rows.Pairwise fun a b => a.key ≠ b.key) :
    sortRows order rows = sortRows order rows' := by
  have hperm : (sortRows order rows).Perm (sortRows order rows') :=
    (sortBy_perm _ rows).trans (h.trans (sortBy_perm _ rows').symm)
  have hkeys : (rows.map SortedRow.key).Nodup := List.pairwise_map.mpr hdistinct
  apply List.Perm.eq_of_pairwise _ (ordered_sortBy (preorder_rows order) rows)
    (ordered_sortBy (preorder_rows order) rows') hperm
  intro a b ha hb hab hba
  have heq : compareRows order a b = .eq := by
    rw [leBy, @OrientedCmp.eq_swap _ (compareRows order)] at hba
    rw [leBy] at hab
    cases hcmp : compareRows order a b <;> simp_all
  exact List.inj_on_of_nodup_map hkeys (mem_sortBy.mp ha) (h.mem_iff.mpr (mem_sortBy.mp hb))
    (key_eq_of_compareBy_eq heq)

end Orders

section Shards

variable {xxh64 : Xxh64} {v : ClusterMetadata} {collection : CollectionName}
  {nodes : ℕ → Url → Node N}
  {p : QueryParams N} {docs : ExtTreeMap Key (Json N) strCmp} {budget limit : ℕ} {order : SortOrder}
  {cursor : Option (SortCursor N)}

/-- The refusal of a shard that would read more than the budget. -/
def overBudgetRefusal (budget : ℕ) : Refusal := .badRequest (overBudget budget).message

theorem shardSortedPage_eq (hv : v.validate = .ok ())
    (hplaced : Placed xxh64 v collection docs nodes) (i : ℕ)
    {o : Url × List Url} (ho : o ∈ v.forget.shardOwners) (hbudget : p.budget = .ok budget)
    (hrange : p.checkKeyRange = .ok ()) (hpos : 0 < limit) (hle : limit ≤ maxQueryLimit)
    (hcursor : arityOk order cursor = true) :
    shardSortedPage xxh64 v collection (nodes i o.1) p order limit cursor =
      if holdsCollection nodes o = false then .absent
      else if ReadsWithin xxh64 v collection nodes p budget i o then
        .page ⟨(sortedShard xxh64 v collection nodes p order cursor o).take limit,
          if limit < (sortedShard xxh64 v collection nodes p order cursor o).length then
            ((sortedShard xxh64 v collection nodes p order cursor o).take limit).getLast?.map
              fun last =>
              .ofPosition (sortPosition last.value order) last.key
          else none⟩
      else .refused (overBudgetRefusal budget) := by
  have hstatic := hplaced.static i o.1
  unfold shardSortedPage
  rw [hbudget, pageLimit_some hpos hle, hrange, hcursor]
  dsimp only
  rw [Bool.not_true, if_neg Bool.false_ne_true]
  cases hcol : (nodes i o.1).col with
  | none =>
    rw [hcol, Option.map_none, eq_comm, Option.map_eq_none_iff] at hstatic
    rw [holdsCollection, hstatic]
    rfl
  | some col =>
    rw [hcol, Option.map_some, eq_comm, Option.map_eq_some_iff] at hstatic
    obtain ⟨col₀, hcol₀, hdocs⟩ := hstatic
    have hlive : col.released = false := hplaced.live i o.1 col hcol
    have hmin : min limit maxQueryLimit = limit := Nat.min_eq_left hle
    have hrows : sortedBehind col.docs p.filter (scans xxh64 v collection o.1) p.start p.stop
      order cursor =
        sortedShard xxh64 v collection nodes p order cursor o := by
      rw [sortedShard, shardRows, hcol₀, sortedBehind]
      dsimp only
      rw [hdocs]
    have hwithin : ReadsWithin xxh64 v collection nodes p budget i o ↔
        reads col p.filter p.start p.stop (scans xxh64 v collection o.1) ≤ budget := by
      rw [ReadsWithin, hcol]
      simp
    rw [holdsCollection, hcol₀, Option.isSome_some, if_neg Bool.true_eq_false_eq_False,
      includes_eq hv hplaced i ho]
    dsimp only
    rw [sortedPageOwned_eq hlive, hrows, hmin]
    by_cases hreads : reads col p.filter p.start p.stop (scans xxh64 v collection o.1) ≤ budget
    · rw [if_pos hreads, if_pos (hwithin.mpr hreads)]
      simp only [decide_eq_true_eq]
    · rw [if_neg hreads, if_neg fun h => hreads (hwithin.mp h)]
      rfl

def positionAfter (order : SortOrder) (page : List (SortedRow N)) : Option (SortCursor N) :=
  page.getLast?.map fun last => .ofPosition (sortPosition last.value order) last.key

def pageOfShard (xxh64 : Xxh64) (v : ClusterMetadata) (collection : CollectionName)
    (nodes : ℕ → Url → Node N)
    (p : QueryParams N) (order : SortOrder) (limit : ℕ) (cursor : Option (SortCursor N))
    (o : Url × List Url) : List (SortedRow N) :=
  (sortedShard xxh64 v collection nodes p order cursor o).take limit

theorem gather_sorted (hv : v.validate = .ok ())
    (hplaced : Placed xxh64 v collection docs nodes) (i : ℕ)
    (hbudget : p.budget = .ok budget) (hrange : p.checkKeyRange = .ok ()) (hpos : 0 < limit)
    (hle : limit ≤ maxQueryLimit) (hcursor : arityOk order cursor = true)
    (owners : List (Url × List Url))
    (howners : ∀ o ∈ owners, o ∈ v.forget.shardOwners ∧
      ReadsWithin xxh64 v collection nodes p budget i o)
    (m : Merging N) :
    (owners.map fun o => shardSortedPage xxh64 v collection
      (nodes i o.1) p order limit cursor).foldlM Merging.take m =
      .ok {
        lists := m.lists ++ (owners.filter (holdsCollection nodes)).map
          (pageOfShard xxh64 v collection nodes p order limit cursor)
        received := m.received + ((owners.filter (holdsCollection nodes)).map fun o =>
          (pageOfShard xxh64 v collection nodes p order limit cursor o).length).sum
        shardHasMore := m.shardHasMore || (owners.filter (holdsCollection nodes)).any fun o =>
          decide (limit < (sortedShard xxh64 v collection nodes p order cursor o).length)
        present := m.present + (owners.filter (holdsCollection nodes)).length
        absent := m.absent + (owners.filter fun o => !holdsCollection nodes o).length } := by
  induction owners generalizing m with
  | nil =>
    simp only [List.map_nil, List.foldlM_nil, List.filter_nil, List.append_nil, List.sum_nil,
      List.length_nil, List.any_nil, Bool.or_false, Nat.add_zero]
    rfl
  | cons o owners ih =>
    obtain ⟨ho, hwithin⟩ := howners o List.mem_cons_self
    have hrest := fun q hq => howners q (List.mem_cons_of_mem o hq)
    have hreply := shardSortedPage_eq hv hplaced i ho hbudget hrange hpos hle hcursor
    rw [List.map_cons, List.foldlM_cons, hreply]
    cases hholds : holdsCollection nodes o with
    | false =>
      have htake : m.take .absent = .ok { m with absent := m.absent + 1 } := rfl
      rw [if_pos rfl, htake]
      refine (ih hrest _).trans ?_
      simp [hholds, Nat.add_assoc, Nat.add_comm 1]
    | true =>
      rw [if_neg Bool.true_eq_false_eq_False, if_pos hwithin, ← pageOfShard]
      have hmore : (if limit < (sortedShard xxh64 v collection nodes p order cursor o).length then
          positionAfter order (pageOfShard xxh64 v collection nodes p order limit cursor o)
            else none).isSome =
          decide (limit < (sortedShard xxh64 v collection nodes p order cursor o).length) := by
        split_ifs with hlt
        · obtain ⟨init, last, htake, -⟩ := split_page hpos hlt
          rw [positionAfter, pageOfShard, htake, List.getLast?_concat, decide_eq_true hlt]
          rfl
        · rw [decide_eq_false hlt]
          rfl
      rw [← positionAfter]
      refine (ih hrest _).trans ?_
      simp only [hholds, hmore, List.filter_cons_of_pos, List.map_cons, List.sum_cons,
        List.any_cons, List.length_cons,
        List.append_assoc, List.singleton_append, Bool.or_assoc, Nat.add_assoc, Nat.add_comm 1,
        Bool.not_true, Bool.false_eq_true, not_false_eq_true, List.filter_cons_of_neg]

/-- A shard that would read more than the budget refuses the query for all. -/
theorem gather_refused (hv : v.validate = .ok ())
    (hplaced : Placed xxh64 v collection docs nodes) (i : ℕ)
    (hbudget : p.budget = .ok budget) (hrange : p.checkKeyRange = .ok ()) (hpos : 0 < limit)
    (hle : limit ≤ maxQueryLimit) (hcursor : arityOk order cursor = true)
    {owners : List (Url × List Url)} (howners : ∀ o ∈ owners, o ∈ v.forget.shardOwners)
    (hover : ∃ o ∈ owners, ¬ ReadsWithin xxh64 v collection nodes p budget i o) (m : Merging N) :
    (owners.map fun o => shardSortedPage xxh64 v collection
      (nodes i o.1) p order limit cursor).foldlM Merging.take m =
      .error (overBudgetRefusal budget) := by
  induction owners generalizing m with
  | nil =>
    obtain ⟨o, ho, -⟩ := hover
    cases ho
  | cons o owners ih =>
    have ho := howners o List.mem_cons_self
    have hrest := fun q hq => howners q (List.mem_cons_of_mem o hq)
    rw [List.map_cons, List.foldlM_cons,
      shardSortedPage_eq hv hplaced i ho hbudget hrange hpos hle hcursor]
    by_cases hwithin : ReadsWithin xxh64 v collection nodes p budget i o
    · have hnext : ∃ o ∈ owners, ¬ ReadsWithin xxh64 v collection nodes p budget i o := by
        obtain ⟨q, hq, hread⟩ := hover
        rcases List.mem_cons.mp hq with rfl | hq
        · exact absurd hwithin hread
        · exact ⟨q, hq, hread⟩
      rw [if_pos hwithin]
      split_ifs <;> exact ih hrest hnext _
    · have hholds : ¬ holdsCollection nodes o = false := by
        intro hnone
        have hstatic := hplaced.static i o.1
        rw [holdsCollection, Option.isSome_eq_false_iff, Option.isNone_iff_eq_none] at hnone
        rw [hnone, Option.map_none, Option.map_eq_none_iff] at hstatic
        apply hwithin
        rw [ReadsWithin, hstatic]
        exact nofun
      rw [if_neg hholds, if_neg hwithin]
      rfl

/-- What the shards have behind a position is what the cluster has behind it. -/
theorem sorted_shards (hplaced : Placed xxh64 v collection docs nodes)
    (hdistinct : (v.forget.shardOwners.map fun o => nodeKey o.1).Nodup) :
    sortRows order ((v.forget.shardOwners.filter (holdsCollection nodes)).map fun o =>
        behind order cursor (shardRows xxh64 v collection nodes p o.1 none)).flatten =
      sortRows order (behind order cursor (clusterRows xxh64 v collection p docs)) := by
  have habsent : ∀ owners : List (Url × List Url),
      ((owners.filter (holdsCollection nodes)).map fun o =>
        behind order cursor (shardRows xxh64 v collection nodes p o.1 none)).flatten =
      behind order cursor (owners.flatMap fun o =>
        shardRows xxh64 v collection nodes p o.1 none) := by
    intro owners
    induction owners with
    | nil => rfl
    | cons o owners ih =>
      rw [List.flatMap_cons, behind, List.filter_append, ← behind, ← behind, ← ih]
      cases hholds : holdsCollection nodes o with
      | false =>
        have hnone : shardRows xxh64 v collection nodes p o.1 none = [] := by
          rw [holdsCollection, Option.isSome_eq_false_iff, Option.isNone_iff_eq_none] at hholds
          rw [shardRows, hholds]
        rw [List.filter_cons_of_neg (by simp [hholds]), hnone]
        rfl
      | true =>
        rw [List.filter_cons_of_pos hholds, List.map_cons, List.flatten_cons]
  rw [habsent]
  have hperm := (shardRows_perm (p := p) hplaced hdistinct).filter fun row => cursor.all fun c =>
    isAfter row c order
  exact sortRows_perm hperm (hperm.symm.pairwise ((rowsIn_distinct docs).filter _) fun h => h.symm)

omit [Number N] [DecidableEq N] in
/-- Some shard has more than its page, or the merge left rows out, just when there are more rows
than a page. -/
theorem more_iff {rows : List (List (SortedRow N))} {merged : ℕ}
    (hmerged : merged = min limit rows.flatten.length) :
    ((rows.any fun r => decide (limit < r.length)) = true ∨
      merged < (rows.map fun r => (r.take limit).length).sum) ↔ limit < rows.flatten.length := by
  rw [List.length_flatten] at hmerged ⊢
  by_cases hmore : ∃ r ∈ rows, limit < r.length
  · obtain ⟨r, hr, hlong⟩ := hmore
    have hsum : r.length ≤ (rows.map List.length).sum := List.le_sum_of_mem (List.mem_map_of_mem hr)
    have hany : (rows.any fun r => decide (limit < r.length)) = true :=
      List.any_eq_true.mpr ⟨r, hr, decide_eq_true hlong⟩
    exact iff_of_true (.inl hany) (hlong.trans_le hsum)
  · have hall : ∀ r ∈ rows, r.length ≤ limit := fun r hr => Nat.le_of_not_lt fun hlt =>
      hmore ⟨r, hr, hlt⟩
    have hany : (rows.any fun r => decide (limit < r.length)) = false := by
      rw [List.any_eq_false]
      intro r hr
      simpa using hall r hr
    have htake : (rows.map fun r => (r.take limit).length) = rows.map List.length := by
      apply List.map_congr_left
      intro r hr
      rw [List.length_take, Nat.min_eq_right (hall r hr)]
    rw [hany, htake]
    simp only [Bool.false_eq_true, false_or]
    omega

/-- A page of the cluster is the first rows behind the position, where each shard reads within the
budget. -/
theorem routerSortedPage_eq (hv : v.validate = .ok ())
    (hplaced : Placed xxh64 v collection docs nodes)
    (hdistinct : (v.forget.shardOwners.map fun o => nodeKey o.1).Nodup) (i : ℕ)
    (hbudget : p.budget = .ok budget)
    (hrange : p.checkKeyRange = .ok ()) (hpos : 0 < limit) (hle : limit ≤ maxQueryLimit)
    (hcursor : arityOk order cursor = true)
    (hwithin : ∀ o ∈ v.forget.shardOwners, ReadsWithin xxh64 v collection nodes p budget i o)
    {rows : List (SortedRow N)}
    (hrows : rows = sortRows order (behind order cursor (clusterRows xxh64 v collection p docs))) :
    routerSortedPage xxh64 v collection (nodes i) p order limit cursor =
      if v.forget.shardOwners.filter (holdsCollection nodes) = [] ∧ v.forget.shardOwners ≠ [] then
        .error .collectionAbsent
      else .ok ⟨rows.take limit, if limit < rows.length then positionAfter order (rows.take limit)
        else none⟩ := by
  obtain ⟨holders, hholders⟩ : ∃ holders,
    holders = v.forget.shardOwners.filter (holdsCollection nodes) := ⟨_, rfl⟩
  have hgather := gather_sorted hv hplaced i hbudget hrange hpos hle hcursor v.forget.shardOwners
    (fun o ho => ⟨ho, hwithin o ho⟩) ⟨[], 0, false, 0, 0⟩
  rw [← hholders] at hgather
  have hmerge : kwayMerge
    (holders.map (pageOfShard xxh64 v collection nodes p order limit cursor)) order limit =
      rows.take limit := by
    rw [hrows, ← sorted_shards hplaced hdistinct, ← hholders]
    apply (kwayMerge_exact order limit).2
    rw [List.forall₂_map_left_iff, List.forall₂_map_right_iff, List.forall₂_same]
    intro o _
    refine ⟨List.take_prefix _ _, ?_⟩
    rw [pageOfShard, List.length_take]
    rcases Nat.le_total limit (sortedShard xxh64 v collection nodes p order cursor o).length
      with hlong | hshort
    · exact .inl (Nat.le_min.mpr ⟨Nat.le_refl _, hlong⟩)
    · exact .inr (List.take_of_length_le hshort)
  have hlength : (holders.map (sortedShard xxh64 v collection nodes p order cursor)).flatten.length
    = rows.length := by
    rw [hrows, ← sorted_shards hplaced hdistinct, ← hholders, sortRows, length_sortBy,
      List.length_flatten, List.length_flatten, List.map_map, List.map_map]
    congr 1
    apply List.map_congr_left
    intro o _
    exact length_sortBy _ _
  have hmore := @more_iff _ limit
    (holders.map (sortedShard xxh64 v collection nodes p order cursor))
    (rows.take limit).length (by rw [hlength, List.length_take])
  rw [hlength, List.any_map, List.map_map] at hmore
  have habsent : holders.length = 0 ∧ 0 < (v.forget.shardOwners.filter fun o =>
    !holdsCollection nodes o).length ↔
      holders = [] ∧ v.forget.shardOwners ≠ [] := by
    rw [List.length_eq_zero_iff, hholders]
    cases v.forget.shardOwners with
    | nil => simp
    | cons o owners => cases hholds : holdsCollection nodes o <;> simp [hholds]
  have hpage : routerSortedPage xxh64 v collection (nodes i) p order limit cursor =
      if holders.length = 0 ∧ 0 < (v.forget.shardOwners.filter fun o =>
        !holdsCollection nodes o).length then
        .error .collectionAbsent
      else .ok ⟨rows.take limit,
        if (holders.any ((fun r => decide (limit < r.length)) ∘
          sortedShard xxh64 v collection nodes p order cursor)) =
            true ∨ (rows.take limit).length <
              (holders.map ((fun r => (r.take limit).length) ∘
                sortedShard xxh64 v collection nodes p order cursor)).sum then
          positionAfter order (rows.take limit) else none⟩ := by
    unfold routerSortedPage
    dsimp only
    rw [hgather, ← hmerge]
    simp only [List.nil_append, Nat.zero_add, Bool.false_or]
    rfl
  rw [hpage, ← hholders]
  simp only [habsent, hmore]

theorem routerSortedPage_refused (hv : v.validate = .ok ())
    (hplaced : Placed xxh64 v collection docs nodes) (i : ℕ)
    (hbudget : p.budget = .ok budget) (hrange : p.checkKeyRange = .ok ()) (hpos : 0 < limit)
    (hle : limit ≤ maxQueryLimit) (hcursor : arityOk order cursor = true)
    (hover : ∃ o ∈ v.forget.shardOwners, ¬ ReadsWithin xxh64 v collection nodes p budget i o) :
    routerSortedPage xxh64 v collection (nodes i) p order limit cursor = .error
      (overBudgetRefusal budget) := by
  unfold routerSortedPage
  dsimp only
  rw [gather_refused hv hplaced i hbudget hrange hpos hle hcursor (fun _ ho => ho) hover]
  rfl

end Shards

section Walks

variable {xxh64 : Xxh64} {v : ClusterMetadata} {collection : CollectionName}
  {nodes : ℕ → Url → Node N}
  {p : QueryParams N} {docs : ExtTreeMap Key (Json N) strCmp} {budget limit : ℕ} {order : SortOrder}

theorem routerQuery_sorted (hsort : p.sort = some order) (hbudget : p.budget = .ok budget)
    (hlimit : p.pageLimit = .ok limit) (hrange : p.checkKeyRange = .ok ()) (shards : Url → Node N)
    {cursor : Option (SortCursor N)} (hcursor : arityOk order cursor = true) :
    routerQuery xxh64 v collection shards p (cursor.map .sorted) =
      (routerSortedPage xxh64 v collection shards p order limit cursor).map fun page =>
        ⟨page.rows, page.nextCursor.map .sorted⟩ := by
  unfold routerQuery
  rw [hbudget, hlimit, hrange, hsort]
  cases cursor with
  | none => rfl
  | some c =>
    dsimp only [Option.map_some]
    rw [hcursor]
    rfl

omit [Number N] [DecidableEq N] in
theorem arityOk_ofPosition (order : SortOrder) (doc : Json N) (key : Key) :
    arityOk order (some (.ofPosition (sortPosition doc order) key)) = true := by
  have hlength : (SortCursor.ofPosition (sortPosition doc order) key).positions.length =
    order.keys.length :=
    List.length_map _
  rw [arityOk, Option.all_some, hlength, beq_self_eq_true]

/-- Each page takes rows of those that are left, so the cursors come to an end. -/
theorem followRouter_sorted (hv : v.validate = .ok ())
    (hplaced : Placed xxh64 v collection docs nodes)
    (hdistinct : (v.forget.shardOwners.map fun o => nodeKey o.1).Nodup)
    (hsort : p.sort = some order)
    (hbudget : p.budget = .ok budget) (hlimit : p.pageLimit = .ok limit)
    (hrange : p.checkKeyRange = .ok ())
    (hwithin : ∀ i, ∀ o ∈ v.forget.shardOwners, ReadsWithin xxh64 v collection nodes p budget i o)
    (hholder : ∃ o ∈ v.forget.shardOwners, holdsCollection nodes o = true) (fuel i : ℕ)
    {cursor : Option (SortCursor N)} (hcursor : arityOk order cursor = true)
    {done rest : List (SortedRow N)}
    (hsorted : sortRows order (clusterRows xxh64 v collection p docs) = done ++ rest)
    (hrest : sortRows order (behind order cursor (clusterRows xxh64 v collection p docs)) = rest)
    (hfuel : rest.length < fuel) :
    ∃ pages, followRouter xxh64 v collection nodes p fuel i (cursor.map .sorted) = some
      (pages, none) ∧ (∀ page ∈ pages, page.length ≤ limit) ∧ pages.flatten = rest := by
  obtain ⟨hpos, hle⟩ := pageLimit_bounds hlimit
  have hpresent : ¬ (v.forget.shardOwners.filter (holdsCollection nodes) = [] ∧
    v.forget.shardOwners ≠ []) := by
    obtain ⟨o, ho, hholds⟩ := hholder
    intro h
    exact List.filter_eq_nil_iff.mp h.1 o ho hholds
  induction fuel generalizing i cursor done rest with
  | zero => cases hfuel
  | succ fuel ih =>
    have hpage := routerSortedPage_eq hv hplaced hdistinct i hbudget hrange hpos hle hcursor
      (hwithin i) hrest.symm
    rw [if_neg hpresent] at hpage
    rw [followRouter, routerQuery_sorted hsort hbudget hlimit hrange (nodes i) hcursor, hpage]
    have hlen : (rest.take limit).length ≤ limit := List.length_take_le limit rest
    by_cases hmore : limit < rest.length
    · obtain ⟨init, last, htake, hsplit⟩ := split_page hpos hmore
      have hposition : positionAfter order (rest.take limit) =
          some (.ofPosition (sortPosition last.value order) last.key) := by
        rw [positionAfter, htake, List.getLast?_concat]
        rfl
      have hbehind : sortRows order
        (behind order (some (.ofPosition (sortPosition last.value order) last.key))
          (clusterRows xxh64 v collection p docs)) = rest.drop limit := by
        apply @behind_position _ _ order _ (done ++ init) _ last (rowsIn_distinct docs)
        rw [← clusterRows, hsorted, List.append_assoc, ← hsplit]
      obtain ⟨pages, hpages, hlens, hflat⟩ :=
        ih (i + 1) (arityOk_ofPosition order last.value last.key)
        (show _ = (done ++ rest.take limit) ++ rest.drop limit by
          rw [hsorted, List.append_assoc, List.take_append_drop]) hbehind
            (by rw [List.length_drop]; omega)
      rw [if_pos hmore, hposition]
      refine ⟨rest.take limit :: pages, ?_, ?_, ?_⟩
      · exact congrArg (Option.map _) hpages
      · intro page hp
        rcases List.mem_cons.mp hp with rfl | hp
        · exact hlen
        · exact hlens page hp
      · rw [List.flatten_cons, hflat, List.take_append_drop]
    · rw [if_neg hmore]
      refine ⟨[rest.take limit], rfl, ?_, ?_⟩
      · intro page hp
        rwa [List.mem_singleton.mp hp]
      · rw [List.flatten_singleton, List.take_of_length_le (Nat.le_of_not_lt hmore)]

end Walks

section Exactness

variable {xxh64 : Xxh64} {v : ClusterMetadata} {collection : CollectionName}
  {nodes : ℕ → Url → Node N}
  {p : QueryParams N} {docs : ExtTreeMap Key (Json N) strCmp} {budget limit : ℕ}

omit [Number N] [DecidableEq N] in
theorem nodup_nodeKeys (hv : v.validate = .ok ())
    (hspelled : v.ring = none → (v.forget.shardOwners.map fun o => nodeKey o.1).Nodup) :
    (v.forget.shardOwners.map fun o => nodeKey o.1).Nodup := by
  cases hring : v.ring with
  | none => exact hspelled hring
  | some ring =>
    have hr : ring.validate = .ok () := (validate_iff.mp hv).1.2.1 ring hring
    have hshard : ∀ o ∈ v.forget.shardOwners, ∃ s ∈ ring.shards, s.nodeUrl = o.1 := by
      intro o ho
      rw [ClusterView.ClusterMetadata.shardOwners, ClusterMetadata.forget, hring] at ho
      obtain ⟨s, hs, rfl⟩ := List.mem_map.mp (mem_of_ownersAfter ho).1
      exact ⟨s, hs, rfl⟩
    have hurls := nodup_shardOwners v.forget
    have hmap : (v.forget.shardOwners.map fun o => nodeKey o.1) =
      (v.forget.shardOwners.map Prod.fst).map nodeKey := by
      rw [List.map_map]
      rfl
    rw [hmap]
    apply List.Nodup.map_on _ hurls
    intro u hu u' hu' hkey
    obtain ⟨o, ho, rfl⟩ := List.mem_map.mp hu
    obtain ⟨o', ho', rfl⟩ := List.mem_map.mp hu'
    obtain ⟨s, hs, hsu⟩ := hshard o ho
    obtain ⟨s', hs', hsu'⟩ := hshard o' ho'
    rw [← hsu, ← hsu'] at hkey ⊢
    rw [eq_of_primary hr hs hs' hkey]

/-- An unsorted query gives every row once in pages of at most the limit, and ends with a page, or
with the refusal that no shard asked last holds the collection, which does not come when each of
them does. A sorted query gives the rows in one order, and is refused when a shard would read more
than the budget. -/
theorem clusterPages_exact (hv : v.validate = .ok ())
    (hspelled : v.ring = none → (v.forget.shardOwners.map fun o => nodeKey o.1).Nodup)
    (hplaced : Placed xxh64 v collection docs nodes) (hbudget : p.budget = .ok budget)
    (hlimit : p.pageLimit = .ok limit) (hrange : p.checkKeyRange = .ok ()) :
    (p.sort = none → ∃ fuel pages last,
      followRouter xxh64 v collection nodes p fuel 0 none = some (pages, last) ∧
      (∀ page ∈ pages, page.length ≤ limit) ∧
      pages.flatten.Perm (clusterRows xxh64 v collection p docs) ∧
      (last = none ∨ last = some .collectionAbsent) ∧
      ((∀ o ∈ v.forget.shardOwners, holdsCollection nodes o = true) → last = none)) ∧
    ∀ order, p.sort = some order →
      ((∃ o ∈ v.forget.shardOwners, holdsCollection nodes o = true) →
        (∀ i, ∀ o ∈ v.forget.shardOwners, ReadsWithin xxh64 v collection nodes p budget i o) →
        ∃ fuel pages, followRouter xxh64 v collection nodes p fuel 0 none = some (pages, none) ∧
          (∀ page ∈ pages, page.length ≤ limit) ∧
          pages.flatten = sortRows order (clusterRows xxh64 v collection p docs)) ∧
      ∀ i (cursor : Option (SortCursor N)), arityOk order cursor = true →
        (∃ o ∈ v.forget.shardOwners, ¬ ReadsWithin xxh64 v collection nodes p budget i o) →
        routerQuery xxh64 v collection (nodes i) p (cursor.map .sorted) = .error
          (overBudgetRefusal budget) := by
  have hdistinct := nodup_nodeKeys hv hspelled
  obtain ⟨hpos, hle⟩ := pageLimit_bounds hlimit
  constructor
  · intro hsort
    obtain ⟨pages, last, hpages, hlens, hperm, hlast⟩ :=
      followRouter_rows hv hplaced hsort hbudget hlimit hrange _ 0
      (c := none) nofun (Nat.lt_succ_self _)
    refine ⟨_, pages, last, hpages, hlens, ?_, hlast.imp_right And.left, fun hholds => ?_⟩
    · have hall : (activeShards v.forget.shardOwners none).flatMap
        (left xxh64 v collection nodes p) =
          v.forget.shardOwners.flatMap fun o => shardRows xxh64 v collection nodes p o.1 none := by
        rw [activeShards, List.flatMap_map]
        rfl
      rw [hall] at hperm
      exact hperm.symm.trans (shardRows_perm hplaced hdistinct)
    · rcases hlast with hnone | ⟨-, o, ho, habsent⟩
      · exact hnone
      · have hpresent := hholds o ho
        rw [holdsCollection, habsent] at hpresent
        cases hpresent
  · intro order hsort
    constructor
    · intro hholder hwithin
      have hfirst : sortRows order (behind order none (clusterRows xxh64 v collection p docs)) =
          sortRows order (clusterRows xxh64 v collection p docs) :=
        congrArg (sortRows order) (List.filter_eq_self.mpr fun _ _ => rfl)
      have hstart : arityOk (N := N) order none = true := rfl
      obtain ⟨pages, hpages⟩ :=
        followRouter_sorted hv hplaced hdistinct hsort hbudget hlimit hrange hwithin hholder _ 0
        hstart (List.nil_append _).symm hfirst (Nat.lt_succ_self _)
      exact ⟨_, pages, hpages⟩
    · intro i cursor hcursor hover
      rw [routerQuery_sorted hsort hbudget hlimit hrange (nodes i) hcursor,
        routerSortedPage_refused hv hplaced i hbudget hrange hpos hle hcursor hover]
      rfl

/-- An address of one node; `slash` spells it in another way. -/
def alphaUrl (slash : Url) : Url := "http://alpha:1".toList ++ slash

def betaUrl : Url := "http://beta:1".toList

def ranged (shards : List ClusterView.ShardInfo) : ClusterMetadata where
  version := 1
  updatedBy := ['a']
  seeded := false
  members := []
  shards
  ring := none
  migration := none
  indexCatalog := ∅

def sole : ClusterMetadata := ranged [⟨0, 0, alphaUrl [], []⟩]

/-- Two shards, of which the first has the hash that every key is given here. -/
def halves (second : Url) : ClusterMetadata :=
  ranged [⟨0, 2 ^ 63, alphaUrl [], []⟩, ⟨2 ^ 63, 0, second, []⟩]

def atAlpha (_ : ℕ) (url : Url) : Node ℤ :=
  ⟨url, if nodeKey url = nodeKey (alphaUrl []) then some (.unindexed twoDocs) else none⟩

def asking (sort : Option SortOrder) (limit maxDocs : Option ℕ) : QueryParams ℤ :=
  ⟨none, none, none, sort, limit, maxDocs⟩

theorem placed_atAlpha {v : ClusterMetadata}
    (howner : ∀ key, ownerOf (fun _ => 0) v ['u'] key = some (alphaUrl [])) :
    Placed (fun _ => 0) v ['u'] twoDocs atAlpha := by
  have howns : ∀ o key, Owns (fun _ => 0) v ['u'] o key ↔ nodeKey o = nodeKey (alphaUrl []) := by
    intro o key
    rw [Owns, howner]
    simp [eq_comm]
  constructor
  · intro i o _
    simp [ClusterView.names, atAlpha, sameEndpoint]
  · intro i o col hcol
    rw [atAlpha] at hcol
    split_ifs at hcol
    · obtain rfl := Option.some.inj hcol
      rfl
    · cases hcol
  · exact fun _ _ => rfl
  · intro o _ key doc hown
    rw [howns] at hown
    simp [Stored, atAlpha, hown, Collection.unindexed]
  · rintro - o - key doc ⟨col, hcol, -⟩
    rw [howns]
    by_contra hne
    simp [atAlpha, hne] at hcol

theorem owner_sole (key : Key) : ownerOf (fun _ => 0) sole ['u'] key = some (alphaUrl []) := rfl

theorem owner_halves (second : Url) (key : Key) :
    ownerOf (fun _ => 0) (halves second) ['u'] key = some (alphaUrl []) := rfl

/-- A node for each shard, with the documents that the shard owns. -/
def atOwner (xxh64 : Xxh64) (v : ClusterMetadata) (docs : ExtTreeMap Key (Json ℤ) strCmp)
    (_ : ℕ) (url : Url) : Node ℤ :=
  ⟨url, some (.unindexed (docs.filter fun key _ => decide (Owns xxh64 v ['u'] url key)))⟩

theorem stored_atOwner {docs : ExtTreeMap Key (Json ℤ) strCmp} {o : Url} {key : Key}
    {doc : Json ℤ} :
    Stored (atOwner xxh64 v docs) o key doc ↔ Owns xxh64 v ['u'] o key ∧ docs[key]? = some doc := by
  simp only [Stored, atOwner, Option.some.injEq, exists_eq_left', Collection.unindexed,
    ExtTreeMap.getElem?_filter', Option.filter_eq_some_iff, decide_eq_true_eq]
  exact and_comm

theorem placed_atOwner (docs : ExtTreeMap Key (Json ℤ) strCmp) : Placed xxh64 v ['u'] docs
    (atOwner xxh64 v docs) := by
  constructor
  · intro i o _
    simp [ClusterView.names, atOwner, sameEndpoint]
  · intro i o col hcol
    obtain rfl := Option.some.inj hcol
    rfl
  · exact fun _ _ => rfl
  · intro o _ key doc howns
    rw [stored_atOwner]
    exact and_iff_right howns
  · intro _ o _ key doc hstored
    exact (stored_atOwner.mp hstored).1

def parity (text : List Char) : ℕ := (text.getLast?.getD '0').toNat % 2 * 2 ^ 63

def numbered (n : ℤ) : Json ℤ := .obj [(['n'], .num n)]

def threeDocs : ExtTreeMap Key (Json ℤ) strCmp :=
  .ofList [(['a'], numbered 2), (['b'], numbered 1), (['c'], numbered 3)] strCmp

/-- Three documents over two shards, in pages of two rows, as they are listed and sorted. -/
theorem clusterPages_exact_halves :
    (∃ fuel pages last, followRouter parity (halves betaUrl) ['u']
      (atOwner parity (halves betaUrl) threeDocs)
        (asking none (some 2) none) fuel 0 none = some (pages, last) ∧
      (∀ page ∈ pages, page.length ≤ 2) ∧
      pages.flatten.Perm (clusterRows parity (halves betaUrl) ['u']
        (asking none (some 2) none) threeDocs) ∧
      last = none) ∧
    ∃ fuel pages, followRouter parity (halves betaUrl) ['u']
      (atOwner parity (halves betaUrl) threeDocs)
        (asking (some ⟨[⟨['n'], true⟩]⟩) (some 2) none) fuel 0 none = some (pages, none) ∧
      (∀ page ∈ pages, page.length ≤ 2) ∧
      pages.flatten = sortRows ⟨[⟨['n'], true⟩]⟩ (clusterRows parity (halves betaUrl) ['u']
        (asking (some ⟨[⟨['n'], true⟩]⟩) (some 2) none) threeDocs) := by
  have hvalid : (halves betaUrl).validate = .ok () := by decide
  have hspelled : ((halves betaUrl).forget.shardOwners.map fun o => nodeKey o.1).Nodup := by decide
  have hplaced : Placed parity (halves betaUrl) ['u'] threeDocs
    (atOwner parity (halves betaUrl) threeDocs) :=
    placed_atOwner threeDocs
  constructor
  · obtain ⟨fuel, pages, last, hwalk, hlens, hperm, -, hlast⟩ :=
      (clusterPages_exact (p := asking none (some 2) none)
      hvalid (fun _ => hspelled) hplaced rfl rfl rfl).1 rfl
    exact ⟨fuel, pages, last, hwalk, hlens, hperm, hlast fun _ _ => rfl⟩
  · apply ((clusterPages_exact (p := asking (some ⟨[⟨['n'], true⟩]⟩) (some 2) none) hvalid
      (fun _ => hspelled) hplaced rfl rfl rfl).2 _ rfl).1
    · decide
    · intro i
      show ∀ o ∈ (halves betaUrl).forget.shardOwners,
        ReadsWithin parity (halves betaUrl) ['u']
          (atOwner parity (halves betaUrl) threeDocs) _ _ 0 o
      decide +kernel

/-- A sorted query is refused when a shard would read more than `max_docs`. A node that a range map
spells in two ways is asked twice. A walk whose last pages ask only shards without the collection
ends with a refusal. -/
theorem clusterPages_inexact :
    (sole.validate = .ok () ∧ Placed (fun _ => 0) sole ['u'] twoDocs atAlpha ∧
      followRouter (fun _ => 0) sole ['u'] atAlpha
        (asking (some ⟨[⟨['n'], true⟩]⟩) none (some 1)) 1 0 none =
        some ([], some (overBudgetRefusal 1))) ∧
    ((halves (alphaUrl ['/'])).validate = .ok () ∧
      Placed (fun _ => 0) (halves (alphaUrl ['/'])) ['u'] twoDocs atAlpha ∧
      followRouter (fun _ => 0) (halves (alphaUrl ['/'])) ['u'] atAlpha
        (asking none none none) 1 0 none =
        some ([[⟨['a'], .null⟩, ⟨['b'], .null⟩, ⟨['a'], .null⟩, ⟨['b'], .null⟩]], none)) ∧
    (halves betaUrl).validate = .ok () ∧ Placed (fun _ => 0) (halves betaUrl)
    ['u'] twoDocs atAlpha ∧
      followRouter (fun _ => 0) (halves betaUrl) ['u'] atAlpha
        (asking none (some 1) none) 3 0 none =
        some ([[⟨['a'], .null⟩], [⟨['b'], .null⟩]], some .collectionAbsent) := by
  refine ⟨⟨by decide, placed_atAlpha owner_sole, ?_⟩,
    ⟨by decide, placed_atAlpha (owner_halves _), ?_⟩,
    by decide, placed_atAlpha (owner_halves _), ?_⟩
  · decide
  · decide
  · decide

end Exactness

end DewDB.RouterQuery
