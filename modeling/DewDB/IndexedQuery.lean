import DewDB.IndexExactness
import DewDB.SortedPages

/-!
# A query with and without its indexes

An index changes which keys a query reads. A page holds the same rows when every key of the range is
read, as long as the resume key is not below the start of the range. Its cursor is the last key that
was decided, so it may be a key that the walk without indexes has passed or not come to, but the
rows behind both cursors are the same.
-/
namespace DewDB.IndexedQuery

open JsonValue QueryFilter Secondary QuerySort QueryScan QueryPages SortedPages Std

variable {N : Type} [Number N]

namespace Collection

def withoutIndexes (col : QueryScan.Collection N) : QueryScan.Collection N :=
  { QueryScan.Collection.unindexed col.docs with released := col.released }

end Collection

section Pages

variable [DecidableEq N] {col : QueryScan.Collection N} {filter : Option (QueryFilter.Filter N)}
  {owned : Key → Bool} {limit budget : ℕ} {after start stop : Option Key}

theorem length_walked_le (hresumes : Resumes after start) :
    (col.walked (col.indexPlan filter) after start stop).length ≤ col.docs.size := by
  have hnodup : (col.walked (col.indexPlan filter) after start stop).Nodup := by
    apply (walked_ascending col).imp
    rintro a b hlt rfl
    rw [strCmp_self] at hlt
    cases hlt
  have hkeys : col.walked (col.indexPlan filter) after start stop ⊆ col.keys :=
    fun _ hk => (List.mem_filter.mp (mem_inRange_of_walked col hresumes hk)).1
  calc (col.walked (col.indexPlan filter) after start stop).length
      ≤ col.keys.length := (List.subperm_of_subset hnodup hkeys).length_le
    _ = col.docs.size := by rw [Collection.keys, List.length_map, ExtTreeMap.length_toList]

/-- When the budget covers every document, a page is the first `limit` rows. One that may hold a row
has a cursor when there are more, and behind it are the rows that are left. -/
theorem queryPageOwned_unlimited (hlive : col.released = false) (hresumes : Resumes after start)
    (hbudget : col.docs.size ≤ budget) : ∃ next,
      queryPageOwned col after start stop filter limit budget owned =
        .ok ((rowsIn col.docs filter owned after start stop).take limit, next) ∧
      (0 < limit → (next.isSome = true ↔
        limit < (rowsIn col.docs filter owned after start stop).length) ∧
        ∀ k, next = some k → rowsIn col.docs filter owned (some k) start stop =
          (rowsIn col.docs filter owned after start stop).drop limit) := by
  have hrows := @walked_rows _ _ _ col after start stop filter hresumes owned
  have hwalked := @length_walked_le _ _ _ col filter after start stop hresumes
  rcases @queryPageOwned_cases _ _ _ col filter owned limit budget after start stop hlive hresumes
    with
    ⟨hpage, hlen⟩ | ⟨front, key, back, hsplit, hends, hlen, hpage⟩
  · have hitems : (decided col filter owned
      (col.walked (col.indexPlan filter) after start stop)).items =
        rowsIn col.docs filter owned after start stop := hrows
    rw [hitems] at hpage hlen
    refine ⟨none, by rw [hpage, List.take_of_length_le hlen], fun _ => ⟨?_, fun k hk => ?_⟩⟩
    · simpa using hlen
    · cases hk
  · have hfront : (front.filter owned).length ≤ front.length := List.length_filter_le _ _
    have hfits : front.length < budget := by
      rw [hsplit, List.length_append, List.length_cons] at hwalked
      omega
    obtain ⟨hfull, hrow⟩ : limit ≤ (decided col filter owned front).items.length ∧
        (rowAt col.docs filter owned key).isSome := by
      apply hends.2.resolve_left
      intro hspent
      have hscanned : budget ≤ (front.filter owned).length := hspent
      omega
    have hexact : (decided col filter owned front).items.length = limit :=
      Nat.le_antisymm hlen hfull
    obtain ⟨row, hrow⟩ := Option.isSome_iff_exists.mp hrow
    have hall : rowsIn col.docs filter owned after start stop =
        (decided col filter owned front).items ++ row :: back.filterMap
          (rowAt col.docs filter owned) := by
      calc rowsIn col.docs filter owned after start stop
          = (front ++ key :: back).filterMap (rowAt col.docs filter owned) := hsplit ▸ hrows.symm
        _ = front.filterMap (rowAt col.docs filter owned) ++
              row :: back.filterMap (rowAt col.docs filter owned) := by
            rw [List.filterMap_append, List.filterMap_cons, hrow]
    have hfirst : (rowsIn col.docs filter owned after start stop).take limit =
        (decided col filter owned front).items := by
      rw [hall, List.take_append_of_le_length hfull, List.take_of_length_le hlen]
    refine ⟨_, by rw [hfirst]; exact hpage, fun hlimit => ⟨?_, fun k hk => ?_⟩⟩
    · have hmore : limit < (rowsIn col.docs filter owned after start stop).length := by
        rw [hall, List.length_append, List.length_cons]
        omega
      have hscanned : 0 < (front.filter owned).length :=
        Nat.lt_of_lt_of_le (hexact ▸ hlimit) (length_items_le front)
      have hcursor : (front.filter owned).getLast?.isSome = true := by
        simpa using List.ne_nil_of_length_pos hscanned
      exact ⟨fun _ => hmore, fun _ => hcursor⟩
    · obtain ⟨items, next, hpage', -, -, hrest⟩ :=
        @queryPageOwned_rest _ _ _ col filter owned limit budget after start
        stop hlive hresumes hlimit (Nat.zero_lt_of_lt hfits)
      obtain ⟨rfl, rfl⟩ := Prod.mk.inj (Except.ok.inj (hpage.symm.trans hpage'))
      rw [(hrest k hk).2, List.drop_append_of_le_length hfull, List.drop_of_length_le hlen,
        List.nil_append]

end Pages

section Agreement

variable [DecidableEq N]

/-- Two pages hold the same rows. When a page may hold any, one has a cursor where the other has,
and the rows behind both are the same. -/
def SamePage (docs : ExtTreeMap Key (Json N) strCmp) (filter : Option (QueryFilter.Filter N))
    (owned : Key → Bool) (start stop : Option Key) (limit : ℕ) :
    Except IoError (List (SortedRow N) × Option Key) →
      Except IoError (List (SortedRow N) × Option Key) → Prop
  | .ok (rows, next), .ok (rows', next') => rows = rows' ∧
      (1 ≤ limit → next.isSome = next'.isSome ∧
        ∀ k, next = some k → ∀ k', next' = some k' →
          rowsIn docs filter owned (some k) start stop = rowsIn docs filter owned
            (some k') start stop)
  | .error e, .error e' => e = e'
  | _, _ => False

/-- With a budget that covers every document and a resume key that is not below the start, a query
answers the same rows in the same order with the indexes and without. Behind its cursor are the same
rows. A sorted page is the same altogether. -/
theorem indexed_query_agrees (col : QueryScan.Collection N) (after start stop : Option Key)
    (filter : Option (QueryFilter.Filter N)) (limit budget : ℕ) (owned : Key → Bool)
    (order : SortOrder)
    (cursor : Option (SortCursor N)) (hresumes : Resumes after start)
    (hbudget : col.docs.size ≤ budget) :
    SamePage col.docs filter owned start stop limit
      (queryPageOwned col after start stop filter limit budget owned)
      (queryPageOwned (Collection.withoutIndexes col) after start stop filter limit budget owned) ∧
    sortedPageOwned col start stop filter order cursor limit budget owned =
      sortedPageOwned (Collection.withoutIndexes col) start stop filter order cursor limit
        budget owned := by
  cases hlive : col.released with
  | true =>
    have hscan : (Collection.withoutIndexes col).released = true := hlive
    simp [queryPageOwned, sortedPageOwned, QueryScan.Collection.checkLive, hlive, hscan, SamePage,
      bind, Except.bind]
  | false =>
    have hscan : (Collection.withoutIndexes col).released = false := hlive
    constructor
    · obtain ⟨next, hpage, hmore⟩ :=
        @queryPageOwned_unlimited _ _ _ col filter owned limit budget after start stop
        hlive hresumes hbudget
      obtain ⟨next', hpage', hmore'⟩ :=
        @queryPageOwned_unlimited _ _ _ (Collection.withoutIndexes col) filter owned
        limit budget after start stop hscan hresumes hbudget
      rw [hpage, hpage']
      refine ⟨rfl, fun hlimit => ⟨?_, fun k hk k' hk' => ?_⟩⟩
      · rw [Bool.eq_iff_iff]
        exact (hmore hlimit).1.trans (hmore' hlimit).1.symm
      · exact ((hmore hlimit).2 k hk).trans ((hmore' hlimit).2 k' hk').symm
    · have hfresh : Resumes none start := by
        intro _ ha
        cases ha
      have hreads : ∀ c : QueryScan.Collection N, c.docs.size ≤ budget →
        reads c filter start stop owned ≤ budget := by
        intro c hc
        calc reads c filter start stop owned
            ≤ (c.walked (c.indexPlan filter) none start stop).length := List.length_filter_le _ _
          _ ≤ c.docs.size := length_walked_le hfresh
          _ ≤ budget := hc
      rw [sortedPageOwned_eq hlive, sortedPageOwned_eq hscan, if_pos (hreads col hbudget),
        if_pos (hreads (Collection.withoutIndexes col) hbudget)]
      rfl

end Agreement

section Cursors

open TransitionSystem

def collectionOf {s : IndexBuilds.Store N} (h : IndexBuilds.Inv s) : QueryScan.Collection N :=
  ⟨s.docs, s.indexes, false, h.exact⟩

def threeDocs : ExtTreeMap Key (Json ℤ) strCmp :=
  .ofList [(['a'], IndexBuilds.numbered 1), (['b'], IndexBuilds.numbered 2),
    (['c'], IndexBuilds.numbered 1)] strCmp

def onlyOne : QueryFilter.Filter ℤ := .mk (.all [.field ['n'] (.mk [.eq (.num 1)])])

def builtOps : List (IndexBuilds.Op ℤ) :=
  [.nextBuilding, .page 0, .read 0, .read 0, .read 0, .absorb 0, .finish 0]

def built : IndexBuilds.Store ℤ :=
  (run (IndexBuilds.step 256) (IndexBuilds.opened threeDocs [.create IndexBuilds.onNumber] [])
    builtOps).getD (IndexBuilds.opened threeDocs [] [])

theorem run_builtOps :
    run (IndexBuilds.step 256) (IndexBuilds.opened threeDocs [.create IndexBuilds.onNumber] [])
      builtOps = some built := by
  rfl

theorem built_inv : IndexBuilds.Inv built := by
  apply IndexBuilds.run_inv (by decide) (fun _ he => absurd he List.not_mem_nil) run_builtOps
  repeat apply meets_cons trivial rfl
  trivial

def onePage (col : QueryScan.Collection ℤ) : Except IoError (List (SortedRow ℤ) × Option Key) :=
  queryPageOwned col none none none (some onlyOne) 1 3 fun _ => true

theorem indexed_query_agrees_built :
    SamePage threeDocs (some onlyOne) (fun _ => true) none none 1 (onePage (collectionOf built_inv))
      (onePage (Collection.withoutIndexes (collectionOf built_inv))) ∧
    sortedPageOwned (collectionOf built_inv) none none (some onlyOne) ⟨[]⟩ none 1 3
      (fun _ => true) =
      sortedPageOwned (Collection.withoutIndexes (collectionOf built_inv)) none none
        (some onlyOne) ⟨[]⟩ none 1 3 (fun _ => true) :=
  indexed_query_agrees (collectionOf built_inv) none none none (some onlyOne) 1 3
    (fun _ => true) ⟨[]⟩ none (fun _ ha => nomatch ha) (by decide)

/-- The cursor of a page that reads every key has passed the document that does not match. -/
theorem cursors_differ :
    ((onePage (collectionOf built_inv)).map fun page => (page.1.map SortedRow.key, page.2)) =
      .ok ([['a']], some ['a']) ∧
    ((onePage (Collection.withoutIndexes (collectionOf built_inv))).map fun page =>
      (page.1.map SortedRow.key, page.2)) = .ok ([['a']], some ['b']) ∧
    onePage (collectionOf built_inv) ≠ onePage
      (Collection.withoutIndexes (collectionOf built_inv)) := by
  have hindexed : ((onePage (collectionOf built_inv)).map fun page =>
    (page.1.map SortedRow.key, page.2)) =
      .ok ([['a']], some ['a']) := by decide +kernel
  have hscanned : ((onePage (Collection.withoutIndexes (collectionOf built_inv))).map fun page =>
      (page.1.map SortedRow.key, page.2)) = .ok ([['a']], some ['b']) := by decide +kernel
  refine ⟨hindexed, hscanned, fun hsame => ?_⟩
  rw [hsame, hscanned] at hindexed
  cases hindexed

end Cursors

end DewDB.IndexedQuery
