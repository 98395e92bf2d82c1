import DewDB.QueryScan

/-!
# Following the cursors of an unsorted query

A page is what the walk has decided up to its cursor. The rows of a range are the rows of the page
and then the rows behind the cursor, so following the cursors gives every row once and in order.
-/
namespace DewDB.QueryPages

open JsonValue QueryFilter Secondary QuerySort QueryScan Std

variable {N : Type} [Number N] [DecidableEq N]

structure PageState (N : Type) where
  items : List (SortedRow N)
  lastKey : Option Key
  hasMore : Bool
  scanned : ℕ

/-- What the walk does with a key: `false` ends the page. -/
def pageVisit (col : Collection N) (filter : Option (QueryFilter.Filter N)) (limit budget : ℕ)
    (owned : Key → Bool) (s : PageState N) (key : Key) : Except IoError (PageState N × Bool) :=
  if !owned key then .ok (s, true)
  else if budget ≤ s.scanned then .ok ({ s with hasMore := true }, false)
  else
    let s := { s with scanned := s.scanned + 1 }
    if limit ≤ s.items.length then
      match filter with
      | none => .ok ({ s with hasMore := true }, false)
      | some f =>
        match col.get key with
        | .error e => .error e
        | .ok (some val) =>
          if f.matches val then .ok ({ s with hasMore := true }, false)
            else .ok ({ s with lastKey := some key }, true)
        | .ok none => .ok ({ s with lastKey := some key }, true)
    else
      match col.get key with
      | .error e => .error e
      | .ok (some value) =>
        if filter.all fun f => f.matches value then
          .ok ({ s with items := s.items ++ [⟨key, value⟩], lastKey := some key }, true)
        else .ok ({ s with lastKey := some key }, true)
      | .ok none => .ok ({ s with lastKey := some key }, true)

/-- A page of rows in key order, and the position that the next page resumes from. -/
def queryPageOwned (col : Collection N) (after start stop : Option Key)
    (filter : Option (QueryFilter.Filter N))
    (limit budget : ℕ) (owned : Key → Bool) : Except IoError (List (SortedRow N) × Option Key) := do
  col.checkLive
  let s ← col.scanFor (col.indexPlan filter) after start stop
    (pageVisit col filter limit budget owned) ⟨[], none, false, 0⟩
  return (s.items, if s.hasMore then s.lastKey else none)

section Pages

variable (col : Collection N) (filter : Option (QueryFilter.Filter N)) (owned : Key → Bool)

def rowsIn (docs : ExtTreeMap Key (Json N) strCmp) (filter : Option (QueryFilter.Filter N))
    (owned : Key → Bool) (after start stop : Option Key) : List (SortedRow N) :=
  ((docs.toList.map Prod.fst).filter fun k => fromLower after start k && toUpper stop k).filterMap
    (rowAt docs filter owned)

def decided (keys : List Key) : PageState N where
  items := keys.filterMap (rowAt col.docs filter owned)
  lastKey := (keys.filter owned).getLast?
  hasMore := false
  scanned := (keys.filter owned).length

/-- The page ends at this key: the budget is spent, or the page is full and the key is a row. -/
def EndsAt (limit budget : ℕ) (keys : List Key) (key : Key) : Prop :=
  owned key = true ∧ (budget ≤ (decided col filter owned keys).scanned ∨
    limit ≤ (decided col filter owned keys).items.length ∧ (rowAt col.docs filter owned key).isSome)

variable {col filter owned} {limit budget : ℕ}

theorem decided_unowned {key : Key} (keys : List Key) (h : owned key = false) :
    decided col filter owned (keys ++ [key]) = decided col filter owned keys := by
  simp [decided, rowAt, h]

theorem decided_rejected {key : Key} (keys : List Key) (h : owned key = true)
    (hrow : rowAt col.docs filter owned key = none) : decided col filter owned (keys ++ [key]) =
      { decided col filter owned keys with
        lastKey := some key, scanned := (decided col filter owned keys).scanned + 1 } := by
  simp [decided, h, hrow]

theorem decided_row {key : Key} {row : SortedRow N} (keys : List Key) (h : owned key = true)
    (hrow : rowAt col.docs filter owned key = some row) : decided col filter owned (keys ++ [key]) =
      { decided col filter owned keys with
        items := (decided col filter owned keys).items ++ [row], lastKey := some key,
        scanned := (decided col filter owned keys).scanned + 1 } := by
  simp [decided, h, hrow]

theorem rowAt_owned {docs : ExtTreeMap Key (Json N) strCmp} {key : Key} {doc : Json N}
    (h : owned key = true)
    (hdoc : docs[key]? = some doc) : rowAt docs filter owned key =
      if filter.all fun f => f.matches doc then some ⟨key, doc⟩ else none := by
  rw [rowAt, h, hdoc]
  rfl

theorem pageVisit_cases (hlive : col.released = false) {key : Key} {doc : Json N}
    (hdoc : col.docs[key]? = some doc) (keys : List Key) :
    (pageVisit col filter limit budget owned (decided col filter owned keys) key =
        .ok (decided col filter owned (keys ++ [key]), true) ∧
      ((decided col filter owned keys).items.length ≤ limit →
        (decided col filter owned (keys ++ [key])).items.length ≤ limit)) ∨
    EndsAt col filter owned limit budget keys key ∧ ∃ scanned,
      pageVisit col filter limit budget owned (decided col filter owned keys) key =
        .ok ({ decided col filter owned keys with hasMore := true, scanned := scanned },
          false) := by
  have hget : col.get key = .ok (some doc) := by
    rw [Collection.get, Collection.checkLive, hlive, hdoc]
    rfl
  cases howned : owned key with
  | false =>
    left
    rw [decided_unowned keys howned]
    exact ⟨by rw [pageVisit, howned]; rfl, fun h => h⟩
  | true =>
    have hrow := @rowAt_owned _ _ _ filter owned _ _ _ howned hdoc
    by_cases hspent : budget ≤ (decided col filter owned keys).scanned
    · right
      refine ⟨⟨howned, .inl hspent⟩, (decided col filter owned keys).scanned, ?_⟩
      simp [pageVisit, howned, hspent]
    · by_cases hmatch : (filter.all fun f => f.matches doc) = true
      · rw [if_pos hmatch] at hrow
        by_cases hfull : limit ≤ (decided col filter owned keys).items.length
        · right
          refine ⟨⟨howned, .inr ⟨hfull, Option.isSome_iff_exists.mpr ⟨_, hrow⟩⟩⟩,
            (decided col filter owned keys).scanned + 1, ?_⟩
          cases filter with
          | none => simp [pageVisit, howned, hspent, hfull]
          | some f =>
            have hf : f.matches doc = true := hmatch
            simp [pageVisit, howned, hspent, hfull, hget, hf]
        · left
          rw [decided_row keys howned hrow]
          refine ⟨?_, fun _ => ?_⟩
          · simp only [pageVisit, howned, hspent, hfull, hget, hmatch]
            rfl
          · rw [List.length_append, List.length_singleton]
            omega
      · left
        rw [if_neg hmatch] at hrow
        rw [decided_rejected keys howned hrow]
        refine ⟨?_, fun h => h⟩
        by_cases hfull : limit ≤ (decided col filter owned keys).items.length
        · cases filter with
          | none => exact absurd rfl hmatch
          | some f =>
            have hf : f.matches doc = false := Bool.eq_false_iff.mpr hmatch
            simp [pageVisit, howned, hspent, hfull, hget, hf]
        · simp only [pageVisit, howned, hspent, hfull, hget, hmatch]
          rfl

/-- A page decides a part of the keys that it reads and may end at the next. -/
theorem visitAll_decided (hlive : col.released = false) (keys rest : List Key)
    (hdocs : ∀ k ∈ rest, ∃ doc, col.docs[k]? = some doc)
    (hlimit : (decided col filter owned keys).items.length ≤ limit) :
    (Collection.visitAll (pageVisit col filter limit budget owned)
      (decided col filter owned keys) rest =
        .ok (decided col filter owned (keys ++ rest), true) ∧
      (decided col filter owned (keys ++ rest)).items.length ≤ limit) ∨
    ∃ front key back scanned, rest = front ++ key :: back ∧
      EndsAt col filter owned limit budget (keys ++ front) key ∧
      (decided col filter owned (keys ++ front)).items.length ≤ limit ∧
      Collection.visitAll (pageVisit col filter limit budget owned)
        (decided col filter owned keys) rest =
        .ok ({ decided col filter owned (keys ++ front) with hasMore := true, scanned := scanned },
          false) := by
  induction rest generalizing keys with
  | nil => exact .inl ⟨by rw [List.append_nil]; rfl, by rwa [List.append_nil]⟩
  | cons key rest ih =>
    obtain ⟨doc, hdoc⟩ := hdocs key List.mem_cons_self
    rcases @pageVisit_cases _ _ _ col filter owned limit budget hlive _ _ hdoc keys with
      ⟨hvisit, hkept⟩ | ⟨hends, scanned, hvisit⟩
    · have hsplit : keys ++ key :: rest = keys ++ [key] ++ rest := by simp
      rw [Collection.visitAll, hvisit, hsplit]
      rcases ih (keys ++ [key]) (fun k hk => hdocs k (List.mem_cons_of_mem key hk))
        (hkept hlimit) with
        hall | ⟨front, k, back, scanned, rfl, hends, hlen, hrest⟩
      · exact .inl hall
      · refine .inr ⟨key :: front, k, back, scanned, rfl, ?_, ?_, ?_⟩
        · simpa using hends
        · simpa using hlen
        · simpa using hrest
    · refine .inr ⟨[], key, rest, scanned, rfl, ?_, ?_, ?_⟩
      · rwa [List.append_nil]
      · rwa [List.append_nil]
      · rw [Collection.visitAll, hvisit, List.append_nil]

theorem split_last {keys : List Key} {key : Key} (h : (keys.filter owned).getLast? = some key) :
    ∃ front back, keys = front ++ key :: back ∧ ∀ k ∈ back, owned k = false := by
  induction keys with
  | nil => cases h
  | cons k keys ih =>
    cases hlast : (keys.filter owned).getLast? with
    | some last =>
      rw [List.filter_cons] at h
      have hkey : (keys.filter owned).getLast? = some key := by
        split_ifs at h
        · rwa [List.getLast?_cons, hlast, Option.getD_some, ← hlast] at h
        · exact h
      obtain ⟨front, back, rfl, hback⟩ := ih hkey
      exact ⟨k :: front, back, rfl, hback⟩
    | none =>
      have hnil := List.getLast?_eq_none_iff.mp hlast
      rw [List.filter_cons, hnil] at h
      split_ifs at h
      · obtain rfl : k = key := by simpa using h
        exact ⟨[], keys, rfl, fun k hk => Bool.eq_false_iff.mpr
          (List.filter_eq_nil_iff.mp hnil k hk)⟩
      · cases h

theorem rows_unowned {docs : ExtTreeMap Key (Json N) strCmp} {keys : List Key}
    (h : ∀ k ∈ keys, owned k = false) : keys.filterMap (rowAt docs filter owned) = [] := by
  rw [List.filterMap_eq_nil_iff]
  intro k hk
  simp [rowAt, h k hk]

theorem length_items_le (keys : List Key) :
    (decided col filter owned keys).items.length ≤ (decided col filter owned keys).scanned := by
  induction keys with
  | nil => exact Nat.le_refl 0
  | cons k keys ih =>
    simp only [decided, List.filterMap_cons, List.filter_cons] at ih ⊢
    cases howned : owned k with
    | false => simpa [rowAt, howned] using ih
    | true =>
      cases rowAt col.docs filter owned k with
      | none => exact Nat.le_succ_of_le ih
      | some row => exact Nat.succ_le_succ ih

variable {after start stop : Option Key}

theorem exists_doc_of_walked (hresumes : Resumes after start) {key : Key}
    (h : key ∈ col.walked (col.indexPlan filter) after start stop) :
    ∃ doc, col.docs[key]? = some doc :=
  (mem_keys col).mp (List.mem_filter.mp (mem_inRange_of_walked col hresumes h)).1

/-- A page has decided all that the query reads, or it ends at a key and its cursor is the last one
it has decided. -/
theorem queryPageOwned_cases (hlive : col.released = false) (hresumes : Resumes after start) :
    (queryPageOwned col after start stop filter limit budget owned =
        .ok ((decided col filter owned (col.walked (col.indexPlan filter) after start stop)).items,
          none) ∧
      (decided col filter owned (col.walked (col.indexPlan filter) after start stop)).items.length ≤
        limit) ∨
    ∃ front key back, col.walked (col.indexPlan filter) after start stop = front ++ key :: back ∧
      EndsAt col filter owned limit budget front key ∧
        (decided col filter owned front).items.length ≤ limit ∧
      queryPageOwned col after start stop filter limit budget owned =
        .ok ((decided col filter owned front).items, (front.filter owned).getLast?) := by
  have hpage : queryPageOwned col after start stop filter limit budget owned =
      ((Collection.visitAll (pageVisit col filter limit budget owned) (decided col filter owned [])
        (col.walked (col.indexPlan filter) after start stop)).map Prod.fst).map fun s =>
          (s.items, if s.hasMore then s.lastKey else none) := by
    rw [queryPageOwned, Collection.checkLive, hlive, scanFor_eq]
    rfl
  rcases @visitAll_decided _ _ _ col filter owned limit budget hlive [] _
    (fun _ hk => exists_doc_of_walked hresumes hk)
    (Nat.zero_le limit) with ⟨hall, hlen⟩ | ⟨front, key, back, scanned, hsplit, hends, hlen, hvisit⟩
  · exact .inl ⟨by rw [hpage, hall]; rfl, hlen⟩
  · rw [List.nil_append] at hends hlen hvisit
    exact .inr ⟨front, key, back, hsplit, hends, hlen, by rw [hpage, hvisit]; rfl⟩

/-- A page holds at most `limit` rows, and behind its cursor are the rows that are left. -/
theorem queryPageOwned_rest (hlive : col.released = false) (hresumes : Resumes after start)
    (hlimit : 0 < limit)
    (hbudget : 0 < budget) : ∃ items next,
      queryPageOwned col after start stop filter limit budget owned = .ok (items, next) ∧
        items.length ≤ limit ∧
      (next = none → rowsIn col.docs filter owned after start stop = items) ∧
      ∀ k, next = some k → k ∈ col.inRange after start stop ∧
        rowsIn col.docs filter owned after start stop = items ++ rowsIn col.docs filter owned
          (some k) start stop := by
  have hrows := @walked_rows _ _ _ col after start stop filter hresumes owned
  rcases @queryPageOwned_cases _ _ _ col filter owned limit budget after start stop hlive hresumes
    with
    ⟨hpage, hlen⟩ | ⟨front, key, back, hsplit, hends, hlen, hpage⟩
  · refine ⟨_, none, hpage, hlen, fun _ => hrows.symm, fun k hk => ?_⟩
    cases hk
  · have hscanned : 0 < (front.filter owned).length := by
      have hle := @length_items_le _ _ _ col filter owned front
      rcases hends.2 with hspent | ⟨hfull, -⟩
      · exact Nat.lt_of_lt_of_le hbudget hspent
      · exact Nat.lt_of_lt_of_le hlimit (Nat.le_trans hfull hle)
    obtain ⟨k, hk⟩ : ∃ k, (front.filter owned).getLast? = some k :=
      Option.isSome_iff_exists.mp (by simpa using List.ne_nil_of_length_pos hscanned)
    obtain ⟨init, tail, rfl, htail⟩ := split_last hk
    have hwalked : col.walked (col.indexPlan filter) after start stop =
      init ++ k :: (tail ++ key :: back) := by
      rw [hsplit, List.append_assoc, List.cons_append]
    have hin : k ∈ col.inRange after start stop :=
      mem_inRange_of_walked col hresumes (hwalked ▸ List.mem_append_right init List.mem_cons_self)
    have hbehind := walked_after col (walked_ascending col) hwalked
    refine ⟨_, some k, by rw [hpage, hk], hlen, ?_, ?_⟩
    · intro hnone
      cases hnone
    · intro _ hnext
      obtain rfl := Option.some.inj hnext
      refine ⟨hin, ?_⟩
      have hrest := @walked_rows _ _ _ col (some k) start stop filter
        (resumes_of_inRange col hresumes hin) owned
      have hdecided : (tail ++ key :: back).filterMap (rowAt col.docs filter owned) =
          (key :: back).filterMap (rowAt col.docs filter owned) := by
        rw [List.filterMap_append, rows_unowned htail, List.nil_append]
      calc rowsIn col.docs filter owned after start stop
          = (init ++ k :: tail).filterMap (rowAt col.docs filter owned) ++
              (key :: back).filterMap (rowAt col.docs filter owned) := by
            rw [← List.filterMap_append, ← hsplit]
            exact hrows.symm
        _ = (decided col filter owned (init ++ k :: tail)).items ++
              rowsIn col.docs filter owned (some k) start stop := by
            rw [← hdecided, ← hbehind, hrest]
            rfl

/-- Follows the cursors from `after` on, page after page; the documents stay as they are, the
indexes need not. -/
def followPages (cols : ℕ → Collection N) (start stop : Option Key)
    (filter : Option (QueryFilter.Filter N))
    (limit budget : ℕ) (owned : Key → Bool) :
    ℕ → ℕ → Option Key → Option (List (List (SortedRow N)))
  | 0, _, _ => none
  | fuel + 1, i, after =>
    match queryPageOwned (cols i) after start stop filter limit budget owned with
    | .error _ => none
    | .ok (items, none) => some [items]
    | .ok (items, some k) =>
      (followPages cols start stop filter limit budget owned fuel (i + 1) (some k)).map fun pages =>
        items :: pages

theorem followPages_rows {docs : ExtTreeMap Key (Json N) strCmp} {cols : ℕ → Collection N}
    (hdocs : ∀ i, (cols i).docs = docs) (hlive : ∀ i, (cols i).released = false)
    (hlimit : 0 < limit)
    (hbudget : 0 < budget) (fuel i : ℕ) (after : Option Key) (hresumes : Resumes after start)
    (hfuel : ((cols i).inRange after start stop).length < fuel) :
    ∃ pages, followPages cols start stop filter limit budget owned fuel i after = some pages ∧
      (∀ page ∈ pages, page.length ≤ limit) ∧ pages.flatten =
        rowsIn docs filter owned after start stop := by
  induction fuel generalizing i after with
  | zero => cases hfuel
  | succ fuel ih =>
    obtain ⟨items, next, hpage, hlen, hend, hrest⟩ :=
      @queryPageOwned_rest _ _ _ (cols i) filter owned limit budget after start stop
        (hlive i) hresumes hlimit hbudget
    rw [hdocs i] at hend hrest
    rw [followPages, hpage]
    cases next with
    | none =>
      refine ⟨[items], rfl, ?_, ?_⟩
      · intro page hp
        rwa [List.mem_singleton.mp hp]
      · rw [List.flatten_singleton, hend rfl]
    | some k =>
      obtain ⟨hin, hrows⟩ := hrest k rfl
      obtain ⟨front, back, hsplit⟩ := List.append_of_mem hin
      have hbehind : (cols (i + 1)).inRange (some k) start stop = back := by
        rw [← inRange_after (cols i) hsplit, Collection.inRange, Collection.inRange,
          Collection.keys, Collection.keys, hdocs, hdocs]
      have hshorter : ((cols (i + 1)).inRange (some k) start stop).length < fuel := by
        rw [hsplit, List.length_append, List.length_cons] at hfuel
        rw [hbehind]
        omega
      obtain ⟨pages, hpages, hlens, hflat⟩ :=
        ih (i + 1) (some k) (resumes_of_inRange (cols i) hresumes hin) hshorter
      refine ⟨items :: pages, congrArg (Option.map fun pages => items :: pages) hpages, ?_, ?_⟩
      · intro page hp
        rcases List.mem_cons.mp hp with rfl | hp
        · exact hlen
        · exact hlens page hp
      · rw [List.flatten_cons, hflat, hrows]

theorem mem_rowsIn {docs : ExtTreeMap Key (Json N) strCmp} {row : SortedRow N} :
    row ∈ rowsIn docs filter owned after start stop ↔
      docs[row.key]? = some row.value ∧ owned row.key = true ∧
      (filter.all fun f => f.matches row.value) = true ∧ fromLower after start row.key = true ∧
      toUpper stop row.key = true := by
  constructor
  · intro h
    obtain ⟨key, hkey, hrow⟩ := List.mem_filterMap.mp h
    have hin := (List.mem_filter.mp hkey).2
    rw [rowAt, Option.ite_none_right_eq_some] at hrow
    obtain ⟨howned, hrow⟩ := hrow
    obtain ⟨doc, hdoc, hrow⟩ := Option.bind_eq_some_iff.mp hrow
    rw [Option.ite_none_right_eq_some] at hrow
    obtain ⟨hmatch, hrow⟩ := hrow
    rw [← Option.some.inj hrow]
    exact ⟨hdoc, howned, hmatch, Bool.and_eq_true_iff.mp hin⟩
  · rintro ⟨hdoc, howned, hmatch, hin⟩
    have hkey : row.key ∈ docs.toList.map Prod.fst :=
      List.mem_map.mpr ⟨(row.key, row.value),
        ExtTreeMap.mem_toList_iff_getElem?_eq_some.mpr hdoc, rfl⟩
    apply List.mem_filterMap.mpr ⟨row.key,
      List.mem_filter.mpr ⟨hkey, Bool.and_eq_true_iff.mpr hin⟩, _⟩
    rw [rowAt_owned howned hdoc, if_pos hmatch]

theorem key_of_rowAt {docs : ExtTreeMap Key (Json N) strCmp} {key : Key} {row : SortedRow N}
    (h : rowAt docs filter owned key = some row) : row.key = key := by
  rw [rowAt, Option.ite_none_right_eq_some] at h
  obtain ⟨doc, -, hrow⟩ := Option.bind_eq_some_iff.mp h.2
  rw [Option.ite_none_right_eq_some] at hrow
  rw [← Option.some.inj hrow.2]

theorem rowsIn_ascending (docs : ExtTreeMap Key (Json N) strCmp) :
    Ascending ((rowsIn docs filter owned after start stop).map SortedRow.key) := by
  have hkeys : Ascending (docs.toList.map Prod.fst) :=
    List.pairwise_map.mpr ExtTreeMap.ordered_keys_toList
  apply List.pairwise_map.mpr
  rw [rowsIn, List.pairwise_filterMap]
  apply (hkeys.filter _).imp
  intro a b hab row hrow row' hrow'
  rwa [key_of_rowAt hrow, key_of_rowAt hrow']

end Pages

section Exactness

variable {cols : ℕ → Collection N} {docs : ExtTreeMap Key (Json N) strCmp}

/-- Following the cursors comes to an end, and the pages hold the rows of the range in key order,
each once. -/
theorem followPages_exact (hdocs : ∀ i, (cols i).docs = docs)
    (hlive : ∀ i, (cols i).released = false)
    (start stop : Option Key) (filter : Option (QueryFilter.Filter N)) (owned : Key → Bool)
    {limit budget : ℕ} (hlimit : 1 ≤ limit) (hbudget : 1 ≤ budget) :
    ∃ pages, followPages cols start stop filter limit budget owned
      (docs.size + 1) 0 none = some pages ∧
      (pages.flatten.map SortedRow.key).Pairwise (fun a b => strCmp a b = .lt) ∧
      ∀ row, row ∈ pages.flatten ↔ docs[row.key]? = some row.value ∧ owned row.key = true ∧
        (filter.all fun f => f.matches row.value) = true ∧
          (start.all fun s => (strCmp s row.key).isLE) = true ∧
        (stop.all fun e => (strCmp row.key e).isLE) = true := by
  have hresumes : Resumes none start := by
    intro a ha
    cases ha
  have hfuel : ((cols 0).inRange none start stop).length < docs.size + 1 := by
    apply Nat.lt_succ_of_le
    calc ((cols 0).inRange none start stop).length
        ≤ (cols 0).keys.length := List.length_filter_le _ _
      _ = docs.size := by rw [Collection.keys, List.length_map, ExtTreeMap.length_toList, hdocs]
  obtain ⟨pages, hpages, -, hflat⟩ :=
    @followPages_rows _ _ _ filter owned limit budget start stop docs cols hdocs
    hlive hlimit hbudget (docs.size + 1) 0 none hresumes hfuel
  refine ⟨pages, hpages, ?_, fun row => ?_⟩
  · rw [hflat]
    exact rowsIn_ascending docs
  · have hlower : fromLower none start row.key = start.all fun s => (strCmp s row.key).isLE := by
      cases start <;> rfl
    rw [hflat, mem_rowsIn, hlower]
    rfl

def twoDocs : ExtTreeMap Key (Json ℤ) strCmp := .ofList [(['a'], .null), (['b'], .null)] strCmp

/-- Two documents in pages of one row. -/
theorem followPages_exact_two :
    ∃ pages, followPages (fun _ => .unindexed twoDocs) none none none 1 1 (fun _ => true)
      (twoDocs.size + 1) 0 none =
        some pages ∧
      (pages.flatten.map SortedRow.key).Pairwise (fun a b => strCmp a b = .lt) ∧
      ∀ row, row ∈ pages.flatten ↔ twoDocs[row.key]? = some row.value ∧ true = true ∧
        true = true ∧ true = true ∧ true = true :=
  followPages_exact (fun _ => rfl) (fun _ => rfl) none none none (fun _ => true) (Nat.le_refl 1)
    (Nat.le_refl 1)

end Exactness

end DewDB.QueryPages
