import DewDB.QuerySort
import DewDB.SecondaryIndex

/-!
# Pages of an unsorted query

A page walks the keys of a range, or the candidates of an index, and stops when it is full, when its
read budget is spent or at the end. Its cursor is the last key it has decided. The documents are the
same throughout, and an index that is built files exactly the documents that have its field.
-/
namespace DewDB.QueryScan

open JsonValue QueryFilter Secondary QuerySort Std

variable {N : Type} [Number N]

inductive ErrorKind where
  | notFound
  | invalidInput
  deriving DecidableEq

structure IoError where
  kind : ErrorKind
  message : String
  deriving DecidableEq

/-- The documents at rest, with the postings of the indexes that are built. -/
structure Collection (N : Type) [Number N] where
  docs : ExtTreeMap Key (Json N) strCmp
  indexes : Indexes N
  released : Bool
  exact : ∀ (name : List Char) (index : SecondaryIndex N), indexes.map[name]? = some index →
    index.isReady = true →
    ∀ (key : Key) (v : Json N), index.Holds key v ↔
      ∃ doc w, docs[key]? = some doc ∧ getPathValue doc index.field = some w ∧ jsonCmp w v = .eq

def scanChunk : ℕ := 1024

def maxQueryLimit : ℕ := 10000

/-- The key is above the bound that the walk starts from; a resume key stands in for the start. -/
def fromLower (after start : Option Key) (key : Key) : Bool :=
  match after, start with
  | some a, _ => strCmp a key = .lt
  | none, some s => (strCmp s key).isLE
  | none, none => true

def toUpper (stop : Option Key) (key : Key) : Bool := stop.all fun e => (strCmp key e).isLE

namespace Collection

def unindexed (docs : ExtTreeMap Key (Json N) strCmp) : Collection N where
  docs := docs
  indexes := ⟨∅⟩
  released := false
  exact := by simp

variable (col : Collection N)

def keys : List Key := col.docs.toList.map Prod.fst

def checkLive : Except IoError Unit :=
  if col.released then .error ⟨.notFound, "collection handle is no longer active"⟩ else .ok ()

def get (key : Key) : Except IoError (Option (Json N)) := do
  col.checkLive
  return col.docs[key]?

/-- At most `limit` keys from the range, in order. A reversed range is empty. -/
def rangePage (after start stop : Option Key) (limit : ℕ) : List Key :=
  match after.or start, stop with
  | some l, some e =>
    if strCmp l e = .gt then []
    else (col.keys.filter fun k => fromLower after start k && toUpper stop k).take limit
  | _, _ => (col.keys.filter fun k => fromLower after start k && toUpper stop k).take limit

variable {S E : Type}

def visitAll (visit : S → Key → Except E (S × Bool)) : S → List Key → Except E (S × Bool)
  | s, [] => .ok (s, true)
  | s, key :: keys =>
    match visit s key with
    | .error e => .error e
    | .ok (s, false) => .ok (s, false)
    | .ok (s, true) => visitAll visit s keys

/-- The walk in slices of `chunk` keys. -/
def walkChunks (chunk : ℕ) (start stop : Option Key) (visit : S → Key → Except E (S × Bool)) :
    ℕ → Option Key → S → Except E S
  | 0, _, s => .ok s
  | fuel + 1, cursor, s =>
    let page := col.rangePage cursor start stop chunk
    if page = [] then .ok s
    else match visitAll visit s page with
      | .error e => .error e
      | .ok (s, false) => .ok s
      | .ok (s, true) =>
        if page.length < chunk then .ok s
          else walkChunks chunk start stop visit fuel page.getLast? s

def tryForEachKey (after start stop : Option Key) (visit : S → Key → Except E (S × Bool))
    (s : S) : Except E S :=
  col.walkChunks scanChunk start stop visit (col.keys.length + 1) after s

/-- The candidates ascend, so the upper bound ends the walk where the lower ones only skip. -/
def scanCandidates (after start stop : Option Key) (visit : S → Key → Except E (S × Bool)) :
    List Key → S → Except E S
  | [], s => .ok s
  | key :: keys, s =>
    if stop.any fun e => strCmp key e = .gt then .ok s
    else if (after.any fun a => (strCmp key a).isLE) || (start.any fun l => strCmp key l = .lt) then
      scanCandidates after start stop visit keys s
    else match visit s key with
      | .error e => .error e
      | .ok (s, false) => .ok s
      | .ok (s, true) => scanCandidates after start stop visit keys s

def indexPlan [DecidableEq N] (filter : Option (QueryFilter.Filter N)) : Option Selection :=
  filter.bind fun f => col.indexes.select f col.docs.size

def scanFor (plan : Option Selection) (after start stop : Option Key)
    (visit : S → Key → Except E (S × Bool)) (s : S) : Except E S :=
  match plan with
  | some chosen => scanCandidates after start stop visit chosen.keys s
  | none => col.tryForEachKey after start stop visit s

end Collection

def Ascending (keys : List Key) : Prop := keys.Pairwise fun a b => strCmp a b = .lt

section Ranges

variable {keys keys' : List Key} {key : Key} {after start stop : Option Key}

theorem Ascending.filter (h : Ascending keys) (p : Key → Bool) : Ascending (keys.filter p) :=
  h.sublist List.filter_sublist

theorem filter_above (h : Ascending (keys ++ key :: keys')) :
    (keys ++ key :: keys').filter (fun k => strCmp key k = .lt) = keys' := by
  rw [Ascending, List.pairwise_append, List.pairwise_cons] at h
  have hbefore : keys.filter (fun k => strCmp key k = .lt) = [] := by
    rw [List.filter_eq_nil_iff]
    intro k hk hlt
    have hgt := OrientedCmp.gt_of_lt (of_decide_eq_true hlt)
    rw [h.2.2 k hk key List.mem_cons_self] at hgt
    cases hgt
  have hself : ¬ strCmp key key = .lt := by
    rw [strCmp_self]
    exact Ordering.noConfusion
  have hbehind : keys'.filter (fun k => strCmp key k = .lt) = keys' := by
    rw [List.filter_eq_self]
    intro k hk
    exact decide_eq_true (h.2.1.1 k hk)
  rw [List.filter_append, hbefore, List.nil_append, List.filter_cons,
    decide_eq_false hself, hbehind]
  rfl

variable (col : Collection N)

def Collection.inRange (after start stop : Option Key) : List Key :=
  col.keys.filter fun k => fromLower after start k && toUpper stop k

theorem keys_ascending : Ascending col.keys :=
  List.pairwise_map.mpr ExtTreeMap.ordered_keys_toList

theorem inRange_ascending : Ascending (col.inRange after start stop) :=
  (keys_ascending col).filter _

theorem mem_keys : key ∈ col.keys ↔ ∃ doc, col.docs[key]? = some doc := by
  constructor
  · intro h
    obtain ⟨⟨k, doc⟩, hp, rfl⟩ := List.mem_map.mp h
    exact ⟨doc, ExtTreeMap.mem_toList_iff_getElem?_eq_some.mp hp⟩
  · rintro ⟨doc, hdoc⟩
    exact List.mem_map.mpr ⟨(key, doc), ExtTreeMap.mem_toList_iff_getElem?_eq_some.mpr hdoc, rfl⟩

theorem isLE_of_fromLower {l : Key} (hl : after.or start = some l)
    (h : fromLower after start key = true) : (strCmp l key).isLE := by
  cases after with
  | some a =>
    cases hl
    exact Ordering.isLE_of_eq_lt (of_decide_eq_true h)
  | none =>
    cases hl
    exact h

theorem rangePage_eq (limit : ℕ) : col.rangePage after start stop limit =
    (col.inRange after start stop).take limit := by
  unfold Collection.rangePage Collection.inRange
  split
  · next l e hl =>
    split_ifs with hrev
    · have hnone : (col.keys.filter fun k => fromLower after start k &&
        toUpper (some e) k) = [] := by
        rw [List.filter_eq_nil_iff]
        intro k _ hk
        rw [Bool.and_eq_true] at hk
        have hle := @TransCmp.isLE_trans _ strCmp _ _ _ _ (isLE_of_fromLower hl hk.1) hk.2
        rw [hrev] at hle
        cases hle
      rw [hnone, List.take_nil]
    · rfl
  · rfl

theorem inRange_after (h : col.inRange after start stop = keys ++ key :: keys') :
    col.inRange (some key) start stop = keys' := by
  have hmem : key ∈ col.inRange after start stop :=
    h ▸ List.mem_append_right keys List.mem_cons_self
  have hkey := (List.mem_filter.mp hmem).2
  rw [Bool.and_eq_true] at hkey
  have hlower : ∀ k, strCmp key k = .lt → fromLower after start k = true := by
    intro k hlt
    have hfrom := hkey.1
    cases after with
    | some a => exact decide_eq_true (TransCmp.lt_trans (of_decide_eq_true hfrom) hlt)
    | none =>
      cases start with
      | some l => exact TransCmp.isLE_trans hfrom (Ordering.isLE_of_eq_lt hlt)
      | none => rfl
  have hsplit : col.inRange (some key) start stop =
      (col.inRange after start stop).filter fun k => strCmp key k = .lt := by
    unfold Collection.inRange
    rw [List.filter_filter]
    apply List.filter_congr
    intro k _
    rw [Bool.eq_iff_iff]
    simp only [fromLower, Bool.and_eq_true, decide_eq_true_eq]
    exact ⟨fun ⟨hlt, hup⟩ => ⟨hlt, hlower k hlt, hup⟩, fun ⟨hlt, _, hup⟩ => ⟨hlt, hup⟩⟩
  rw [hsplit, h]
  exact filter_above (h ▸ inRange_ascending col)

end Ranges

section Walks

open Collection

variable {S E : Type} (visit : S → Key → Except E (S × Bool)) {start stop : Option Key}

theorem visitAll_append (s : S) (keys keys' : List Key) : visitAll visit s (keys ++ keys') =
    match visitAll visit s keys with
    | .error e => .error e
    | .ok (s, false) => .ok (s, false)
    | .ok (s, true) => visitAll visit s keys' := by
  induction keys generalizing s with
  | nil => rfl
  | cons key keys ih =>
    rw [List.cons_append, visitAll, visitAll]
    cases visit s key with
    | error e => rfl
    | ok r =>
      obtain ⟨s', go⟩ := r
      cases go with
      | false => rfl
      | true => exact ih s'

variable (col : Collection N)

theorem walkChunks_eq {chunk : ℕ} (hchunk : 0 < chunk) (fuel : ℕ) (cursor : Option Key) (s : S)
    (hfuel : (col.inRange cursor start stop).length < fuel) :
    col.walkChunks chunk start stop visit fuel cursor s =
      (visitAll visit s (col.inRange cursor start stop)).map Prod.fst := by
  induction fuel generalizing cursor s with
  | zero => cases hfuel
  | succ fuel ih =>
    rw [walkChunks, rangePage_eq]
    by_cases hempty : (col.inRange cursor start stop).take chunk = []
    · have hnil : col.inRange cursor start stop = [] := by
        rcases List.take_eq_nil_iff.mp hempty with hzero | hnil
        · omega
        · exact hnil
      rw [if_pos hempty, hnil]
      rfl
    · obtain ⟨init, last, hpage⟩ : ∃ init last,
        (col.inRange cursor start stop).take chunk = init ++ [last] :=
        ⟨_, _, (List.dropLast_append_getLast hempty).symm⟩
      have hsplit : col.inRange cursor start stop = (init ++ [last]) ++
        (col.inRange cursor start stop).drop chunk := by
        rw [← hpage, List.take_append_drop]
      have hrest : col.inRange (some last) start stop =
        (col.inRange cursor start stop).drop chunk := by
        apply inRange_after
        rw [List.append_assoc] at hsplit
        exact hsplit
      have hwalk : visitAll visit s (col.inRange cursor start stop) =
          match visitAll visit s (init ++ [last]) with
          | .error e => .error e
          | .ok (s, false) => .ok (s, false)
          | .ok (s, true) => visitAll visit s ((col.inRange cursor start stop).drop chunk) := by
        rw [← visitAll_append, ← hsplit]
      rw [hwalk, if_neg hempty, hpage]
      cases visitAll visit s (init ++ [last]) with
      | error e => rfl
      | ok r =>
        obtain ⟨s', go⟩ := r
        cases go with
        | false => rfl
        | true =>
          dsimp only
          split_ifs with hshort
          · have hlen : ((col.inRange cursor start stop).take chunk).length < chunk :=
              hpage ▸ hshort
            rw [List.length_take] at hlen
            rw [List.drop_of_length_le (by omega)]
            rfl
          · rw [List.getLast?_append_of_ne_nil _ (List.cons_ne_nil last []),
              List.getLast?_singleton, ← hrest]
            have hpos : 0 < (col.inRange cursor start stop).length := by
              apply List.length_pos_of_ne_nil
              rintro hnil
              exact hempty (by rw [hnil, List.take_nil])
            apply ih
            rw [hrest, List.length_drop]
            omega

theorem tryForEachKey_eq (after : Option Key) (s : S) : col.tryForEachKey after start stop visit s =
    (visitAll visit s (col.inRange after start stop)).map Prod.fst := by
  apply walkChunks_eq visit col (Nat.succ_pos 1023)
  exact Nat.lt_succ_of_le (List.length_filter_le _ _)

def withinBounds (after start stop : Option Key) (key : Key) : Bool :=
  (after.all fun a => strCmp a key = .lt) && (start.all fun l => (strCmp l key).isLE) &&
    toUpper stop key

theorem withinBounds_eq (after start stop : Option Key) (key : Key) :
    withinBounds after start stop key =
    (!((after.any fun a => (strCmp key a).isLE) || (start.any fun l => strCmp key l = .lt)) &&
      !(stop.any fun e => strCmp key e = .gt)) := by
  have hlt : ∀ a b : Key, decide (strCmp a b = .lt) = !(strCmp b a).isLE := by
    intro a b
    rw [@OrientedCmp.eq_swap _ strCmp _ b]
    cases strCmp a b <;> rfl
  have hgt : ∀ a b : Key, decide (strCmp a b = .gt) = !(strCmp a b).isLE := by
    intro a b
    cases strCmp a b <;> rfl
  unfold withinBounds toUpper
  cases after <;> cases start <;> cases stop <;> simp [hlt, hgt]

theorem scanCandidates_eq {after : Option Key} {keys : List Key} (h : Ascending keys) (s : S) :
    scanCandidates after start stop visit keys s =
      (visitAll visit s (keys.filter (withinBounds after start stop))).map Prod.fst := by
  induction keys generalizing s with
  | nil => rfl
  | cons key keys ih =>
    rw [Ascending, List.pairwise_cons] at h
    rw [scanCandidates]
    split_ifs with habove hbelow
    · -- no later key is within the upper bound either
      have hnone : (key :: keys).filter (withinBounds after start stop) = [] := by
        rw [List.filter_eq_nil_iff]
        intro k hk hin
        rw [withinBounds, Bool.and_eq_true] at hin
        obtain ⟨e, rfl, hgt⟩ : ∃ e, stop = some e ∧ strCmp key e = .gt := by
          cases stop with
          | none => cases habove
          | some e => exact ⟨e, rfl, of_decide_eq_true habove⟩
        have hle : (strCmp k e).isLE := hin.2
        rcases List.mem_cons.mp hk with rfl | hk
        · rw [hgt] at hle
          cases hle
        · have hlt := TransCmp.lt_of_lt_of_isLE (h.1 k hk) hle
          rw [hgt] at hlt
          cases hlt
      rw [hnone]
      rfl
    · have hout : withinBounds after start stop key = false := by
        rw [withinBounds_eq, hbelow]
        rfl
      rw [List.filter_cons, hout]
      exact ih h.2 s
    · have hin : withinBounds after start stop key = true := by
        rw [withinBounds_eq, Bool.eq_false_iff.mpr hbelow, Bool.eq_false_iff.mpr habove]
        rfl
      rw [List.filter_cons, hin, if_pos rfl, visitAll]
      cases visit s key with
      | error e => rfl
      | ok r =>
        obtain ⟨s', go⟩ := r
        cases go with
        | false => rfl
        | true => exact ih h.2 s'

end Walks

def Resumes (after start : Option Key) : Prop := ∀ a, after = some a → ∀ l, start = some l →
  (strCmp l a).isLE

section Plans

variable [DecidableEq N] (col : Collection N) {after start stop : Option Key}

def rowAt (docs : ExtTreeMap Key (Json N) strCmp) (filter : Option (QueryFilter.Filter N))
    (owned : Key → Bool) (key : Key) : Option (SortedRow N) :=
  if owned key then
    docs[key]?.bind fun doc => if filter.all fun f => f.matches doc then some ⟨key, doc⟩ else none
  else none

def Collection.walked (plan : Option Selection) (after start stop : Option Key) : List Key :=
  match plan with
  | some chosen => chosen.keys.filter (withinBounds after start stop)
  | none => col.inRange after start stop

theorem eq_of_ascending {keys keys' : List Key} (h : Ascending keys) (h' : Ascending keys')
    (hmem : ∀ k, k ∈ keys ↔ k ∈ keys') : keys = keys' := by
  have hirrefl : ∀ a b : Key, strCmp a b = .lt → a ≠ b := by
    rintro a b hlt rfl
    rw [strCmp_self] at hlt
    cases hlt
  have hperm : keys.Perm keys' :=
    (List.perm_ext_iff_of_nodup (h.imp (hirrefl _ _)) (h'.imp (hirrefl _ _))).mpr hmem
  apply hperm.eq_of_pairwise _ h h'
  intro a b _ _ hab hba
  rw [OrientedCmp.gt_of_lt hab] at hba
  cases hba

theorem withinBounds_iff {key : Key} (hresumes : Resumes after start) :
    withinBounds after start stop key = true ↔
      fromLower after start key = true ∧ toUpper stop key = true := by
  rw [withinBounds, Bool.and_eq_true]
  apply and_congr_left
  intro _
  cases after with
  | none => cases start <;> simp [fromLower]
  | some a =>
    cases start with
    | none => simp [fromLower]
    | some l =>
      simp only [Option.all_some, Bool.and_eq_true, decide_eq_true_eq, fromLower,
        and_iff_left_iff_imp]
      intro hlt
      exact TransCmp.isLE_trans (hresumes a rfl l rfl) (Ordering.isLE_of_eq_lt hlt)

theorem scanFor_eq {S E : Type} {filter : Option (QueryFilter.Filter N)}
    (visit : S → Key → Except E (S × Bool)) (s : S) :
    col.scanFor (col.indexPlan filter) after start stop visit s =
      (Collection.visitAll visit s (col.walked (col.indexPlan filter) after start stop)).map
        Prod.fst := by
  unfold Collection.scanFor Collection.walked
  cases hplan : col.indexPlan filter with
  | none => exact tryForEachKey_eq visit col after s
  | some chosen =>
    obtain ⟨f, -, hsel⟩ := Option.bind_eq_some_iff.mp hplan
    exact scanCandidates_eq visit (candidates_of_select hsel).1 s

omit [DecidableEq N] in
/-- Resuming behind a key that was read leaves to read what comes after it. -/
theorem walked_after {plan : Option Selection} {keys keys' : List Key} {key : Key}
    (hascending : Ascending (col.walked plan after start stop))
    (h : col.walked plan after start stop = keys ++ key :: keys') :
    col.walked plan (some key) start stop = keys' := by
  cases plan with
  | none => exact inRange_after col h
  | some chosen =>
    have hmem : key ∈ col.walked (some chosen) after start stop :=
      h ▸ List.mem_append_right keys List.mem_cons_self
    have hkey := (List.mem_filter.mp hmem).2
    rw [withinBounds, Bool.and_eq_true, Bool.and_eq_true] at hkey
    have habove : ∀ k, strCmp key k = .lt → (after.all fun a => strCmp a k = .lt) = true := by
      intro k hlt
      cases after with
      | none => rfl
      | some a => exact decide_eq_true (TransCmp.lt_trans (of_decide_eq_true hkey.1.1) hlt)
    have hsplit : col.walked (some chosen) (some key) start stop =
        (col.walked (some chosen) after start stop).filter fun k => strCmp key k = .lt := by
      unfold Collection.walked
      dsimp only
      rw [List.filter_filter]
      apply List.filter_congr
      intro k _
      rw [Bool.eq_iff_iff]
      simp only [withinBounds, Option.all_some, Bool.and_eq_true, decide_eq_true_eq]
      exact ⟨fun ⟨⟨hlt, hlow⟩, hup⟩ => ⟨hlt, ⟨habove k hlt, hlow⟩, hup⟩,
        fun ⟨hlt, ⟨_, hlow⟩, hup⟩ => ⟨⟨hlt, hlow⟩, hup⟩⟩
    rw [hsplit, h]
    exact filter_above (h ▸ hascending)

omit [DecidableEq N] in
theorem resumes_of_inRange (hresumes : Resumes after start) {key : Key}
    (h : key ∈ col.inRange after start stop) : Resumes (some key) start := by
  intro a ha l hl
  obtain rfl := Option.some.inj ha
  obtain rfl := hl
  have hfrom := (List.mem_filter.mp h).2
  rw [Bool.and_eq_true] at hfrom
  cases after with
  | none => exact hfrom.1
  | some a => exact TransCmp.isLE_trans (hresumes a rfl l rfl) (Ordering.isLE_of_eq_lt
      (of_decide_eq_true hfrom.1))

variable {filter : Option (QueryFilter.Filter N)}

theorem walked_ascending : Ascending (col.walked (col.indexPlan filter) after start stop) := by
  unfold Collection.walked
  cases hplan : col.indexPlan filter with
  | none => exact inRange_ascending col
  | some chosen =>
    obtain ⟨f, -, hsel⟩ := Option.bind_eq_some_iff.mp hplan
    exact Ascending.filter (candidates_of_select hsel).1 _

theorem mem_inRange_of_walked (hresumes : Resumes after start) {key : Key}
    (h : key ∈ col.walked (col.indexPlan filter) after start stop) :
    key ∈ col.inRange after start stop := by
  unfold Collection.walked at h
  cases hplan : col.indexPlan filter with
  | none => rwa [hplan] at h
  | some chosen =>
    rw [hplan] at h
    obtain ⟨f, -, hsel⟩ := Option.bind_eq_some_iff.mp hplan
    obtain ⟨hkey, hin⟩ := List.mem_filter.mp h
    obtain ⟨-, index, hindex, hready, hheld⟩ := candidates_of_select hsel
    obtain ⟨v, hv⟩ := hheld key hkey
    obtain ⟨doc, -, hdoc, -⟩ := (col.exact _ index hindex hready key v).mp hv
    apply List.mem_filter.mpr ⟨(mem_keys col).mpr ⟨doc, hdoc⟩, _⟩
    rw [Bool.and_eq_true]
    exact (withinBounds_iff hresumes).mp hin

theorem mem_walked_of_row (hresumes : Resumes after start) {owned : Key → Bool} {key : Key}
    {row : SortedRow N}
    (hkey : key ∈ col.inRange after start stop)
    (hrow : rowAt col.docs filter owned key = some row) :
    key ∈ col.walked (col.indexPlan filter) after start stop := by
  unfold Collection.walked
  cases hplan : col.indexPlan filter with
  | none => exact hkey
  | some chosen =>
    obtain ⟨f, rfl, hsel⟩ := Option.bind_eq_some_iff.mp hplan
    obtain ⟨-, index, hindex, -⟩ := candidates_of_select hsel
    obtain ⟨hready, hfield, hcomplete⟩ := matches_of_select hsel hindex
    have hin := (List.mem_filter.mp hkey).2
    rw [Bool.and_eq_true, ← withinBounds_iff hresumes] at hin
    obtain ⟨doc, hdoc, hmatch⟩ : ∃ doc, col.docs[key]? = some doc ∧ f.matches doc = true := by
      rw [rowAt, Option.ite_none_right_eq_some] at hrow
      obtain ⟨doc, hdoc, hrow⟩ := Option.bind_eq_some_iff.mp hrow.2
      rw [Option.ite_none_right_eq_some] at hrow
      exact ⟨doc, hdoc, hrow.1⟩
    obtain ⟨v, hval, hmem⟩ := hcomplete key doc hmatch
    have hheld : index.Holds key v :=
      (col.exact _ index hindex hready key v).mpr ⟨doc, v, hdoc, hfield ▸ hval,
        ReflCmp.compare_self⟩
    exact List.mem_filter.mpr ⟨hmem hheld, hin⟩

theorem walked_rows (hresumes : Resumes after start) (owned : Key → Bool) :
    (col.walked (col.indexPlan filter) after start stop).filterMap (rowAt col.docs filter owned) =
      (col.inRange after start stop).filterMap (rowAt col.docs filter owned) := by
  let p : Key → Bool := fun k => (rowAt col.docs filter owned k).isSome
  have hkept : ∀ keys : List Key, (keys.filter p).filterMap (rowAt col.docs filter owned) =
      keys.filterMap (rowAt col.docs filter owned) := by
    intro keys
    rw [List.filterMap_filter]
    apply List.filterMap_congr
    intro k _
    cases hrow : rowAt col.docs filter owned k <;> simp [p, hrow]
  have hsame : (col.walked (col.indexPlan filter) after start stop).filter p =
      (col.inRange after start stop).filter p := by
    apply eq_of_ascending ((walked_ascending col).filter p) ((inRange_ascending col).filter p)
    intro k
    rw [List.mem_filter, List.mem_filter]
    apply and_congr_left
    intro hsome
    obtain ⟨row, hrow⟩ := Option.isSome_iff_exists.mp hsome
    exact ⟨mem_inRange_of_walked col hresumes, fun hk => mem_walked_of_row col hresumes hk hrow⟩
  rw [← hkept, hsame, hkept]

end Plans

end DewDB.QueryScan
