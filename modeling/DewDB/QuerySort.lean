import DewDB.JsonValue
import DewDB.KWayMerge

/-!
# The order of a sorted query

Rows compare by the sort keys in turn, each in its direction, and then by document key. A cursor
records the position of a row in that order, so that being behind a cursor is being behind its row.
Shards sort locally and the router merges their pages.
-/
namespace DewDB.QuerySort

open JsonValue StableSort Std

variable {N : Type}

abbrev Key := List Char

structure SortKey where
  field : List Char
  desc : Bool

structure SortOrder where
  keys : List SortKey

structure SortedRow (N : Type) where
  key : Key
  value : Json N
  deriving DecidableEq

/-- Where a sorted scan stopped. `value` is how a cursor spelled a single position before. -/
structure SortCursor (N : Type) where
  values : List (Json N)
  value : Option (Json N)
  key : Key

namespace SortCursor

/-- `SortCursor::at`. -/
def ofPosition (values : List (Json N)) (key : Key) : SortCursor N := ⟨values, none, key⟩

def positions (c : SortCursor N) : List (Json N) :=
  match c.value with
  | some v => if c.values.isEmpty then [v] else c.values
  | none => c.values

end SortCursor

/-- The sort field, or `null` where the document does not have it. -/
def keyValue (doc : Json N) (key : SortKey) : Json N := (getPathValue doc key.field).getD .null

def sortPosition (doc : Json N) (order : SortOrder) : List (Json N) := order.keys.map (keyValue doc)

variable [Number N]

def directed (key : SortKey) (x y : Json N) : Ordering :=
  if key.desc then (jsonCmp x y).swap else jsonCmp x y

def comparePositions : List SortKey → List (Json N) × Key → List (Json N) × Key → Ordering
  | key :: keys, (x :: xs, k), (y :: ys, l) =>
      (directed key x y).then (comparePositions keys (xs, k) (ys, l))
  | _, (_, k), (_, l) => strCmp k l

def compareBy : List SortKey → SortedRow N → SortedRow N → Ordering
  | [], a, b => strCmp a.key b.key
  | key :: keys, a, b => (directed key (keyValue a.value key) (keyValue b.value key)).then
      (compareBy keys a b)

def compareRows (order : SortOrder) (a b : SortedRow N) : Ordering := compareBy order.keys a b

def isAfter (row : SortedRow N) (cursor : SortCursor N) (order : SortOrder) : Bool :=
  comparePositions order.keys (sortPosition row.value order, row.key)
    (cursor.positions, cursor.key) = .gt

/-- `rows.sort_by`, which is stable. -/
def sortRows (order : SortOrder) (rows : List (SortedRow N)) : List (SortedRow N) :=
  sortBy (leBy (compareRows order)) rows

def InOrder (order : SortOrder) (rows : List (SortedRow N)) : Prop :=
  Ordered (leBy (compareRows order)) rows

def kwayMerge (lists : List (List (SortedRow N))) (order : SortOrder) (limit : ℕ) :
    List (SortedRow N) :=
  KWayMerge.kwayMerge (compareRows order) lists limit

section Order

instance (key : SortKey) : TransCmp (directed (N := N) key) where
  eq_swap {x y} := by
    unfold directed
    split_ifs
    · rw [@OrientedCmp.eq_swap _ jsonCmp _ x y]
    · exact OrientedCmp.eq_swap
  isLE_trans {x y z} := by
    unfold directed
    split_ifs
    · rw [← @OrientedCmp.eq_swap _ jsonCmp _ y x, ← @OrientedCmp.eq_swap _ jsonCmp _ z y,
        ← @OrientedCmp.eq_swap _ jsonCmp _ z x]
      exact fun h h' => TransCmp.isLE_trans h' h
    · exact TransCmp.isLE_trans

instance (key : SortKey) : TransCmp fun a b : SortedRow N =>
    directed key (keyValue a.value key) (keyValue b.value key) where
  eq_swap := OrientedCmp.eq_swap
  isLE_trans := TransCmp.isLE_trans

instance : TransCmp fun a b : SortedRow N => strCmp a.key b.key where
  eq_swap := OrientedCmp.eq_swap
  isLE_trans := TransCmp.isLE_trans

theorem compareBy_transCmp (keys : List SortKey) : TransCmp (compareBy (N := N) keys) := by
  induction keys with
  | nil => exact inferInstanceAs (TransCmp fun a b : SortedRow N => strCmp a.key b.key)
  | cons key keys ih =>
    exact inferInstanceAs (TransCmp (compareLex
      (fun a b : SortedRow N => directed key (keyValue a.value key) (keyValue b.value key))
        (compareBy keys)))

/-- `compare_rows` is a total order up to rows that compare equal. -/
instance (order : SortOrder) : TransCmp (compareRows (N := N) order) :=
  compareBy_transCmp order.keys

theorem preorder_rows (order : SortOrder) : StableSort.Preorder
    (leBy (compareRows (N := N) order)) :=
  preorder_leBy (compareRows order)

theorem key_eq_of_compareBy_eq {keys : List SortKey} {a b : SortedRow N}
    (h : compareBy keys a b = .eq) : a.key = b.key := by
  induction keys with
  | nil => exact LawfulEqCmp.eq_of_compare h
  | cons key keys ih =>
    rw [compareBy, Ordering.then_eq_eq] at h
    exact ih h.2

theorem comparePositions_map (keys : List SortKey) (a b : SortedRow N) :
    comparePositions keys (keys.map (keyValue a.value), a.key)
      (keys.map (keyValue b.value), b.key) = compareBy keys a b := by
  induction keys with
  | nil => rfl
  | cons key keys ih => rw [List.map_cons, List.map_cons, comparePositions, ih, compareBy]

/-- A row is behind the cursor of another row when it is behind that row. -/
theorem isAfter_iff (row last : SortedRow N) (order : SortOrder) :
    isAfter row (.ofPosition (sortPosition last.value order) last.key) order = true ↔
      leBy (compareRows order) row last = false := by
  have hpos : (SortCursor.ofPosition (sortPosition last.value order) last.key).positions =
      sortPosition last.value order := rfl
  rw [isAfter, hpos, sortPosition, sortPosition, SortCursor.ofPosition, comparePositions_map,
    decide_eq_true_eq, leBy, compareRows]
  cases compareBy order.keys row last <;> simp

end Order

section Merge

variable {order : SortOrder} {n : ℕ}

/-- The merge of sorted pages is the start of their rows, sorted. Where the pages are the starts of
what each shard has, sorted, and have at least `n` rows or all of them, it is the start of all rows,
sorted. -/
theorem kwayMerge_exact (order : SortOrder) (n : ℕ) :
    (∀ pages : List (List (SortedRow N)), (∀ page ∈ pages, InOrder order page) →
      kwayMerge pages order n = (sortRows order pages.flatten).take n) ∧
    ∀ pages shards : List (List (SortedRow N)),
      List.Forall₂ (fun page rows => page <+: sortRows order rows ∧
        (n ≤ page.length ∨ page = sortRows order rows)) pages shards →
      kwayMerge pages order n = (sortRows order shards.flatten).take n := by
  have hmerge : ∀ pages : List (List (SortedRow N)), (∀ page ∈ pages, InOrder order page) →
      kwayMerge pages order n = (sortRows order pages.flatten).take n :=
    fun pages hpages => KWayMerge.kwayMerge_eq hpages n
  refine ⟨hmerge, fun pages shards h => ?_⟩
  have hsorted : ∀ rows ∈ shards.map (sortRows order), InOrder order rows := by
    intro rows hrows
    obtain ⟨shard, -, rfl⟩ := List.mem_map.mp hrows
    exact ordered_sortBy (preorder_rows order) shard
  have hmap : List.Forall₂ (fun page rows => page <+: rows ∧ (n ≤ page.length ∨ page = rows)) pages
      (shards.map (sortRows order)) := List.forall₂_map_right_iff.mpr h
  rw [hmerge pages (KWayMerge.ordered_pages hmap hsorted)]
  calc (sortRows order pages.flatten).take n
      = (sortRows order (shards.map (sortRows order)).flatten).take n :=
        KWayMerge.take_sortBy_pages hmap hsorted
    _ = (sortRows order shards.flatten).take n := by
        rw [sortRows, sortRows, ← sortBy_flatten_map (preorder_rows order) shards]
        rfl

/-- Two shards with a row each. -/
theorem kwayMerge_exact_two :
    kwayMerge [[⟨['b'], .num (2 : ℤ)⟩], [⟨['a'], .num 1⟩]] ⟨[⟨['n'], true⟩]⟩ 1 =
      (sortRows ⟨[⟨['n'], true⟩]⟩ [⟨['b'], .num (2 : ℤ)⟩, ⟨['a'], .num 1⟩]).take 1 := by
  have hone : ∀ row : SortedRow ℤ, [row] = sortRows ⟨[⟨['n'], true⟩]⟩ [row] :=
    fun row => (sortBy_of_ordered (List.pairwise_singleton _ row)).symm
  have hpage : ∀ row : SortedRow ℤ, [row] <+: sortRows ⟨[⟨['n'], true⟩]⟩ [row] ∧
      (1 ≤ [row].length ∨ [row] = sortRows ⟨[⟨['n'], true⟩]⟩ [row]) :=
    fun row => ⟨hone row ▸ List.prefix_refl _, .inl (Nat.le_refl 1)⟩
  exact (kwayMerge_exact ⟨[⟨['n'], true⟩]⟩ 1).2 [[⟨['b'], .num 2⟩], [⟨['a'], .num 1⟩]]
    [[⟨['b'], .num 2⟩], [⟨['a'], .num 1⟩]] (.cons (hpage _) (.cons (hpage _) .nil))

end Merge

end DewDB.QuerySort
