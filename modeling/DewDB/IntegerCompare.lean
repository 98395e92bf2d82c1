import DewDB.NearestEven
import DewDB.QueryFilter
import Mathlib.Data.Set.Function

/-!
# Comparing integers

JSON integers are those of 64 bits, signed or unsigned. Equality compares them as they are and
`json_cmp` compares the doubles they round to, so that two integers with one double tie in every
range, sort and posting. Values are ranked exactly as long as no two of their integers share a
double.
-/
namespace DewDB.IntegerCompare

open JsonValue QueryFilter NearestEven

/-- A number that holds an `i64` or a `u64`. -/
structure Integer where
  val : ℤ
  lower : -2 ^ 63 ≤ val
  upper : val < 2 ^ 64
  deriving DecidableEq

/-- `as_f64` of an integer. -/
def toDouble (z : ℤ) : ℤ := roundInt 53 z

instance : Number Integer := ⟨fun n => toDouble n.val⟩

open Number

@[reducible] def exactly : Number Integer := ⟨fun n => n.val⟩

def exactCmp (a b : Json Integer) : Ordering := @jsonCmp Integer exactly a b

section Numbers

variable {N : Type}

mutual

def Json.numbers : Json N → List N
  | .num n => [n]
  | .arr xs => elemsNumbers xs
  | .obj xs => membersNumbers xs
  | _ => []

def elemsNumbers : List (Json N) → List N
  | [] => []
  | x :: xs => Json.numbers x ++ elemsNumbers xs

def membersNumbers : List (List Char × Json N) → List N
  | [] => []
  | (_, x) :: xs => Json.numbers x ++ membersNumbers xs

end

mutual

/-- Two readings of numbers that rank those of two values alike rank the values alike. -/
theorem jsonCmp_congr (r r' : Number N) : ∀ a b : Json N,
    (∀ x ∈ Json.numbers a, ∀ y ∈ Json.numbers b,
      compare (r.asF64 x) (r.asF64 y) = compare (r'.asF64 x) (r'.asF64 y)) →
    @jsonCmp N r a b = @jsonCmp N r' a b
  | .num x, b, h => by
    cases b with
    | num y => exact h x (by simp [Json.numbers]) y (by simp [Json.numbers])
    | _ => rfl
  | .arr xs, b, h => by
    cases b with
    | arr ys => exact elemsCmp_congr r r' xs ys h
    | _ => rfl
  | .obj xs, b, h => by
    cases b with
    | obj ys => exact membersCmp_congr r r' xs ys h
    | _ => rfl
  | .null, b, _ => by cases b <;> rfl
  | .bool _, b, _ => by cases b <;> rfl
  | .str _, b, _ => by cases b <;> rfl

theorem elemsCmp_congr (r r' : Number N) : ∀ xs ys : List (Json N),
    (∀ x ∈ elemsNumbers xs, ∀ y ∈ elemsNumbers ys,
      compare (r.asF64 x) (r.asF64 y) = compare (r'.asF64 x) (r'.asF64 y)) →
    @elemsCmp N r xs ys = @elemsCmp N r' xs ys
  | [], ys, _ => by cases ys <;> rfl
  | x :: xs, ys, h => by
    cases ys with
    | nil => rfl
    | cons y ys =>
      have hx := jsonCmp_congr r r' x y fun m hm n hn =>
        h m (List.mem_append_left _ hm) n (List.mem_append_left _ hn)
      have hxs := elemsCmp_congr r r' xs ys fun m hm n hn =>
        h m (List.mem_append_right _ hm) n (List.mem_append_right _ hn)
      exact congrArg₂ Ordering.then hx hxs

theorem membersCmp_congr (r r' : Number N) : ∀ xs ys : List (List Char × Json N),
    (∀ x ∈ membersNumbers xs, ∀ y ∈ membersNumbers ys,
      compare (r.asF64 x) (r.asF64 y) = compare (r'.asF64 x) (r'.asF64 y)) →
    @membersCmp N r xs ys = @membersCmp N r' xs ys
  | [], ys, _ => by cases ys <;> rfl
  | (k, x) :: xs, ys, h => by
    cases ys with
    | nil => rfl
    | cons y ys =>
      have hx := jsonCmp_congr r r' x y.2 fun m hm n hn =>
        h m (List.mem_append_left _ hm) n (List.mem_append_left _ hn)
      have hxs := membersCmp_congr r r' xs ys fun m hm n hn =>
        h m (List.mem_append_right _ hm) n (List.mem_append_right _ hn)
      exact congrArg₂ Ordering.then (congrArg (Ordering.then (strCmp k y.1)) hx) hxs

end

variable [Number N]

mutual

theorem eq_of_jsonCmp_eq {S : Set N} (hS : S.InjOn asF64) : ∀ a b :
    Json N, (∀ n ∈ Json.numbers a, n ∈ S) →
    (∀ n ∈ Json.numbers b, n ∈ S) → jsonCmp a b = .eq → a = b
  | .num x, b, ha, hb, h => by
    cases b with
    | num y =>
      have hval : asF64 x = asF64 y := compare_eq_iff_eq.mp h
      rw [hS (ha x (by simp [Json.numbers])) (hb y (by simp [Json.numbers])) hval]
    | _ => simp [jsonCmp, typeRank] at h
  | .arr xs, b, ha, hb, h => by
    cases b with
    | arr ys => rw [eq_of_elemsCmp_eq hS xs ys ha hb h]
    | _ => simp [jsonCmp, typeRank] at h
  | .obj xs, b, ha, hb, h => by
    cases b with
    | obj ys => rw [eq_of_membersCmp_eq hS xs ys ha hb h]
    | _ => simp [jsonCmp, typeRank] at h
  | .null, b, _, _, h => by cases b <;> simp [jsonCmp, typeRank] at h ⊢
  | .bool x, b, _, _, h => by
    cases b with
    | bool y => rw [compare_eq_iff_eq.mp h]
    | _ => simp [jsonCmp, typeRank] at h
  | .str x, b, _, _, h => by
    cases b with
    | str y =>
      have hstr : strCmp x y = .eq := h
      rw [Std.LawfulEqCmp.eq_of_compare hstr]
    | _ => simp [jsonCmp, typeRank] at h

theorem eq_of_elemsCmp_eq {S : Set N} (hS : S.InjOn asF64) : ∀ xs ys : List (Json N),
    (∀ n ∈ elemsNumbers xs, n ∈ S) → (∀ n ∈ elemsNumbers ys, n ∈ S) → elemsCmp xs ys = .eq → xs = ys
  | [], ys, _, _, h => by
    cases ys with
    | nil => rfl
    | cons y ys => simp [elemsCmp] at h
  | x :: xs, ys, ha, hb, h => by
    cases ys with
    | nil => simp [elemsCmp] at h
    | cons y ys =>
      rw [elemsCmp, Ordering.then_eq_eq] at h
      rw [eq_of_jsonCmp_eq hS x y (fun n hn => ha n (List.mem_append_left _ hn))
        (fun n hn => hb n (List.mem_append_left _ hn)) h.1]
      rw [eq_of_elemsCmp_eq hS xs ys (fun n hn => ha n (List.mem_append_right _ hn))
        (fun n hn => hb n (List.mem_append_right _ hn)) h.2]

theorem eq_of_membersCmp_eq {S : Set N} (hS : S.InjOn asF64) : ∀ xs ys : List (List Char × Json N),
    (∀ n ∈ membersNumbers xs, n ∈ S) → (∀ n ∈ membersNumbers ys, n ∈ S) →
      membersCmp xs ys = .eq → xs = ys
  | [], ys, _, _, h => by
    cases ys with
    | nil => rfl
    | cons y ys => simp [membersCmp] at h
  | (k, x) :: xs, ys, ha, hb, h => by
    cases ys with
    | nil => simp [membersCmp] at h
    | cons y ys =>
      rw [membersCmp, Ordering.then_eq_eq, Ordering.then_eq_eq] at h
      have hkey : k = y.1 := Std.LawfulEqCmp.eq_of_compare h.1.1
      have hx : x = y.2 := eq_of_jsonCmp_eq hS x y.2 (fun n hn => ha n (List.mem_append_left _ hn))
        (fun n hn => hb n (List.mem_append_left _ hn)) h.1.2
      rw [eq_of_membersCmp_eq hS xs ys (fun n hn => ha n (List.mem_append_right _ hn))
        (fun n hn => hb n (List.mem_append_right _ hn)) h.2, hkey, hx]

end

end Numbers

section Integers

def Over (S : Set Integer) (a : Json Integer) : Prop := ∀ n ∈ Json.numbers a, n ∈ S

/-- Values over these integers rank as they do with exact comparison, and only equal ones tie. -/
def RankedExactly (S : Set Integer) : Prop :=
  ∀ a b : Json Integer, Over S a → Over S b → jsonCmp a b = exactCmp a b ∧
    (jsonCmp a b = .eq → a = b)

/-- Ranges with the bound `b` match the field value `v` when they should, and the two-sided one when
`$eq` does. -/
structure RangesExact (v b : Integer) : Prop where
  gt : (Condition.mk [.gt (.num b)]).matches (some (.num v)) = true ↔ b.val < v.val
  gte : (Condition.mk [.gte (.num b)]).matches (some (.num v)) = true ↔ b.val ≤ v.val
  lt : (Condition.mk [.lt (.num b)]).matches (some (.num v)) = true ↔ v.val < b.val
  lte : (Condition.mk [.lte (.num b)]).matches (some (.num v)) = true ↔ v.val ≤ b.val
  range : (Condition.mk [.gte (.num b), .lte (.num b)]).matches (some (.num v)) =
    (Condition.mk [.eq (.num b)]).matches (some (.num v))

theorem toDouble_mono {x y : ℤ} (h : x ≤ y) : toDouble x ≤ toDouble y := roundInt_mono (by decide) h

theorem compare_toDouble {x y : Integer} (h : asF64 x = asF64 y → x = y) :
    compare (asF64 x) (asF64 y) = compare (exactly.asF64 x) (exactly.asF64 y) := by
  have hx : asF64 x = (toDouble x.val : ℚ) := rfl
  have hy : asF64 y = (toDouble y.val : ℚ) := rfl
  have hx' : exactly.asF64 x = (x.val : ℚ) := rfl
  have hy' : exactly.asF64 y = (y.val : ℚ) := rfl
  rcases lt_trichotomy x.val y.val with hlt | heq | hgt
  · have hne : toDouble x.val ≠ toDouble y.val := by
      intro hd
      rw [h (by rw [hx, hy, hd])] at hlt
      exact lt_irrefl _ hlt
    have hd : toDouble x.val < toDouble y.val := lt_of_le_of_ne (toDouble_mono hlt.le) hne
    rw [hx, hy, hx', hy', compare_lt_iff_lt.mpr (by exact_mod_cast hd),
      compare_lt_iff_lt.mpr (by exact_mod_cast hlt)]
  · rw [hx, hy, hx', hy', heq, compare_eq_iff_eq.mpr rfl, compare_eq_iff_eq.mpr rfl]
  · have hne : toDouble y.val ≠ toDouble x.val := by
      intro hd
      rw [h (by rw [hx, hy, hd])] at hgt
      exact lt_irrefl _ hgt
    have hd : toDouble y.val < toDouble x.val := lt_of_le_of_ne (toDouble_mono hgt.le) hne
    rw [hx, hy, hx', hy', compare_gt_iff_gt.mpr (by exact_mod_cast hd),
      compare_gt_iff_gt.mpr (by exact_mod_cast hgt)]

theorem rankedExactly_iff (S : Set Integer) : RankedExactly S ↔ S.InjOn (asF64 : Integer → ℚ) := by
  constructor
  · intro h x hx y hy hd
    have hover : ∀ n ∈ S, Over S (.num n) := by
      intro n hn m hm
      rw [Json.numbers, List.mem_singleton] at hm
      rwa [hm]
    have heq := (h (.num x) (.num y) (hover x hx) (hover y hy)).2 (compare_eq_iff_eq.mpr hd)
    exact Json.num.inj heq
  · intro hS a b ha hb
    refine ⟨jsonCmp_congr _ _ a b fun x hx y hy => ?_, eq_of_jsonCmp_eq hS a b ha hb⟩
    exact compare_toDouble (hS (ha x hx) (hb y hy))

theorem sameTypeCmp_num (v b : Integer) :
    sameTypeCmp (.num v) (.num b) = some (compare (asF64 v) (asF64 b)) := rfl

theorem exactly_compare (v b : Integer) : compare (exactly.asF64 v)
    (exactly.asF64 b) = compare v.val b.val := by
  have hv : exactly.asF64 v = (v.val : ℚ) := rfl
  have hb : exactly.asF64 b = (b.val : ℚ) := rfl
  rw [hv, hb]
  rcases lt_trichotomy v.val b.val with h | h | h
  · rw [compare_lt_iff_lt.mpr h, compare_lt_iff_lt.mpr (by exact_mod_cast h)]
  · rw [h, compare_eq_iff_eq.mpr rfl, compare_eq_iff_eq.mpr rfl]
  · rw [compare_gt_iff_gt.mpr h, compare_gt_iff_gt.mpr (by exact_mod_cast h)]

theorem rangesExact_iff (v b : Integer) : RangesExact v b ↔ (asF64 v = asF64 b → v = b) := by
  have hone : ∀ (op : Op Integer) (x : Json Integer),
    (Condition.mk [op]).matches (some x) = opMatches op (some x) := by
    intro op x
    simp [Condition.matches, opsMatch]
  have htwo : ∀ (op op' : Op Integer) (x : Json Integer),
      (Condition.mk [op, op']).matches (some x) =
        (opMatches op (some x) && opMatches op' (some x)) := by
    intro op op' x
    simp [Condition.matches, opsMatch]
  constructor
  · intro h hd
    have hrange := h.range
    rw [hone, htwo] at hrange
    have htie : sameTypeCmp (.num v) (.num b) = some .eq := by
      rw [sameTypeCmp_num, compare_eq_iff_eq.mpr hd]
    simp only [opMatches, presentOpMatches, htie, or_true, decide_true, Bool.and_self] at hrange
    exact Json.num.inj (of_decide_eq_true hrange.symm)
  · intro h
    have hcmp : sameTypeCmp (.num v) (.num b) = some (compare v.val b.val) := by
      rw [sameTypeCmp_num, compare_toDouble h, exactly_compare]
    have heq : (Json.num v = Json.num b) ↔ v.val = b.val := by
      constructor
      · intro hj
        rw [Json.num.inj hj]
      · intro hval
        cases v
        cases b
        cases hval
        rfl
    constructor
    all_goals
      simp only [hone, htwo, opMatches, presentOpMatches, hcmp, heq, decide_eq_true_eq,
        Option.some.injEq, compare_gt_iff_gt, compare_lt_iff_lt, compare_eq_iff_eq]
    · omega
    · omega
    · rw [← Bool.decide_and]
      exact decide_eq_decide.mpr (by omega)

/-- Values rank exactly as long as no two of their integers share a double, and a range with a bound
is exact for a field value as long as these two do not. Integers up to `2 ^ 53` in magnitude never
share one. -/
theorem integers_compare_exactly (S : Set Integer) (v b : Integer) :
    (RankedExactly S ↔ S.InjOn (asF64 : Integer → ℚ)) ∧
      (RangesExact v b ↔ (asF64 v = asF64 b → v = b)) ∧
    RankedExactly {n | n.val.natAbs ≤ 2 ^ 53} := by
  refine ⟨rankedExactly_iff S, rangesExact_iff v b, (rankedExactly_iff _).mpr fun x hx y hy h => ?_⟩
  have hd : ∀ n : Integer, n.val.natAbs ≤ 2 ^ 53 → (asF64 n : ℚ) = n.val := by
    intro n hn
    have hround : toDouble n.val = n.val := roundInt_of_le (by decide) hn
    exact congrArg (fun z : ℤ => (z : ℚ)) hround
  rw [hd x hx, hd y hy] at h
  have hval : x.val = y.val := by exact_mod_cast h
  cases x
  cases y
  cases hval
  rfl

/-- The first integer that is not a double and the one below it. -/
theorem integers_tie : ¬RankedExactly Set.univ ∧
    ¬RangesExact ⟨9007199254740993, by decide, by decide⟩ ⟨9007199254740992, by decide,
      by decide⟩ := by
  have htie : jsonCmp (.num (⟨9007199254740993, by decide, by decide⟩ : Integer))
      (.num ⟨9007199254740992, by decide, by decide⟩) = .eq := by decide
  have hgt : (Condition.mk
    [Op.gt (.num (⟨9007199254740992, by decide, by decide⟩ : Integer))]).matches
      (some (.num ⟨9007199254740993, by decide, by decide⟩)) = false := by decide
  constructor
  · intro h
    have heq := (h _ _ (fun _ _ => trivial) (fun _ _ => trivial)).2 htie
    cases heq
  · intro h
    rw [h.gt.mpr (by decide)] at hgt
    cases hgt

end Integers

end DewDB.IntegerCompare
