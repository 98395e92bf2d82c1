import Mathlib.Algebra.Order.Ring.Unbundled.Rat

/-!
# JSON values and their order

Documents, paths into them, and `json_cmp`, the order of sorting, of comparisons in a filter and of
the postings of an index. It is total: a value is coded as a list of tokens, and values compare as
their codes do. Numbers that are different values may compare equal, as `1` and `1.0` do.
-/
namespace DewDB.JsonValue

open Std

/-- A JSON number with its value as a double, which is finite. -/
class Number (N : Type) where
  asF64 : N → ℚ

open Number

instance : Number ℤ := ⟨fun n => n⟩

inductive Json (N : Type) where
  | null
  | bool (b : Bool)
  | num (n : N)
  | str (s : List Char)
  | arr (elems : List (Json N))
  | obj (members : List (List Char × Json N))

variable {N : Type}

section Equality

variable [DecidableEq N]

mutual

def Json.beq : Json N → Json N → Bool
  | .null, .null => true
  | .bool x, .bool y => decide (x = y)
  | .num x, .num y => decide (x = y)
  | .str x, .str y => decide (x = y)
  | .arr xs, .arr ys => beqElems xs ys
  | .obj xs, .obj ys => beqMembers xs ys
  | _, _ => false

def beqElems : List (Json N) → List (Json N) → Bool
  | [], [] => true
  | x :: xs, y :: ys => x.beq y && beqElems xs ys
  | _, _ => false

def beqMembers : List (List Char × Json N) → List (List Char × Json N) → Bool
  | [], [] => true
  | (k, x) :: xs, (l, y) :: ys => decide (k = l) && x.beq y && beqMembers xs ys
  | _, _ => false

end

mutual

theorem Json.beq_iff : ∀ x y : Json N, x.beq y = true ↔ x = y
  | .null, y => by cases y <;> simp [Json.beq]
  | .bool b, y => by cases y <;> simp [Json.beq]
  | .num n, y => by cases y <;> simp [Json.beq]
  | .str s, y => by cases y <;> simp [Json.beq]
  | .arr xs, y => by
    cases y with
    | arr ys => simp [Json.beq, beqElems_iff xs ys]
    | _ => simp [Json.beq]
  | .obj xs, y => by
    cases y with
    | obj ys => simp [Json.beq, beqMembers_iff xs ys]
    | _ => simp [Json.beq]

theorem beqElems_iff : ∀ xs ys : List (Json N), beqElems xs ys = true ↔ xs = ys
  | [], ys => by cases ys <;> simp [beqElems]
  | x :: xs, ys => by
    cases ys with
    | nil => simp [beqElems]
    | cons y ys => simp [beqElems, Json.beq_iff x y, beqElems_iff xs ys]

theorem beqMembers_iff : ∀ xs ys : List (List Char × Json N), beqMembers xs ys = true ↔ xs = ys
  | [], ys => by cases ys <;> simp [beqMembers]
  | (k, x) :: xs, ys => by
    cases ys with
    | nil => simp [beqMembers]
    | cons y ys => simp [beqMembers, Json.beq_iff x y.2, beqMembers_iff xs ys, Prod.ext_iff]

end

instance : DecidableEq (Json N) := fun x y => decidable_of_iff _ (Json.beq_iff x y)

end Equality

def Json.member (v : Json N) (name : List Char) : Option (Json N) :=
  match v with
  | .obj members => members.lookup name
  | _ => none

def getPathValue (doc : Json N) (path : List Char) : Option (Json N) :=
  (path.splitOn '.').foldlM (fun cur part => cur.member part) doc

def typeRank : Json N → ℕ
  | .null => 0
  | .bool _ => 1
  | .num _ => 2
  | .str _ => 3
  | .arr _ => 4
  | .obj _ => 5

def strCmp : List Char → List Char → Ordering := List.compareLex compare

section Order

variable [Number N]

mutual

def jsonCmp : Json N → Json N → Ordering
  | .bool x, .bool y => compare x y
  | .num x, .num y => compare (asF64 x) (asF64 y)
  | .str x, .str y => strCmp x y
  | .arr xs, .arr ys => elemsCmp xs ys
  | .obj xs, .obj ys => membersCmp xs ys
  | a, b => compare (typeRank a) (typeRank b)

def elemsCmp : List (Json N) → List (Json N) → Ordering
  | x :: xs, y :: ys => (jsonCmp x y).then (elemsCmp xs ys)
  | xs, ys => compare xs.length ys.length

def membersCmp : List (List Char × Json N) → List (List Char × Json N) → Ordering
  | (k, x) :: xs, (l, y) :: ys => ((strCmp k l).then (jsonCmp x y)).then (membersCmp xs ys)
  | xs, ys => compare xs.length ys.length

end

abbrev Token := ℕ × ℚ × List Char

def tokenCmp : Token → Token → Ordering :=
  compareLex (compareOn Prod.fst)
    (compareLex (compareOn fun t => t.2.1) fun t u => strCmp t.2.2 u.2.2)

/-- Ends an array or an object, below whatever could stand there. -/
def stop : Token := (0, 0, [])

mutual

def Json.code : Json N → List Token
  | .null => [(1, 0, [])]
  | .bool b => [(2, if b then 1 else 0, [])]
  | .num n => [(3, asF64 n, [])]
  | .str s => [(4, 0, s)]
  | .arr xs => (5, 0, []) :: elemsCode xs
  | .obj xs => (6, 0, []) :: membersCode xs

def elemsCode : List (Json N) → List Token
  | [] => [stop]
  | x :: xs => x.code ++ elemsCode xs

def membersCode : List (List Char × Json N) → List Token
  | [] => [stop]
  | (k, x) :: xs => (1, 0, k) :: (x.code ++ membersCode xs)

end

theorem tokenCmp_mk (k l : ℕ) (p q : ℚ) (s t : List Char) :
    tokenCmp (k, p, s) (l, q, t) = ((compare k l).then (compare p q)).then (strCmp s t) := by
  simp only [tokenCmp, compareLex, compareOn, Ordering.then_assoc]

instance : ReflCmp strCmp := inferInstanceAs (ReflCmp (List.compareLex compare))

instance : TransCmp strCmp := inferInstanceAs (TransCmp (List.compareLex compare))

instance : LawfulEqCmp strCmp := inferInstanceAs (LawfulEqCmp (List.compareLex compare))

theorem strCmp_self (s : List Char) : strCmp s s = .eq := ReflCmp.compare_self

theorem code_head (a : Json N) : ∃ p s t, a.code = (typeRank a + 1, p, s) :: t := by
  cases a with
  | _ => exact ⟨_, _, _, rfl⟩

theorem jsonCmp_of_rank_ne {a b : Json N} (h : typeRank a ≠ typeRank b) :
    jsonCmp a b = compare (typeRank a) (typeRank b) := by
  cases a <;> cases b <;> first | rfl | exact absurd rfl h

theorem cmp_code_of_rank_ne {a b : Json N} (h : typeRank a ≠ typeRank b) (r r' : List Token) :
    List.compareLex tokenCmp (a.code ++ r) (b.code ++ r') =
      (jsonCmp a b).then (List.compareLex tokenCmp r r') := by
  obtain ⟨p, s, t, ha⟩ := code_head a
  obtain ⟨q, u, v, hb⟩ := code_head b
  rw [jsonCmp_of_rank_ne h, ha, hb, List.cons_append, List.cons_append,
    List.compareLex_cons_cons, tokenCmp_mk]
  rcases Nat.lt_or_gt_of_ne h with hlt | hgt
  · rw [Nat.compare_eq_lt.mpr hlt, Nat.compare_eq_lt.mpr (Nat.succ_lt_succ hlt)]
    rfl
  · rw [Nat.compare_eq_gt.mpr hgt, Nat.compare_eq_gt.mpr (Nat.succ_lt_succ hgt)]
    rfl

theorem tokenCmp_stop_lt {k : ℕ} (hk : 0 < k) (p : ℚ) (s : List Char) : tokenCmp stop
    (k, p, s) = .lt := by
  rw [stop, tokenCmp_mk, Nat.compare_eq_lt.mpr hk]
  rfl

theorem tokenCmp_lt_stop {k : ℕ} (hk : 0 < k) (p : ℚ) (s : List Char) : tokenCmp
    (k, p, s) stop = .gt := by
  rw [stop, tokenCmp_mk, Nat.compare_eq_gt.mpr hk]
  rfl

theorem tokenCmp_self (t : Token) : tokenCmp t t = .eq := by
  obtain ⟨k, p, s⟩ := t
  rw [tokenCmp_mk, strCmp_self]
  simp

mutual

theorem cmp_code (a b : Json N) (r r' : List Token) : List.compareLex tokenCmp (a.code ++ r)
    (b.code ++ r') = (jsonCmp a b).then (List.compareLex tokenCmp r r') := by
  by_cases hrank : typeRank a = typeRank b
  · cases a with
    | null =>
      cases b with
      | null => simp [Json.code, jsonCmp, List.compareLex_cons_cons, tokenCmp_self, typeRank]
      | _ => cases hrank
    | bool x =>
      cases b with
      | bool y =>
        simp only [Json.code, jsonCmp, List.singleton_append, List.compareLex_cons_cons,
          tokenCmp_mk, strCmp_self, Ordering.then_eq]
        cases x <;> cases y <;> rfl
      | _ => cases hrank
    | num x =>
      cases b with
      | num y => simp [Json.code, jsonCmp, List.compareLex_cons_cons, tokenCmp_mk, strCmp_self]
      | _ => cases hrank
    | str x =>
      cases b with
      | str y => simp [Json.code, jsonCmp, List.compareLex_cons_cons, tokenCmp_mk]
      | _ => cases hrank
    | arr xs =>
      cases b with
      | arr ys => simp [Json.code, jsonCmp, List.compareLex_cons_cons, tokenCmp_self,
          cmp_elemsCode xs ys]
      | _ => cases hrank
    | obj xs =>
      cases b with
      | obj ys => simp [Json.code, jsonCmp, List.compareLex_cons_cons, tokenCmp_self,
          cmp_membersCode xs ys]
      | _ => cases hrank
  · exact cmp_code_of_rank_ne hrank r r'

theorem cmp_elemsCode (xs ys : List (Json N)) (r r' : List Token) :
    List.compareLex tokenCmp (elemsCode xs ++ r) (elemsCode ys ++ r') =
      (elemsCmp xs ys).then (List.compareLex tokenCmp r r') := by
  cases xs with
  | nil =>
    cases ys with
    | nil => simp [elemsCode, elemsCmp, List.compareLex_cons_cons, tokenCmp_self]
    | cons y ys =>
      obtain ⟨q, u, v, hy⟩ := code_head y
      simp [elemsCode, elemsCmp, hy, List.compareLex_cons_cons, tokenCmp_stop_lt,
        Nat.compare_eq_lt.mpr]
  | cons x xs =>
    cases ys with
    | nil =>
      obtain ⟨q, u, v, hx⟩ := code_head x
      simp [elemsCode, elemsCmp, hx, List.compareLex_cons_cons, tokenCmp_lt_stop,
        Nat.compare_eq_gt.mpr]
    | cons y ys =>
      simp only [elemsCode, elemsCmp, List.append_assoc, cmp_code x y, cmp_elemsCode xs ys,
        Ordering.then_assoc]

theorem cmp_membersCode (xs ys : List (List Char × Json N)) (r r' : List Token) :
    List.compareLex tokenCmp (membersCode xs ++ r) (membersCode ys ++ r') =
      (membersCmp xs ys).then (List.compareLex tokenCmp r r') := by
  cases xs with
  | nil =>
    cases ys with
    | nil => simp [membersCode, membersCmp, List.compareLex_cons_cons, tokenCmp_self]
    | cons y ys =>
      simp [membersCode, membersCmp, List.compareLex_cons_cons, tokenCmp_stop_lt,
        Nat.compare_eq_lt.mpr]
  | cons x xs =>
    cases ys with
    | nil => simp [membersCode, membersCmp, List.compareLex_cons_cons, tokenCmp_lt_stop,
        Nat.compare_eq_gt.mpr]
    | cons y ys =>
      simp only [membersCode, membersCmp, List.cons_append, List.append_assoc,
        List.compareLex_cons_cons,
        cmp_code x.2 y.2, cmp_membersCode xs ys, tokenCmp_mk, Ordering.then_assoc]
      simp

end

theorem jsonCmp_eq_code (a b : Json N) : jsonCmp a b = List.compareLex tokenCmp a.code b.code := by
  have h := cmp_code a b [] []
  simpa [List.compareLex_nil_nil] using h.symm

instance : TransCmp fun t u : Token => strCmp t.2.2 u.2.2 where
  eq_swap := OrientedCmp.eq_swap
  isLE_trans := TransCmp.isLE_trans

instance : TransCmp tokenCmp :=
  inferInstanceAs (TransCmp (compareLex (compareOn Prod.fst)
    (compareLex (compareOn fun t : Token => t.2.1) fun t u => strCmp t.2.2 u.2.2)))

/-- `json_cmp` is a total order up to values that compare equal. -/
instance : TransCmp (jsonCmp (N := N)) where
  eq_swap {a b} := by
    rw [jsonCmp_eq_code, jsonCmp_eq_code]
    exact OrientedCmp.eq_swap
  isLE_trans {a b c} := by
    rw [jsonCmp_eq_code, jsonCmp_eq_code, jsonCmp_eq_code]
    exact TransCmp.isLE_trans

end Order

end DewDB.JsonValue
