import Mathlib.Algebra.Order.Ring.Int
import Mathlib.Data.List.Infix
import DewDB.JsonValue

/-!
# Filters

A parsed filter is a tree of field conditions. A condition is a conjunction of operators on the
value at one path, and the path may be absent from the document: only `$exists` and `$not` can match
that. Comparisons are within one type of JSON. The conjuncts of a filter are the field conditions
that every match satisfies.
-/
namespace DewDB.QueryFilter

open JsonValue Std

variable {N : Type}

inductive JsonKind where
  | null
  | bool
  | number
  | string
  | array
  | object
  deriving DecidableEq

/-- `JsonKind::of`. -/
def JsonKind.ofValue : Json N → JsonKind
  | .null => .null
  | .bool _ => .bool
  | .num _ => .number
  | .str _ => .string
  | .arr _ => .array
  | .obj _ => .object

mutual

inductive Op (N : Type) where
  | eq (v : Json N)
  | ne (v : Json N)
  | inList (vs : List (Json N))
  | nin (vs : List (Json N))
  | gt (v : Json N)
  | gte (v : Json N)
  | lt (v : Json N)
  | lte (v : Json N)
  | existing (want : Bool)
  | type (kinds : List JsonKind)
  | hasPrefix (p : List Char)
  | hasSuffix (p : List Char)
  | contains (p : List Char)
  | all (want : List (Json N))
  | size (n : ℕ)
  | elemMatch (pred : ElemPredicate N)
  | not (inner : Condition N)

/-- `$elemMatch` against scalar elements or against object elements. -/
inductive ElemPredicate (N : Type) where
  | ops (cond : Condition N)
  | doc (root : Expr N)

inductive Condition (N : Type) where
  | mk (ops : List (Op N))

inductive Expr (N : Type) where
  | all (parts : List (Expr N))
  | any (parts : List (Expr N))
  | nor (parts : List (Expr N))
  | field (path : List Char) (cond : Condition N)

end

def Condition.ops : Condition N → List (Op N)
  | .mk ops => ops

structure Filter (N : Type) where
  root : Expr N

section Matching

variable [Number N] [DecidableEq N]

/-- `json_cmp` within one type only. -/
def sameTypeCmp (v operand : Json N) : Option Ordering :=
  if JsonKind.ofValue v = JsonKind.ofValue operand then some (jsonCmp v operand) else none

/-- The operators that look at a value and at nothing inside the filter. -/
def presentOpMatches : Op N → Json N → Bool
  | .eq want, v => v = want
  | .ne want, v => v ≠ want
  | .inList list, v => v ∈ list
  | .nin list, v => v ∉ list
  | .gt b, v => sameTypeCmp v b = some .gt
  | .gte b, v => sameTypeCmp v b = some .gt ∨ sameTypeCmp v b = some .eq
  | .lt b, v => sameTypeCmp v b = some .lt
  | .lte b, v => sameTypeCmp v b = some .lt ∨ sameTypeCmp v b = some .eq
  | .type kinds, v => JsonKind.ofValue v ∈ kinds
  | .hasPrefix p, .str s => p <+: s
  | .hasSuffix p, .str s => p <:+ s
  | .contains p, .str s => p <:+: s
  | .all want, .arr a => ∀ w ∈ want, w ∈ a
  | .size n, .arr a => a.length = n
  | _, _ => false

mutual

def opMatches : Op N → Option (Json N) → Bool
  | .existing want, val => val.isSome = want
  | .not inner, val => !inner.matches val
  | .elemMatch pred, some (.arr a) => a.any fun e => pred.matches e
  | op, some v => presentOpMatches op v
  | _, none => false

def ElemPredicate.matches : ElemPredicate N → Json N → Bool
  | .ops cond, e => cond.matches (some e)
  | .doc root, e => root.eval e

/-- `none` is the document not having the path. -/
def Condition.matches : Condition N → Option (Json N) → Bool
  | .mk ops, val => opsMatch ops val

def opsMatch : List (Op N) → Option (Json N) → Bool
  | [], _ => true
  | op :: ops, val => opMatches op val && opsMatch ops val

def Expr.eval : Expr N → Json N → Bool
  | .field path cond, doc => cond.matches (getPathValue doc path)
  | .all parts, doc => evalAll parts doc
  | .any parts, doc => evalAny parts doc
  | .nor parts, doc => !evalAny parts doc

def evalAll : List (Expr N) → Json N → Bool
  | [], _ => true
  | part :: parts, doc => part.eval doc && evalAll parts doc

def evalAny : List (Expr N) → Json N → Bool
  | [], _ => false
  | part :: parts, doc => part.eval doc || evalAny parts doc

end

def Filter.matches (filter : Filter N) (doc : Json N) : Bool := filter.root.eval doc

end Matching

mutual

def collectConjuncts : Expr N → List (List Char × Condition N)
  | .field path cond => [(path, cond)]
  | .all parts => collectParts parts
  | .any _ => []
  | .nor _ => []

def collectParts : List (Expr N) → List (List Char × Condition N)
  | [] => []
  | part :: parts => collectConjuncts part ++ collectParts parts

end

/-- The field conditions that are reached through `$and` alone. -/
def Filter.conjuncts (filter : Filter N) : List (List Char × Condition N) :=
  collectConjuncts filter.root

section Lemmas

variable [Number N] [DecidableEq N]

theorem opsMatch_iff (ops : List (Op N)) (val : Option (Json N)) :
    opsMatch ops val = true ↔ ∀ op ∈ ops, opMatches op val = true := by
  induction ops with
  | nil => simp [opsMatch]
  | cons op ops ih => simp [opsMatch, ih]

theorem matches_iff (cond : Condition N) (val : Option (Json N)) :
    cond.matches val = true ↔ ∀ op ∈ cond.ops, opMatches op val = true := by
  cases cond with
  | mk ops => exact opsMatch_iff ops val

mutual

theorem conjuncts_hold : ∀ (expr : Expr N) (doc : Json N), expr.eval doc = true →
    ∀ c ∈ collectConjuncts expr, c.2.matches (getPathValue doc c.1) = true
  | .field path cond, doc, h => by
    intro c hc
    rw [collectConjuncts, List.mem_singleton] at hc
    rw [hc]
    simpa [Expr.eval] using h
  | .all parts, doc, h => by
    rw [collectConjuncts]
    exact parts_hold parts doc (by simpa [Expr.eval] using h)
  | .any parts, doc, h => by simp [collectConjuncts]
  | .nor parts, doc, h => by simp [collectConjuncts]

theorem parts_hold : ∀ (parts : List (Expr N)) (doc : Json N), evalAll parts doc = true →
    ∀ c ∈ collectParts parts, c.2.matches (getPathValue doc c.1) = true
  | [], doc, h => by simp [collectParts]
  | part :: parts, doc, h => by
    rw [evalAll, Bool.and_eq_true] at h
    intro c hc
    rw [collectParts, List.mem_append] at hc
    rcases hc with hc | hc
    · exact conjuncts_hold part doc h.1 c hc
    · exact parts_hold parts doc h.2 c hc

end

theorem Filter.conjuncts_matches {filter : Filter N} {doc : Json N} (h : filter.matches doc = true)
    {c : List Char × Condition N} (hc : c ∈ filter.conjuncts) :
    c.2.matches (getPathValue doc c.1) = true :=
  conjuncts_hold filter.root doc h c hc

omit [DecidableEq N] in
theorem sameTypeCmp_eq_some {v operand : Json N} {o : Ordering}
    (h : sameTypeCmp v operand = some o) :
    JsonKind.ofValue v = JsonKind.ofValue operand ∧ jsonCmp v operand = o := by
  unfold sameTypeCmp at h
  split_ifs at h with hk
  exact ⟨hk, Option.some.inj h⟩

end Lemmas

end DewDB.QueryFilter
