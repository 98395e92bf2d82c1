import Mathlib.Algebra.Ring.Nat
import Mathlib.Data.List.Basic

/-!
# Node addresses

URLs are lists of characters. Two spellings name one node when their endpoints agree up to ASCII
case, and `nodeKey` is the canonical spelling of that relation.
-/
namespace DewDB.Endpoint

abbrev Url := List Char

instance (priority := 2000) instLawfulBEqUrl : LawfulBEq Url := inferInstance

/-- What follows the first `//`. -/
def splitOnceSlashes : Url → Option Url
  | [] => none
  | c :: cs => if c = '/' ∧ cs.head? = some '/' then some cs.tail else splitOnceSlashes cs

def endpointOf (url : Url) : Url :=
  let authority := (splitOnceSlashes url).getD url
  authority.takeWhile fun c => !(c == '/' || c == '?' || c == '#')

def nodeKey (url : Url) : Url := (endpointOf url).map Char.toLower

def sameEndpoint (a b : Url) : Bool :=
  (endpointOf a).map Char.toLower == (endpointOf b).map Char.toLower

def cmpIgnoreCase : List Char → List Char → Ordering
  | [], [] => .eq
  | [], _ :: _ => .lt
  | _ :: _, [] => .gt
  | x :: xs, y :: ys => (compare x.toLower.toNat y.toLower.toNat).then (cmpIgnoreCase xs ys)

/-- The order of `nodeKey`. -/
def cmpEndpoint (a b : Url) : Ordering := cmpIgnoreCase (endpointOf a) (endpointOf b)

theorem sameEndpoint_iff {a b : Url} : sameEndpoint a b = true ↔ nodeKey a = nodeKey b := by
  simp [sameEndpoint, nodeKey]

@[simp] theorem sameEndpoint_refl (a : Url) : sameEndpoint a a = true :=
  sameEndpoint_iff.mpr rfl

theorem sameEndpoint_comm (a b : Url) : sameEndpoint a b = sameEndpoint b a := by
  rw [Bool.eq_iff_iff, sameEndpoint_iff, sameEndpoint_iff, eq_comm]

theorem sameEndpoint_trans {a b c : Url} (hab : sameEndpoint a b = true)
    (hbc : sameEndpoint b c = true) : sameEndpoint a c = true :=
  sameEndpoint_iff.mpr ((sameEndpoint_iff.mp hab).trans (sameEndpoint_iff.mp hbc))

example : sameEndpoint ['h', 't', 't', 'p', ':', '/', '/', 'A', ':', '1', '/'] ['a', ':', '1'] =
    true := by decide

end DewDB.Endpoint
