import DewDB.RingLaws
import DewDB.Utf8Order

/-!
# One identity of a node

Addresses are compared for sameness, keyed and sorted by three functions that fold the case of an
endpoint each in its own way, two of them byte by byte. They agree on who is the same node, and the
order is the order of the keys.
-/
namespace DewDB.Endpoint

open TokenRing Utf8Order

/-- `eq_ignore_ascii_case`. -/
def eqIgnoreAsciiCase (xs ys : List UInt8) : Bool :=
  xs.length == ys.length && (xs.zip ys).all fun p => lowerByte p.1 == lowerByte p.2

/-- The comparison of `cmp_endpoint`: the bytes in pairs, then the lengths. -/
def cmpFolded : List UInt8 → List UInt8 → Ordering
  | x :: xs, y :: ys =>
    match compare (lowerByte x).toNat (lowerByte y).toNat with
    | .eq => cmpFolded xs ys
    | unequal => unequal
  | xs, ys => compare xs.length ys.length

theorem cmpFolded_eq (xs ys : List UInt8) : cmpFolded xs ys = cmpBytes (xs.map lowerByte)
    (ys.map lowerByte) := by
  induction xs generalizing ys with
  | nil => cases ys <;> simp [cmpFolded, cmpBytes]
  | cons x xs ih =>
    cases ys with
    | nil => simp [cmpFolded, cmpBytes]
    | cons y ys =>
      rw [cmpFolded, ih]
      cases hcmp : compare (lowerByte x).toNat (lowerByte y).toNat <;> simp [cmpBytes, hcmp]

theorem eqIgnoreAsciiCase_iff (xs ys : List UInt8) :
    eqIgnoreAsciiCase xs ys = true ↔ xs.map lowerByte = ys.map lowerByte := by
  induction xs generalizing ys with
  | nil => cases ys <;> simp [eqIgnoreAsciiCase]
  | cons x xs ih =>
    cases ys with
    | nil => simp [eqIgnoreAsciiCase]
    | cons y ys =>
      rw [List.map_cons, List.map_cons, List.cons.injEq, ← ih]
      simp only [eqIgnoreAsciiCase, List.length_cons, List.zip_cons_cons, List.all_cons,
        Bool.and_eq_true, beq_iff_eq, Nat.add_right_cancel_iff]
      exact and_left_comm

/-- The order of strings up to ASCII case is the order of their bytes up to ASCII case. -/
theorem cmpIgnoreCase_eq (as bs : List Char) : cmpIgnoreCase as bs = cmpFolded (utf8 as)
    (utf8 bs) := by
  rw [cmpFolded_eq, ← utf8_toLower, ← utf8_toLower]
  induction as generalizing bs with
  | nil =>
    cases bs with
    | nil => rfl
    | cons b bs =>
      have hpos := length_encode_pos b.toLower
      have hcmp : cmpBytes (utf8 []) (utf8 ((b :: bs).map Char.toLower)) =
          compare 0 (utf8 ((b :: bs).map Char.toLower)).length := by
        cases utf8 ((b :: bs).map Char.toLower) <;> rfl
      rw [List.map_nil, hcmp, cmpIgnoreCase, List.map_cons, utf8_cons, List.length_append, eq_comm,
        Nat.compare_eq_lt]
      omega
  | cons a as ih =>
    cases bs with
    | nil =>
      have hpos := length_encode_pos a.toLower
      have hcmp : cmpBytes (utf8 ((a :: as).map Char.toLower)) (utf8 []) =
          compare (utf8 ((a :: as).map Char.toLower)).length 0 := by
        cases utf8 ((a :: as).map Char.toLower) <;> rfl
      rw [List.map_nil, hcmp, cmpIgnoreCase, List.map_cons, utf8_cons, List.length_append, eq_comm,
        Nat.compare_eq_gt]
      omega
    | cons b bs => rw [cmpIgnoreCase, List.map_cons, List.map_cons, utf8_cons, utf8_cons,
        cmpBytes_encode, ih]

theorem cmpEndpoint_swap (a b : Url) : cmpEndpoint b a = (cmpEndpoint a b).swap := by
  rw [cmpEndpoint, cmpEndpoint, cmpIgnoreCase_eq, cmpIgnoreCase_eq, cmpFolded_eq, cmpFolded_eq,
    cmpBytes_swap]

theorem cmpEndpoint_eq_iff (a b : Url) : cmpEndpoint a b = .eq ↔ nodeKey a = nodeKey b := by
  rw [cmpEndpoint, cmpIgnoreCase_eq, cmpFolded_eq, ← utf8_toLower, ← utf8_toLower, cmpBytes_utf8_eq,
    nodeKey, nodeKey]

theorem sameEndpoint_eq (a b : Url) :
    sameEndpoint a b = eqIgnoreAsciiCase (utf8 (endpointOf a)) (utf8 (endpointOf b)) := by
  rw [Bool.eq_iff_iff, sameEndpoint_iff, eqIgnoreAsciiCase_iff, ← utf8_toLower, ← utf8_toLower,
    utf8_inj, nodeKey, nodeKey]

/-- Being the same endpoint is an equivalence, addresses are the same endpoint where their keys are
equal and where they compare as equal, and the comparison is the total order of the keys. It
compares the bytes as the source does. -/
theorem endpoint_identity :
    (Equivalence fun a b : Url => sameEndpoint a b = true) ∧
    (∀ a b : Url, (sameEndpoint a b = true ↔ nodeKey a = nodeKey b) ∧
      (nodeKey a = nodeKey b ↔ cmpEndpoint a b = .eq)) ∧
    (∀ a b : Url, cmpEndpoint b a = (cmpEndpoint a b).swap) ∧
    (∀ a b c : Url, (cmpEndpoint a b).isLE = true → (cmpEndpoint b c).isLE = true →
      (cmpEndpoint a c).isLE = true) ∧
    (∀ a b : Url, (cmpEndpoint a b).isLE = true ∨ (cmpEndpoint b a).isLE = true) ∧
    (∀ a b : Url, (cmpEndpoint a b).isLE = true ↔ nodeKey a ≤ nodeKey b) ∧
    ∀ a b : Url, sameEndpoint a b = eqIgnoreAsciiCase (utf8 (endpointOf a)) (utf8 (endpointOf b)) ∧
      cmpEndpoint a b = cmpFolded (utf8 (endpointOf a)) (utf8 (endpointOf b)) := by
  refine ⟨⟨sameEndpoint_refl, fun h => ?_, sameEndpoint_trans⟩, fun a b => ⟨sameEndpoint_iff, ?_⟩,
    cmpEndpoint_swap,
    fun a b c hab hbc => ?_, fun a b => ?_, cmpEndpoint_isLE_iff, fun a b =>
      ⟨sameEndpoint_eq a b, ?_⟩⟩
  · rwa [sameEndpoint_comm]
  · exact (cmpEndpoint_eq_iff a b).symm
  · rw [cmpEndpoint_isLE_iff] at hab hbc ⊢
    exact hab.trans hbc
  · rw [cmpEndpoint_isLE_iff, cmpEndpoint_isLE_iff]
    exact le_total _ _
  · exact cmpIgnoreCase_eq _ _

end DewDB.Endpoint
