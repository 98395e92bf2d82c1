import DewDB.QueryFilter

/-!
# Index probes

What one field condition can be answered with from the postings of an index: some values, or a span
of values in the order of `json_cmp`. A type of JSON is a contiguous span, and so are the strings
with a given prefix. The value at the field of a document that matches the condition is always in
the probe.
-/
namespace DewDB.IndexProbe

open JsonValue QueryFilter Std

variable {N : Type}

inductive Bound (α : Type) where
  | included (a : α)
  | excluded (a : α)
  | unbounded

inductive Probe (N : Type) where
  | exact (values : List (Json N))
  | range (lower upper : Bound (Json N))

def band : JsonKind → Bound (Json N) × Bound (Json N)
  | .null => (.included .null, .included .null)
  | .bool => (.included (.bool false), .included (.bool true))
  | .number => (.excluded (.bool true), .excluded (.str []))
  | .string => (.included (.str []), .excluded (.arr []))
  | .array => (.included (.arr []), .excluded (.obj []))
  | .object => (.included (.obj []), .unbounded)

/-- `char::from_u32`. -/
def fromU32 (n : ℕ) : Option Char := if n.isValidChar then some (Char.ofNat n) else none

def nextChar (last : Char) : Option Char :=
  let next := last.toNat + 1
  fromU32 (if next = 0xD800 then 0xE000 else next)

def successorRev : List Char → Option (List Char)
  | [] => none
  | last :: chars =>
    match nextChar last with
    | some c => some (c :: chars).reverse
    | none => successorRev chars

/-- The least string above every string with the prefix, or `none` at the top of the order. -/
def prefixSuccessor (p : List Char) : Option (List Char) := successorRev p.reverse

namespace Op

def eqOperand : Op N → Option (Json N)
  | .eq v => some v
  | _ => none

def inOperand : Op N → Option (List (Json N))
  | .inList vs => some vs
  | _ => none

def lower : Op N → Option (Json N × Bool)
  | .gt v => some (v, false)
  | .gte v => some (v, true)
  | _ => none

def upper : Op N → Option (Json N × Bool)
  | .lt v => some (v, false)
  | .lte v => some (v, true)
  | _ => none

def prefixOperand : Op N → Option (List Char)
  | .hasPrefix p => some p
  | _ => none

def typeOperand : Op N → Option (List JsonKind)
  | .type kinds => some kinds
  | _ => none

def isPresence : Op N → Bool
  | .existing want => want
  | _ => false

end Op

def edge (b : Option (Json N × Bool)) (fallback : Bound (Json N)) : Bound (Json N) :=
  match b with
  | some (v, true) => .included v
  | some (v, false) => .excluded v
  | none => fallback

def equalityProbe (ops : List (Op N)) : Option (Probe N) :=
  (ops.findSome? Op.eqOperand).map fun v => .exact [v]

def membershipProbe (ops : List (Op N)) : Option (Probe N) :=
  (ops.findSome? Op.inOperand).map .exact

def rangeProbe (ops : List (Op N)) : Option (Probe N) :=
  let lower := ops.findSome? Op.lower
  let upper := ops.findSome? Op.upper
  (lower.or upper).map fun b =>
    let span := band (JsonKind.ofValue b.1)
    .range (edge lower span.1) (edge upper span.2)

def prefixProbe (ops : List (Op N)) : Option (Probe N) :=
  (ops.findSome? Op.prefixOperand).map fun p =>
    .range (.included (.str p)) (match prefixSuccessor p with
      | some next => .excluded (.str next)
      | none => (band .string).2)

/-- One type is a contiguous span; several are left to the scan. -/
def typeProbe (ops : List (Op N)) : Option (Probe N) :=
  match ops.findSome? Op.typeOperand with
  | some [kind] => some (.range (band kind).1 (band kind).2)
  | _ => none

def presenceProbe (ops : List (Op N)) : Option (Probe N) :=
  if ops.any Op.isPresence then some (.range .unbounded .unbounded) else none

/-- The narrowest probe that the operators name, or `none` to leave the condition to the scan. -/
def probeFor (cond : Condition N) : Option (Probe N) :=
  equalityProbe cond.ops <|> membershipProbe cond.ops <|> rangeProbe cond.ops <|>
    prefixProbe cond.ops <|> typeProbe cond.ops <|> presenceProbe cond.ops

section Spans

variable [Number N]

def Bound.admitsAbove (lower : Bound (Json N)) (v : Json N) : Bool :=
  match lower with
  | .included k => (jsonCmp k v).isLE
  | .excluded k => jsonCmp k v = .lt
  | .unbounded => true

def Bound.admitsBelow (upper : Bound (Json N)) (v : Json N) : Bool :=
  match upper with
  | .included k => (jsonCmp v k).isLE
  | .excluded k => jsonCmp v k = .lt
  | .unbounded => true

def Probe.admits : Probe N → Json N → Bool
  | .exact values, v => values.any fun w => jsonCmp w v = .eq
  | .range lower upper, v => lower.admitsAbove v && upper.admitsBelow v

/-- `BTreeMap::range` panics on a reversed pair. -/
def rangeIsEmpty : Bound (Json N) → Bound (Json N) → Bool
  | .included a, .included b => jsonCmp a b = .gt
  | .included a, .excluded b => (jsonCmp a b).isGE
  | .excluded a, .included b => (jsonCmp a b).isGE
  | .excluded a, .excluded b => (jsonCmp a b).isGE
  | _, _ => false

end Spans

section Prefixes

theorem strCmp_cons_self (c : Char) (p q : List Char) : strCmp (c :: p) (c :: q) = strCmp p q := by
  have hc : compare c c = .eq := ReflCmp.compare_self
  rw [strCmp, List.compareLex_cons_cons, hc]
  rfl

theorem strCmp_cons_of_lt {c d : Char} (h : c < d) (p q : List Char) : strCmp (c :: p)
    (d :: q) = .lt := by
  have hc : compare c d = .lt := if_pos h
  rw [strCmp, List.compareLex_cons_cons, hc]
  rfl

theorem strCmp_isLE_of_isPrefix {p s : List Char} (h : p <+: s) : (strCmp p s).isLE := by
  obtain ⟨t, rfl⟩ := h
  induction p with
  | nil =>
    cases t with
    | nil => rfl
    | cons c t => rfl
  | cons c p ih =>
    rw [List.cons_append, strCmp_cons_self]
    exact ih

theorem lt_of_fromU32 {c d : Char} {n : ℕ} (h : fromU32 n = some d) (hn : c.toNat < n) : c < d := by
  unfold fromU32 at h
  split_ifs at h with hvalid
  rw [← Option.some.inj h]
  have hd : (Char.ofNat n).toNat = n := by
    rw [Char.ofNat, dif_pos hvalid]
    rfl
  apply Nat.lt_of_lt_of_eq hn hd.symm

theorem lt_nextChar {c d : Char} (h : nextChar c = some d) : c < d := by
  apply lt_of_fromU32 h
  split_ifs <;> omega

theorem successorRev_append (xs : List Char) (c : Char) : successorRev (xs ++ [c]) =
    match successorRev xs with
    | some next => some (c :: next)
    | none => (nextChar c).map fun d => [d] := by
  induction xs with
  | nil =>
    rw [List.nil_append, successorRev, successorRev]
    cases nextChar c <;> rfl
  | cons x xs ih =>
    rw [List.cons_append, successorRev, successorRev]
    cases nextChar x with
    | none => exact ih
    | some d => simp

/-- From the front: the first character stays unless the rest has no successor. -/
theorem prefixSuccessor_cons (c : Char) (p : List Char) : prefixSuccessor (c :: p) =
    match prefixSuccessor p with
    | some next => some (c :: next)
    | none => (nextChar c).map fun d => [d] := by
  rw [prefixSuccessor, List.reverse_cons, successorRev_append]
  rfl

theorem strCmp_prefixSuccessor {p next s : List Char} (hnext : prefixSuccessor p = some next)
    (h : p <+: s) : strCmp s next = .lt := by
  obtain ⟨t, rfl⟩ := h
  induction p generalizing next with
  | nil => cases hnext
  | cons c p ih =>
    rw [prefixSuccessor_cons] at hnext
    cases hp : prefixSuccessor p with
    | some rest =>
      rw [hp] at hnext
      rw [← Option.some.inj hnext, List.cons_append, strCmp_cons_self]
      exact ih hp
    | none =>
      rw [hp] at hnext
      obtain ⟨d, hd, rfl⟩ := Option.map_eq_some_iff.mp hnext
      rw [List.cons_append]
      exact strCmp_cons_of_lt (lt_nextChar hd) (p ++ t) []

end Prefixes

section Admission

variable [Number N]

theorem band_admits (v : Json N) : (band (JsonKind.ofValue v)).1.admitsAbove v = true ∧
    (band (JsonKind.ofValue v)).2.admitsBelow v = true := by
  cases v with
  | null => exact ⟨rfl, rfl⟩
  | bool b => cases b <;> exact ⟨rfl, rfl⟩
  | num n => exact ⟨rfl, rfl⟩
  | str s => cases s <;> exact ⟨rfl, rfl⟩
  | arr xs =>
    cases xs with
    | nil => exact ⟨rfl, rfl⟩
    | cons x xs => exact ⟨congrArg Ordering.isLE (Nat.compare_eq_lt.mpr xs.length.succ_pos), rfl⟩
  | obj xs =>
    cases xs with
    | nil => exact ⟨rfl, rfl⟩
    | cons x xs => exact ⟨congrArg Ordering.isLE (Nat.compare_eq_lt.mpr xs.length.succ_pos), rfl⟩

theorem range_admits_congr {lower upper : Bound (Json N)} {v w : Json N} (h : jsonCmp v w = .eq) :
    (Probe.range lower upper).admits v = (Probe.range lower upper).admits w := by
  have hlow : lower.admitsAbove v = lower.admitsAbove w := by
    cases lower <;> simp only [Bound.admitsAbove, TransCmp.congr_right h]
  have hhigh : upper.admitsBelow v = upper.admitsBelow w := by
    cases upper <;> simp only [Bound.admitsBelow, TransCmp.congr_left h]
  rw [Probe.admits, Probe.admits, hlow, hhigh]

theorem not_admits_of_rangeIsEmpty {lower upper : Bound (Json N)}
    (h : rangeIsEmpty lower upper = true)
    (v : Json N) : (Probe.range lower upper).admits v = false := by
  rw [Probe.admits, Bool.and_eq_false_iff]
  by_contra hboth
  rw [not_or, Bool.not_eq_false, Bool.not_eq_false] at hboth
  obtain ⟨hlow, hhigh⟩ := hboth
  cases lower with
  | included a =>
    cases upper with
    | included b =>
      have hle := @TransCmp.isLE_trans _ jsonCmp _ _ _ _ hlow hhigh
      rw [of_decide_eq_true h] at hle
      cases hle
    | excluded b =>
      have hlt := TransCmp.lt_of_isLE_of_lt hlow (of_decide_eq_true hhigh)
      rw [rangeIsEmpty, hlt] at h
      cases h
    | unbounded => cases h
  | excluded a =>
    cases upper with
    | included b =>
      have hlt := TransCmp.lt_of_lt_of_isLE (of_decide_eq_true hlow) hhigh
      rw [rangeIsEmpty, hlt] at h
      cases h
    | excluded b =>
      have hlt := TransCmp.lt_trans (of_decide_eq_true hlow) (of_decide_eq_true hhigh)
      rw [rangeIsEmpty, hlt] at h
      cases h
    | unbounded => cases h
  | unbounded => cases upper <;> cases h

variable [DecidableEq N] {op : Op N} {ops : List (Op N)} {val : Option (Json N)}

theorem eqOperand_matches {w : Json N} (hop : Op.eqOperand op = some w)
    (h : opMatches op val = true) : val = some w := by
  cases op <;> cases hop
  cases val with
  | none => cases h
  | some v => exact congrArg some (of_decide_eq_true h)

theorem inOperand_matches {vs : List (Json N)} (hop : Op.inOperand op = some vs)
    (h : opMatches op val = true) : ∃ v ∈ vs, val = some v := by
  cases op <;> cases hop
  cases val with
  | none => cases h
  | some v => exact ⟨v, of_decide_eq_true h, rfl⟩

theorem lower_matches {b : Json N × Bool} (hop : Op.lower op = some b)
    (h : opMatches op val = true) :
    ∃ v, val = some v ∧ JsonKind.ofValue v = JsonKind.ofValue b.1 ∧
      ∀ fallback, (edge (some b) fallback).admitsAbove v = true := by
  cases val with
  | none => cases op <;> cases hop <;> cases h
  | some v =>
    cases op with
    | gt w =>
      obtain ⟨hk, hcmp⟩ := sameTypeCmp_eq_some (of_decide_eq_true h)
      cases hop
      exact ⟨v, rfl, hk, fun _ => decide_eq_true (OrientedCmp.lt_of_gt hcmp)⟩
    | gte w =>
      cases hop
      rcases of_decide_eq_true h with hgt | heq
      · obtain ⟨hk, hcmp⟩ := sameTypeCmp_eq_some hgt
        exact ⟨v, rfl, hk, fun _ => congrArg Ordering.isLE (OrientedCmp.lt_of_gt hcmp)⟩
      · obtain ⟨hk, hcmp⟩ := sameTypeCmp_eq_some heq
        exact ⟨v, rfl, hk, fun _ => congrArg Ordering.isLE (OrientedCmp.eq_symm hcmp)⟩
    | _ => cases hop

theorem upper_matches {b : Json N × Bool} (hop : Op.upper op = some b)
    (h : opMatches op val = true) :
    ∃ v, val = some v ∧ JsonKind.ofValue v = JsonKind.ofValue b.1 ∧
      ∀ fallback, (edge (some b) fallback).admitsBelow v = true := by
  cases val with
  | none => cases op <;> cases hop <;> cases h
  | some v =>
    cases op with
    | lt w =>
      obtain ⟨hk, hcmp⟩ := sameTypeCmp_eq_some (of_decide_eq_true h)
      cases hop
      exact ⟨v, rfl, hk, fun _ => decide_eq_true hcmp⟩
    | lte w =>
      cases hop
      rcases of_decide_eq_true h with hlt | heq
      · obtain ⟨hk, hcmp⟩ := sameTypeCmp_eq_some hlt
        exact ⟨v, rfl, hk, fun _ => congrArg Ordering.isLE hcmp⟩
      · obtain ⟨hk, hcmp⟩ := sameTypeCmp_eq_some heq
        exact ⟨v, rfl, hk, fun _ => congrArg Ordering.isLE hcmp⟩
    | _ => cases hop

theorem prefixOperand_matches {p : List Char} (hop : Op.prefixOperand op = some p)
    (h : opMatches op val = true) : ∃ s, val = some (.str s) ∧ p <+: s := by
  cases op <;> cases hop
  cases val with
  | none => cases h
  | some v =>
    cases v with
    | str s => exact ⟨s, rfl, of_decide_eq_true h⟩
    | _ => cases h

theorem typeOperand_matches {kinds : List JsonKind} (hop : Op.typeOperand op = some kinds)
    (h : opMatches op val = true) : ∃ v, val = some v ∧ JsonKind.ofValue v ∈ kinds := by
  cases op <;> cases hop
  cases val with
  | none => cases h
  | some v => exact ⟨v, rfl, of_decide_eq_true h⟩

theorem isPresence_matches (hop : Op.isPresence op = true) (h : opMatches op val = true) :
    ∃ v, val = some v := by
  cases op with
  | existing want =>
    rw [Op.isPresence] at hop
    rw [opMatches, hop] at h
    exact Option.isSome_iff_exists.mp (of_decide_eq_true h)
  | _ => cases hop

def Covers (probe : Probe N) (val : Option (Json N)) : Prop :=
  ∃ v, val = some v ∧ probe.admits v = true

variable {probe : Probe N} (h : ∀ op ∈ ops, opMatches op val = true)

include h

theorem equalityProbe_covers (hp : equalityProbe ops = some probe) : Covers probe val := by
  obtain ⟨w, hw, rfl⟩ := Option.map_eq_some_iff.mp hp
  obtain ⟨op, hmem, hop⟩ := List.exists_of_findSome?_eq_some hw
  refine ⟨w, eqOperand_matches hop (h op hmem), ?_⟩
  simp [Probe.admits, ReflCmp.compare_self]

theorem membershipProbe_covers (hp : membershipProbe ops = some probe) : Covers probe val := by
  obtain ⟨vs, hvs, rfl⟩ := Option.map_eq_some_iff.mp hp
  obtain ⟨op, hmem, hop⟩ := List.exists_of_findSome?_eq_some hvs
  obtain ⟨v, hv, hval⟩ := inOperand_matches hop (h op hmem)
  exact ⟨v, hval, List.any_eq_true.mpr ⟨v, hv, decide_eq_true ReflCmp.compare_self⟩⟩

/-- Each bound is met, and the band of the type stands in for the one that is missing. -/
theorem rangeProbe_covers (hp : rangeProbe ops = some probe) : Covers probe val := by
  obtain ⟨b, hb, rfl⟩ := Option.map_eq_some_iff.mp hp
  have hlower : ∀ c, ops.findSome? Op.lower = some c → ∃ v, val = some v ∧
      JsonKind.ofValue v = JsonKind.ofValue c.1 ∧ ∀ fallback,
        (edge (some c) fallback).admitsAbove v = true := by
    intro c hc
    obtain ⟨op, hmem, hop⟩ := List.exists_of_findSome?_eq_some hc
    exact lower_matches hop (h op hmem)
  have hupper : ∀ c, ops.findSome? Op.upper = some c → ∃ v, val = some v ∧
      JsonKind.ofValue v = JsonKind.ofValue c.1 ∧ ∀ fallback,
        (edge (some c) fallback).admitsBelow v = true := by
    intro c hc
    obtain ⟨op, hmem, hop⟩ := List.exists_of_findSome?_eq_some hc
    exact upper_matches hop (h op hmem)
  cases hlo : ops.findSome? Op.lower with
  | some c =>
    rw [hlo, Option.some_or, Option.some.injEq] at hb
    subst hb
    obtain ⟨v, hval, hk, habove⟩ := hlower c hlo
    refine ⟨v, hval, Bool.and_eq_true_iff.mpr ⟨habove _, ?_⟩⟩
    cases hhi : ops.findSome? Op.upper with
    | some d =>
      obtain ⟨w, hw, -, hbelow⟩ := hupper d hhi
      rw [hval, Option.some.injEq] at hw
      rw [hw]
      exact hbelow _
    | none =>
      rw [← hk]
      exact (band_admits v).2
  | none =>
    rw [hlo, Option.none_or] at hb
    obtain ⟨v, hval, hk, hbelow⟩ := hupper b hb
    refine ⟨v, hval, Bool.and_eq_true_iff.mpr ⟨?_, ?_⟩⟩
    · rw [← hk]
      exact (band_admits v).1
    · rw [hb]
      exact hbelow _

theorem prefixProbe_covers (hp : prefixProbe ops = some probe) : Covers probe val := by
  obtain ⟨p, hfind, rfl⟩ := Option.map_eq_some_iff.mp hp
  obtain ⟨op, hmem, hop⟩ := List.exists_of_findSome?_eq_some hfind
  obtain ⟨s, hval, hs⟩ := prefixOperand_matches hop (h op hmem)
  refine ⟨.str s, hval, Bool.and_eq_true_iff.mpr ⟨strCmp_isLE_of_isPrefix hs, ?_⟩⟩
  cases hnext : prefixSuccessor p with
  | some next => exact decide_eq_true (strCmp_prefixSuccessor hnext hs)
  | none => exact (band_admits (.str s)).2

theorem typeProbe_covers (hp : typeProbe ops = some probe) : Covers probe val := by
  unfold typeProbe at hp
  split at hp
  · next kind hfind =>
    obtain ⟨op, hmem, hop⟩ := List.exists_of_findSome?_eq_some hfind
    obtain ⟨v, hval, hk⟩ := typeOperand_matches hop (h op hmem)
    rw [List.mem_singleton] at hk
    rw [← Option.some.inj hp, ← hk]
    exact ⟨v, hval, Bool.and_eq_true_iff.mpr (band_admits v)⟩
  · cases hp

theorem presenceProbe_covers (hp : presenceProbe ops = some probe) : Covers probe val := by
  unfold presenceProbe at hp
  split_ifs at hp with hany
  obtain ⟨op, hmem, hop⟩ := List.any_eq_true.mp hany
  obtain ⟨v, hval⟩ := isPresence_matches hop (h op hmem)
  rw [← Option.some.inj hp]
  exact ⟨v, hval, rfl⟩

omit h

/-- A condition that a probe answers is matched only by a value that is there and in the probe. -/
theorem probeFor_covers {cond : Condition N} (hp : probeFor cond = some probe)
    (hmatch : cond.matches val = true) : Covers probe val := by
  have h := (matches_iff cond val).mp hmatch
  simp only [probeFor, Option.orElse_eq_some] at hp
  rcases hp with hp | ⟨-, hp | ⟨-, hp | ⟨-, hp | ⟨-, hp | ⟨-, hp⟩⟩⟩⟩⟩
  · exact equalityProbe_covers h hp
  · exact membershipProbe_covers h hp
  · exact rangeProbe_covers h hp
  · exact prefixProbe_covers h hp
  · exact typeProbe_covers h hp
  · exact presenceProbe_covers h hp

end Admission

end DewDB.IndexProbe
