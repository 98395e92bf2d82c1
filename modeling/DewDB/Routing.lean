import Mathlib.Data.List.Basic

/-!
# Routing by segments

A route is a pattern of words and parameters. A path is followed word by word; a word of a pattern
is tried before a parameter, and a parameter takes any segment that is not blank.
-/
namespace DewDB.Routing

inductive Seg (α : Type*) where
  | lit (word : α)
  | param
  deriving DecidableEq

abbrev Pattern (α : Type*) := List (Seg α)

variable {α ρ : Type*} [DecidableEq α]

def afterLit (table : List (Pattern α × ρ)) (s : α) : List (Pattern α × ρ) :=
  table.filterMap fun e =>
    match e.1 with
    | .lit w :: rest => if w = s then some (rest, e.2) else none
    | _ => none

def afterParam (table : List (Pattern α × ρ)) : List (Pattern α × ρ) :=
  table.filterMap fun e =>
    match e.1 with
    | .param :: rest => some (rest, e.2)
    | _ => none

def dispatch (blank : α → Bool) : List (Pattern α × ρ) → List α → Option (ρ × List α)
  | table, [] => (table.find? fun e => e.1.isEmpty).map fun e => (e.2, [])
  | table, s :: segs =>
    (dispatch blank (afterLit table s) segs).or
      (if blank s then none else (dispatch blank (afterParam table) segs).map fun found =>
        (found.1, s :: found.2))

/-- A path follows a pattern and gives its parameters these values. -/
def Follows (blank : α → Bool) : Pattern α → List α → List α → Prop
  | [], [], [] => True
  | .lit w :: pattern, s :: segs, values => w = s ∧ Follows blank pattern segs values
  | .param :: pattern, s :: segs, v :: values => blank s = false ∧ v = s ∧
      Follows blank pattern segs values
  | _, _, _ => False

variable {blank : α → Bool} {table : List (Pattern α × ρ)} {segs values : List α} {r : ρ}

theorem mem_afterLit {s : α} {pattern : Pattern α} (h : (pattern, r) ∈ afterLit table s) :
    (.lit s :: pattern, r) ∈ table := by
  obtain ⟨⟨p, r'⟩, he, heq⟩ := List.mem_filterMap.mp h
  match p with
  | [] => cases heq
  | .param :: rest => cases heq
  | .lit w :: rest =>
    dsimp only at heq
    split_ifs at heq with hw
    cases heq
    exact hw ▸ he

omit [DecidableEq α] in
theorem mem_afterParam {pattern : Pattern α} (h : (pattern, r) ∈ afterParam table) :
    (.param :: pattern, r) ∈ table := by
  obtain ⟨⟨p, r'⟩, he, heq⟩ := List.mem_filterMap.mp h
  match p with
  | [] => cases heq
  | .lit w :: rest => cases heq
  | .param :: rest =>
    cases heq
    exact he

omit [DecidableEq α] in
theorem follows_nil : Follows blank [] segs values ↔ segs = [] ∧ values = [] := by
  cases segs <;> cases values <;> simp [Follows]

omit [DecidableEq α] in
theorem follows_lit {w : α} {pattern : Pattern α} :
    Follows blank (.lit w :: pattern) segs values ↔
      ∃ rest, segs = w :: rest ∧ Follows blank pattern rest values := by
  cases segs with
  | nil => simp [Follows]
  | cons s segs =>
    simp only [Follows, List.cons.injEq]
    constructor
    · rintro ⟨rfl, h⟩
      exact ⟨segs, ⟨rfl, rfl⟩, h⟩
    · rintro ⟨rest, ⟨rfl, rfl⟩, h⟩
      exact ⟨rfl, h⟩

omit [DecidableEq α] in
theorem follows_param {pattern : Pattern α} :
    Follows blank (.param :: pattern) segs values ↔
      ∃ s rest vs, segs = s :: rest ∧ values = s :: vs ∧ blank s = false ∧
        Follows blank pattern rest vs := by
  cases segs with
  | nil => simp [Follows]
  | cons s segs =>
    cases values with
    | nil => simp [Follows]
    | cons v values =>
      simp only [Follows, List.cons.injEq]
      constructor
      · rintro ⟨hs, rfl, h⟩
        exact ⟨v, segs, values, ⟨rfl, rfl⟩, ⟨rfl, rfl⟩, hs, h⟩
      · rintro ⟨s', rest, vs, ⟨rfl, rfl⟩, ⟨rfl, rfl⟩, hs, h⟩
        exact ⟨hs, rfl, h⟩

theorem follows_of_dispatch (h : dispatch blank table segs = some (r, values)) :
    ∃ pattern, (pattern, r) ∈ table ∧ Follows blank pattern segs values := by
  induction segs generalizing table values with
  | nil =>
    obtain ⟨⟨p, r'⟩, hfind, heq⟩ := Option.map_eq_some_iff.mp h
    cases heq
    have hempty := List.find?_some hfind
    obtain rfl := List.isEmpty_iff.mp hempty
    exact ⟨[], List.mem_of_find?_eq_some hfind, trivial⟩
  | cons s segs ih =>
    rw [dispatch] at h
    rcases hlit : dispatch blank (afterLit table s) segs with - | found
    · rw [hlit, Option.none_or] at h
      split_ifs at h with hblank
      obtain ⟨found, hfound, heq⟩ := Option.map_eq_some_iff.mp h
      cases heq
      obtain ⟨pattern, hmem, hfollows⟩ := ih hfound
      exact ⟨.param :: pattern, mem_afterParam hmem, by simpa using hblank, rfl, hfollows⟩
    · rw [hlit, Option.some_or, Option.some.injEq] at h
      subst h
      obtain ⟨pattern, hmem, hfollows⟩ := ih hlit
      exact ⟨.lit s :: pattern, mem_afterLit hmem, rfl, hfollows⟩

end DewDB.Routing
