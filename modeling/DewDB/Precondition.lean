import Mathlib.Data.Nat.Digits.Defs
import Mathlib.Data.List.Basic

/-!
# Versions and the conditions a write carries

A version is the term and LSN of the frame that wrote a document. Its entity tag is the decimal text
of the two, and `If-Match` and `If-None-Match` are judged on that text.
-/
namespace DewDB.Precondition

structure Version where
  term : Nat
  lsn : Nat
  deriving DecidableEq

/-- `"term.lsn"`, with the quotes. -/
def Version.etag (v : Version) : List Char :=
  '"' :: (Nat.toDigits 10 v.term ++ '.' :: Nat.toDigits 10 v.lsn) ++ ['"']

/-- `text` is what stands between the quotes. -/
structure EntityTag where
  weak : Bool
  text : List Char
  deriving DecidableEq

inductive Tags where
  | any
  | list (tags : List EntityTag)
  deriving DecidableEq

/-- The header of a client that read the document at version `v`. -/
def Tags.exactly (v : Version) : Tags := .list [⟨false, v.etag.tail.dropLast⟩]

structure Preconditions where
  ifMatch : Option Tags
  ifNoneMatch : Option Tags
  deriving DecidableEq

namespace Preconditions

def isEmpty (p : Preconditions) : Bool := p.ifMatch.isNone && p.ifNoneMatch.isNone

/-- Whether a header names the tag of the current document; `strong` leaves weak tags out. -/
def matched (strong : Bool) (tags : Tags) (current : Option (List Char)) : Bool :=
  match tags, current with
  | _, .none => false
  | .any, some _ => true
  | .list l, some cur => l.any fun t => (!strong || !t.weak) && t.text == cur

def holds (p : Preconditions) (current : Option Version) : Bool :=
  let current := current.map fun v => v.etag.tail.dropLast
  (p.ifMatch.all fun tags => matched true tags current) &&
    p.ifNoneMatch.all fun tags => !matched false tags current

end Preconditions

theorem etag_inner (v : Version) :
    v.etag.tail.dropLast = Nat.toDigits 10 v.term ++ '.' :: Nat.toDigits 10 v.lsn := by
  simp only [Version.etag, List.cons_append, List.tail_cons]
  exact List.dropLast_concat

theorem dot_notMem_toDigits (n : Nat) : '.' ∉ Nat.toDigits 10 n := by
  intro h
  have := Nat.isDigit_of_mem_toDigits (by decide) (by decide) h
  exact absurd this (by decide)

theorem toDigits_injective {m n : Nat} (h : Nat.toDigits 10 m = Nat.toDigits 10 n) : m = n := by
  rw [← Nat.ofDigitChars_ten_toDigits (n := m), h, Nat.ofDigitChars_ten_toDigits]

theorem append_dot_inj {a b c d : List Char} (ha : '.' ∉ a) (hc : '.' ∉ c)
    (h : a ++ '.' :: b = c ++ '.' :: d) : a = c ∧ b = d := by
  induction a generalizing c with
  | nil =>
    cases c with
    | nil => simpa using h
    | cons x c =>
      simp only [List.nil_append, List.cons_append, List.cons.injEq] at h
      exact absurd (h.1 ▸ List.mem_cons_self) hc
  | cons x a ih =>
    cases c with
    | nil =>
      simp only [List.nil_append, List.cons_append, List.cons.injEq] at h
      exact absurd (h.1 ▸ List.mem_cons_self) ha
    | cons y c =>
      simp only [List.cons_append, List.cons.injEq] at h
      obtain ⟨rfl, rfl⟩ := ih (fun hm => ha (List.mem_cons_of_mem x hm))
        (fun hm => hc (List.mem_cons_of_mem y hm)) h.2
      exact ⟨by rw [h.1], rfl⟩

theorem etag_injective {v w : Version} (h : v.etag.tail.dropLast = w.etag.tail.dropLast) :
    v = w := by
  rw [etag_inner, etag_inner] at h
  obtain ⟨ht, hl⟩ := append_dot_inj (dot_notMem_toDigits _) (dot_notMem_toDigits _) h
  cases v
  cases w
  simp_all only [Version.mk.injEq]
  exact ⟨toDigits_injective ht, toDigits_injective hl⟩

theorem holds_of_isEmpty {p : Preconditions} (h : p.isEmpty = true) (cur : Option Version) :
    p.holds cur = true := by
  obtain ⟨m, n⟩ := p
  simp only [Preconditions.isEmpty, Bool.and_eq_true, Option.isNone_iff_eq_none] at h
  obtain ⟨rfl, rfl⟩ := h
  rfl

theorem eq_of_holds_ifMatch {p : Preconditions} {v : Version} {cur : Option Version}
    (hp : p.ifMatch = some (.exactly v)) (h : p.holds cur = true) :
    cur = some v := by
  cases cur with
  | none => simp [Preconditions.holds, hp, Preconditions.matched] at h
  | some w =>
    simp only [Preconditions.holds, hp, Tags.exactly, Preconditions.matched,
      Option.map_some, Option.all_some, List.any_cons, List.any_nil, Bool.and_eq_true] at h
    have hvw : v.etag.tail.dropLast = w.etag.tail.dropLast := by simpa using h.1
    rw [etag_injective hvw]

/-- `If-None-Match: *` lets a write through only where there is no document. -/
theorem none_of_holds_ifNoneMatch {p : Preconditions} {cur : Option Version}
    (hp : p.ifNoneMatch = some .any) (h : p.holds cur = true) : cur = none := by
  cases cur with
  | none => rfl
  | some w => simp [Preconditions.holds, hp, Preconditions.matched] at h

example : (Version.mk 3 17).etag = ['"', '3', '.', '1', '7', '"'] := by decide

end DewDB.Precondition
