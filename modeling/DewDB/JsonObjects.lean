import DewDB.JsonValue
import DewDB.SortedMap
import Mathlib.Data.Char
import Mathlib.Data.List.Lex

/-!
# JSON objects as maps

The members of an object have different names and are in their order. So a value is known by what is
read along every list of names: an object, another value, or nothing.
-/
namespace DewDB.JsonValue

variable {N : Type}

inductive Json.Ordered : Json N → Prop where
  | null : Json.Ordered .null
  | bool (b : Bool) : Json.Ordered (.bool b)
  | num (n : N) : Json.Ordered (.num n)
  | str (s : List Char) : Json.Ordered (.str s)
  | arr {elems : List (Json N)} (h : ∀ v ∈ elems, v.Ordered) : Json.Ordered (.arr elems)
  | obj {members : List (List Char × Json N)} (hs : (members.map Prod.fst).Pairwise (· < ·))
    (h : ∀ m ∈ members, m.2.Ordered) : Json.Ordered (.obj members)

structure Value (N : Type) where
  json : Json N
  ordered : json.Ordered

def Json.members : Json N → List (List Char × Json N)
  | .obj members => members
  | _ => []

def Json.isNull : Json N → Bool
  | .null => true
  | _ => false

def Json.follow (v : Json N) (path : List (List Char)) : Option (Json N) :=
  path.foldlM (fun cur part => cur.member part) v

def Json.shape : Json N → Option (Json N)
  | .obj _ => none
  | v => some v

/-- What is read where a list of names leads: nothing, an object, or another value. -/
def Json.read (v : Json N) (path : List (List Char)) : Option (Option (Json N)) :=
  (v.follow path).map Json.shape

theorem getPathValue_eq_follow (doc : Json N) (path : List Char) :
    getPathValue doc path = doc.follow (path.splitOn '.') := rfl

section Reading

variable {v w : Json N} {members : List (List Char × Json N)}

theorem lookup_eq_find (name : List Char) (members : List (List Char × Json N)) :
    members.lookup name = SortedMap.find name members := by
  induction members with
  | nil => rfl
  | cons m members ih =>
    rw [List.lookup_cons, SortedMap.find, ih]
    by_cases h : name = m.1
    · rw [if_pos h, beq_iff_eq.mpr h]
    · rw [if_neg h, beq_eq_false_iff_ne.mpr h]

theorem member_eq_find (v : Json N) (name : List Char) :
    v.member name = SortedMap.find name v.members := by
  cases v with
  | obj members => exact lookup_eq_find name members
  | _ => rfl

@[simp]
theorem member_obj (name : List Char) :
    (Json.obj members).member name = SortedMap.find name members :=
  member_eq_find _ name

@[simp]
theorem follow_nil (v : Json N) : v.follow [] = some v := rfl

theorem follow_cons (v : Json N) (name : List Char) (path : List (List Char)) :
    v.follow (name :: path) = (v.member name).bind fun w => w.follow path := rfl

theorem follow_append (v : Json N) (p q : List (List Char)) :
    v.follow (p ++ q) = (v.follow p).bind fun w => w.follow q :=
  List.foldlM_append

theorem read_append (v : Json N) (p q : List (List Char)) :
    v.read (p ++ q) = (v.follow p).bind fun w => w.read q := by
  rw [Json.read, follow_append]
  exact Option.map_bind

theorem read_cons (v : Json N) (name : List Char) (path : List (List Char)) :
    v.read (name :: path) = (v.member name).bind fun w => w.read path :=
  Option.map_bind

theorem members_of_shape (h : v.shape = none) : v = .obj v.members := by
  cases v with
  | obj members => rfl
  | _ => cases h

theorem eq_of_shape (h : v.shape = some w) : v = w := by
  cases v with
  | obj members => cases h
  | _ => exact Option.some.inj h

theorem shape_of_member {name : List Char} (h : v.member name = some w) : v.shape = none := by
  cases v with
  | obj members => rfl
  | _ => cases h

theorem Json.Ordered.sorted (h : v.Ordered) : (v.members.map Prod.fst).Pairwise (· < ·) := by
  cases h with
  | obj hs h => exact hs
  | _ => exact List.Pairwise.nil

theorem Json.Ordered.of_mem (h : v.Ordered) {m : List Char × Json N} (hm : m ∈ v.members) :
    m.2.Ordered := by
  cases h with
  | obj hs h => exact h m hm
  | _ => exact absurd hm List.not_mem_nil

theorem Json.Ordered.member {name : List Char} (h : v.Ordered) (hw : v.member name = some w) :
    w.Ordered := by
  rw [member_eq_find] at hw
  exact h.of_mem (SortedMap.mem_of_find hw)

theorem Json.Ordered.follow {path : List (List Char)} (h : v.Ordered)
    (hw : v.follow path = some w) : w.Ordered := by
  induction path generalizing v with
  | nil => exact Option.some.inj hw ▸ h
  | cons name path ih =>
    rw [follow_cons] at hw
    obtain ⟨u, hu, hw⟩ := Option.bind_eq_some_iff.mp hw
    exact ih (h.member hu) hw

theorem eq_of_member (hv : v.Ordered) (hw : w.Ordered) (hvobj : v.shape = none)
    (hwobj : w.shape = none) (h : ∀ name, v.member name = w.member name) : v = w := by
  rw [members_of_shape hvobj, members_of_shape hwobj]
  apply congrArg Json.obj
  apply SortedMap.eq_of_find_eq hv.sorted hw.sorted
  intro name
  rw [← member_eq_find, ← member_eq_find, h]

theorem found_of_read {a b : Option (Json N)}
    (h : ∀ q, (a.bind fun u => u.read q) = b.bind fun u => u.read q) :
    (a = none ∧ b = none) ∨ ∃ u w, a = some u ∧ b = some w ∧ ∀ q, u.read q = w.read q := by
  cases a with
  | none =>
    cases b with
    | none => exact .inl ⟨rfl, rfl⟩
    | some w => cases h []
  | some u =>
    cases b with
    | none => cases h []
    | some w => exact .inr ⟨u, w, rfl, rfl, h⟩

theorem eq_of_read (hv : v.Ordered) (hw : w.Ordered)
    (h : ∀ path, v.read path = w.read path) : v = w := by
  induction hv generalizing w with
  | @obj members hs hm ih =>
    apply eq_of_member (.obj hs hm) hw rfl (Option.some.inj (h [])).symm
    intro name
    have hname : ∀ q, (((Json.obj members).member name).bind fun u => u.read q) =
        (w.member name).bind fun u => u.read q := by
      intro q
      rw [← read_cons, ← read_cons]
      exact h (name :: q)
    rcases found_of_read hname with ⟨hl, hr⟩ | ⟨a, b, hl, hr, hsame⟩
    · rw [hl, hr]
    · have hmem := SortedMap.mem_of_find ((member_obj name).symm.trans hl)
      rw [hl, hr, show a = b from ih _ hmem (hw.member hr) hsame]
  | _ => exact (eq_of_shape (Option.some.inj (h [])).symm).symm

theorem follow_eq_of_read {path : List (List Char)} (hv : v.Ordered) (hw : w.Ordered)
    (h : ∀ q, v.read (path ++ q) = w.read (path ++ q)) : v.follow path = w.follow path := by
  have hsame : ∀ q, ((v.follow path).bind fun u => u.read q) = (w.follow path).bind fun u =>
    u.read q := by
    intro q
    rw [← read_append, ← read_append]
    exact h q
  rcases found_of_read hsame with ⟨hl, hr⟩ | ⟨a, b, hl, hr, hsame⟩
  · rw [hl, hr]
  · rw [hl, hr, eq_of_read (hv.follow hl) (hw.follow hr) hsame]

end Reading

section Updating

variable {members : List (List Char × Json N)} {name : List Char} {v : Json N}

theorem Json.Ordered.put (h : (Json.obj members).Ordered) (hv : v.Ordered) :
    (Json.obj (SortedMap.put name v members)).Ordered := by
  apply Json.Ordered.obj (SortedMap.sorted_put h.sorted)
  intro m hm
  rcases SortedMap.mem_put hm with rfl | hm
  · exact hv
  · exact h.of_mem hm

theorem Json.Ordered.discard (h : (Json.obj members).Ordered) :
    (Json.obj (SortedMap.discard name members)).Ordered :=
  .obj (h.sorted.sublist ((SortedMap.discard_sublist name members).map Prod.fst))
    fun _ hm => h.of_mem ((SortedMap.discard_sublist name members).subset hm)

theorem Json.Ordered.obj_members (h : v.Ordered) : (Json.obj v.members).Ordered :=
  .obj h.sorted fun _ hm => h.of_mem hm

end Updating

end DewDB.JsonValue
