import Mathlib.Algebra.Ring.Nat
import DewDB.IndexProbe
import DewDB.StableSort
import Std.Data.ExtTreeMap
import Std.Data.ExtTreeSet

/-!
# Secondary indexes

The postings of an index file document keys under the value of its field, and say under which value
each key is filed. A filter is answered with the candidates of one index that is built: the index
and the conjunct whose probe counts the fewest keys. A document that matches the filter has the
field of the index that is chosen, and its key is among the candidates when the index files it.
-/
namespace DewDB.Secondary

open JsonValue QueryFilter IndexProbe StableSort Std

variable {N : Type} [Number N]

abbrev KeySet := ExtTreeSet (List Char) strCmp

/-- The keys filed under each value, and the value each key is filed under. -/
structure Postings (N : Type) [Number N] where
  postings : ExtTreeMap (Json N) KeySet jsonCmp
  keys : ExtTreeMap (List Char) (Json N) strCmp
  filed : ∀ (key : List Char) (v : Json N),
    (∃ holders : KeySet, postings[v]? = some holders ∧ key ∈ holders) ↔
    ∃ w : Json N, keys[key]? = some w ∧ jsonCmp w v = .eq

theorem strCmp_eq_iff (a b : List Char) : strCmp a b = .eq ↔ a = b :=
  ⟨LawfulEqCmp.eq_of_compare, fun h => h ▸ ReflCmp.compare_self⟩

namespace Postings

def Holds (p : Postings N) (key : List Char) (v : Json N) : Prop :=
  ∃ holders : KeySet, p.postings[v]? = some holders ∧ key ∈ holders

def empty : Postings N where
  postings := ∅
  keys := ∅
  filed := by simp

def withoutHolder (key : List Char) (holders : Option KeySet) : Option KeySet :=
  holders.bind fun h => if (h.erase key).isEmpty then none else some (h.erase key)

def withHolder (key : List Char) (holders : Option KeySet) : Option KeySet :=
  some ((holders.getD ∅).insert key)

section Holders

variable {key k : List Char} {holders : Option KeySet}

theorem mem_withoutHolder : (∃ h, withoutHolder key holders = some h ∧ k ∈ h) ↔
    k ≠ key ∧ ∃ h, holders = some h ∧ k ∈ h := by
  cases holders with
  | none => simp [withoutHolder]
  | some h =>
    have hmem : k ∈ h.erase key ↔ k ≠ key ∧ k ∈ h := by
      rw [ExtTreeSet.mem_erase, Ne, strCmp_eq_iff, Ne, eq_comm]
    rw [withoutHolder, Option.bind_some]
    split_ifs with hempty
    · have hnone : k ∉ h.erase key := by
        rw [ExtTreeSet.isEmpty_iff.mp hempty]
        exact ExtTreeSet.not_mem_empty
      simpa [hmem] using hnone
    · simp [hmem]

theorem mem_withHolder : (∃ h, withHolder key holders = some h ∧ k ∈ h) ↔
    k = key ∨ ∃ h, holders = some h ∧ k ∈ h := by
  have hmem : ∀ h : KeySet, k ∈ h.insert key ↔ k = key ∨ k ∈ h := by
    intro h
    rw [ExtTreeSet.mem_insert, strCmp_eq_iff, @eq_comm _ key]
  cases holders with
  | none => simp [withHolder, hmem]
  | some h => simp [withHolder, hmem]

end Holders

variable (p : Postings N) (key : List Char)

theorem holds_iff {p : Postings N} {key : List Char} {v : Json N} :
    p.Holds key v ↔ ∃ w : Json N, p.keys[key]? = some w ∧ jsonCmp w v = .eq :=
  p.filed key v

def unfiled : ExtTreeMap (Json N) KeySet jsonCmp :=
  match p.keys[key]? with
  | some old => p.postings.alter old (withoutHolder key)
  | none => p.postings

theorem unfiled_iff (k : List Char) (v : Json N) :
    (∃ holders : KeySet, (p.unfiled key)[v]? = some holders ∧ k ∈ holders) ↔
      k ≠ key ∧ p.Holds k v := by
  unfold unfiled
  cases hold : p.keys[key]? with
  | none =>
    refine ⟨fun h => ⟨?_, h⟩, fun h => h.2⟩
    rintro rfl
    obtain ⟨w, hw, -⟩ := (p.filed k v).mp h
    rw [hold] at hw
    cases hw
  | some old =>
    simp only [ExtTreeMap.getElem?_alter]
    split_ifs with heq
    · rw [mem_withoutHolder, Holds, ExtTreeMap.getElem?_congr heq]
    · refine ⟨fun h => ⟨?_, h⟩, fun h => h.2⟩
      rintro rfl
      obtain ⟨w, hw, hcmp⟩ := (p.filed k v).mp h
      rw [hold, Option.some.injEq] at hw
      rw [hw] at heq
      exact heq hcmp

def unfile : Postings N where
  postings := p.unfiled key
  keys := p.keys.erase key
  filed := by
    intro k v
    rw [unfiled_iff, holds_iff]
    simp only [ExtTreeMap.getElem?_erase, strCmp_eq_iff]
    split_ifs with hk
    · simp [hk]
    · simp [Ne.symm hk]

theorem holds_unfile {k : List Char} {v : Json N} :
    (p.unfile key).Holds k v ↔ k ≠ key ∧ p.Holds k v :=
  p.unfiled_iff key k v

theorem refiled_iff (value : Json N) (k : List Char) (v : Json N) :
    (∃ holders : KeySet, ((p.unfile key).postings.alter value (withHolder key))[v]? = some holders ∧
      k ∈ holders) ↔ k = key ∧ jsonCmp value v = .eq ∨ k ≠ key ∧ p.Holds k v := by
  rw [← holds_unfile]
  simp only [ExtTreeMap.getElem?_alter]
  split_ifs with heq
  · rw [mem_withHolder, Holds, ExtTreeMap.getElem?_congr heq]
    simp [heq]
  · simp [heq, Holds]

def file (value : Json N) : Postings N where
  postings := (p.unfile key).postings.alter value (withHolder key)
  keys := (p.unfile key).keys.insert key value
  filed := by
    intro k v
    rw [refiled_iff, holds_iff]
    simp only [unfile, ExtTreeMap.getElem?_insert, ExtTreeMap.getElem?_erase, strCmp_eq_iff]
    split_ifs with hk
    · simp [hk]
    · simp [Ne.symm hk]

theorem holds_file {value v : Json N} {k : List Char} :
    (p.file key value).Holds k v ↔ k = key ∧ jsonCmp value v = .eq ∨ k ≠ key ∧ p.Holds k v :=
  p.refiled_iff key value k v

end Postings

/-- A build files what it reads, but not the keys that a write touched while it ran. -/
inductive BuildState where
  | building (touched : KeySet)
  | ready

structure SecondaryIndex (N : Type) [Number N] extends Postings N where
  field : List Char
  state : BuildState

namespace SecondaryIndex

def building (field : List Char) : SecondaryIndex N := ⟨.empty, field, .building ∅⟩

def isReady (index : SecondaryIndex N) : Bool :=
  match index.state with
  | .ready => true
  | .building _ => false

def noteTouched (index : SecondaryIndex N) (key : List Char) : SecondaryIndex N :=
  match index.state with
  | .building touched => { index with state := .building (touched.insert key) }
  | .ready => index

def unfile (index : SecondaryIndex N) (key : List Char) : SecondaryIndex N :=
  { index with toPostings := index.toPostings.unfile key }

def file (index : SecondaryIndex N) (key : List Char) (value : Json N) : SecondaryIndex N :=
  { index with toPostings := index.toPostings.file key value }

def holdersOf (index : SecondaryIndex N) (values : List (Json N)) : List KeySet :=
  (ExtTreeSet.ofList values jsonCmp).toList.filterMap fun v => index.postings[v]?

/-- `BTreeMap::range`. -/
def holdersIn (index : SecondaryIndex N) (lower upper : Bound (Json N)) : List KeySet :=
  (index.postings.toList.filter fun p => (Probe.range lower upper).admits p.1).map Prod.snd

def walk (index : SecondaryIndex N) : Probe N → List KeySet
  | .exact values => index.holdersOf values
  | .range lower upper => if rangeIsEmpty lower upper then [] else index.holdersIn lower upper

def count (index : SecondaryIndex N) (probe : Probe N) : ℕ :=
  ((index.walk probe).map ExtTreeSet.size).sum

def candidates (index : SecondaryIndex N) (probe : Probe N) : List (List Char) :=
  ((index.walk probe).foldl (· ∪ ·) (∅ : KeySet)).toList

end SecondaryIndex

structure IndexSpec where
  name : List Char
  field : List Char

def indexValues (specs : List IndexSpec) (doc : Json N) : List (List Char × Json N) :=
  specs.filterMap fun s => (getPathValue doc s.field).map fun v => (s.name, v)

structure Selection where
  index : List Char
  field : List Char
  keys : List (List Char)
  deriving DecidableEq

structure Indexes (N : Type) [Number N] where
  map : ExtTreeMap (List Char) (SecondaryIndex N) strCmp

/-- A definition that the log carries. A create that names an existing index replaces it. -/
inductive IndexChange where
  | create (spec : IndexSpec)
  | dropIndex (name : List Char)

namespace Indexes

def seed (specs : List IndexSpec) : Indexes N :=
  ⟨specs.foldl (fun map spec => map.insert spec.name (.building spec.field)) ∅⟩

def applyChange (indexes : Indexes N) : IndexChange → Indexes N
  | .create spec => ⟨indexes.map.insert spec.name (.building spec.field)⟩
  | .dropIndex name => ⟨indexes.map.erase name⟩

def clearAll (_ : Indexes N) : Indexes N := ⟨∅⟩

/-- `values` is what the write staged. -/
def put (indexes : Indexes N) (key : List Char) (values : List (List Char × Json N)) : Indexes N :=
  ⟨indexes.map.map fun name index =>
    match values.lookup name with
    | some value => (index.noteTouched key).file key value
    | none => (index.noteTouched key).unfile key⟩

def remove (indexes : Indexes N) (key : List Char) : Indexes N :=
  ⟨indexes.map.map fun _ index => (index.noteTouched key).unfile key⟩

def nextBuilding (indexes : Indexes N) : Option (List Char × List Char) :=
  (indexes.map.toList.find? fun p => !p.2.isReady).map fun p => (p.1, p.2.field)

def absorbRow (touched : KeySet) (index : SecondaryIndex N) (row : List Char × Json N) :
    SecondaryIndex N :=
  if row.1 ∈ touched then index
  else match getPathValue row.2 index.field with
    | some value => index.file row.1 value
    | none => index

/-- Files a chunk of the reads of a build; `false` abandons the build. -/
def absorbBuild (indexes : Indexes N) (name field : List Char) (rows : List (List Char × Json N)) :
    Indexes N × Bool :=
  match indexes.map[name]? with
  | none => (indexes, false)
  | some index =>
    if index.field = field then
      match index.state with
      | .building touched =>
          (⟨indexes.map.insert name (rows.foldl (absorbRow touched) index)⟩, true)
      | .ready => (indexes, false)
    else (indexes, false)

def finishBuild (indexes : Indexes N) (name field : List Char) : Indexes N :=
  match indexes.map[name]? with
  | none => indexes
  | some index =>
    if index.field = field ∧ index.isReady = false
      then ⟨indexes.map.insert name { index with state := .ready }⟩
    else indexes

end Indexes

structure Choice (N : Type) [Number N] where
  count : ℕ
  name : List Char
  index : SecondaryIndex N
  probe : Probe N

def alwaysWorthIt : ℕ := 64

namespace Indexes

/-- The conjuncts in the order of their paths, and the indexes in the order of their names. -/
def choices (indexes : Indexes N) (filter : QueryFilter.Filter N) : List (Choice N) :=
  (sortBy (fun a b => (strCmp a.1 b.1).isLE) filter.conjuncts).flatMap fun (field, cond) =>
    indexes.map.toList.filterMap fun (name, index) =>
      if index.isReady ∧ index.field = field then
        (probeFor cond).map fun probe => ⟨index.count probe, name, index, probe⟩
      else none

def narrower (best : Option (Choice N)) (c : Choice N) : Option (Choice N) :=
  match best with
  | none => some c
  | some seen => if c.count < seen.count then some c else some seen

/-- `none` is to scan. -/
def select (indexes : Indexes N) (filter : QueryFilter.Filter N) (totalDocs : ℕ) :
    Option Selection :=
  match (indexes.choices filter).foldl narrower none with
  | none => none
  | some best =>
    if alwaysWorthIt < best.count ∧ totalDocs < best.count * 2 then none
    else some ⟨best.name, best.index.field, best.index.candidates best.probe⟩

end Indexes

section Candidates

variable (index : SecondaryIndex N)

theorem mem_foldl_union {key : List Char} (sets : List KeySet) (keys : KeySet) :
    key ∈ sets.foldl (· ∪ ·) keys ↔ key ∈ keys ∨ ∃ holders ∈ sets, key ∈ holders := by
  induction sets generalizing keys with
  | nil => simp
  | cons holders sets ih => simp [ih, ExtTreeSet.mem_union_iff, or_assoc]

theorem mem_candidates {probe : Probe N} {key : List Char} :
    key ∈ index.candidates probe ↔ ∃ holders ∈ index.walk probe, key ∈ holders := by
  rw [SecondaryIndex.candidates, ExtTreeSet.mem_toList, mem_foldl_union]
  simp

theorem exists_mem_ofList {values : List (Json N)} {v w : Json N} (hw : w ∈ values)
    (hcmp : jsonCmp w v = .eq) :
    ∃ u ∈ (ExtTreeSet.ofList values jsonCmp).toList, jsonCmp u v = .eq := by
  let beq : BEq (Json N) := ⟨fun a b => jsonCmp a b = .eq⟩
  have hlawful : LawfulBEqCmp (jsonCmp (N := N)) := ⟨decide_eq_true_iff.symm⟩
  have hv : v ∈ ExtTreeSet.ofList values jsonCmp := by
    rw [ExtTreeSet.mem_ofList, List.contains_iff_exists_mem_beq]
    exact ⟨w, hw, decide_eq_true (OrientedCmp.eq_symm hcmp)⟩
  have hmem := ExtTreeSet.contains_toList.trans (ExtTreeSet.contains_iff_mem.mpr hv)
  rw [List.contains_iff_exists_mem_beq] at hmem
  obtain ⟨u, hu, heq⟩ := hmem
  exact ⟨u, hu, OrientedCmp.eq_symm (of_decide_eq_true heq)⟩

theorem walk_of_admits {probe : Probe N} {v : Json N} (hprobed : probe.admits v = true)
    {holders : KeySet} (hv : index.postings[v]? = some holders) : holders ∈ index.walk probe := by
  cases probe with
  | exact values =>
    obtain ⟨w, hw, hcmp⟩ := List.any_eq_true.mp hprobed
    obtain ⟨u, hu, heq⟩ := exists_mem_ofList hw (of_decide_eq_true hcmp)
    exact List.mem_filterMap.mpr ⟨u, hu, (ExtTreeMap.getElem?_congr heq).trans hv⟩
  | range lower upper =>
    have hspan : rangeIsEmpty lower upper = false := by
      by_contra hempty
      rw [not_admits_of_rangeIsEmpty (Bool.not_eq_false _ ▸ hempty)] at hprobed
      cases hprobed
    obtain ⟨u, hu⟩ := Option.isSome_iff_exists.mp (ExtTreeMap.mem_iff_isSome_getKey?.mp
      (ExtTreeMap.isSome_getElem?_iff_mem.mp (Option.isSome_iff_exists.mpr ⟨holders, hv⟩)))
    have hfind := ExtTreeMap.find?_toList_eq_some_iff_getKey?_eq_some_and_getElem?_eq_some.mpr
      ⟨hu, hv⟩
    have hcmp : jsonCmp u v = .eq := by simpa using List.find?_some hfind
    rw [SecondaryIndex.walk, hspan]
    apply List.mem_map_of_mem (f := Prod.snd) (a := (u, holders))
    exact List.mem_filter.mpr ⟨List.mem_of_find?_eq_some hfind,
      (range_admits_congr hcmp).trans hprobed⟩

theorem holds_of_mem_walk {probe : Probe N} {holders : KeySet} (h : holders ∈ index.walk probe)
    {key : List Char} (hkey : key ∈ holders) : ∃ v, index.Holds key v := by
  cases probe with
  | exact values =>
    obtain ⟨v, -, hv⟩ := List.mem_filterMap.mp h
    exact ⟨v, holders, hv, hkey⟩
  | range lower upper =>
    rw [SecondaryIndex.walk] at h
    split_ifs at h with hempty
    · cases h
    · obtain ⟨⟨v, held⟩, hmem, rfl⟩ := List.mem_map.mp h
      have hget := ExtTreeMap.mem_toList_iff_getKey?_eq_some_and_getElem?_eq_some.mp
        (List.mem_filter.mp hmem).1
      exact ⟨v, held, hget.2, hkey⟩

end Candidates

section Selecting

variable {indexes : Indexes N}

theorem mem_of_foldl_narrower {cs : List (Choice N)} {best : Option (Choice N)} {c : Choice N}
    (h : cs.foldl Indexes.narrower best = some c) : best = some c ∨ c ∈ cs := by
  induction cs generalizing best with
  | nil => exact .inl h
  | cons d cs ih =>
    rcases ih h with hbest | hmem
    · cases best with
      | none => exact .inr (List.mem_cons.mpr (.inl (Option.some.inj hbest).symm))
      | some seen =>
        rw [Indexes.narrower] at hbest
        split_ifs at hbest with hlt
        · exact .inr (List.mem_cons.mpr (.inl (Option.some.inj hbest).symm))
        · exact .inl hbest
    · exact .inr (List.mem_cons_of_mem d hmem)

theorem mem_choices {filter : QueryFilter.Filter N} {c : Choice N}
    (h : c ∈ indexes.choices filter) :
    indexes.map[c.name]? = some c.index ∧ c.index.isReady = true ∧
      ∃ cond, (c.index.field, cond) ∈ filter.conjuncts ∧ probeFor cond = some c.probe := by
  obtain ⟨⟨field, cond⟩, hcond, hc⟩ := List.mem_flatMap.mp h
  obtain ⟨⟨name, index⟩, hindex, hc⟩ := List.mem_filterMap.mp hc
  rw [Option.ite_none_right_eq_some] at hc
  obtain ⟨⟨hready, hfield⟩, hc⟩ := hc
  obtain ⟨probe, hprobe, rfl⟩ := Option.map_eq_some_iff.mp hc
  exact ⟨ExtTreeMap.mem_toList_iff_getElem?_eq_some.mp hindex, hready, cond,
    hfield ▸ mem_sortBy.mp hcond, hprobe⟩

theorem choice_of_select {filter : QueryFilter.Filter N} {totalDocs : ℕ} {sel : Selection}
    (h : indexes.select filter totalDocs = some sel) : ∃ c ∈ indexes.choices filter,
      sel = ⟨c.name, c.index.field, c.index.candidates c.probe⟩ := by
  unfold Indexes.select at h
  split at h
  · cases h
  · next best hbest =>
    split_ifs at h with hmany
    refine ⟨best, ?_, (Option.some.inj h).symm⟩
    rcases mem_of_foldl_narrower hbest with hnone | hmem
    · cases hnone
    · exact hmem

/-- The candidates of a selection ascend, and the index that is chosen files them. -/
theorem candidates_of_select {filter : QueryFilter.Filter N} {totalDocs : ℕ} {sel : Selection}
    (h : indexes.select filter totalDocs = some sel) :
    sel.keys.Pairwise (fun a b => strCmp a b = .lt) ∧
      ∃ index, indexes.map[sel.index]? = some index ∧ index.isReady = true ∧
        ∀ key ∈ sel.keys, ∃ v, index.Holds key v := by
  obtain ⟨c, hc, rfl⟩ := choice_of_select h
  obtain ⟨hindex, hready, -⟩ := mem_choices hc
  refine ⟨ExtTreeSet.ordered_toList, c.index, hindex, hready, fun key hkey => ?_⟩
  obtain ⟨holders, hholders, hmem⟩ := (mem_candidates c.index).mp hkey
  exact holds_of_mem_walk c.index hholders hmem

variable [DecidableEq N]

/-- A match has the field of the index that is chosen and is a candidate when the index files it. -/
theorem matches_of_select {filter : QueryFilter.Filter N} {totalDocs : ℕ} {sel : Selection}
    (h : indexes.select filter totalDocs = some sel) {index : SecondaryIndex N}
    (hindex : indexes.map[sel.index]? = some index) :
    index.isReady = true ∧ index.field = sel.field ∧
      ∀ (key : List Char) (doc : Json N), filter.matches doc = true →
        ∃ v, getPathValue doc sel.field = some v ∧ (index.Holds key v → key ∈ sel.keys) := by
  obtain ⟨c, hc, rfl⟩ := choice_of_select h
  obtain ⟨hmap, hready, cond, hcond, hprobe⟩ := mem_choices hc
  obtain rfl : c.index = index := Option.some.inj (hmap.symm.trans hindex)
  refine ⟨hready, rfl, fun key doc hmatch => ?_⟩
  obtain ⟨v, hval, hprobed⟩ :=
    probeFor_covers hprobe (QueryFilter.Filter.conjuncts_matches hmatch hcond)
  refine ⟨v, hval, ?_⟩
  rintro ⟨holders, hholders, hkey⟩
  exact (mem_candidates c.index).mpr ⟨holders, walk_of_admits c.index hprobed hholders, hkey⟩

/-- The index that is chosen is built. Every document that matches has its field, with a value of
whatever type, and is among the candidates when the index files it under that value. -/
theorem select_complete (indexes : Indexes N) (filter : QueryFilter.Filter N) (totalDocs : ℕ)
    (sel : Selection) (h : indexes.select filter totalDocs = some sel) :
    ∃ index, indexes.map[sel.index]? = some index ∧ index.isReady = true ∧ index.field = sel.field ∧
      ∀ (key : List Char) (doc : Json N), filter.matches doc = true →
        ∃ v, getPathValue doc sel.field = some v ∧ (index.Holds key v → key ∈ sel.keys) := by
  obtain ⟨-, index, hindex, -⟩ := candidates_of_select h
  exact ⟨index, hindex, matches_of_select h hindex⟩

/-- A range over an index that is built from two documents. -/
theorem select_complete_range :
    ∃ index, (((Indexes.seed [⟨['i'], ['n']⟩]).absorbBuild ['i'] ['n']
        [(['a'], .obj [(['n'], .num (1 : ℤ))]), (['b'], .obj [(['n'], .num 2)])]).1.finishBuild
          ['i'] ['n']).map[['i']]? = some index ∧ index.isReady = true ∧ index.field = ['n'] ∧
      ∀ (key : List Char) (doc : Json ℤ),
        (QueryFilter.Filter.mk (.all [.field ['n'] (.mk [.gte (.num 2)])])).matches doc = true →
          ∃ v, getPathValue doc ['n'] = some v ∧ (index.Holds key v → key ∈ [['b']]) :=
  select_complete _ _ 2 ⟨['i'], ['n'], [['b']]⟩ (by decide +kernel)

end Selecting

end DewDB.Secondary
