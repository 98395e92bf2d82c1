import Mathlib.Data.Char
import Mathlib.Data.Finset.Card
import Mathlib.Data.List.Lex
import Mathlib.Data.Prod.Lex
import Std.Data.ExtTreeMap
import DewDB.NewestStamp
import DewDB.StorageEntry
import DewDB.Vote

/-!
# The index catalogue

What indexes and what TTL each collection has, as a fact about the cluster. Every collection's entry
has a version and the node that made it, and catalogues are merged entry by entry: the newer one is
kept. An entry that no node could act on is dropped on the way in.
-/
namespace DewDB.CatalogMerge

open Std (ExtTreeMap)
open NewestStamp StorageEntry ReplicationMeta Vote

structure CollectionIndexes where
  version : ℕ
  updatedBy : NodeId
  indexes : List IndexSpec
  ttlSecs : Option ℕ
  deriving DecidableEq

abbrev IndexCatalog := ExtTreeMap CollectionName CollectionIndexes compare

instance : DecidableEq IndexCatalog :=
  fun a b => decidable_of_iff (a.toList = b.toList) ExtTreeMap.toList_inj

abbrev Stamp := ℕ ×ₗ NodeId

def CollectionIndexes.stamp (e : CollectionIndexes) : Stamp := toLex (e.version, e.updatedBy)

def CollectionIndexes.supersedes (e other : CollectionIndexes) : Bool :=
  decide (other.version < e.version ∨ other.version = e.version ∧ other.updatedBy < e.updatedBy)

def maxCatalogCollections : ℕ := 4096

section Names

def maxCollectionNameLen : ℕ := 128

def maxIndexesPerCollection : ℕ := 8

def maxIndexNameLen : ℕ := 64

def maxFieldPathLen : ℕ := 256

def maxFieldPathSegments : ℕ := 16

def byteLen (s : List Char) : ℕ := (s.map Char.utf8Size).sum

def isWindowsReserved (name : CollectionName) : Bool :=
  let stem := ((name.takeWhile fun c => c ≠ '.').map Char.toLower)
  stem ∈ ["con".toList, "prn".toList, "aux".toList, "nul".toList] ||
    match stem with
    | [a, b, c, d] =>
      ([a, b, c] = "com".toList || [a, b, c] = "lpt".toList) && '1' ≤ d && d ≤ '9'
    | _ => false

def validCollectionName (name : CollectionName) : Bool :=
  !name.isEmpty && byteLen name ≤ maxCollectionNameLen &&
    name.head? ≠ some '.' && name.getLast? ≠ some '.' &&
    !(".tmp".toList).isSuffixOf name && !(".old".toList).isSuffixOf name &&
    !isWindowsReserved name &&
    name.all fun c => c.isLower || c.isDigit || c = '_' || c = '-' || c = '.'

def validIndexName (name : String) : Bool :=
  !name.toList.isEmpty && byteLen name.toList ≤ maxIndexNameLen &&
    name.toList.all fun c => c.isAlphanum || c = '_' || c = '-'

def validFieldPath (field : String) : Bool :=
  let parts := field.toList.splitOn '.'
  !field.toList.isEmpty && byteLen field.toList ≤ maxFieldPathLen &&
    parts.length ≤ maxFieldPathSegments &&
    parts.all fun part => !part.isEmpty && part.head? ≠ some '$'

end Names

inductive EntryError where
  | unusableName
  | tooManyIndexes
  | zeroTtl
  | invalidIndexName
  | invalidFieldPath (name : String)
  | repeatedName (name : String)

/-- `seen` are the names of the definitions before. -/
def checkSpecs (seen : List String) : List IndexSpec → Option EntryError
  | [] => none
  | spec :: specs =>
    if !validIndexName spec.name then some .invalidIndexName
    else if !validFieldPath spec.field then some (.invalidFieldPath spec.name)
    else if spec.name ∈ seen then some (.repeatedName spec.name)
    else checkSpecs (spec.name :: seen) specs

def unaddressableEntry (collection : CollectionName) (entry : CollectionIndexes) :
    Option EntryError :=
  if !validCollectionName collection then some .unusableName
  else if maxIndexesPerCollection < entry.indexes.length then some .tooManyIndexes
  else if entry.ttlSecs = some 0 then some .zeroTtl
  else checkSpecs [] entry.indexes

def addressable (collection : CollectionName) (entry : CollectionIndexes) : Bool :=
  (unaddressableEntry collection entry).isNone

def sanitizeCatalog (catalog : IndexCatalog) : IndexCatalog := catalog.filter addressable

/-- One entry of a merge; the flag says whether anything has moved. -/
def mergeEntry (into : IndexCatalog × Bool) (collection : CollectionName)
    (incoming : CollectionIndexes) : IndexCatalog × Bool :=
  if (unaddressableEntry collection incoming).isSome then into
  else
    match into.1[collection]? with
    | some current =>
      if !incoming.supersedes current then into else (into.1.insert collection incoming, true)
    | none => (into.1.insert collection incoming, true)

def mergeCatalog (into incoming : IndexCatalog) : IndexCatalog × Bool :=
  incoming.foldl mergeEntry (into, false)

theorem supersedes_iff {e other : CollectionIndexes} :
    e.supersedes other = true ↔ other.stamp < e.stamp := by
  simp [CollectionIndexes.supersedes, CollectionIndexes.stamp, Prod.Lex.toLex_lt_toLex]

theorem not_supersedes_self (e : CollectionIndexes) : e.supersedes e = false := by
  rw [Bool.eq_false_iff, ne_eq, supersedes_iff]
  exact lt_irrefl _

section Sanitize

theorem addressable_iff {collection : CollectionName} {entry : CollectionIndexes} :
    addressable collection entry = true ↔ unaddressableEntry collection entry = none := by
  simp [addressable]

theorem getElem?_sanitizeCatalog (catalog : IndexCatalog) (collection : CollectionName) :
    (sanitizeCatalog catalog)[collection]? = catalog[collection]?.filter (addressable collection) :=
  ExtTreeMap.getElem?_filter'

theorem size_sanitizeCatalog_le (catalog : IndexCatalog) :
    (sanitizeCatalog catalog).size ≤ catalog.size :=
  ExtTreeMap.size_filter_le_size

def Clean (catalog : IndexCatalog) : Prop :=
  ∀ c e, catalog[c]? = some e → addressable c e = true

theorem clean_sanitizeCatalog (catalog : IndexCatalog) : Clean (sanitizeCatalog catalog) := by
  intro c e h
  rw [getElem?_sanitizeCatalog] at h
  exact (Option.filter_eq_some_iff.mp h).2

theorem sanitizeCatalog_of_clean {catalog : IndexCatalog} (h : Clean catalog) :
    sanitizeCatalog catalog = catalog := by
  refine ExtTreeMap.ext_getElem? fun c => ?_
  rw [getElem?_sanitizeCatalog]
  cases hc : catalog[c]? with
  | none => rfl
  | some e => exact Option.filter_eq_some_iff.mpr ⟨rfl, h c e hc⟩

end Sanitize

section Merge

def offers (catalog : IndexCatalog) (collection : CollectionName) : List CollectionIndexes :=
  (catalog[collection]?.filter (addressable collection)).toList

theorem getElem?_mergeEntry (into : IndexCatalog × Bool) (k c : CollectionName)
    (e : CollectionIndexes) :
    (mergeEntry into k e).1[c]? =
      if k = c ∧ addressable k e = true then offer CollectionIndexes.stamp into.1[c]? e
      else into.1[c]? := by
  unfold mergeEntry
  by_cases haddr : addressable k e = true
  · have hnone : (unaddressableEntry k e).isSome = false := by simp [addressable_iff.mp haddr]
    rw [hnone]
    by_cases hk : k = c
    · subst hk
      cases hc : into.1[k]? with
      | none => simp [offer, haddr]
      | some current =>
        by_cases hs : e.supersedes current = true
        · simp [offer, haddr, hs, supersedes_iff.mp hs]
        · have hlt : ¬ current.stamp < e.stamp := fun h => hs (supersedes_iff.mpr h)
          simp [offer, haddr, hs, hlt, hc]
    · have hins : (into.1.insert k e)[c]? = into.1[c]? := by
        rw [ExtTreeMap.getElem?_insert]
        simp [hk]
      cases into.1[k]? with
      | none => simp [hk, hins]
      | some current => cases hs : e.supersedes current <;> simp [hk, hs, hins]
  · have hsome : (unaddressableEntry k e).isSome = true := by
      rw [addressable_iff] at haddr
      exact Option.isSome_iff_ne_none.mpr haddr
    simp [hsome, haddr]

/-- The merge of a list of entries, of which a collection has at most one. -/
theorem getElem?_foldl_mergeEntry (entries : List (CollectionName × CollectionIndexes))
    (into : IndexCatalog × Bool) (c : CollectionName) :
    (entries.foldl (fun m p => mergeEntry m p.1 p.2) into).1[c]? =
      newest CollectionIndexes.stamp into.1[c]?
        ((entries.filter fun p => p.1 = c ∧ addressable p.1 p.2 = true).map Prod.snd) := by
  induction entries generalizing into with
  | nil => rfl
  | cons p entries ih =>
    rw [List.foldl_cons, ih, getElem?_mergeEntry]
    by_cases h : p.1 = c ∧ addressable p.1 p.2 = true
    · rw [if_pos h, List.filter_cons_of_pos (by simpa using h), List.map_cons, newest_cons]
    · rw [if_neg h, List.filter_cons_of_neg (by simpa using h)]

theorem filter_toList (catalog : IndexCatalog) (c : CollectionName) :
    ((catalog.toList.filter fun p => p.1 = c ∧ addressable p.1 p.2 = true).map Prod.snd) =
      offers catalog c := by
  cases hc : catalog[c]? with
  | none =>
    have hnil : catalog.toList.filter (fun p => p.1 = c ∧ addressable p.1 p.2 = true) = [] := by
      refine List.filter_eq_nil_iff.mpr fun p hp hpc => ?_
      have hget := ExtTreeMap.mem_toList_iff_getElem?_eq_some.mp
        (show (p.1, p.2) ∈ catalog.toList from hp)
      rw [(of_decide_eq_true hpc).1, hc] at hget
      cases hget
    rw [hnil, offers, hc]
    rfl
  | some e =>
    have hmem : (c, e) ∈ catalog.toList := ExtTreeMap.mem_toList_iff_getElem?_eq_some.mpr hc
    obtain ⟨before, after, hsplit⟩ := List.append_of_mem hmem
    have hdistinct := ExtTreeMap.distinct_keys_toList (t := catalog)
    rw [hsplit, List.pairwise_append, List.pairwise_cons] at hdistinct
    obtain ⟨-, ⟨hafter, -⟩, hbefore⟩ := hdistinct
    have hne : ∀ p ∈ before ++ after, p.1 ≠ c := by
      intro p hp hpc
      rcases List.mem_append.mp hp with hp | hp
      · exact hbefore p hp (c, e) List.mem_cons_self (by simp [hpc])
      · exact hafter p hp (by simp [hpc])
    have hout : ∀ l : List (CollectionName × CollectionIndexes), (∀ p ∈ l, p.1 ≠ c) →
        l.filter (fun p => p.1 = c ∧ addressable p.1 p.2 = true) = [] := by
      intro l hl
      exact List.filter_eq_nil_iff.mpr fun p hp hpc => hl p hp (of_decide_eq_true hpc).1
    rw [hsplit, List.filter_append, hout before fun p hp => hne p (List.mem_append_left _ hp),
      List.nil_append,
      List.filter_cons, hout after fun p hp => hne p (List.mem_append_right _ hp), offers, hc]
    cases h : addressable c e <;> simp [h, Option.filter]

theorem getElem?_mergeCatalog (into incoming : IndexCatalog) (c : CollectionName) :
    (mergeCatalog into incoming).1[c]? =
      newest CollectionIndexes.stamp into[c]? (offers incoming c) := by
  rw [mergeCatalog, ExtTreeMap.foldl_eq_foldl_toList, getElem?_foldl_mergeEntry, filter_toList]

theorem mem_offers {catalog : IndexCatalog} {c : CollectionName} {e : CollectionIndexes} :
    e ∈ offers catalog c ↔ catalog[c]? = some e ∧ addressable c e = true := by
  rw [offers, Option.mem_toList, Option.filter_eq_some_iff]

theorem offers_cases (catalog : IndexCatalog) (c : CollectionName) :
    offers catalog c = [] ∨ ∃ e, offers catalog c = [e] := by
  unfold offers
  cases catalog[c]?.filter (addressable c) with
  | none => exact .inl rfl
  | some e => exact .inr ⟨e, rfl⟩

theorem le_mergeCatalog {into incoming : IndexCatalog} {c : CollectionName} {e : CollectionIndexes}
    (h : into[c]? = some e) :
    ∃ e', (mergeCatalog into incoming).1[c]? = some e' ∧ e.stamp ≤ e'.stamp := by
  rw [getElem?_mergeCatalog, h]
  cases hn : newest CollectionIndexes.stamp (some e) (offers incoming c) with
  | none => simp [newest_eq_none] at hn
  | some r => exact ⟨r, rfl, (newest_spec hn).2.1 e rfl⟩

theorem le_mergeCatalog_right {into incoming : IndexCatalog} {c : CollectionName}
    {e : CollectionIndexes} (h : incoming[c]? = some e) (haddr : addressable c e = true) :
    ∃ e', (mergeCatalog into incoming).1[c]? = some e' ∧ e.stamp ≤ e'.stamp := by
  have hmem : e ∈ offers incoming c := mem_offers.mpr ⟨h, haddr⟩
  rw [getElem?_mergeCatalog]
  cases hn : newest CollectionIndexes.stamp into[c]? (offers incoming c) with
  | none =>
    rw [(newest_eq_none.mp hn).2] at hmem
    cases hmem
  | some r => exact ⟨r, rfl, (newest_spec hn).2.2 e hmem⟩

theorem mem_mergeCatalog {into incoming : IndexCatalog} {c : CollectionName} {e : CollectionIndexes}
    (h : (mergeCatalog into incoming).1[c]? = some e) :
    into[c]? = some e ∨ incoming[c]? = some e ∧ addressable c e = true := by
  rw [getElem?_mergeCatalog] at h
  exact (newest_spec h).1.imp_right mem_offers.mp

theorem Clean.merge {into : IndexCatalog} (h : Clean into) (incoming : IndexCatalog) :
    Clean (mergeCatalog into incoming).1 := by
  intro c e he
  rcases mem_mergeCatalog he with he | he
  · exact h c e he
  · exact he.2

theorem mergeCatalog_twice (into incoming : IndexCatalog) :
    (mergeCatalog (mergeCatalog into incoming).1 incoming).1 = (mergeCatalog into incoming).1 := by
  refine ExtTreeMap.ext_getElem? fun c => ?_
  rw [getElem?_mergeCatalog, getElem?_mergeCatalog]
  rcases offers_cases incoming c with h | ⟨e, h⟩
  · rw [h]
    rfl
  · rw [h]
    obtain ⟨r, hr, hle, -⟩ := @le_offer _ _ _ CollectionIndexes.stamp into[c]? e
    simp only [newest_cons, newest_nil, hr]
    exact if_neg (not_lt.mpr hle)

theorem mergeEntry_of_not_moved {into : IndexCatalog × Bool} {k : CollectionName}
    {e : CollectionIndexes} (h : (mergeEntry into k e).2 = false) : mergeEntry into k e = into := by
  unfold mergeEntry at h ⊢
  split at h
  · next hbad => rw [if_pos hbad]
  · next hgood =>
    rw [if_neg hgood]
    split at h
    · split at h
      · next hs => rw [if_pos hs]
      · cases h
    · cases h

theorem foldl_mergeEntry_of_not_moved (entries : List (CollectionName × CollectionIndexes))
    (into : IndexCatalog × Bool)
    (h : (entries.foldl (fun m p => mergeEntry m p.1 p.2) into).2 = false) :
    entries.foldl (fun m p => mergeEntry m p.1 p.2) into = into := by
  induction entries generalizing into with
  | nil => rfl
  | cons p entries ih =>
    rw [List.foldl_cons] at h ⊢
    have hrest := ih _ h
    rw [hrest] at h ⊢
    exact mergeEntry_of_not_moved h

theorem mergeCatalog_of_not_moved {into incoming : IndexCatalog}
    (h : (mergeCatalog into incoming).2 = false) : (mergeCatalog into incoming).1 = into := by
  rw [mergeCatalog, ExtTreeMap.foldl_eq_foldl_toList] at h ⊢
  rw [foldl_mergeEntry_of_not_moved _ _ h]

end Merge

section Size

def names (catalog : IndexCatalog) : Finset CollectionName := catalog.keys.toFinset

theorem mem_names {catalog : IndexCatalog} {c : CollectionName} :
    c ∈ names catalog ↔ ∃ e, catalog[c]? = some e := by
  rw [names, List.mem_toFinset, ExtTreeMap.mem_keys, ← ExtTreeMap.isSome_getElem?_iff_mem,
    Option.isSome_iff_exists]

theorem card_names (catalog : IndexCatalog) : (names catalog).card = catalog.size := by
  have hnodup : catalog.keys.Nodup :=
    ExtTreeMap.distinct_keys.imp fun h hab => h (by simp [hab])
  rw [names, List.toFinset_card_of_nodup hnodup, ExtTreeMap.length_keys]

/-- A merge names what either catalogue names, as far as nodes can act on it. -/
theorem names_mergeCatalog (into incoming : IndexCatalog) :
    names (mergeCatalog into incoming).1 = names into ∪ names (sanitizeCatalog incoming) := by
  ext c
  rw [Finset.mem_union, mem_names, mem_names, mem_names]
  constructor
  · rintro ⟨e, he⟩
    rcases mem_mergeCatalog he with he | ⟨he, haddr⟩
    · exact .inl ⟨e, he⟩
    · refine .inr ⟨e, ?_⟩
      rw [getElem?_sanitizeCatalog, he]
      exact Option.filter_eq_some_iff.mpr ⟨rfl, haddr⟩
  · rintro (⟨e, he⟩ | ⟨e, he⟩)
    · obtain ⟨e', he', -⟩ := @le_mergeCatalog _ incoming _ _ he
      exact ⟨e', he'⟩
    · rw [getElem?_sanitizeCatalog, Option.filter_eq_some_iff] at he
      obtain ⟨e', he', -⟩ := @le_mergeCatalog_right into _ _ _ he.1 he.2
      exact ⟨e', he'⟩

theorem size_mergeCatalog (into incoming : IndexCatalog) :
    (mergeCatalog into incoming).1.size = (names into ∪ names (sanitizeCatalog incoming)).card := by
  rw [← card_names, names_mergeCatalog]

end Size

end DewDB.CatalogMerge
