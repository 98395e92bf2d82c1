import DewDB.IndexBuilds

/-!
# An index that is ready files exactly what it should

While an index is built, the keys that a write has touched are filed as their documents say, and so
is every other key that is filed at all. A build adds the keys that it has passed. Its reads stay
good as long as the index it files into is the one that noted every write since they were made,
which a definition that names the same index and field again, in the middle of the build, takes
away.
-/
namespace DewDB.IndexBuilds

open JsonValue Secondary TransitionSystem Std

variable {N : Type} [Number N]

def HasValue (docs : ExtTreeMap Key (Json N) strCmp) (field : List Char) (key : Key)
    (v : Json N) : Prop :=
  ∃ doc w, docs[key]? = some doc ∧ getPathValue doc field = some w ∧ jsonCmp w v = .eq

def Filed (docs : ExtTreeMap Key (Json N) strCmp) (index : SecondaryIndex N) (key : Key) : Prop :=
  ∀ v, index.Holds key v ↔ HasValue docs index.field key v

/-- A write has filed the key since the build began, or the index takes every write. -/
def Touched (index : SecondaryIndex N) (key : Key) : Prop :=
  match index.state with
  | .building touched => key ∈ touched
  | .ready => True

structure IndexOk (docs : ExtTreeMap Key (Json N) strCmp) (index : SecondaryIndex N) : Prop where
  touched : ∀ key, Touched index key → Filed docs index key
  held : ∀ key v, index.Holds key v → HasValue docs index.field key v

def Progress (docs : ExtTreeMap Key (Json N) strCmp) (index : SecondaryIndex N) : Phase N → Prop
  | .walking cursor => ∀ key, (cursor.any fun c => (strCmp key c).isLE) = true →
      Filed docs index key
  | .reading cursor short todo rows =>
    (∀ row ∈ rows, Touched index row.1 ∨ docs[row.1]? = some row.2) ∧
      ∀ key, short = true ∨ (cursor.any fun c => (strCmp key c).isLE) = true →
        Filed docs index key ∨ key ∈ todo ∨ ∃ row ∈ rows, row.1 = key
  | .finishing => ∀ key, Filed docs index key
  | .ended => True

/-- What a write and a chunk of a build do to an index, as a build that is under way sees it. -/
structure Follows (docs : ExtTreeMap Key (Json N) strCmp) (index : SecondaryIndex N)
    (docs' : ExtTreeMap Key (Json N) strCmp) (index' : SecondaryIndex N) : Prop where
  field : index'.field = index.field
  building : index'.isReady = false → index.isReady = false
  filed : ∀ key, Filed docs index key → Filed docs' index' key
  touched : ∀ key, Touched index key → Touched index' key
  docs : ∀ key, docs'[key]? = docs[key]? ∨ Touched index' key

section Indexes

variable {docs docs' : ExtTreeMap Key (Json N) strCmp} {index index' : SecondaryIndex N} {key : Key}

theorem Follows.refl (docs : ExtTreeMap Key (Json N) strCmp) (index : SecondaryIndex N) :
    Follows docs index docs index :=
  ⟨rfl, fun hb => hb, fun _ hf => hf, fun _ ht => ht, fun _ => .inl rfl⟩

theorem IndexOk.filed_absent (h : IndexOk docs index) (hkey : docs[key]? = none) :
    Filed docs index key := by
  intro v
  refine ⟨h.held key v, ?_⟩
  rintro ⟨doc, w, hdoc, -⟩
  rw [hkey] at hdoc
  cases hdoc

theorem Progress.follow {phase : Phase N} (h : Progress docs index phase)
    (hf : Follows docs index docs' index') : Progress docs' index' phase := by
  cases phase with
  | walking cursor => exact fun key hkey => hf.filed key (h key hkey)
  | reading cursor short todo rows =>
    refine ⟨fun row hrow => ?_, fun key hkey => (h.2 key hkey).imp_left (hf.filed key)⟩
    rcases h.1 row hrow with htouched | hdoc
    · exact .inl (hf.touched row.1 htouched)
    · rcases hf.docs row.1 with hsame | htouched
      · exact .inr (hsame.trans hdoc)
      · exact .inl htouched
  | finishing => exact fun key => hf.filed key (h key)
  | ended => trivial

theorem IndexOk.rewritten (h : IndexOk docs index) (hfield : index'.field = index.field)
    (hready : index'.isReady = index.isReady)
    (htouched : ∀ k, Touched index' k ↔ k = key ∨ Touched index k)
    (hheld : ∀ k v, index'.Holds k v ↔ k = key ∧ HasValue docs' index.field key v ∨
      k ≠ key ∧ index.Holds k v)
    (hdocs : ∀ k, k ≠ key → docs'[k]? = docs[k]?) :
    IndexOk docs' index' ∧ Follows docs index docs' index' := by
  have hkey : Filed docs' index' key := by
    intro v
    rw [hheld, hfield]
    simp
  have hother : ∀ k, k ≠ key → ∀ v, (index'.Holds k v ↔ index.Holds k v) ∧
      (HasValue docs' index'.field k v ↔ HasValue docs index.field k v) := by
    intro k hk v
    rw [hheld, hfield]
    simp only [HasValue, hdocs k hk]
    simp [hk]
  have hfiled : ∀ k, Filed docs index k → Filed docs' index' k := by
    intro k hk
    by_cases heq : k = key
    · exact heq ▸ hkey
    · exact fun v => (hother k heq v).1.trans ((hk v).trans (hother k heq v).2.symm)
  constructor
  · constructor
    · intro k hk
      rcases (htouched k).mp hk with rfl | hk
      · exact hkey
      · exact hfiled k (h.touched k hk)
    · intro k v hv
      by_cases heq : k = key
      · exact ((heq ▸ hkey) v).mp hv
      · exact (hother k heq v).2.mpr (h.held k v ((hother k heq v).1.mp hv))
  · constructor
    · exact hfield
    · exact fun hb => hready ▸ hb
    · exact hfiled
    · exact fun k hk => (htouched k).mpr (.inr hk)
    · intro k
      by_cases heq : k = key
      · exact .inr ((htouched k).mpr (.inl heq))
      · exact .inl (hdocs k heq)

theorem touched_noteTouched (k : Key) : Touched
    (index.noteTouched key) k ↔ k = key ∨ Touched index k := by
  unfold Touched SecondaryIndex.noteTouched
  cases hstate : index.state with
  | ready => simp [hstate]
  | building touched =>
    dsimp only
    rw [ExtTreeSet.mem_insert, strCmp_eq_iff, @eq_comm _ key]

theorem isReady_noteTouched : (index.noteTouched key).isReady = index.isReady := by
  unfold SecondaryIndex.isReady SecondaryIndex.noteTouched
  cases hstate : index.state <;> simp [hstate]

theorem toPostings_noteTouched : (index.noteTouched key).toPostings = index.toPostings := by
  unfold SecondaryIndex.noteTouched
  cases index.state <;> rfl

theorem field_noteTouched : (index.noteTouched key).field = index.field := by
  unfold SecondaryIndex.noteTouched
  cases index.state <;> rfl

theorem hasValue_insert {doc : Json N} {field : List Char} {v : Json N} :
    HasValue (docs.insert key doc) field key v ↔
      ∃ w, getPathValue doc field = some w ∧ jsonCmp w v = .eq := by
  simp [HasValue]

def filedAs (index : SecondaryIndex N) (key : Key) : Option (Json N) → SecondaryIndex N
  | some value => (index.noteTouched key).file key value
  | none => (index.noteTouched key).unfile key

theorem holds_filedAs (value : Option (Json N)) (k : Key) (v : Json N) :
    (filedAs index key value).Holds k v ↔
    k = key ∧ (∃ w, value = some w ∧ jsonCmp w v = .eq) ∨ k ≠ key ∧ index.Holds k v := by
  cases value with
  | none =>
    have hunfile : (filedAs index key none).toPostings =
      (index.noteTouched key).toPostings.unfile key := rfl
    rw [hunfile, toPostings_noteTouched, Postings.holds_unfile]
    simp
  | some w =>
    have hfile : (filedAs index key (some w)).toPostings =
      (index.noteTouched key).toPostings.file key w := rfl
    rw [hfile, toPostings_noteTouched, Postings.holds_file]
    simp

theorem IndexOk.filedAs (h : IndexOk docs index) (value : Option (Json N))
    (hvalue : ∀ v, HasValue docs' index.field key v ↔ ∃ w, value = some w ∧ jsonCmp w v = .eq)
    (hdocs : ∀ k, k ≠ key → docs'[k]? = docs[k]?) :
    IndexOk docs' (filedAs index key value) ∧ Follows docs index docs'
      (filedAs index key value) := by
  have hstate : (IndexBuilds.filedAs index key value).state = (index.noteTouched key).state := by
    cases value <;> rfl
  have hnoted : (IndexBuilds.filedAs index key value).field = (index.noteTouched key).field := by
    cases value <;> rfl
  apply h.rewritten (hnoted.trans field_noteTouched)
  · calc (IndexBuilds.filedAs index key value).isReady
        = (index.noteTouched key).isReady := by
          rw [SecondaryIndex.isReady, hstate, SecondaryIndex.isReady]
      _ = index.isReady := isReady_noteTouched
  · intro k
    rw [← touched_noteTouched, Touched, hstate, Touched]
  · intro k v
    rw [holds_filedAs, hvalue]
  · exact hdocs

end Indexes

section Chunks

variable {docs : ExtTreeMap Key (Json N) strCmp} {index : SecondaryIndex N} {touched : KeySet}

theorem absorbRow_ok {row : Key × Json N} (hstate : index.state = .building touched)
    (h : IndexOk docs index) (hrow : Touched index row.1 ∨ docs[row.1]? = some row.2) :
    (Indexes.absorbRow touched index row).state = .building touched ∧
      IndexOk docs (Indexes.absorbRow touched index row) ∧
      Follows docs index docs (Indexes.absorbRow touched index row) ∧
      Filed docs (Indexes.absorbRow touched index row) row.1 := by
  have htouched : ∀ k, Touched index k ↔ k ∈ touched := by
    intro k
    rw [Touched, hstate]
  unfold Indexes.absorbRow
  split_ifs with hmem
  · exact ⟨hstate, h, .refl docs index, h.touched row.1 ((htouched row.1).mpr hmem)⟩
  · have hdoc : docs[row.1]? = some row.2 := hrow.resolve_left fun ht =>
      hmem ((htouched row.1).mp ht)
    have hvalue : ∀ v, HasValue docs index.field row.1 v ↔
        ∃ w, getPathValue row.2 index.field = some w ∧ jsonCmp w v = .eq := by
      intro v
      simp [HasValue, hdoc]
    cases hpath : getPathValue row.2 index.field with
    | none =>
      refine ⟨hstate, h, .refl docs index, fun v => ?_⟩
      rw [hvalue, hpath]
      refine ⟨fun hv => ?_, fun ⟨w, hw, _⟩ => nomatch hw⟩
      obtain ⟨w, hw, -⟩ := (hvalue v).mp (h.held row.1 v hv)
      rw [hpath] at hw
      cases hw
    | some value =>
      have hheld : ∀ k v, (index.file row.1 value).Holds k v ↔
          k = row.1 ∧ HasValue docs index.field row.1 v ∨ k ≠ row.1 ∧ index.Holds k v := by
        intro k v
        have hfile : (index.file row.1 value).toPostings = index.toPostings.file row.1 value := rfl
        rw [hvalue, hpath, hfile, Postings.holds_file]
        simp
      have hkey : Filed docs (index.file row.1 value) row.1 := by
        intro v
        rw [hheld]
        simp [SecondaryIndex.file]
      have hfiled : ∀ k, Filed docs index k → Filed docs (index.file row.1 value) k := by
        intro k hk
        by_cases heq : k = row.1
        · exact heq ▸ hkey
        · intro v
          apply Iff.trans _ (hk v)
          rw [hheld]
          simp [heq]
      refine ⟨hstate, ⟨fun k hk => hfiled k (h.touched k hk), fun k v hv => ?_⟩,
        ⟨rfl, fun hb => hb, hfiled, fun _ ht => ht, fun _ => .inl rfl⟩, hkey⟩
      rcases (hheld k v).mp hv with ⟨rfl, hval⟩ | ⟨-, hold⟩
      · exact hval
      · exact h.held k v hold

theorem Follows.trans {docs' docs'' : ExtTreeMap Key (Json N) strCmp}
    {index' index'' : SecondaryIndex N}
    (h : Follows docs index docs' index') (h' : Follows docs' index' docs'' index'') :
    Follows docs index docs'' index'' := by
  constructor
  · exact h'.field.trans h.field
  · exact fun hb => h.building (h'.building hb)
  · exact fun k hk => h'.filed k (h.filed k hk)
  · exact fun k hk => h'.touched k (h.touched k hk)
  · intro k
    rcases h'.docs k with hsame | htouched
    · exact (h.docs k).imp hsame.trans (h'.touched k)
    · exact .inr htouched

theorem absorbRows_ok {rows : List (Key × Json N)} (hstate : index.state = .building touched)
    (h : IndexOk docs index)
    (hrows : ∀ row ∈ rows, Touched index row.1 ∨ docs[row.1]? = some row.2) :
    IndexOk docs (rows.foldl (Indexes.absorbRow touched) index) ∧
      Follows docs index docs (rows.foldl (Indexes.absorbRow touched) index) ∧
      ∀ row ∈ rows, Filed docs (rows.foldl (Indexes.absorbRow touched) index) row.1 := by
  induction rows generalizing index with
  | nil =>
    exact ⟨h, .refl docs index, fun _ hrow => nomatch hrow⟩
  | cons row rows ih =>
    obtain ⟨hstate', hok, hfollows, hkey⟩ := absorbRow_ok hstate h (hrows row List.mem_cons_self)
    have hrest : ∀ r ∈ rows, Touched (Indexes.absorbRow touched index row) r.1 ∨
      docs[r.1]? = some r.2 := fun r hr =>
      (hrows r (List.mem_cons_of_mem row hr)).imp_left (hfollows.touched r.1)
    obtain ⟨hall, hfollows', hkeys⟩ := ih hstate' hok hrest
    refine ⟨hall, hfollows.trans hfollows', fun r hr => ?_⟩
    rcases List.mem_cons.mp hr with rfl | hr
    · exact hfollows'.filed _ hkey
    · exact hkeys r hr

variable {s : Store N} {cursor : Option Key} {chunk : ℕ}

theorem mem_behind {key : Key} : key ∈ ((s.docs.toList.map Prod.fst).filter fun k =>
    cursor.all fun c => strCmp c k = .lt) ↔
      (∃ doc, s.docs[key]? = some doc) ∧ (cursor.any fun c => (strCmp key c).isLE) = false := by
  have hcmp : (cursor.all fun c => decide (strCmp c key = .lt)) = !(cursor.any fun c =>
    (strCmp key c).isLE) := by
    cases cursor with
    | none => rfl
    | some c =>
      rw [Option.all_some, Option.any_some, @OrientedCmp.eq_swap _ strCmp _ c]
      cases strCmp key c <;> rfl
  rw [List.mem_filter, hcmp, Bool.not_eq_true']
  apply and_congr_left
  intro _
  constructor
  · intro h
    obtain ⟨⟨k, doc⟩, hp, rfl⟩ := List.mem_map.mp h
    exact ⟨doc, ExtTreeMap.mem_toList_iff_getElem?_eq_some.mp hp⟩
  · rintro ⟨doc, hdoc⟩
    exact List.mem_map.mpr ⟨(key, doc), ExtTreeMap.mem_toList_iff_getElem?_eq_some.mpr hdoc, rfl⟩

/-- A page holds the keys behind the cursor up to its last, and all of them when it is short. -/
theorem mem_pageBehind {key : Key} {doc : Json N} (hdoc : s.docs[key]? = some doc)
    (hbehind : (cursor.any fun c => (strCmp key c).isLE) = false)
    (hupto : (s.pageBehind cursor chunk).length < chunk ∨
      ((s.pageBehind cursor chunk).getLast?.any fun c => (strCmp key c).isLE) = true) :
    key ∈ s.pageBehind cursor chunk := by
  have hmem := (mem_behind (s := s)).mpr ⟨⟨doc, hdoc⟩, hbehind⟩
  have hsorted : ((s.docs.toList.map Prod.fst).filter fun k => cursor.all fun c =>
    strCmp c k = .lt).Pairwise
      fun a b => strCmp a b = .lt :=
    List.Pairwise.sublist List.filter_sublist (List.pairwise_map.mpr ExtTreeMap.ordered_keys_toList)
  unfold Store.pageBehind at hupto ⊢
  generalize ((s.docs.toList.map Prod.fst).filter fun k => cursor.all fun c =>
    strCmp c k = .lt) = keys at *
  rcases hupto with hshort | hlast
  · rw [List.length_take] at hshort
    rwa [List.take_of_length_le (by omega)]
  · obtain ⟨last, hlast, hle⟩ : ∃ last, (keys.take chunk).getLast? = some last ∧
      (strCmp key last).isLE = true := by
      cases hl : (keys.take chunk).getLast? with
      | none =>
        rw [hl] at hlast
        cases hlast
      | some last =>
        rw [hl] at hlast
        exact ⟨last, rfl, hlast⟩
    rw [← List.take_append_drop chunk keys] at hmem hsorted
    rcases List.mem_append.mp hmem with hin | hout
    · exact hin
    · have hlt := (List.pairwise_append.mp hsorted).2.2 last (List.mem_of_getLast? hlast) key hout
      rw [OrientedCmp.gt_of_lt hlt] at hle
      cases hle

theorem Progress.page (hchunk : 0 < chunk) (hok : IndexOk s.docs index)
    (h : Progress s.docs index (.walking cursor)) :
    (s.pageBehind cursor chunk = [] → Progress s.docs index .finishing) ∧
      Progress s.docs index (.reading (s.pageBehind cursor chunk).getLast?
        ((s.pageBehind cursor chunk).length < chunk) (s.pageBehind cursor chunk) []) := by
  have hcover : ∀ key, (s.pageBehind cursor chunk).length < chunk ∨
      ((s.pageBehind cursor chunk).getLast?.any fun c => (strCmp key c).isLE) = true →
        Filed s.docs index key ∨ key ∈ s.pageBehind cursor chunk := by
    intro key hupto
    cases hdoc : s.docs[key]? with
    | none => exact .inl (hok.filed_absent hdoc)
    | some doc =>
      cases hbehind : (cursor.any fun c => (strCmp key c).isLE) with
      | true => exact .inl (h key hbehind)
      | false => exact .inr (mem_pageBehind hdoc hbehind hupto)
  constructor
  · intro hnil key
    rcases hcover key (.inl (by rw [hnil]; exact hchunk)) with hfiled | hmem
    · exact hfiled
    · rw [hnil] at hmem
      cases hmem
  · refine ⟨fun row hrow => (nomatch hrow), fun key hkey => ?_⟩
    exact (hcover key (hkey.imp_left of_decide_eq_true)).imp_right .inl

theorem Progress.read {short : Bool} {key : Key} {todo : List Key} {rows : List (Key × Json N)}
    (hok : IndexOk docs index)
    (h : Progress docs index (.reading cursor short (key :: todo) rows)) :
    (∀ doc, docs[key]? = some doc →
      Progress docs index (.reading cursor short todo (rows ++ [(key, doc)]))) ∧
      (docs[key]? = none → Progress docs index (.reading cursor short todo rows)) := by
  constructor
  · intro doc hdoc
    refine ⟨fun row hrow => ?_, fun k hk => ?_⟩
    · rcases List.mem_append.mp hrow with hrow | hrow
      · exact h.1 row hrow
      · obtain rfl := List.mem_singleton.mp hrow
        exact .inr hdoc
    · rcases h.2 k hk with hfiled | htodo | ⟨row, hrow, hkey⟩
      · exact .inl hfiled
      · rcases List.mem_cons.mp htodo with rfl | htodo
        · exact .inr (.inr ⟨_, List.mem_append_right rows (List.mem_singleton_self _), rfl⟩)
        · exact .inr (.inl htodo)
      · exact .inr (.inr ⟨row, List.mem_append_left _ hrow, hkey⟩)
  · intro hnone
    refine ⟨h.1, fun k hk => ?_⟩
    rcases h.2 k hk with hfiled | htodo | hrow
    · exact .inl hfiled
    · rcases List.mem_cons.mp htodo with rfl | htodo
      · exact .inl (hok.filed_absent hnone)
      · exact .inr (.inl htodo)
    · exact .inr (.inr hrow)

/-- A build that has filed a chunk has passed its keys, and every key when the page was short. -/
theorem Progress.absorb {short : Bool} {rows : List (Key × Json N)}
    (hstate : index.state = .building touched)
    (hok : IndexOk docs index) (h : Progress docs index (.reading cursor short [] rows)) :
    Progress docs (rows.foldl (Indexes.absorbRow touched) index)
      (if short then .finishing else .walking cursor) := by
  obtain ⟨-, hfollows, hkeys⟩ := absorbRows_ok hstate hok h.1
  have hfiled : ∀ key, short = true ∨ (cursor.any fun c => (strCmp key c).isLE) = true →
      Filed docs (rows.foldl (Indexes.absorbRow touched) index) key := by
    intro key hkey
    rcases h.2 key hkey with hfiled | htodo | ⟨row, hrow, rfl⟩
    · exact hfollows.filed key hfiled
    · cases htodo
    · exact hkeys row hrow
  cases short with
  | true => exact fun key => hfiled key (.inl rfl)
  | false => exact fun key hkey => hfiled key (.inr hkey)

end Chunks

section Stores

variable {s s' : Store N}

/-- The build has come as far as it takes itself to be, if the index it is for is still being built.
-/
def BuildOk (s : Store N) (b : Build N) : Prop :=
  ∀ index, s.indexes.map[b.name]? = some index → b.field = index.field → index.isReady = false →
    Progress s.docs index b.phase

structure Core (s : Store N) : Prop where
  distinct : Distinct s.committedIndexes
  fields : ∀ name, (s.indexes.map[name]?).map SecondaryIndex.field = fieldOf s.committedIndexes name
  indexes : ∀ (name : List Char) (index : SecondaryIndex N), s.indexes.map[name]? = some index →
    IndexOk s.docs index
  builds : ∀ b ∈ s.builds, BuildOk s b

/-- Every staged put has what the definitions below it ask of its document. -/
def Staged : List IndexSpec → List (StagedEffect N) → Prop
  | _, [] => True
  | specs, e :: es =>
    (∀ key doc indexed, e = .put key doc indexed → indexed = indexValues specs doc) ∧
      Staged (redefine specs e) es

structure Inv (s : Store N) : Prop where
  core : Core s
  staged : Staged s.committedIndexes s.pending

def begun : Phase N → Bool
  | .walking none => false
  | .ended => false
  | _ => true

/-- An append stages a put under the definitions that are committed, though it has read them before.
No definition commits for the name and field of a build that has begun to read. -/
def Undisturbed (s : Store N) : Op N → Prop
  | .stageAppended (.put _ _) => ∀ specs, s.appending = some specs →
      overlayIndexSpecs specs s.pending = overlayIndexSpecs s.committedIndexes s.pending
  | .applyCommitted n => ∀ spec, StagedEffect.defineIndex (.create spec) ∈ s.pending.take n →
      ∀ b ∈ s.builds, b.name = spec.name → b.field = spec.field → begun b.phase = false
  | _ => True

omit [Number N] in
theorem staged_append {specs : List IndexSpec} {es es' : List (StagedEffect N)} :
    Staged specs (es ++ es') ↔ Staged specs es ∧ Staged (overlayIndexSpecs specs es) es' := by
  induction es generalizing specs with
  | nil => exact ⟨fun h => ⟨trivial, h⟩, fun h => h.2⟩
  | cons e es ih =>
    rw [List.cons_append, Staged, Staged, ih, and_assoc]
    rfl

theorem progress_of_not_begun {docs : ExtTreeMap Key (Json N) strCmp} {index : SecondaryIndex N}
    {phase : Phase N} (h : begun phase = false) : Progress docs index phase := by
  cases phase with
  | walking cursor =>
    cases cursor with
    | none => exact fun key hkey => (nomatch hkey)
    | some c => cases h
  | reading cursor short todo rows => cases h
  | finishing => cases h
  | ended => trivial

theorem Core.mapped (h : Core s) (f : List Char → SecondaryIndex N → SecondaryIndex N)
    (hmap : ∀ name, s'.indexes.map[name]? = (s.indexes.map[name]?).map (f name))
    (hf : ∀ (name : List Char) (index : SecondaryIndex N), s.indexes.map[name]? = some index →
      IndexOk s'.docs (f name index) ∧ Follows s.docs index s'.docs (f name index))
    (hcommitted : s'.committedIndexes = s.committedIndexes)
    (hbuilds : ∀ b ∈ s'.builds, b ∈ s.builds ∨ BuildOk s' b) : Core s' := by
  constructor
  · rw [hcommitted]
    exact h.distinct
  · intro name
    rw [hcommitted, ← h.fields, hmap]
    cases hindex : s.indexes.map[name]? with
    | none => rfl
    | some index => exact congrArg some (hf name index hindex).2.field
  · intro name index' hindex'
    rw [hmap] at hindex'
    obtain ⟨index, hindex, rfl⟩ := Option.map_eq_some_iff.mp hindex'
    exact (hf name index hindex).1
  · intro b hb
    rcases hbuilds b hb with hold | hnew
    · intro index' hindex' hfield hready
      rw [hmap] at hindex'
      obtain ⟨index, hindex, rfl⟩ := Option.map_eq_some_iff.mp hindex'
      obtain ⟨-, hfollows⟩ := hf b.name index hindex
      exact (h.builds b hold index hindex (hfield.trans hfollows.field)
        (hfollows.building hready)).follow hfollows
    · exact hnew

theorem Core.setBuild (h : Core s) (i : ℕ) {b : Build N} (hb : BuildOk s b) :
    Core (s.setBuild i b) := by
  refine ⟨h.distinct, h.fields, h.indexes, fun b' hb' => ?_⟩
  rcases List.mem_or_eq_of_mem_set hb' with hold | rfl
  · exact h.builds b' hold
  · exact hb

theorem put_map (indexes : Indexes N) (key : Key) (values : List (List Char × Json N))
    (name : List Char) :
    (indexes.put key values).map[name]? = (indexes.map[name]?).map fun index =>
      filedAs index key (values.lookup name) := by
  rw [Indexes.put, ExtTreeMap.getElem?_map]
  cases values.lookup name <;> rfl

theorem remove_map (indexes : Indexes N) (key : Key) (name : List Char) :
    (indexes.remove key).map[name]? = (indexes.map[name]?).map fun index =>
      filedAs index key none :=
  ExtTreeMap.getElem?_map

theorem indexOk_building (docs : ExtTreeMap Key (Json N) strCmp) (field : List Char) :
    IndexOk docs (.building field) := by
  have hnone : ∀ key v, ¬(SecondaryIndex.building field : SecondaryIndex N).Holds key v := by
    rintro key v ⟨holders, hv, -⟩
    have hempty : (∅ : ExtTreeMap (Json N) KeySet jsonCmp)[v]? = none := ExtTreeMap.getElem?_empty
    exact nomatch hempty.symm.trans hv
  constructor
  · intro key hkey
    exact absurd hkey ExtTreeSet.not_mem_empty
  · exact fun key v hv => absurd hv (hnone key v)

theorem Core.applyEffect (h : Core s) {e : StagedEffect N}
    (hput : ∀ key doc indexed, e = .put key doc indexed →
      indexed = indexValues s.committedIndexes doc)
    (hfree : ∀ spec, e = .defineIndex (.create spec) → ∀ b ∈ s.builds, b.name = spec.name →
      b.field = spec.field → begun b.phase = false) : Core (s.applyEffect e) := by
  cases e with
  | put key doc indexed =>
    refine h.mapped (fun name index => filedAs index key (indexed.lookup name))
      (put_map _ _ _) ?_ rfl fun b hb => .inl hb
    intro name index hindex
    apply (h.indexes name index hindex).filedAs
    · intro v
      have hfield : fieldOf s.committedIndexes name = some index.field := by
        rw [← h.fields, hindex]; rfl
      have hlookup : indexed.lookup name = getPathValue doc index.field := by
        rw [hput key doc indexed rfl, lookup_indexValues h.distinct, hfield, Option.bind_some]
      rw [hlookup]
      exact hasValue_insert
    · intro k hk
      exact (ExtTreeMap.getElem?_insert).trans (if_neg fun heq =>
        hk ((strCmp_eq_iff _ _).mp heq).symm)
  | remove key =>
    refine h.mapped (fun name index => filedAs index key none) (remove_map _ _) ?_ rfl
      fun b hb => .inl hb
    intro name index hindex
    apply (h.indexes name index hindex).filedAs
    · intro v
      simp [HasValue, Store.applyEffect]
    · intro k hk
      exact (ExtTreeMap.getElem?_erase).trans (if_neg fun heq =>
        hk ((strCmp_eq_iff _ _).mp heq).symm)
  | nothing => exact h
  | clear =>
    have hnone : ∀ name : List Char, (s.applyEffect .clear).indexes.map[name]? = none := fun _ =>
      ExtTreeMap.getElem?_empty
    constructor
    · exact List.nodup_nil
    · intro name
      rw [hnone]
      rfl
    · intro name index hindex
      rw [hnone] at hindex
      cases hindex
    · intro b hb index hindex
      rw [hnone] at hindex
      cases hindex
  | defineIndex change =>
    cases change with
    | create spec =>
      have hget : ∀ name : List Char,
        (s.applyEffect (.defineIndex (.create spec))).indexes.map[name]? =
          if spec.name = name then some (.building spec.field) else s.indexes.map[name]? := by
        intro name
        refine (ExtTreeMap.getElem?_insert).trans ?_
        simp only [strCmp_eq_iff]
      constructor
      · exact h.distinct.applyTo (.create spec)
      · intro name
        rw [hget]
        refine Eq.trans ?_ (fieldOf_putSpec spec s.committedIndexes name).symm
        split_ifs
        · rfl
        · exact h.fields name
      · intro name index hindex
        rw [hget] at hindex
        split_ifs at hindex
        · cases hindex
          exact indexOk_building s.docs spec.field
        · exact h.indexes name index hindex
      · intro b hb index hindex hfield hready
        rw [hget] at hindex
        split_ifs at hindex with hname
        · cases hindex
          exact progress_of_not_begun (hfree spec rfl b hb hname.symm hfield)
        · exact h.builds b hb index hindex hfield hready
    | dropIndex dropped =>
      have hget : ∀ name : List Char,
        (s.applyEffect (.defineIndex (.dropIndex dropped))).indexes.map[name]? =
          if dropped = name then none else s.indexes.map[name]? := by
        intro name
        refine (ExtTreeMap.getElem?_erase).trans ?_
        simp only [strCmp_eq_iff]
      constructor
      · exact h.distinct.applyTo (.dropIndex dropped)
      · intro name
        rw [hget]
        refine Eq.trans ?_ (fieldOf_filter s.committedIndexes dropped name).symm
        split_ifs
        · rfl
        · exact h.fields name
      · intro name index hindex
        rw [hget] at hindex
        split_ifs at hindex
        exact h.indexes name index hindex
      · intro b hb index hindex hfield hready
        rw [hget] at hindex
        split_ifs at hindex
        exact h.builds b hb index hindex hfield hready

theorem applyEffect_kept (s : Store N) (e : StagedEffect N) :
    (s.applyEffect e).committedIndexes = redefine s.committedIndexes e ∧
      (s.applyEffect e).pending = s.pending ∧ (s.applyEffect e).builds = s.builds := by
  cases e <;> exact ⟨rfl, rfl, rfl⟩

theorem Core.applyAll (h : Core s) (es : List (StagedEffect N))
    (hstaged : Staged s.committedIndexes es)
    (hfree : ∀ spec, StagedEffect.defineIndex (.create spec) ∈ es →
      ∀ b ∈ s.builds, b.name = spec.name → b.field = spec.field → begun b.phase = false) :
    Core (es.foldl Store.applyEffect s) ∧
      (es.foldl Store.applyEffect s).committedIndexes = overlayIndexSpecs s.committedIndexes es ∧
      (es.foldl Store.applyEffect s).pending = s.pending := by
  induction es generalizing s with
  | nil => exact ⟨h, rfl, rfl⟩
  | cons e es ih =>
    obtain ⟨hcommitted, hpending, hbuilds⟩ := applyEffect_kept s e
    have hcore := h.applyEffect hstaged.1 fun spec he => hfree spec (he ▸ List.mem_cons_self)
    have hrest := ih hcore (by rw [hcommitted]; exact hstaged.2) fun spec hspec => by
      rw [hbuilds]
      exact hfree spec (List.mem_cons_of_mem e hspec)
    rw [hcommitted, hpending] at hrest
    exact hrest

theorem Inv.applyCommitted (h : Inv s) {n : ℕ} (hok : Undisturbed s (.applyCommitted n)) :
    Inv (s.applyCommitted n) := by
  have hstaged := h.staged
  rw [← List.take_append_drop n s.pending, staged_append] at hstaged
  have hcore : Core { s with pending := s.pending.drop n } :=
    ⟨h.core.distinct, h.core.fields, h.core.indexes, h.core.builds⟩
  obtain ⟨hall, hcommitted, hpending⟩ := hcore.applyAll (s.pending.take n) hstaged.1 hok
  refine ⟨hall, ?_⟩
  rw [Store.applyCommitted, hcommitted, hpending]
  exact hstaged.2

theorem Inv.setBuild (h : Inv s) (i : ℕ) {b : Build N} (hb : BuildOk s b) : Inv (s.setBuild i b) :=
  ⟨h.core.setBuild i hb, h.staged⟩

omit [Number N] in
theorem stageEffect_put {specs : List IndexSpec} {entry : LogEntry N} {key : Key} {doc : Json N}
    {indexed : List (List Char × Json N)} (h : stageEffect specs entry = .put key doc indexed) :
    entry = .put key doc ∧ indexed = indexValues specs doc := by
  cases entry <;> cases h
  exact ⟨rfl, rfl⟩

theorem Inv.stageAppended (h : Inv s) {entry : LogEntry N} {specs : List IndexSpec}
    (hspecs : s.appending = some specs) (hok : Undisturbed s (.stageAppended entry)) :
    Staged s.committedIndexes
      (s.pending ++ [stageEffect (overlayIndexSpecs specs s.pending) entry]) := by
  rw [staged_append]
  refine ⟨h.staged, fun key doc indexed he => ?_, trivial⟩
  obtain ⟨rfl, rfl⟩ := stageEffect_put he
  rw [hok specs hspecs]

theorem absorbBuild_cases (indexes : Indexes N) (name field : List Char)
    (rows : List (Key × Json N)) :
    indexes.absorbBuild name field rows = (indexes, false) ∨
      ∃ index touched, indexes.map[name]? = some index ∧ index.field = field ∧
        index.state = .building touched ∧
        indexes.absorbBuild name field rows =
          (⟨indexes.map.insert name (rows.foldl (Indexes.absorbRow touched) index)⟩, true) := by
  unfold Indexes.absorbBuild
  cases hindex : indexes.map[name]? with
  | none => exact .inl rfl
  | some index =>
    dsimp only
    split_ifs with hfield
    · cases hstate : index.state with
      | ready => exact .inl rfl
      | building touched => exact .inr ⟨index, touched, rfl, hfield, hstate, rfl⟩
    · exact .inl rfl

theorem insert_map {indexes : Indexes N} {name : List Char} {index : SecondaryIndex N}
    (hindex : indexes.map[name]? = some index) (index' : SecondaryIndex N) (n : List Char) :
    (indexes.map.insert name index')[n]? = (indexes.map[n]?).map fun old => if name = n then index'
      else old := by
  rw [ExtTreeMap.getElem?_insert]
  simp only [strCmp_eq_iff]
  split_ifs with hname
  · rw [← hname, hindex, Option.map_some]
  · rw [Option.map_id']

theorem Inv.replaced (h : Inv s) {i : ℕ} {b : Build N} {index index' : SecondaryIndex N}
    (hindex : s.indexes.map[b.name]? = some index) (hok : IndexOk s.docs index')
    (hfollows : Follows s.docs index s.docs index') {phase : Phase N}
    (hprogress : index'.isReady = false → Progress s.docs index' phase) :
    Inv { s.setBuild i { b with phase := phase } with indexes :=
      ⟨s.indexes.map.insert b.name index'⟩ } := by
  refine ⟨h.core.mapped _ (insert_map hindex index') (fun name old hold => ?_) rfl
    fun b' hb' => ?_, h.staged⟩
  · split_ifs with hname
    · obtain rfl : index = old := Option.some.inj (hindex.symm.trans (hname ▸ hold))
      exact ⟨hok, hfollows⟩
    · exact ⟨h.core.indexes name old hold, .refl s.docs old⟩
  · rcases List.mem_or_eq_of_mem_set hb' with hold | rfl
    · exact .inl hold
    · right
      intro index'' hindex'' _ hready
      have hself : (s.indexes.map.insert b.name index')[b.name]? = some index'' := hindex''
      rw [ExtTreeMap.getElem?_insert_self] at hself
      obtain rfl := Option.some.inj hself
      exact hprogress hready

theorem Inv.absorb (h : Inv s) {i : ℕ} {b : Build N} {cursor : Option Key} {short : Bool}
    {rows : List (Key × Json N)}
    (hb : s.builds[i]? = some b) (hphase : b.phase = .reading cursor short [] rows) :
    Inv { s.setBuild i { b with phase := if (s.indexes.absorbBuild b.name b.field rows).2 then
        if short then .finishing else .walking cursor else .ended } with
      indexes := (s.indexes.absorbBuild b.name b.field rows).1 } := by
  rcases absorbBuild_cases s.indexes b.name b.field rows
    with hgiven | ⟨index, touched, hindex, hfield, hstate, hfiled⟩
  · rw [hgiven]
    exact h.setBuild i fun _ _ _ _ => trivial
  · have hok := h.core.indexes b.name index hindex
    have hready : index.isReady = false := by rw [SecondaryIndex.isReady, hstate]
    have hprogress := h.core.builds b (List.mem_of_getElem? hb) index hindex hfield.symm hready
    rw [hphase] at hprogress
    obtain ⟨hok', hfollows, -⟩ := absorbRows_ok hstate hok hprogress.1
    rw [hfiled]
    exact h.replaced hindex hok' hfollows fun _ => hprogress.absorb hstate hok

theorem Inv.finish (h : Inv s) {i : ℕ} {b : Build N} (hb : s.builds[i]? = some b)
    (hphase : b.phase = .finishing) :
    Inv { s.setBuild i { b with phase := .ended }
      with indexes := s.indexes.finishBuild b.name b.field } := by
  have hgiven : Inv (s.setBuild i { b with phase := .ended }) := h.setBuild i fun _ _ _ _ => trivial
  unfold Indexes.finishBuild
  cases hindex : s.indexes.map[b.name]? with
  | none => exact hgiven
  | some index =>
    dsimp only
    split_ifs with hmatch
    · obtain ⟨hfield, hready⟩ := hmatch
      have hprogress := h.core.builds b (List.mem_of_getElem? hb) index hindex hfield.symm hready
      rw [hphase] at hprogress
      have hok : IndexOk s.docs { index with state := .ready } :=
        ⟨fun key _ => hprogress key, (h.core.indexes b.name index hindex).held⟩
      have hfollows : Follows s.docs index s.docs { index with state := .ready } :=
        ⟨rfl, fun hb => (nomatch hb), fun _ hf => hf, fun _ _ => trivial, fun _ => .inl rfl⟩
      exact h.replaced hindex hok hfollows fun _ => trivial
    · exact hgiven

variable {chunk : ℕ}

theorem step_inv (hchunk : 0 < chunk) (h : Inv s) {op : Op N} (hok : Undisturbed s op)
    (hstep : step chunk s op = some s') : Inv s' := by
  cases op with
  | readSpecs =>
    simp only [step] at hstep
    split_ifs at hstep
    cases hstep
    exact ⟨⟨h.core.distinct, h.core.fields, h.core.indexes, h.core.builds⟩, h.staged⟩
  | stageAppended entry =>
    obtain ⟨specs, hspecs, rfl⟩ := Option.map_eq_some_iff.mp hstep
    exact ⟨⟨h.core.distinct, h.core.fields, h.core.indexes, h.core.builds⟩,
      h.stageAppended hspecs hok⟩
  | applyCommitted n =>
    cases hstep
    exact h.applyCommitted hok
  | truncate n =>
    simp only [step] at hstep
    split_ifs at hstep
    cases hstep
    have hstaged := h.staged
    rw [← List.take_append_drop n s.pending, staged_append] at hstaged
    exact ⟨⟨h.core.distinct, h.core.fields, h.core.indexes, h.core.builds⟩, hstaged.1⟩
  | nextBuilding =>
    obtain ⟨target, -, rfl⟩ := Option.map_eq_some_iff.mp hstep
    refine ⟨⟨h.core.distinct, h.core.fields, h.core.indexes, fun b hb => ?_⟩, h.staged⟩
    rcases List.mem_append.mp hb with hold | hnew
    · exact h.core.builds b hold
    · obtain rfl := List.mem_singleton.mp hnew
      exact fun _ _ _ _ => progress_of_not_begun rfl
  | page i =>
    obtain ⟨b, hb, hstep⟩ := Option.bind_eq_some_iff.mp hstep
    split at hstep
    · next cursor hphase =>
      have hold := h.core.builds b (List.mem_of_getElem? hb)
      have hpage : ∀ index, s.indexes.map[b.name]? = some index → b.field = index.field →
        index.isReady = false →
          _ ∧ _ := fun index hindex hfield hready =>
        Progress.page hchunk (h.core.indexes b.name index hindex)
          (hphase ▸ hold index hindex hfield hready)
      dsimp only at hstep
      split_ifs at hstep with hnil
      · cases hstep
        exact h.setBuild i fun index hindex hfield hready =>
          (hpage index hindex hfield hready).1 hnil
      · cases hstep
        exact h.setBuild i fun index hindex hfield hready => (hpage index hindex hfield hready).2
    · cases hstep
  | read i =>
    obtain ⟨b, hb, hstep⟩ := Option.bind_eq_some_iff.mp hstep
    split at hstep
    · next cursor short key todo rows hphase =>
      have hold := h.core.builds b (List.mem_of_getElem? hb)
      have hread : ∀ index, s.indexes.map[b.name]? = some index → b.field = index.field →
        index.isReady = false →
          _ ∧ _ := fun index hindex hfield hready =>
        Progress.read (h.core.indexes b.name index hindex)
          (hphase ▸ hold index hindex hfield hready)
      cases hdoc : s.docs[key]? with
      | some doc =>
        rw [hdoc] at hstep
        cases hstep
        exact h.setBuild i fun index hindex hfield hready =>
          (hread index hindex hfield hready).1 doc hdoc
      | none =>
        rw [hdoc] at hstep
        cases hstep
        exact h.setBuild i fun index hindex hfield hready =>
          (hread index hindex hfield hready).2 hdoc
    · cases hstep
  | absorb i =>
    obtain ⟨b, hb, hstep⟩ := Option.bind_eq_some_iff.mp hstep
    split at hstep
    · next cursor short rows hphase =>
      cases hstep
      exact h.absorb hb hphase
    · cases hstep
  | finish i =>
    obtain ⟨b, hb, hstep⟩ := Option.bind_eq_some_iff.mp hstep
    split at hstep
    · next hphase =>
      cases hstep
      exact h.finish hb hphase
    · cases hstep
  | abandon i =>
    obtain ⟨b, -, rfl⟩ := Option.map_eq_some_iff.mp hstep
    exact h.setBuild i fun _ _ _ _ => trivial

end Stores

section Runs

variable {docs : ExtTreeMap Key (Json N) strCmp} {changes : List IndexChange}
  {staged : List (LogEntry N)}

/-- What a collection opens with: an index for each definition, without postings. -/
theorem seed_map {specs : List IndexSpec} (h : Distinct specs) (name : List Char) :
    (Indexes.seed specs : Indexes N).map[name]? = (fieldOf specs name).map .building := by
  have hfold : ∀ map : ExtTreeMap (List Char) (SecondaryIndex N) strCmp,
      (specs.foldl (fun map spec => map.insert spec.name (.building spec.field)) map)[name]? =
        ((fieldOf specs name).map .building).or map[name]? := by
    induction specs with
    | nil => exact fun _ => rfl
    | cons s specs ih =>
      rw [Distinct, List.map_cons, List.nodup_cons] at h
      intro map
      rw [List.foldl_cons, ih h.2, fieldOf_cons, ExtTreeMap.getElem?_insert]
      simp only [strCmp_eq_iff]
      split_ifs with hname
      · have hnone : fieldOf specs name = none := by
          rw [fieldOf, Option.map_eq_none_iff, List.find?_eq_none]
          intro t ht heq
          exact h.1 (List.mem_map.mpr ⟨t, ht, (of_decide_eq_true heq).trans hname.symm⟩)
        rw [hnone]
        rfl
      · rfl
  have hempty : (∅ : ExtTreeMap (List Char) (SecondaryIndex N) strCmp)[name]? = none :=
    ExtTreeMap.getElem?_empty
  exact (hfold ∅).trans (by rw [hempty, Option.or_none])

theorem distinct_foldl {specs : List IndexSpec} (h : Distinct specs) (changes : List IndexChange) :
    Distinct (changes.foldl (fun specs change => applyTo change specs) specs) := by
  induction changes generalizing specs with
  | nil => exact h
  | cons change changes ih => exact ih (h.applyTo change)

def Redefines : LogEntry N → Prop
  | .drop => True
  | .index _ => True
  | _ => False

omit [Number N] in
/-- Entries that leave the definitions alone are all staged under those that are committed. -/
theorem restage_plain (specs : List IndexSpec) {staged : List (LogEntry N)}
    (h : ∀ e ∈ staged, ¬Redefines e) :
    (restage specs staged).2 = specs ∧ Staged specs (restage specs staged).1 := by
  induction staged with
  | nil => exact ⟨rfl, trivial⟩
  | cons e staged ih =>
    have hsame : redefine specs (stageEffect specs e) = specs := by
      cases e with
      | drop => exact absurd trivial (h .drop List.mem_cons_self)
      | index change => exact absurd trivial (h (.index change) List.mem_cons_self)
      | _ => rfl
    obtain ⟨hspecs, hstaged⟩ := ih fun e' he' => h e' (List.mem_cons_of_mem e he')
    unfold restage
    dsimp only [Staged]
    rw [hsame]
    refine ⟨hspecs, fun key doc indexed he => ?_, hstaged⟩
    exact (stageEffect_put he).2

theorem opened_inv (docs : ExtTreeMap Key (Json N) strCmp) (changes : List IndexChange)
    {staged : List (LogEntry N)} (h : ∀ e ∈ staged, ¬Redefines e) :
    Inv (opened docs changes staged) := by
  have hnone : Distinct [] := List.nodup_nil
  obtain ⟨hspecs, hstaged⟩ :=
    restage_plain (changes.foldl (fun specs change => applyTo change specs) []) h
  have hcommitted : (opened docs changes staged).committedIndexes =
      changes.foldl (fun specs change => applyTo change specs) [] := hspecs
  have hdistinct : Distinct (opened docs changes staged).committedIndexes := by
    rw [hcommitted]
    exact distinct_foldl hnone changes
  have hmap : ∀ name : List Char, (opened docs changes staged).indexes.map[name]? =
      (fieldOf (opened docs changes staged).committedIndexes name).map .building :=
        seed_map hdistinct
  refine ⟨⟨hdistinct, fun name => ?_, fun name index hindex => ?_, fun b hb => nomatch hb⟩, ?_⟩
  · rw [hmap]
    cases fieldOf (opened docs changes staged).committedIndexes name <;> rfl
  · rw [hmap] at hindex
    obtain ⟨field, -, rfl⟩ := Option.map_eq_some_iff.mp hindex
    exact indexOk_building _ field
  · rw [hcommitted]
    exact hstaged

theorem Inv.exact {s : Store N} (h : Inv s) (name : List Char) (index : SecondaryIndex N)
    (hindex : s.indexes.map[name]? = some index) (hready : index.isReady = true) (key : Key) :
    Filed s.docs index key := by
  apply (h.core.indexes name index hindex).touched
  unfold SecondaryIndex.isReady at hready
  unfold Touched
  cases hstate : index.state with
  | ready => trivial
  | building touched =>
    rw [hstate] at hready
    cases hready

theorem run_inv {chunk : ℕ} (hchunk : 0 < chunk) (hstaged : ∀ e ∈ staged, ¬Redefines e)
    {ops : List (Op N)}
    {s : Store N} (hrun : run (step chunk) (opened docs changes staged) ops = some s)
    (hok : Meets (step chunk) Undisturbed (opened docs changes staged) ops) : Inv s :=
  run_invariant_of_meets (I := Inv) (fun _ _ _ h hok hstep => step_inv hchunk h hok hstep) hrun hok
    (opened_inv docs changes hstaged)

/-- In a run that opens with no definition staged, in which no put is staged under definitions that
have changed since the append read them, and no definition commits for the name and field of a build
that has begun to read, an index that is ready files exactly the values of its field in the
committed documents. -/
theorem ready_index_exact {chunk : ℕ} (hchunk : 0 < chunk) (hstaged : ∀ e ∈ staged, ¬Redefines e)
    {ops : List (Op N)} {s : Store N}
    (hrun : run (step chunk) (opened docs changes staged) ops = some s)
    (hok : Meets (step chunk) Undisturbed (opened docs changes staged) ops) :
    ∀ (name : List Char) (index : SecondaryIndex N), s.indexes.map[name]? = some index →
      index.isReady = true →
      ∀ (key : Key) (v : Json N), index.Holds key v ↔
        ∃ doc w, s.docs[key]? = some doc ∧ getPathValue doc index.field = some w ∧
          jsonCmp w v = .eq :=
  (run_inv hchunk hstaged hrun hok).exact

end Runs

section Redefined

def buildChunk : ℕ := 256

def numbered (n : ℤ) : Json ℤ := .obj [(['n'], .num n)]

def onNumber : IndexSpec := ⟨['i'], ['n']⟩

def oneDoc : ExtTreeMap Key (Json ℤ) strCmp := .ofList [(['a'], numbered 1)] strCmp

def appendOps (entry : LogEntry ℤ) : List (Op ℤ) :=
  [.readSpecs, .stageAppended entry, .applyCommitted 1]

def stagedPut : List (LogEntry ℤ) := [.put ['b'] (numbered 3)]

/-- A build whose document is replaced after it is read, behind the commit of the staged put. -/
def buildOps : List (Op ℤ) :=
  [Op.nextBuilding, .page 0, .read 0, .applyCommitted 1] ++ appendOps (.put ['a'] (numbered 2)) ++
    [Op.absorb 0, .finish 0]

/-- The index is dropped and created again before the build goes on. -/
def recreateOps : List (Op ℤ) :=
  [Op.nextBuilding, .page 0, .read 0] ++ appendOps (.put ['a'] (numbered 2)) ++
    appendOps (.index (.dropIndex ['i'])) ++ appendOps (.index (.create onNumber)) ++
      [Op.absorb 0, .finish 0]

/-- A definition commits after an append has read the definitions, and is then built. -/
def overtakenOps : List (Op ℤ) :=
  [.readSpecs, .stageAppended (.index (.create onNumber)), .readSpecs, .applyCommitted 1,
    .stageAppended (.put ['b'] (numbered 3)), .applyCommitted 1, .nextBuilding, .page 0, .read 0,
    .read 0, .absorb 0, .finish 0]

/-- A definition that was staged above a put when the collection was opened, where its index is
built at once. -/
def stagedDefinition : List (LogEntry ℤ) := [.put ['b'] (numbered 3), .index (.create onNumber)]

def earlyOps : List (Op ℤ) :=
  [.applyCommitted 1, .nextBuilding, .page 0, .read 0, .read 0, .absorb 0, .finish 0]

/-- The documents, the field of the index, whether it is ready, and the value it files each key
under. -/
structure Published where
  docs : List (Key × Json ℤ)
  field : List Char
  ready : Bool
  filed : List (Key × Json ℤ)
  deriving DecidableEq

def Store.published (s : Store ℤ) : Option Published :=
  s.indexes.map[['i']]?.map fun index =>
    ⟨s.docs.toList, index.field, index.isReady, index.keys.toList⟩

theorem ready_index_exact_build : ∃ s index,
    run (step buildChunk) (opened oneDoc [.create onNumber] stagedPut) buildOps = some s ∧
    s.indexes.map[['i']]? = some index ∧ index.isReady = true ∧ ∀ (key : Key) (v : Json ℤ),
      index.Holds key v ↔
      ∃ doc w, s.docs[key]? = some doc ∧ getPathValue doc index.field = some w ∧
        jsonCmp w v = .eq := by
  have hpublished :
      (run (step buildChunk) (opened oneDoc [.create onNumber] stagedPut) buildOps).bind
        Store.published =
        some ⟨[(['a'], numbered 2), (['b'], numbered 3)], ['n'], true,
          [(['a'], .num 2), (['b'], .num 3)]⟩ := by
    decide
  have hplain : ∀ e ∈ stagedPut, ¬Redefines e := by
    intro e he hredefines
    rw [List.mem_singleton.mp he] at hredefines
    exact hredefines
  obtain ⟨s, hrun, hs⟩ := Option.bind_eq_some_iff.mp hpublished
  obtain ⟨index, hindex, heq⟩ := Option.map_eq_some_iff.mp hs
  have hready := (Published.mk.inj heq).2.2.1
  refine ⟨s, index, hrun, hindex, hready, ready_index_exact (by decide) hplain hrun ?_
    ['i'] index hindex hready⟩
  repeat apply meets_cons trivial rfl
  apply meets_cons (fun spec h => nomatch List.mem_singleton.mp h) rfl
  repeat apply meets_cons trivial rfl
  apply meets_cons (fun specs h => Option.some.inj h ▸ rfl) rfl
  apply meets_cons (fun spec h => nomatch List.mem_singleton.mp h) rfl
  repeat apply meets_cons trivial rfl
  trivial

/-- A document that is replaced stays filed under its old value when the index is created again in
the middle of its build, and one that is written just as the index is defined is never filed. Nor is
one that a restart finds staged below the definition of the index. -/
theorem stale_index_published :
    (run (step buildChunk) (opened oneDoc [.create onNumber] []) recreateOps).bind Store.published =
      some ⟨[(['a'], numbered 2)], ['n'], true, [(['a'], .num 1)]⟩ ∧
    (run (step buildChunk) (opened oneDoc [] []) overtakenOps).bind Store.published =
      some ⟨[(['a'], numbered 1), (['b'], numbered 3)], ['n'], true, [(['a'], .num 1)]⟩ ∧
    (run (step buildChunk) (opened oneDoc [] stagedDefinition) earlyOps).bind Store.published =
      some ⟨[(['a'], numbered 1), (['b'], numbered 3)], ['n'], true, [(['a'], .num 1)]⟩ ∧
    ¬∀ (docs : ExtTreeMap Key (Json ℤ) strCmp) (changes : List IndexChange)
      (staged : List (LogEntry ℤ))
        (ops : List (Op ℤ)) (s : Store ℤ), run (step buildChunk)
          (opened docs changes staged) ops = some s →
        ∀ (name : List Char) (index : SecondaryIndex ℤ), s.indexes.map[name]? = some index →
          index.isReady = true →
          ∀ (key : Key) (v : Json ℤ), index.Holds key v ↔
            ∃ doc w, s.docs[key]? = some doc ∧ getPathValue doc index.field = some w ∧
              jsonCmp w v = .eq := by
  have hrecreated : (run (step buildChunk) (opened oneDoc [.create onNumber] []) recreateOps).bind
    Store.published =
      some ⟨[(['a'], numbered 2)], ['n'], true, [(['a'], .num 1)]⟩ := by decide
  refine ⟨hrecreated, by decide, by decide, fun hclaim => ?_⟩
  obtain ⟨s, hrun, hs⟩ := Option.bind_eq_some_iff.mp hrecreated
  obtain ⟨index, hindex, heq⟩ := Option.map_eq_some_iff.mp hs
  obtain ⟨hdocs, hfield, hready, hkeys⟩ := Published.mk.inj heq
  have hkey : index.keys[(['a'] : Key)]? = some (.num 1) := by
    rw [← ExtTreeMap.mem_toList_iff_getElem?_eq_some, hkeys]
    exact List.mem_singleton_self _
  have hdoc : s.docs[(['a'] : Key)]? = some (numbered 2) := by
    rw [← ExtTreeMap.mem_toList_iff_getElem?_eq_some, hdocs]
    exact List.mem_singleton_self _
  have hheld : index.Holds ['a'] (.num 1) := Postings.holds_iff.mpr ⟨.num 1, hkey, by decide⟩
  obtain ⟨doc, w, hdoc', hvalue, hcmp⟩ :=
    (hclaim _ _ _ _ s hrun ['i'] index hindex hready ['a'] (.num 1)).mp hheld
  obtain rfl := Option.some.inj (hdoc.symm.trans hdoc')
  have htwo : getPathValue (numbered 2) ['n'] = some (.num 2) := by decide
  rw [hfield, htwo] at hvalue
  obtain rfl := Option.some.inj hvalue
  revert hcmp
  decide

end Redefined

end DewDB.IndexBuilds
