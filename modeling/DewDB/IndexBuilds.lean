import DewDB.SecondaryIndex
import DewDB.TransitionSystem

/-!
# Background builds of secondary indexes

A definition that commits registers an index without postings. A build pages through the committed
keys, reads their documents and files them in chunks, each under the lock of the indexes but not
across them, while writes and definitions commit. A write is staged with what the definitions in
force ask of its document. The append has read the committed definitions before it takes the lock
that the staged frames are under.
-/
namespace DewDB.IndexBuilds

open JsonValue Secondary Std

variable {N : Type} [Number N]

abbrev Key := List Char

def putSpec (spec : IndexSpec) : List IndexSpec → List IndexSpec
  | [] => [spec]
  | s :: specs => if s.name = spec.name then spec :: specs else s :: putSpec spec specs

def applyTo : IndexChange → List IndexSpec → List IndexSpec
  | .create spec, specs => putSpec spec specs
  | .dropIndex name, specs => specs.filter fun s => s.name ≠ name

/-- What an entry of the log asks of the collection; the entries that concern neither documents nor
indexes are barriers here. -/
inductive LogEntry (N : Type) where
  | put (key : Key) (doc : Json N)
  | del (key : Key)
  | barrier
  | drop
  | index (change : IndexChange)

inductive StagedEffect (N : Type) where
  | put (key : Key) (doc : Json N) (indexed : List (List Char × Json N))
  | remove (key : Key)
  | nothing
  | clear
  | defineIndex (change : IndexChange)

/-- Where a build is. `short` says that the page was not full, so no key is behind it. -/
inductive Phase (N : Type) where
  | walking (cursor : Option Key)
  | reading (cursor : Option Key) (short : Bool) (todo : List Key) (rows : List (Key × Json N))
  | finishing
  | ended

/-- A build of the index that had this name and field when it began. -/
structure Build (N : Type) where
  name : List Char
  field : List Char
  phase : Phase N

/-- The committed documents and indexes, and the frames that are staged above them in log order.
`appending` holds the committed definitions that the append under way has read. -/
structure Store (N : Type) [Number N] where
  docs : ExtTreeMap Key (Json N) strCmp
  indexes : Indexes N
  committedIndexes : List IndexSpec
  pending : List (StagedEffect N)
  appending : Option (List IndexSpec)
  builds : List (Build N)

def redefine (specs : List IndexSpec) : StagedEffect N → List IndexSpec
  | .defineIndex change => applyTo change specs
  | .clear => []
  | _ => specs

/-- The committed definitions with every staged change laid over them. -/
def overlayIndexSpecs (committed : List IndexSpec) (pending : List (StagedEffect N)) :
    List IndexSpec :=
  pending.foldl redefine committed

def stageEffect (specs : List IndexSpec) : LogEntry N → StagedEffect N
  | .put key doc => .put key doc (indexValues specs doc)
  | .del key => .remove key
  | .barrier => .nothing
  | .drop => .clear
  | .index change => .defineIndex change

namespace Store

/-- What `apply_committed` does with a staged frame. -/
def applyEffect (s : Store N) : StagedEffect N → Store N
  | .put key doc indexed =>
      { s with docs := s.docs.insert key doc, indexes := s.indexes.put key indexed }
  | .remove key => { s with docs := s.docs.erase key, indexes := s.indexes.remove key }
  | .nothing => s
  | .clear => { s with docs := ∅, indexes := s.indexes.clearAll, committedIndexes := [] }
  | .defineIndex change =>
    { s with indexes := s.indexes.applyChange change, committedIndexes :=
      applyTo change s.committedIndexes }

/-- Drains the first `n` staged frames. -/
def applyCommitted (s : Store N) (n : ℕ) : Store N :=
  (s.pending.take n).foldl applyEffect { s with pending := s.pending.drop n }

/-- `range_page` behind the cursor. -/
def pageBehind (s : Store N) (cursor : Option Key) (chunk : ℕ) : List Key :=
  ((s.docs.toList.map Prod.fst).filter fun k => cursor.all fun c => strCmp c k = .lt).take chunk

def setBuild (s : Store N) (i : ℕ) (b : Build N) : Store N := { s with builds := s.builds.set i b }

end Store

/-- What can happen. An append reads the committed definitions and then stages its frame; a build
goes from step to step and may be given up at any of them. -/
inductive Op (N : Type) where
  | readSpecs
  | stageAppended (entry : LogEntry N)
  | applyCommitted (n : ℕ)
  | truncate (n : ℕ)
  | nextBuilding
  | page (i : ℕ)
  | read (i : ℕ)
  | absorb (i : ℕ)
  | finish (i : ℕ)
  | abandon (i : ℕ)

/-- A step of the store, with pages of `chunk` keys. -/
def step (chunk : ℕ) (s : Store N) : Op N → Option (Store N)
  | .readSpecs => if s.appending.isSome then none
      else some { s with appending := some s.committedIndexes }
  | .stageAppended entry => s.appending.map fun specs =>
      { s with pending := s.pending ++
        [stageEffect (overlayIndexSpecs specs s.pending) entry], appending := none }
  | .applyCommitted n => some (s.applyCommitted n)
  | .truncate n => if s.appending.isSome then none else some { s with pending := s.pending.take n }
  | .nextBuilding => s.indexes.nextBuilding.map fun target =>
      { s with builds := s.builds ++ [⟨target.1, target.2, .walking none⟩] }
  | .page i => s.builds[i]?.bind fun b =>
      match b.phase with
      | .walking cursor =>
        let keys := s.pageBehind cursor chunk
        if keys = [] then some (s.setBuild i { b with phase := .finishing })
        else some (s.setBuild i
          { b with phase := .reading keys.getLast? (keys.length < chunk) keys [] })
      | _ => none
  | .read i => s.builds[i]?.bind fun b =>
      match b.phase with
      | .reading cursor short (key :: todo) rows =>
        match s.docs[key]? with
        | some doc => some (s.setBuild i
            { b with phase := .reading cursor short todo (rows ++ [(key, doc)]) })
        | none => some (s.setBuild i { b with phase := .reading cursor short todo rows })
      | _ => none
  | .absorb i => s.builds[i]?.bind fun b =>
      match b.phase with
      | .reading cursor short [] rows =>
        let absorbed := s.indexes.absorbBuild b.name b.field rows
        let phase := if absorbed.2 then if short then .finishing else .walking cursor else .ended
        some { s.setBuild i { b with phase := phase } with indexes := absorbed.1 }
      | _ => none
  | .finish i => s.builds[i]?.bind fun b =>
      match b.phase with
      | .finishing =>
        some { s.setBuild i { b with phase := .ended }
          with indexes := s.indexes.finishBuild b.name b.field }
      | _ => none
  | .abandon i => s.builds[i]?.map fun b => s.setBuild i { b with phase := .ended }

/-- How a replay stages what is above the watermark. Each entry is staged under the definitions that
are left below it, and the definitions behind the last one stay in force. -/
def restage (specs : List IndexSpec) : List (LogEntry N) → List (StagedEffect N) × List IndexSpec
  | [] => ([], specs)
  | entry :: entries =>
    let effect := stageEffect specs entry
    let rest := restage (redefine specs effect) entries
    (effect :: rest.1, rest.2)

/-- A collection as it opens, with the definitions that these changes leave and what is staged in
its log. -/
def opened (docs : ExtTreeMap Key (Json N) strCmp) (changes : List IndexChange)
    (staged : List (LogEntry N)) : Store N :=
  let replayed := restage (changes.foldl (fun specs change => applyTo change specs) []) staged
  ⟨docs, .seed replayed.2, replayed.2, replayed.1, none, []⟩

section Definitions

def fieldOf (specs : List IndexSpec) (name : List Char) : Option (List Char) :=
  (specs.find? fun s => s.name = name).map IndexSpec.field

theorem fieldOf_cons (s : IndexSpec) (specs : List IndexSpec) (name : List Char) :
    fieldOf (s :: specs) name = if s.name = name then some s.field else fieldOf specs name := by
  unfold fieldOf
  split_ifs with h
  · simp [h]
  · rw [List.find?_cons_of_neg (by simpa using h)]

theorem fieldOf_putSpec (spec : IndexSpec) (specs : List IndexSpec) (name : List Char) :
    fieldOf (putSpec spec specs) name = if spec.name = name then some spec.field
      else fieldOf specs name := by
  induction specs with
  | nil => rw [putSpec, fieldOf_cons]
  | cons s specs ih =>
    by_cases hs : s.name = spec.name
    · rw [putSpec, if_pos hs, fieldOf_cons, fieldOf_cons, hs]
      split_ifs <;> rfl
    · rw [putSpec, if_neg hs, fieldOf_cons, ih, fieldOf_cons]
      split_ifs with hn hn'
      · exact absurd (hn.trans hn'.symm) hs
      · rfl
      · rfl
      · rfl

theorem fieldOf_filter (specs : List IndexSpec) (dropped name : List Char) :
    fieldOf (specs.filter fun s => s.name ≠ dropped) name = if dropped = name then none
      else fieldOf specs name := by
  induction specs with
  | nil => simp [fieldOf]
  | cons s specs ih =>
    rw [List.filter_cons, fieldOf_cons]
    by_cases hs : s.name = dropped
    · rw [if_neg (by simpa using hs), ih, hs]
      split_ifs <;> rfl
    · rw [if_pos (by simpa using hs), fieldOf_cons, ih]
      split_ifs with hn hn'
      · exact absurd (hn.trans hn'.symm) hs
      · rfl
      · rfl
      · rfl

def Distinct (specs : List IndexSpec) : Prop := (specs.map IndexSpec.name).Nodup

theorem mem_putSpec {spec s : IndexSpec} {specs : List IndexSpec} (h : s ∈ putSpec spec specs) :
    s = spec ∨ s ∈ specs := by
  induction specs with
  | nil => exact .inl (List.mem_singleton.mp h)
  | cons t specs ih =>
    rw [putSpec] at h
    split_ifs at h with ht
    · exact (List.mem_cons.mp h).imp_right (List.mem_cons_of_mem t)
    · rcases List.mem_cons.mp h with rfl | h
      · exact .inr List.mem_cons_self
      · exact (ih h).imp_right (List.mem_cons_of_mem t)

theorem Distinct.putSpec {specs : List IndexSpec} (h : Distinct specs) (spec : IndexSpec) :
    Distinct (putSpec spec specs) := by
  induction specs with
  | nil => exact List.nodup_singleton _
  | cons s specs ih =>
    rw [Distinct, List.map_cons, List.nodup_cons] at h
    rw [IndexBuilds.putSpec]
    split_ifs with hs
    · rw [Distinct, List.map_cons, List.nodup_cons, ← hs]
      exact h
    · rw [Distinct, List.map_cons, List.nodup_cons]
      refine ⟨fun hmem => ?_, ih h.2⟩
      obtain ⟨t, ht, hname⟩ := List.mem_map.mp hmem
      rcases mem_putSpec ht with rfl | ht
      · exact hs hname.symm
      · exact h.1 (List.mem_map.mpr ⟨t, ht, hname⟩)

theorem Distinct.applyTo {specs : List IndexSpec} (h : Distinct specs) (change : IndexChange) :
    Distinct (applyTo change specs) := by
  cases change with
  | create spec => exact h.putSpec spec
  | dropIndex name => exact h.sublist (List.filter_sublist.map _)

omit [Number N] in
theorem lookup_indexValues {specs : List IndexSpec} (h : Distinct specs) (doc : Json N)
    (name : List Char) :
    (indexValues specs doc).lookup name = (fieldOf specs name).bind (getPathValue doc) := by
  induction specs with
  | nil => rfl
  | cons s specs ih =>
    rw [Distinct, List.map_cons, List.nodup_cons] at h
    rw [fieldOf_cons, indexValues, List.filterMap_cons]
    have hrest := ih h.2
    cases hval : getPathValue doc s.field with
    | none =>
      refine hrest.trans ?_
      split_ifs with hname
      · have hnone : fieldOf specs name = none := by
          rw [fieldOf, Option.map_eq_none_iff, List.find?_eq_none]
          intro t ht heq
          exact h.1 (List.mem_map.mpr ⟨t, ht, (of_decide_eq_true heq).trans hname.symm⟩)
        rw [hnone, Option.bind_some, hval, Option.bind_none]
      · rfl
    | some v =>
      rw [Option.map_some, List.lookup_cons]
      split_ifs with hname
      · simp [hname, hval]
      · have hne : (name == s.name) = false := by simpa using Ne.symm hname
        rw [hne]
        exact hrest

end Definitions

end DewDB.IndexBuilds
