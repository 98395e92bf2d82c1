import DewDB.ClusterMeta
import DewDB.TransitionSystem

/-!
# The cluster view on disk

`cluster.meta` and its staging file beside the view in memory. An offered view that wins is saved
first and adopted afterwards, and what a catalogue has gained is saved after that, from a copy, so
the saves of concurrent calls reach the disk in any order. A save reads what is there and writes
either its own view, where that wins, or the stored one with the newer entries.
-/
namespace DewDB.DurableView

open ReplicationMeta (NodeId)
open Vote StorageEntry CatalogMerge ClusterMeta TransitionSystem

section Files

inductive Content where
  | torn
  | whole (v : ClusterMetadata)
  deriving DecidableEq

/-- `cluster.meta` and `cluster.meta.tmp`. -/
structure Disk where
  file : Option Content
  tmp : Option Content
  deriving DecidableEq

/-- The view that a file gives, if it parses and passes the checks. -/
def Content.view? : Content → Option ClusterMetadata
  | .torn => none
  | .whole v => if v.sanitized.validate = .ok () then some v.sanitized else none

inductive LoadError where
  | unusable
  deriving DecidableEq

def load (d : Disk) : Except LoadError (Option ClusterMetadata) :=
  match (d.file.bind Content.view?).or (d.tmp.bind Content.view?) with
  | some v => .ok (some v)
  | none => if d.file.isSome || d.tmp.isSome then .error .unusable else .ok none

inductive Fault where
  | create
  | write
  | syncOrRename
  deriving DecidableEq

/-- What happens to a save: whether it can read the files, and where its writing fails. -/
structure Outcome where
  readable : Bool
  fault : Option Fault

def writeAtomic (v : ClusterMetadata) (fault : Option Fault) (d : Disk) : Disk × Bool :=
  match fault with
  | none => (⟨some (.whole v), none⟩, true)
  | some .create => (d, false)
  | some .write => ({ d with tmp := some .torn }, false)
  | some .syncOrRename => ({ d with tmp := some (.whole v) }, false)

/-- What a save of `v` finds: files that it cannot read are as good as none. -/
def stored (o : Outcome) (d : Disk) : Option ClusterMetadata :=
  if o.readable then (load d).toOption.join else none

/-- What a save of `v` writes over the view that it finds. -/
def toWrite (v : ClusterMetadata) : Option ClusterMetadata → Option ClusterMetadata
  | none => some v
  | some existing =>
    if v.supersedes existing then some v
    else if (existing.mergeFrom v.indexCatalog).2 then some (existing.mergeFrom v.indexCatalog).1
    else none

/-- `ClusterMetadata::save`. The flag is `Ok`. -/
def save (v : ClusterMetadata) (o : Outcome) (d : Disk) : Disk × Bool :=
  match toWrite v (stored o d) with
  | none => (d, true)
  | some w => writeAtomic w o.fault d

end Files

section Node

/-- Where a call stands: an offered view before its save and before its adoption, and a gain of the
catalogue before the view is copied and before the copy is saved. -/
inductive Phase where
  | saving (incoming : ClusterMetadata)
  | adopting (incoming : ClusterMetadata)
  | persisting
  | writing (view : ClusterMetadata)
  deriving DecidableEq

def Phase.toSave? : Phase → Option ClusterMetadata
  | .saving v | .writing v => some v
  | _ => none

def Phase.toAdopt? : Phase → Option ClusterMetadata
  | .adopting v => some v
  | _ => none

inductive CatalogUpdate where
  | index (collection : CollectionName) (change : IndexChange)
  | ttl (collection : CollectionName) (ttlSecs : Option ℕ)
  | forget (collection : CollectionName)
  | merge (incoming : IndexCatalog)

def CatalogUpdate.applyTo (nodeId : NodeId) (v : ClusterMetadata) :
    CatalogUpdate → ClusterMetadata × Bool
  | .index collection change => v.recordIndexChange nodeId collection change
  | .ttl collection ttlSecs => v.recordTtlChange nodeId collection ttlSecs
  | .forget collection => v.forgetCollectionIndexes nodeId collection
  | .merge incoming => v.mergeFrom incoming

/-- A node, down where it has no view; `saved`: no save has failed since it was started. -/
structure State where
  disk : Disk
  memory : Option ClusterMetadata
  tasks : List Phase
  saved : Bool
  deriving DecidableEq

inductive Label where
  | offer (incoming : ClusterMetadata)
  | save (i : ℕ) (o : Outcome)
  | adopt (i : ℕ)
  | update (u : CatalogUpdate)
  | clone (i : ℕ)
  | crash
  | boot (o : Outcome)

/-- The tasks once the one at `i` is over and `next` is left to do. -/
def State.after (s : State) (i : ℕ) (next : List Phase) : List Phase := s.tasks.eraseIdx i ++ next

/-- `adopt_cluster` up to its decision. A view that loses is taken for its catalogue. -/
def offerPhase (current incoming : ClusterMetadata) : List Phase :=
  if incoming.sanitized.validate ≠ .ok () then []
  else if incoming.supersedes current then [.saving incoming.sanitized]
  else if (mergeCatalog current.indexCatalog incoming.sanitized.indexCatalog).2 then
    [.adopting incoming.sanitized]
  else []

variable (nodeId : NodeId) (seed : ClusterMetadata)

def step (s : State) : Label → Option State
  | .offer incoming => s.memory.map fun current =>
      { s with tasks := s.tasks ++ offerPhase current incoming }
  | .save i o =>
    match s.tasks[i]? with
    | some (.saving v) => some { s with
        disk := (save v o s.disk).1
        saved := s.saved && (save v o s.disk).2
        tasks := s.after i [.adopting v] }
    | some (.writing v) => some { s with
        disk := (save v o s.disk).1
        saved := s.saved && (save v o s.disk).2
        tasks := s.after i [] }
    | _ => none
  | .adopt i =>
    match s.tasks[i]?, s.memory with
    | some (.adopting v), some current =>
      let next := (ClusterMeta.adopt current v).1
      some { s with
        memory := some next
        tasks := s.after i (if next.indexCatalog = current.indexCatalog then []
          else [.persisting]) }
    | _, _ => none
  | .update u => s.memory.map fun current =>
      let next := u.applyTo nodeId current
      { s with
        memory := some next.1
        tasks := s.tasks ++ if next.2 then [.persisting] else [] }
  | .clone i =>
    match s.tasks[i]?, s.memory with
    | some .persisting, some current => some { s with tasks := s.after i [.writing current] }
    | _, _ => none
  | .crash => some { s with
      memory := none
      tasks := [] }
  | .boot o =>
    if s.memory.isSome then none
    else
      match load s.disk with
      | .error _ => none
      | .ok (some v) => some ⟨s.disk, some v, [], true⟩
      | .ok none => some ⟨(save seed o s.disk).1, some seed, [], (save seed o s.disk).2⟩

end Node

section Facts

variable {v w : ClusterMetadata} {d : Disk} {s : State} {i : ℕ} {p q : Phase} {next : List Phase}

theorem load_file (h : w.sanitized.validate = .ok ()) (tmp : Option Content) :
    load ⟨some (.whole w), tmp⟩ = .ok (some w.sanitized) := by
  simp [load, Content.view?, h]

theorem load_tmp (h : w.sanitized.validate = .ok ()) :
    load ⟨none, some (.whole w)⟩ = .ok (some w.sanitized) := by
  simp [load, Content.view?, h]

theorem Content.view?_eq_some {c : Content} (h : c.view? = some v) :
    v.validate = .ok () ∧ Clean v.indexCatalog := by
  cases c with
  | torn => cases h
  | whole w =>
    obtain ⟨hv, rfl⟩ := Option.ite_none_right_eq_some.mp h |>.imp_right Option.some.inj
    exact ⟨hv, clean_sanitizeCatalog _⟩

theorem load_spec (h : load d = .ok (some v)) : v.validate = .ok () ∧ Clean v.indexCatalog := by
  unfold load at h
  split at h
  · next w hw =>
    obtain rfl : w = v := by simpa using h
    rcases Option.or_eq_some_iff.mp hw with hf | ⟨-, ht⟩
    · obtain ⟨c, -, hc⟩ := Option.bind_eq_some_iff.mp hf
      exact Content.view?_eq_some hc
    · obtain ⟨c, -, hc⟩ := Option.bind_eq_some_iff.mp ht
      exact Content.view?_eq_some hc
  · split at h <;> cases h

theorem stored_eq_some {o : Outcome} : stored o d = some v ↔ o.readable = true ∧ load d = .ok
    (some v) := by
  unfold stored
  cases o.readable with
  | false => simp
  | true =>
    cases load d with
    | error e => simp [Except.toOption]
    | ok r => cases r <;> simp [Except.toOption]

theorem mem_after (h : p ∈ s.after i next) : p ∈ s.tasks ∨ p ∈ next :=
  (List.mem_append.mp h).imp_left List.mem_of_mem_eraseIdx

theorem mem_after_of_mem_next (h : p ∈ next) : p ∈ s.after i next := List.mem_append_right _ h

theorem mem_after_or (hi : s.tasks[i]? = some q) (h : p ∈ s.tasks) :
    p = q ∨ p ∈ s.after i next := by
  obtain ⟨j, hj⟩ := List.mem_iff_getElem?.mp h
  by_cases hij : j = i
  · subst hij
    exact .inl (Option.some.inj (hj.symm.trans hi))
  · exact .inr (List.mem_append_left _ (List.mem_eraseIdx_iff_getElem?.mpr ⟨j, hij, hj⟩))

theorem mem_after_of_ne (hi : s.tasks[i]? = some q) (h : p ∈ s.tasks) (hne : p ≠ q) :
    p ∈ s.after i next :=
  (mem_after_or hi h).resolve_left hne

theorem offerPhase_mem {current incoming : ClusterMetadata} (h : p ∈ offerPhase current incoming) :
    incoming.sanitized.validate = .ok () ∧
      (p = .saving incoming.sanitized ∨ p = .adopting incoming.sanitized) := by
  unfold offerPhase at h
  split at h
  · cases h
  · next hv =>
    refine ⟨not_not.mp hv, ?_⟩
    split at h
    · exact .inl (List.mem_singleton.mp h)
    · split at h
      · exact .inr (List.mem_singleton.mp h)
      · cases h

theorem saving_mem_offerPhase {current incoming : ClusterMetadata}
    (h : .saving v ∈ offerPhase current incoming) :
    v = incoming.sanitized ∧ incoming.sanitized.supersedes current = true := by
  unfold offerPhase at h
  split at h
  · cases h
  · split at h
    · next hwins => exact ⟨by simpa using h, hwins⟩
    · split at h <;> simp at h

theorem adopting_mem_offerPhase {current incoming : ClusterMetadata}
    (h : .adopting v ∈ offerPhase current incoming) :
    v = incoming.sanitized ∧ v.supersedes current = false := by
  unfold offerPhase at h
  split at h
  · cases h
  · split at h
    · simp at h
    · next hloses =>
      split at h
      · obtain rfl : v = incoming.sanitized := by simpa using h
        exact ⟨rfl, Bool.eq_false_iff.mpr hloses⟩
      · cases h

end Facts

end DewDB.DurableView
