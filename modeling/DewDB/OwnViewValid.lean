import DewDB.DurableView

/-!
# A node's own view passes its own checks

Each offered view is checked by itself, and so is each change that the node records, but a merge of
two catalogues within the bound can leave it. Where no merge does, the view in memory and those on
disk are valid in every state of every run.
-/
namespace DewDB.DurableView

open Std (ExtTreeMap)
open ReplicationMeta (NodeId)
open Vote StorageEntry CatalogMerge ClusterMeta TransitionSystem

section Change

variable {v current incoming : ClusterMetadata} {catalog : IndexCatalog}

/-- The collections that two catalogues name together, as far as nodes can act on the second. -/
def together (into incoming : IndexCatalog) : ℕ :=
  (names into ∪ names (sanitizeCatalog incoming)).card

theorem validate_iff_of_topologyOk (h : v.TopologyOk) :
    v.validate = .ok () ↔ v.indexCatalog.size ≤ maxCatalogCollections := by
  rw [validate_iff, and_iff_right h]

theorem validate_catalog_iff (h : v.validate = .ok ()) :
    { v with indexCatalog := catalog }.validate = .ok () ↔ catalog.size ≤ maxCatalogCollections :=
  validate_iff_of_topologyOk ((topologyOk_congr rfl).mp (validate_iff.mp h).1)

theorem validate_mergeFrom_iff (h : v.validate = .ok ()) :
    (v.mergeFrom catalog).1.validate = .ok () ↔
      together v.indexCatalog catalog ≤ maxCatalogCollections := by
  rw [together, ← size_mergeCatalog]
  exact validate_catalog_iff h

theorem size_of_validate (h : v.validate = .ok ()) : v.indexCatalog.size ≤ maxCatalogCollections :=
  (validate_iff.mp h).2

/-- Replacing an entry, or adding one below the bound, keeps a view valid. -/
theorem validate_insert (h : v.validate = .ok ()) {c : CollectionName} {e : CollectionIndexes}
    (hroom : v.indexCatalog[c]?.isSome = true ∨ v.indexCatalog.size < maxCatalogCollections) :
    { v with indexCatalog := v.indexCatalog.insert c e }.validate = .ok () := by
  rw [validate_catalog_iff h, ExtTreeMap.size_insert]
  have hsize := size_of_validate h
  rcases hroom with hc | hlt
  · rw [if_pos (by simpa [ExtTreeMap.isSome_getElem?_eq_contains] using hc)]
    exact hsize
  · split <;> omega

theorem validate_recordIndexChange (h : v.validate = .ok ()) (nodeId : NodeId) (c : CollectionName)
    (change : IndexChange) : (v.recordIndexChange nodeId c change).1.validate = .ok () := by
  unfold ClusterMetadata.recordIndexChange
  dsimp only
  split
  · exact h
  · split
    · exact h
    · split
      · exact h
      · next hfull =>
        apply validate_insert h
        cases hc : v.indexCatalog[c]? with
        | none => exact .inr (by simpa [hc] using hfull)
        | some e => exact .inl rfl

theorem validate_recordTtlChange (h : v.validate = .ok ()) (nodeId : NodeId) (c : CollectionName)
    (ttlSecs : Option ℕ) : (v.recordTtlChange nodeId c ttlSecs).1.validate = .ok () := by
  unfold ClusterMetadata.recordTtlChange
  dsimp only
  split
  · exact h
  · split
    · exact h
    · next hfull =>
      apply validate_insert h
      cases hc : v.indexCatalog[c]? with
      | none => exact .inr (by simpa [hc] using hfull)
      | some e => exact .inl rfl

theorem validate_forgetCollectionIndexes (h : v.validate = .ok ()) (nodeId : NodeId)
    (c : CollectionName) : (v.forgetCollectionIndexes nodeId c).1.validate = .ok () := by
  unfold ClusterMetadata.forgetCollectionIndexes
  split
  · next e hc =>
    split
    · exact h
    · exact validate_insert h (.inl (by simp [hc]))
  · exact h

/-- Adopting a valid view leaves a valid one, unless the two catalogues together pass the bound. -/
theorem validate_adopt_iff (hv : current.validate = .ok ())
    (hi : incoming.sanitized.validate = .ok ()) :
    (adopt current incoming).1.validate = .ok () ↔
      together current.indexCatalog (sanitizeCatalog incoming.indexCatalog) ≤
        maxCatalogCollections := by
  have htop : (adopt current incoming).1.TopologyOk := by
    have h := @adopt_topology current _ hi
    split at h
    · exact (topologyOk_congr h).mpr ((topologyOk_congr (sanitized_topology incoming)).mp
        (validate_iff.mp hi).1)
    · exact (topologyOk_congr h).mpr (validate_iff.mp hv).1
  rw [validate_iff_of_topologyOk htop, adopt_indexCatalog hi, size_mergeCatalog, together]

end Change

section Save

variable {v w existing : ClusterMetadata} {o : Outcome} {d : Disk}

structure DiskValid (d : Disk) : Prop where
  file : ∀ c ∈ d.file, ∃ v, c = .whole v ∧ v.validate = .ok ()
  tmp : ∀ v, d.tmp = some (.whole v) → v.validate = .ok ()
  sole : d.file = none → d.tmp ≠ some .torn

theorem DiskValid.load (h : DiskValid d) : ∃ r, load d = .ok r := by
  obtain ⟨file, tmp⟩ := d
  cases file with
  | some c =>
    obtain ⟨w, rfl, hw⟩ := h.file c rfl
    exact ⟨_, load_file (sanitized_valid hw) tmp⟩
  | none =>
    cases tmp with
    | none => exact ⟨none, rfl⟩
    | some c =>
      cases c with
      | torn => exact absurd rfl (h.sole rfl)
      | whole w => exact ⟨_, load_tmp (sanitized_valid (h.tmp w rfl))⟩

/-- What a save must not do: leave a torn staging file alone on the disk, or write a merge beyond
the bound. -/
structure SaveInBounds (v : ClusterMetadata) (o : Outcome) (d : Disk) : Prop where
  sole : o.fault = some .write → d.file = none → toWrite v (stored o d) = none
  merge : o.fault = none ∨ o.fault = some .syncOrRename → ∀ existing ∈ stored o d,
    v.supersedes existing = false →
      together existing.indexCatalog v.indexCatalog ≤ maxCatalogCollections

instance : Decidable (SaveInBounds v o d) :=
  decidable_of_iff
    ((o.fault = some .write → d.file = none → toWrite v (stored o d) = none) ∧
      (o.fault = none ∨ o.fault = some .syncOrRename → ∀ existing ∈ stored o d,
        v.supersedes existing = false →
          together existing.indexCatalog v.indexCatalog ≤ maxCatalogCollections))
    ⟨fun h => ⟨h.1, h.2⟩, fun h => ⟨h.1, h.2⟩⟩

theorem diskValid_writeAtomic_iff (hd : DiskValid d) : DiskValid (writeAtomic w o.fault d).1 ↔
    (o.fault = some .write → d.file ≠ none) ∧
      (o.fault = none ∨ o.fault = some .syncOrRename → w.validate = .ok ()) := by
  cases hf : o.fault with
  | none =>
    constructor
    · intro h
      obtain ⟨w', heq, hw⟩ := h.file _ rfl
      cases heq
      exact ⟨by simp, fun _ => hw⟩
    · rintro ⟨-, hw⟩
      refine ⟨fun c hc => ?_, by simp [writeAtomic], by simp [writeAtomic]⟩
      obtain rfl : Content.whole w = c := by simpa [writeAtomic] using hc
      exact ⟨w, rfl, hw (.inl rfl)⟩
  | some f =>
    cases f with
    | create => exact ⟨fun _ => by simp, fun _ => hd⟩
    | write =>
      constructor
      · exact fun h => ⟨fun _ hnone => h.sole hnone rfl, by simp⟩
      · exact fun h => ⟨hd.file, by simp [writeAtomic], fun hnone => absurd hnone (h.1 rfl)⟩
    | syncOrRename =>
      constructor
      · exact fun h => ⟨by simp, fun _ => h.tmp w rfl⟩
      · rintro ⟨-, hw⟩
        refine ⟨hd.file, fun w' hw' => ?_, by simp [writeAtomic]⟩
        obtain rfl : w = w' := by simpa [writeAtomic] using hw'
        exact hw (.inr rfl)

/-- A save of a valid view keeps the disk valid just if it meets the condition. -/
theorem diskValid_save_iff (hd : DiskValid d) (hv : v.validate = .ok ()) :
    DiskValid (save v o d).1 ↔ SaveInBounds v o d := by
  unfold save
  cases hs : stored o d with
  | none =>
    dsimp only [toWrite]
    rw [diskValid_writeAtomic_iff hd]
    constructor
    · exact fun h => ⟨fun hf hnone => absurd hnone (h.1 hf), by simp [hs]⟩
    · exact fun h => ⟨fun hf hnone => by simpa [hs, toWrite] using h.sole hf hnone, fun _ => hv⟩
  | some existing =>
    have hexisting : existing.validate = .ok () := (load_spec (stored_eq_some.mp hs).2).1
    by_cases hwins : v.supersedes existing = true
    · dsimp only [toWrite]
      rw [if_pos hwins, diskValid_writeAtomic_iff hd]
      constructor
      · exact fun h => ⟨fun hf hnone => absurd hnone (h.1 hf), by simp [hs, hwins]⟩
      · exact fun h => ⟨fun hf hnone => by simpa [hs, toWrite, hwins] using h.sole hf hnone,
          fun _ => hv⟩
    · dsimp only [toWrite]
      rw [if_neg hwins]
      by_cases hmoved : (existing.mergeFrom v.indexCatalog).2 = true
      · rw [if_pos hmoved]
        dsimp only
        rw [diskValid_writeAtomic_iff hd, validate_mergeFrom_iff hexisting]
        constructor
        · refine fun h => ⟨fun hf hnone => absurd hnone (h.1 hf), fun hf existing' hs' _ => ?_⟩
          obtain rfl : existing = existing' := by simpa [hs] using hs'
          exact h.2 hf
        · exact fun h => ⟨fun hf hnone =>
            by simpa [hs, toWrite, hwins, hmoved] using h.sole hf hnone,
            fun hf => h.merge hf existing hs (by simpa using hwins)⟩
      · rw [if_neg hmoved]
        refine ⟨fun _ => ⟨fun _ _ => by simp [hs, toWrite, hwins, hmoved],
          fun _ existing' hs' _ => ?_⟩, fun _ => hd⟩
        obtain rfl : existing = existing' := by simpa [hs] using hs'
        have hsame : (mergeCatalog existing.indexCatalog v.indexCatalog).1 =
          existing.indexCatalog :=
          mergeCatalog_of_not_moved (Bool.eq_false_iff.mpr hmoved)
        rw [together, ← size_mergeCatalog, hsame]
        exact size_of_validate hexisting

end Save

section Run

variable {nodeId : NodeId} {seed : ClusterMetadata} {s s' : State} {l : Label}

structure Valid (s : State) : Prop where
  memory : ∀ v ∈ s.memory, v.validate = .ok ()
  disk : DiskValid s.disk

def Phase.view? : Phase → Option ClusterMetadata
  | .saving v | .adopting v | .writing v => some v
  | .persisting => none

structure AllValid (s : State) : Prop extends Valid s where
  tasks : ∀ p ∈ s.tasks, ∀ v ∈ p.view?, v.validate = .ok ()

/-- What a step must not do: merge beyond the bound, or leave a torn staging file alone on the disk.
-/
def InBounds (seed : ClusterMetadata) (s : State) : Label → Prop
  | .save i o => ∀ p ∈ s.tasks[i]?, ∀ v ∈ p.toSave?, SaveInBounds v o s.disk
  | .adopt i => ∀ p ∈ s.tasks[i]?, ∀ v ∈ p.toAdopt?, ∀ current ∈ s.memory,
      together current.indexCatalog (sanitizeCatalog v.indexCatalog) ≤ maxCatalogCollections
  | .update (.merge incoming) => ∀ current ∈ s.memory,
      together current.indexCatalog incoming ≤ maxCatalogCollections
  | .boot o => load s.disk = .ok none → SaveInBounds seed o s.disk
  | _ => True

instance (s : State) : ∀ l, Decidable (InBounds seed s l)
  | .save i o => inferInstanceAs
      (Decidable (∀ p ∈ s.tasks[i]?, ∀ v ∈ p.toSave?, SaveInBounds v o s.disk))
  | .adopt i => inferInstanceAs (Decidable
      (∀ p ∈ s.tasks[i]?, ∀ v ∈ p.toAdopt?, ∀ current ∈ s.memory,
      together current.indexCatalog (sanitizeCatalog v.indexCatalog) ≤ maxCatalogCollections))
  | .update (.merge incoming) => inferInstanceAs (Decidable (∀ current ∈ s.memory,
      together current.indexCatalog incoming ≤ maxCatalogCollections))
  | .boot o => inferInstanceAs (Decidable (load s.disk = .ok none → SaveInBounds seed o s.disk))
  | .offer _ | .update (.index ..) | .update (.ttl ..) | .update (.forget _) | .clone _ | .crash =>
    isTrue trivial

theorem AllValid.after (h : AllValid s) {i : ℕ} {next : List Phase}
    (hnext : ∀ p ∈ next, ∀ v ∈ p.view?, v.validate = .ok ()) :
    ∀ p ∈ s.after i next, ∀ v ∈ p.view?, v.validate = .ok () := by
  intro p hp
  rcases mem_after hp with hp | hp
  · exact h.tasks p hp
  · exact hnext p hp

theorem AllValid.tasks_step (h : AllValid s) (hstep : step nodeId seed s l = some s') :
    ∀ p ∈ s'.tasks, ∀ v ∈ p.view?, v.validate = .ok () := by
  cases l with
  | offer incoming =>
    obtain ⟨current, hm, rfl⟩ := Option.map_eq_some_iff.mp hstep
    intro p hp v hv
    rcases List.mem_append.mp hp with hp | hp
    · exact h.tasks p hp v hv
    · obtain ⟨hvalid, rfl | rfl⟩ := offerPhase_mem hp <;> cases hv <;> exact hvalid
  | save i o =>
    simp only [step] at hstep
    split at hstep
    · next v hi =>
      obtain rfl := Option.some.inj hstep
      refine h.after fun p hp w hw => ?_
      obtain rfl := List.mem_singleton.mp hp
      exact h.tasks _ (List.mem_of_getElem? hi) w hw
    · obtain rfl := Option.some.inj hstep
      exact h.after (by simp)
    · cases hstep
  | adopt i =>
    simp only [step] at hstep
    split at hstep
    · obtain rfl := Option.some.inj hstep
      refine h.after fun p hp w hw => ?_
      split at hp
      · cases hp
      · obtain rfl := List.mem_singleton.mp hp
        cases hw
    · cases hstep
  | update u =>
    obtain ⟨current, hm, rfl⟩ := Option.map_eq_some_iff.mp hstep
    intro p hp v hv
    rcases List.mem_append.mp hp with hp | hp
    · exact h.tasks p hp v hv
    · split at hp
      · obtain rfl := List.mem_singleton.mp hp
        cases hv
      · cases hp
  | clone i =>
    simp only [step] at hstep
    split at hstep
    · next current _ hm =>
      obtain rfl := Option.some.inj hstep
      refine h.after fun p hp w hw => ?_
      obtain rfl := List.mem_singleton.mp hp
      cases hw
      exact h.memory current hm
    · cases hstep
  | crash =>
    obtain rfl := Option.some.inj hstep
    simp
  | boot o =>
    simp only [step] at hstep
    split at hstep
    · cases hstep
    · split at hstep
      · cases hstep
      · obtain rfl := Option.some.inj hstep
        simp
      · obtain rfl := Option.some.inj hstep
        simp

theorem AllValid.step_iff (hseed : seed.validate = .ok ()) (h : AllValid s)
    (hstep : step nodeId seed s l = some s') : Valid s' ↔ InBounds seed s l := by
  cases l with
  | offer incoming =>
    obtain ⟨current, hm, rfl⟩ := Option.map_eq_some_iff.mp hstep
    exact iff_of_true ⟨h.memory, h.disk⟩ trivial
  | save i o =>
    simp only [step] at hstep
    split at hstep
    · next v hi =>
      obtain rfl := Option.some.inj hstep
      have hv : v.validate = .ok () := h.tasks _ (List.mem_of_getElem? hi) v rfl
      have hdisk := diskValid_save_iff (o := o) h.disk hv
      constructor
      · rintro h' p hp w hw
        obtain rfl : Phase.saving v = p := by simpa [hi] using hp
        obtain rfl := Option.some.inj hw
        exact hdisk.mp h'.disk
      · exact fun h' => ⟨h.memory, hdisk.mpr (h' (.saving v) hi v rfl)⟩
    · next v hi =>
      obtain rfl := Option.some.inj hstep
      have hv : v.validate = .ok () := h.tasks _ (List.mem_of_getElem? hi) v rfl
      have hdisk := diskValid_save_iff (o := o) h.disk hv
      constructor
      · rintro h' p hp w hw
        obtain rfl : Phase.writing v = p := by simpa [hi] using hp
        obtain rfl := Option.some.inj hw
        exact hdisk.mp h'.disk
      · exact fun h' => ⟨h.memory, hdisk.mpr (h' (.writing v) hi v rfl)⟩
    · cases hstep
  | adopt i =>
    simp only [step] at hstep
    split at hstep
    · next v current hi hm =>
      obtain rfl := Option.some.inj hstep
      have hv : v.validate = .ok () := h.tasks _ (List.mem_of_getElem? hi) v rfl
      have hadopt := validate_adopt_iff (h.memory current hm) (sanitized_valid hv)
      constructor
      · intro h' p hp w hw current' hm'
        obtain rfl : Phase.adopting v = p := by simpa [hi] using hp
        obtain rfl := Option.some.inj hw
        obtain rfl : current = current' := by simpa [hm] using hm'
        exact hadopt.mp (h'.memory _ rfl)
      · refine fun h' => ⟨fun w hw => ?_, h.disk⟩
        obtain rfl := Option.some.inj hw
        exact hadopt.mpr (h' _ hi v rfl current hm)
    · cases hstep
  | update u =>
    obtain ⟨current, hm, rfl⟩ := Option.map_eq_some_iff.mp hstep
    have hcurrent : current.validate = .ok () := h.memory current hm
    have hkeep (hnext : (u.applyTo nodeId current).1.validate = .ok ()) :
        Valid { s with
          memory := some (u.applyTo nodeId current).1
          tasks := s.tasks ++ if (u.applyTo nodeId current).2 then [.persisting] else [] } :=
      ⟨fun w hw => Option.some.inj hw ▸ hnext, h.disk⟩
    cases u with
    | index c change => exact iff_of_true (hkeep
        (validate_recordIndexChange hcurrent nodeId c change)) trivial
    | ttl c ttlSecs => exact iff_of_true (hkeep
        (validate_recordTtlChange hcurrent nodeId c ttlSecs)) trivial
    | forget c => exact iff_of_true (hkeep
        (validate_forgetCollectionIndexes hcurrent nodeId c)) trivial
    | merge incoming =>
      constructor
      · intro h' current' hm'
        obtain rfl : current = current' := by simpa [hm] using hm'
        exact (validate_mergeFrom_iff hcurrent).mp (h'.memory _ rfl)
      · exact fun h' => hkeep ((validate_mergeFrom_iff hcurrent).mpr (h' current hm))
  | clone i =>
    simp only [step] at hstep
    split at hstep
    · obtain rfl := Option.some.inj hstep
      exact iff_of_true ⟨h.memory, h.disk⟩ trivial
    · cases hstep
  | crash =>
    obtain rfl := Option.some.inj hstep
    exact iff_of_true ⟨by simp, h.disk⟩ trivial
  | boot o =>
    simp only [step] at hstep
    split at hstep
    · cases hstep
    · split at hstep
      · cases hstep
      · next v hload =>
        obtain rfl := Option.some.inj hstep
        refine iff_of_true ⟨fun w hw => ?_, h.disk⟩ fun hnone => ?_
        · exact Option.some.inj hw ▸ (load_spec hload).1
        · cases hload.symm.trans hnone
      · next hload =>
        obtain rfl := Option.some.inj hstep
        have hdisk := diskValid_save_iff (o := o) h.disk hseed
        constructor
        · exact fun h' _ => hdisk.mp h'.disk
        · exact fun h' => ⟨fun w hw => Option.some.inj hw ▸ hseed, hdisk.mpr (h' hload)⟩

/-- The view in memory and those on disk are valid throughout a run just if all its steps stay in
the bounds. Where they are, the node can read its own files and no node rejects its view. -/
theorem own_view_valid {ls : List Label} (hseed : seed.validate = .ok ()) (hvalid : Valid s)
    (hidle : s.tasks = []) (hrun : run (step nodeId seed) s ls = some s') :
    (Meets (step nodeId seed) (InBounds seed) s ls ↔
        ∀ k t, run (step nodeId seed) s (ls.take k) = some t → Valid t) ∧
      ∀ t, Valid t → (∃ r, load t.disk = .ok r) ∧
        ∀ v ∈ t.memory, ∀ peer why, (adopt peer v).2 ≠ .rejected why := by
  refine ⟨?_, fun t ht => ⟨ht.disk.load, fun v hv peer =>
    adopt_ne_rejected (sanitized_valid (ht.memory v hv))⟩⟩
  exact meets_iff_throughout_of (I := AllValid) (fun _ h => h.toValid)
    (fun _ _ _ h hs => h.step_iff hseed hs)
    (fun _ _ _ h hs h' => ⟨h', h.tasks_step hs⟩) hrun ⟨hvalid, by simp [hidle]⟩

end Run

section Full

/-- Names of thirteen characters, one for each text of twelve bits. -/
def bitName (bits : List Bool) : CollectionName := 'z' :: bits.map fun b => if b then '1' else '0'

def bitTexts : ℕ → List (List Bool)
  | 0 => [[]]
  | n + 1 => (bitTexts n).map (false :: ·) ++ (bitTexts n).map (true :: ·)

theorem length_bitTexts (n : ℕ) : (bitTexts n).length = 2 ^ n := by
  induction n with
  | zero => rfl
  | succ n ih =>
    simp only [bitTexts, List.length_append, List.length_map, ih]
    omega

theorem nodup_bitTexts (n : ℕ) : (bitTexts n).Nodup := by
  induction n with
  | zero => exact List.nodup_singleton _
  | succ n ih =>
    apply List.Nodup.append
    · exact ih.map fun a b h => (List.cons.inj h).2
    · exact ih.map fun a b h => (List.cons.inj h).2
    · intro x hx hy
      obtain ⟨a, -, rfl⟩ := List.mem_map.mp hx
      obtain ⟨b, -, hb⟩ := List.mem_map.mp hy
      cases hb

theorem bitName_injective : Function.Injective bitName := by
  intro a b h
  refine List.map_injective_iff.mpr (fun x y hxy => ?_) (List.cons.inj h).2
  cases x <;> cases y <;> simp_all

def timed : CollectionIndexes := ⟨1, ['n'], [], some 60⟩

def fullCatalog : IndexCatalog :=
  ExtTreeMap.ofList ((bitTexts 12).map fun bits => (bitName bits, timed)) compare

theorem size_fullCatalog : fullCatalog.size = maxCatalogCollections := by
  rw [fullCatalog, ExtTreeMap.size_ofList]
  · rw [List.length_map, length_bitTexts]
    rfl
  · rw [List.pairwise_map]
    refine (nodup_bitTexts 12).imp fun hne heq => hne (bitName_injective ?_)
    exact Std.LawfulEqCmp.eq_of_compare heq

def full : ClusterMetadata := ⟨2, ['n'], false, [], [], none, none, fullCatalog⟩

def one : IndexCatalog := (∅ : IndexCatalog).insert ['a'] timed

theorem full_valid : full.validate = .ok () := by
  have hempty : ({ full with indexCatalog := ∅ } : ClusterMetadata).validate = .ok () := by decide
  exact (validate_catalog_iff hempty).mpr size_fullCatalog.le

theorem getElem?_fullCatalog : fullCatalog[['a']]? = none := by
  rw [fullCatalog, ExtTreeMap.getElem?_ofList_of_contains_eq_false]
  rw [Bool.eq_false_iff, ne_eq, List.contains_iff_mem, List.map_map, List.mem_map]
  rintro ⟨bits, -, h⟩
  exact absurd (List.cons.inj h).1 (by decide)

theorem lt_together_full : maxCatalogCollections < together fullCatalog one := by
  have hone : ['a'] ∈ names (sanitizeCatalog one) := by
    refine mem_names.mpr ⟨timed, ?_⟩
    rw [getElem?_sanitizeCatalog, one, ExtTreeMap.getElem?_insert_self]
    decide
  have hout : ['a'] ∉ names fullCatalog := by
    rw [mem_names, getElem?_fullCatalog]
    simp
  have hsub : insert ['a'] (names fullCatalog) ⊆ names fullCatalog ∪ names (sanitizeCatalog one) :=
    Finset.insert_subset (Finset.mem_union_right _ hone) Finset.subset_union_left
  have hcard := Finset.card_le_card hsub
  rw [Finset.card_insert_of_notMem hout, card_names, size_fullCatalog] at hcard
  exact hcard

def fullNode : State := ⟨⟨some (.whole full), none⟩, some full, [], true⟩

theorem fullNode_valid : Valid fullNode where
  memory v hv := Option.some.inj hv ▸ full_valid
  disk := ⟨fun c hc => ⟨full, (Option.some.inj hc).symm, full_valid⟩, by simp [fullNode],
    by simp [fullNode]⟩

/-- A node with a full catalogue takes one more collection from another one's. -/
theorem own_view_valid_fails : ¬ ∀ (s s' : State) (ls : List Label), Valid s → s.tasks = [] →
    run (step ['n'] full) s ls = some s' → Valid s' := by
  intro h
  have hnext : step ['n'] full fullNode (.update (.merge one)) = some _ := rfl
  have hbad := h fullNode _ [.update (.merge one)] fullNode_valid rfl (run_cons.mpr ⟨_, hnext, rfl⟩)
  have hmerged := (validate_mergeFrom_iff full_valid).mp (hbad.memory (full.mergeFrom one).1 rfl)
  exact absurd lt_together_full (not_lt.mpr hmerged)

def bare : ClusterMetadata := ⟨1, ['n'], true, [], [], none, none, ∅⟩

/-- The next view, from a node that has heard of the TTL of `a` and has one for `b`. -/
def heard : ClusterMetadata :=
  ⟨2, ['m'], false, [], [], none, none, one.insert ['b'] ⟨1, ['m'], [], some 5⟩⟩

/-- It records a TTL and saves it, takes the next view, merges a catalogue that has a newer entry
for `b`, and starts again. -/
def ttlLabels : List Label :=
  [.boot ⟨true, none⟩, .update (.ttl ['a'] (some 60)), .clone 0, .save 0 ⟨true, none⟩, .offer heard,
    .save 0 ⟨true, none⟩, .adopt 0, .clone 0, .save 0 ⟨true, none⟩,
    .update (.merge ((∅ : IndexCatalog).insert ['b'] ⟨2, ['m'], [], none⟩)), .clone 0,
    .save 0 ⟨true, none⟩, .crash, .boot ⟨true, none⟩]

theorem own_view_valid_bare : ∃ s', run (step ['n'] bare)
    ⟨⟨none, none⟩, none, [], true⟩ ttlLabels = some s' ∧
    ∀ k t, run (step ['n'] bare) ⟨⟨none, none⟩, none, [], true⟩ (ttlLabels.take k) = some t →
      Valid t := by
  have hempty : Valid ⟨⟨none, none⟩, none, [], true⟩ := ⟨by simp, ⟨by simp, by simp, by simp⟩⟩
  obtain ⟨s', hrun⟩ : ∃ s', run (step ['n'] bare) ⟨⟨none, none⟩, none, [],
    true⟩ ttlLabels = some s' :=
    Option.isSome_iff_exists.mp (by decide +kernel)
  exact ⟨s', hrun, (own_view_valid (by decide) hempty rfl hrun).1.mp (by decide +kernel)⟩

end Full

end DewDB.DurableView
