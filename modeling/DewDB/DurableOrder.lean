import DewDB.OwnViewValid

/-!
# The order of stored views

Views are ordered by id and catalogues entry by entry. A save moves the disk up in both orders,
except that a view written over the stored one takes its whole catalogue with it, and must bring all
that was stored.
-/
namespace DewDB.DurableView

open Std (ExtTreeMap)
open ReplicationMeta (NodeId)
open CatalogMerge hiding supersedes_iff not_supersedes_self
open Vote StorageEntry ClusterMeta TransitionSystem

section Ids

variable {v w x v' w' : ClusterMetadata}

structure SameId (v w : ClusterMetadata) : Prop where
  version : v.version = w.version
  updatedBy : v.updatedBy = w.updatedBy
  seeded : v.seeded = w.seeded

instance : Decidable (SameId v w) :=
  decidable_of_iff (v.version = w.version ∧ v.updatedBy = w.updatedBy ∧ v.seeded = w.seeded)
    ⟨fun h => ⟨h.1, h.2.1, h.2.2⟩, fun h => ⟨h.version, h.updatedBy, h.seeded⟩⟩

theorem SameId.refl (v : ClusterMetadata) : SameId v v := ⟨rfl, rfl, rfl⟩

theorem SameId.symm (h : SameId v w) : SameId w v :=
  ⟨h.version.symm, h.updatedBy.symm, h.seeded.symm⟩

theorem SameId.trans (h : SameId v w) (h' : SameId w x) : SameId v x :=
  ⟨h.version.trans h'.version, h.updatedBy.trans h'.updatedBy, h.seeded.trans h'.seeded⟩

theorem SameId.of_topology (h : v.topology = w.topology) : SameId v w := by
  have hid : SameId v.topology w.topology := h ▸ .refl _
  exact ⟨hid.version, hid.updatedBy, hid.seeded⟩

theorem SameId.supersedes_eq (h : SameId v v') (h' : SameId w w') :
    v.supersedes w = v'.supersedes w' := by
  rw [Bool.eq_iff_iff, supersedes_iff, supersedes_iff, h.version, h.updatedBy, h.seeded, h'.version,
    h'.updatedBy, h'.seeded]

theorem supersedes_trans (h : v.supersedes w = true) (h' : w.supersedes x = true) :
    v.supersedes x = true := by
  rw [supersedes_iff] at h h' ⊢
  obtain ⟨hv, h⟩ := h
  obtain ⟨hw, h'⟩ := h'
  rcases h with ⟨hw', -⟩ | ⟨-, h⟩
  · simp [hw] at hw'
  · refine ⟨hv, ?_⟩
    rcases h' with ⟨hx, hle⟩ | ⟨hx, h'⟩
    · exact .inl ⟨hx, by omega⟩
    · refine .inr ⟨hx, ?_⟩
      rcases h with h | ⟨h, hby⟩ <;> rcases h' with h' | ⟨h', hby'⟩
      · exact .inl (by omega)
      · exact .inl (by omega)
      · exact .inl (by omega)
      · exact .inr ⟨by omega, hby'.trans hby⟩

/-- `w` has the id of `v` or an older one. -/
def IdLe (w v : ClusterMetadata) : Prop := SameId v w ∨ v.supersedes w = true

instance : Decidable (IdLe w v) := inferInstanceAs (Decidable (SameId v w ∨ v.supersedes w = true))

theorem IdLe.refl (v : ClusterMetadata) : IdLe v v := .inl (.refl v)

theorem IdLe.trans (h : IdLe x w) (h' : IdLe w v) : IdLe x v := by
  rcases h with h | h <;> rcases h' with h' | h'
  · exact .inl (h'.trans h)
  · exact .inr ((SameId.refl v).supersedes_eq h ▸ h')
  · exact .inr (h'.supersedes_eq (.refl x) ▸ h)
  · exact .inr (supersedes_trans h' h)

theorem IdLe.not_supersedes (h : IdLe w v) : w.supersedes v = false := by
  rw [Bool.eq_false_iff]
  intro hwv
  rcases h with h | h
  · rw [(SameId.refl w).supersedes_eq h, not_supersedes_self] at hwv
    cases hwv
  · have hself := supersedes_trans h hwv
    rw [not_supersedes_self] at hself
    cases hself

theorem IdLe.antisymm (h : IdLe w v) (h' : IdLe v w) : SameId v w := by
  rcases h with h | h
  · exact h
  · rw [h'.not_supersedes] at h
    cases h

theorem IdLe.sameId_of_seeded (h : IdLe w v) (hv : v.seeded = true) : SameId v w := by
  rcases h with h | h
  · exact h
  · rw [supersedes_iff] at h
    simp [hv] at h

theorem idLe_of_not_supersedes (hv : v.seeded = false) (hw : w.seeded = false)
    (h : v.supersedes w = false) : IdLe v w := by
  by_cases hwv : w.supersedes v = true
  · exact .inr hwv
  · rw [Bool.eq_false_iff, ne_eq, supersedes_iff] at h
    rw [supersedes_iff] at hwv
    have hver : w.version = v.version := by
      rcases lt_trichotomy w.version v.version with hlt | heq | hgt
      · exact absurd ⟨hv, .inr ⟨hw, .inl hlt⟩⟩ h
      · exact heq
      · exact absurd ⟨hw, .inr ⟨hv, .inl hgt⟩⟩ hwv
    refine .inl ⟨hver, ?_, hw.trans hv.symm⟩
    rcases lt_trichotomy w.updatedBy v.updatedBy with hlt | heq | hgt
    · exact absurd ⟨hv, .inr ⟨hw, .inr ⟨hver, hlt⟩⟩⟩ h
    · exact heq
    · exact absurd ⟨hw, .inr ⟨hv, .inr ⟨hver.symm, hgt⟩⟩⟩ hwv

end Ids

section Catalogs

variable {a b c : IndexCatalog} {k : CollectionName} {e f : CollectionIndexes}

def Carries (a : IndexCatalog) (k : CollectionName) (e : CollectionIndexes) : Prop :=
  ∃ f, a[k]? = some f ∧ e.stamp ≤ f.stamp

def CatLe (a b : IndexCatalog) : Prop := ∀ k e, a[k]? = some e → Carries b k e

theorem carries_self (h : a[k]? = some e) : Carries a k e := ⟨e, h, le_rfl⟩

theorem Carries.mono (h : Carries a k e) (hle : CatLe a b) : Carries b k e := by
  obtain ⟨f, hf, hef⟩ := h
  obtain ⟨g, hg, hfg⟩ := hle k f hf
  exact ⟨g, hg, hef.trans hfg⟩

theorem CatLe.refl (a : IndexCatalog) : CatLe a a := fun _ _ h => carries_self h

theorem CatLe.trans (h : CatLe a b) (h' : CatLe b c) : CatLe a c := fun k e he => (h k e he).mono h'

theorem catLe_mergeCatalog (a b : IndexCatalog) : CatLe a (mergeCatalog a b).1 :=
  fun _ _ h => le_mergeCatalog h

theorem catLe_mergeCatalog_right (a : IndexCatalog) (hb : Clean b) : CatLe b (mergeCatalog a b).1 :=
  fun k e h => le_mergeCatalog_right h (hb k e h)

end Catalogs

section Saves

variable {v w old : ClusterMetadata} {o : Outcome} {d : Disk}

/-- What a save must do beside staying in the bounds: where it writes its view over a stored one,
because that loses or cannot be read, the view is no older and has all entries that were stored. -/
structure SaveKeeps (v : ClusterMetadata) (o : Outcome)
    (d : Disk) : Prop extends SaveInBounds v o d where
  onto : ∀ old, load d = .ok (some old) → (o.readable = true → v.supersedes old = true) →
    IdLe old v ∧ CatLe old.indexCatalog v.indexCatalog

/-- What a save of `v` has to write over `old`: `v` itself, or `old` with the newer entries. -/
inductive Written (v old : ClusterMetadata) : ClusterMetadata → Prop where
  | onto (hid : IdLe old v) (hcat : CatLe old.indexCatalog v.indexCatalog) : Written v old v
  | merged (hloses : v.supersedes old = false) : Written v old (old.mergeFrom v.indexCatalog).1

theorem written_of_toWrite (h : SaveKeeps v o d) (hd : load d = .ok (some old))
    (hw : toWrite v (stored o d) = some w) : Written v old w := by
  cases hs : stored o d with
  | none =>
    rw [hs] at hw
    obtain rfl := Option.some.inj hw
    have hread : o.readable = false := by
      rw [Bool.eq_false_iff]
      intro hr
      rw [stored_eq_some.mpr ⟨hr, hd⟩] at hs
      cases hs
    obtain ⟨hid, hcat⟩ := h.onto old hd (by simp [hread])
    exact .onto hid hcat
  | some existing =>
    obtain ⟨-, hload⟩ := stored_eq_some.mp hs
    obtain rfl : old = existing := by simpa [hd] using hload
    rw [hs, toWrite] at hw
    split at hw
    · next hwins =>
      obtain rfl := Option.some.inj hw
      obtain ⟨hid, hcat⟩ := h.onto old hd fun _ => hwins
      exact .onto hid hcat
    · next hloses =>
      split at hw
      · obtain rfl := Option.some.inj hw
        exact .merged (Bool.eq_false_iff.mpr hloses)
      · cases hw

theorem written_of_toWrite_none (hd : load d = .ok (some old))
    (hw : toWrite v (stored o d) = none) : Written v old old := by
  cases hs : stored o d with
  | none => simp [hs, toWrite] at hw
  | some existing =>
    obtain ⟨-, hload⟩ := stored_eq_some.mp hs
    obtain rfl : old = existing := by simpa [hd] using hload
    rw [hs, toWrite] at hw
    split at hw
    · cases hw
    · next hloses =>
      split at hw
      · cases hw
      · next hsame =>
        have hcat : (mergeCatalog old.indexCatalog v.indexCatalog).1 = old.indexCatalog :=
          mergeCatalog_of_not_moved (Bool.eq_false_iff.mpr hsame)
        have hmerged : (old.mergeFrom v.indexCatalog).1 = old :=
          eq_of_topology_of_indexCatalog rfl hcat
        have h := Written.merged (Bool.eq_false_iff.mpr hloses)
        rwa [hmerged] at h

theorem sanitized_of_clean (hclean : Clean v.indexCatalog) : v.sanitized = v :=
  eq_of_topology_of_indexCatalog rfl (sanitizeCatalog_of_clean hclean)

theorem Written.idLe (h : Written v old w) : IdLe old w := by
  cases h with
  | onto hid _ => exact hid
  | merged _ => exact .inl ⟨rfl, rfl, rfl⟩

theorem Written.catLe (h : Written v old w) : CatLe old.indexCatalog w.indexCatalog := by
  cases h with
  | onto _ hcat => exact hcat
  | merged _ => exact catLe_mergeCatalog _ _

theorem Written.catLe_right (h : Written v old w) (hv : Clean v.indexCatalog) :
    CatLe v.indexCatalog w.indexCatalog := by
  cases h with
  | onto _ _ => exact .refl _
  | merged _ => exact catLe_mergeCatalog_right _ hv

theorem toWrite_valid (h : SaveInBounds v o d) (hv : v.validate = .ok ())
    (hclean : Clean v.indexCatalog)
    (hfault : o.fault = none ∨ o.fault = some .syncOrRename)
    (hw : toWrite v (stored o d) = some w) : w.validate = .ok () ∧ Clean w.indexCatalog := by
  cases hs : stored o d with
  | none =>
    rw [hs] at hw
    exact Option.some.inj hw ▸ ⟨hv, hclean⟩
  | some existing =>
    obtain ⟨hvalid, hexisting⟩ := load_spec (stored_eq_some.mp hs).2
    rw [hs, toWrite] at hw
    split at hw
    · exact Option.some.inj hw ▸ ⟨hv, hclean⟩
    · next hloses =>
      split at hw
      · obtain rfl := Option.some.inj hw
        have hbound := h.merge hfault existing hs (Bool.eq_false_iff.mpr hloses)
        exact ⟨(validate_mergeFrom_iff hvalid).mpr hbound, hexisting.merge _⟩
      · cases hw

/-- What is read after a save: what was there, or, in any case where it succeeds, what was to be
written. -/
theorem load_save (hd : DiskValid d) (h : SaveInBounds v o d) (hv : v.validate = .ok ())
    (hclean : Clean v.indexCatalog) :
    (load (save v o d).1 = load d ∧ ((save v o d).2 = true → toWrite v (stored o d) = none)) ∨
      ∃ w, toWrite v (stored o d) = some w ∧ load (save v o d).1 = .ok (some w) := by
  unfold save
  cases hto : toWrite v (stored o d) with
  | none => exact .inl ⟨rfl, fun _ => rfl⟩
  | some w =>
    have hload (hfault : o.fault = none ∨ o.fault = some .syncOrRename) (file tmp : Option Content)
        (hw : file = some (.whole w) ∨ file = none ∧ tmp = some (.whole w)) :
        load ⟨file, tmp⟩ = .ok (some w) := by
      obtain ⟨hvalid, hclean⟩ := toWrite_valid h hv hclean hfault hto
      rcases hw with rfl | ⟨rfl, rfl⟩
      · rw [load_file (sanitized_valid hvalid), sanitized_of_clean hclean]
      · rw [load_tmp (sanitized_valid hvalid), sanitized_of_clean hclean]
    obtain ⟨file, tmp⟩ := d
    cases hf : o.fault with
    | none => exact .inr ⟨w, rfl, hload (.inl hf) _ _ (.inl rfl)⟩
    | some f =>
      cases file with
      | some c =>
        obtain ⟨u, rfl, hu⟩ := hd.file c rfl
        left
        cases f <;> simp [writeAtomic, load_file (sanitized_valid hu)]
      | none =>
        cases f with
        | create => exact .inl ⟨rfl, by simp [writeAtomic]⟩
        | write =>
          have hnone := h.sole hf rfl
          rw [hto] at hnone
          cases hnone
        | syncOrRename => exact .inr ⟨w, rfl, hload (.inr hf) _ _ (.inr ⟨rfl, rfl⟩)⟩

/-- A save that keeps what is stored moves it forward, however the save ends. -/
theorem forward_of_save (hd : DiskValid d) (h : SaveKeeps v o d) (hv : v.validate = .ok ())
    (hclean : Clean v.indexCatalog) (hold : load d = .ok (some old)) :
    ∃ next, load (save v o d).1 = .ok (some next) ∧ IdLe old next ∧
      CatLe old.indexCatalog next.indexCatalog := by
  rcases load_save hd h.toSaveInBounds hv hclean with ⟨hsame, -⟩ | ⟨w, hto, hload⟩
  · exact ⟨old, hsame.trans hold, .refl old, .refl _⟩
  · have hw := written_of_toWrite h hold hto
    exact ⟨w, hload, hw.idLe, hw.catLe⟩

theorem written_of_save (hd : DiskValid d) (h : SaveKeeps v o d) (hv : v.validate = .ok ())
    (hclean : Clean v.indexCatalog) (hok : (save v o d).2 = true) (hold : load d = .ok (some old)) :
    ∃ next, load (save v o d).1 = .ok (some next) ∧ Written v old next := by
  rcases load_save hd h.toSaveInBounds hv hclean with ⟨hsame, hnone⟩ | ⟨w, hto, hload⟩
  · exact ⟨old, hsame.trans hold, written_of_toWrite_none hold (hnone hok)⟩
  · exact ⟨w, hload, written_of_toWrite h hold hto⟩

end Saves

end DewDB.DurableView
