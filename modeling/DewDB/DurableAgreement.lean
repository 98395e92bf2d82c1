import DewDB.DurableOrder

/-!
# Views that agree

Where views have the same id they should have the same topology, and where entries have the same
stamp they should be equal. What a node puts together from views that agree agrees with them, and a
change that it records is newer than what it replaces.
-/
namespace DewDB.DurableView

open Std (ExtTreeMap)
open ReplicationMeta (NodeId)
open CatalogMerge hiding supersedes_iff not_supersedes_self
open Vote StorageEntry ClusterMeta TransitionSystem

section Agreement

variable {v w a b : ClusterMetadata} {H : ClusterMetadata → Prop}

/-- Where two views have the same id they have the same topology, and entries of the same stamp are
equal. -/
structure Agree (v w : ClusterMetadata) : Prop where
  topology : SameId v w → v.topology = w.topology
  entries : ∀ (k : CollectionName) (e f : CollectionIndexes), v.indexCatalog[k]? = some e →
    w.indexCatalog[k]? = some f → e.stamp = f.stamp → e = f

theorem Agree.refl (v : ClusterMetadata) : Agree v v :=
  ⟨fun _ => rfl, fun _ _ _ he hf _ => Option.some.inj (he.symm.trans hf)⟩

theorem Agree.symm (h : Agree v w) : Agree w v :=
  ⟨fun hid => (h.topology hid.symm).symm, fun k e f he hf hef =>
    (h.entries k f e hf he hef.symm).symm⟩

theorem Agree.eq (h : Agree v w) (hid : SameId v w) (hvw : CatLe v.indexCatalog w.indexCatalog)
    (hwv : CatLe w.indexCatalog v.indexCatalog) : v = w := by
  have hle (k : CollectionName) (e : CollectionIndexes) (he : v.indexCatalog[k]? = some e) :
      w.indexCatalog[k]? = some e := by
    obtain ⟨f, hf, hef⟩ := hvw k e he
    obtain ⟨g, hg, hfg⟩ := hwv k f hf
    obtain rfl : e = g := Option.some.inj (he.symm.trans hg)
    rw [hf, h.entries k e f he hf (le_antisymm hef hfg)]
  refine eq_of_topology_of_indexCatalog (h.topology hid) (ExtTreeMap.ext_getElem? fun k => ?_)
  cases hv : v.indexCatalog[k]? with
  | some e => exact (hle k e hv).symm
  | none =>
    cases hw : w.indexCatalog[k]? with
    | none => rfl
    | some f =>
      obtain ⟨e, he, -⟩ := hwv k f hw
      cases hv.symm.trans he

structure Derived (H : ClusterMetadata → Prop) (v : ClusterMetadata) : Prop where
  topology : ∃ h, H h ∧ v.topology = h.topology
  entries : ∀ (k : CollectionName) (e : CollectionIndexes), v.indexCatalog[k]? = some e →
    ∃ h, H h ∧ h.indexCatalog[k]? = some e

theorem Derived.of (h : H v) : Derived H v := ⟨⟨v, h, rfl⟩, fun _ _ he => ⟨v, h, he⟩⟩

theorem Derived.agree (hH : ∀ v w, H v → H w → Agree v w) (hv : Derived H v) (hw : Derived H w) :
    Agree v w := by
  constructor
  · intro hid
    obtain ⟨x, hx, hvx⟩ := hv.topology
    obtain ⟨y, hy, hwy⟩ := hw.topology
    have hxy : SameId x y := ((SameId.of_topology hvx).symm.trans hid).trans (.of_topology hwy)
    exact hvx.trans (((hH x y hx hy).topology hxy).trans hwy.symm)
  · intro k e f he hf hef
    obtain ⟨x, hx, hxe⟩ := hv.entries k e he
    obtain ⟨y, hy, hyf⟩ := hw.entries k f hf
    exact (hH x y hx hy).entries k e f hxe hyf hef

theorem Derived.merge {x : ClusterMetadata} (ha : H a) (hb : H b)
    (htop : x.topology = a.topology ∨ x.topology = b.topology)
    (hcat : x.indexCatalog = (mergeCatalog a.indexCatalog b.indexCatalog).1) : Derived H x where
  topology := by
    rcases htop with h | h
    · exact ⟨a, ha, h⟩
    · exact ⟨b, hb, h⟩
  entries k e he := by
    rw [hcat] at he
    rcases mem_mergeCatalog he with he | he
    · exact ⟨a, ha, he⟩
    · exact ⟨b, hb, he.1⟩

theorem Written.derived {old : ClusterMetadata} (h : Written v old w) (hold : H old) (hv : H v) :
    Derived H w := by
  cases h with
  | onto => exact .of hv
  | merged => exact .merge hold hv (.inl rfl) rfl

end Agreement

section Update

variable {nodeId : NodeId} {v : ClusterMetadata} {u : CatalogUpdate}

def CatalogUpdate.collection? : CatalogUpdate → Option CollectionName
  | .index c _ | .ttl c _ | .forget c => some c
  | .merge _ => none

/-- What a recorded change needs: a version below the greatest one, and an entry that nodes can act
on. -/
structure CatalogUpdate.Fits (nodeId : NodeId) (v : ClusterMetadata)
    (u : CatalogUpdate) : Prop where
  version : ∀ c ∈ u.collection?, ∀ e ∈ v.indexCatalog[c]?, e.version + 1 < 2 ^ 64
  addressable : ∀ c ∈ u.collection?, ∀ e ∈ (u.applyTo nodeId v).1.indexCatalog[c]?,
    addressable c e = true

/-- The entry that a change makes: the next version, from this node. -/
def Recorded (nodeId : NodeId) (v : ClusterMetadata) (c : CollectionName)
    (r : ClusterMetadata × Bool) : Prop :=
  r = (v, false) ∨ ∃ e, e.version = nextVersion
    ((v.indexCatalog[c]?.map CollectionIndexes.version).getD 0) ∧
    e.updatedBy = nodeId ∧ r = ({ v with indexCatalog := v.indexCatalog.insert c e }, true)

theorem recorded_index (c : CollectionName) (change : IndexChange) :
    Recorded nodeId v c (v.recordIndexChange nodeId c change) := by
  unfold ClusterMetadata.recordIndexChange
  dsimp only
  split
  · exact .inl rfl
  · split
    · exact .inl rfl
    · split
      · exact .inl rfl
      · exact .inr ⟨_, rfl, rfl, rfl⟩

theorem recorded_ttl (c : CollectionName) (ttlSecs : Option ℕ) :
    Recorded nodeId v c (v.recordTtlChange nodeId c ttlSecs) := by
  unfold ClusterMetadata.recordTtlChange
  dsimp only
  split
  · exact .inl rfl
  · split
    · exact .inl rfl
    · exact .inr ⟨_, rfl, rfl, rfl⟩

theorem recorded_forget (c : CollectionName) : Recorded nodeId v c
    (v.forgetCollectionIndexes nodeId c) := by
  unfold ClusterMetadata.forgetCollectionIndexes
  split
  · next e hc =>
    split
    · exact .inl rfl
    · exact .inr ⟨⟨nextVersion e.version, nodeId, [], none⟩, by simp [hc], rfl, rfl⟩
  · exact .inl rfl

theorem recorded_of_collection {c : CollectionName} (h : u.collection? = some c) :
    Recorded nodeId v c (u.applyTo nodeId v) := by
  cases u with
  | index c' change => cases h; exact recorded_index c change
  | ttl c' ttlSecs => cases h; exact recorded_ttl c ttlSecs
  | forget c' => cases h; exact recorded_forget c
  | merge incoming => cases h

theorem applyTo_topology : (u.applyTo nodeId v).1.topology = v.topology := by
  cases hc : u.collection? with
  | none => cases u <;> first | rfl | cases hc
  | some c =>
    rcases @recorded_of_collection nodeId v _ _ hc with h | ⟨e, -, -, h⟩
    · rw [h]
    · rw [h]
      rfl

theorem applyTo_of_not_moved (h : (u.applyTo nodeId v).2 = false) : (u.applyTo nodeId v).1 = v := by
  cases hc : u.collection? with
  | none =>
    cases u with
    | merge incoming => exact eq_of_topology_of_indexCatalog rfl (mergeCatalog_of_not_moved h)
    | _ => cases hc
  | some c =>
    rcases @recorded_of_collection nodeId v _ _ hc with hr | ⟨e, -, -, hr⟩
    · rw [hr]
    · rw [hr] at h
      cases h

theorem CatalogUpdate.Fits.catLe (h : u.Fits nodeId v) :
    CatLe v.indexCatalog (u.applyTo nodeId v).1.indexCatalog := by
  cases hc : u.collection? with
  | none =>
    cases u with
    | merge incoming => exact catLe_mergeCatalog _ _
    | _ => cases hc
  | some c =>
    rcases @recorded_of_collection nodeId v _ _ hc with hr | ⟨e, hver, -, hr⟩
    · rw [hr]
      exact .refl _
    · rw [hr]
      intro k f hf
      by_cases hk : c = k
      · subst hk
        refine ⟨e, ExtTreeMap.getElem?_insert_self, ?_⟩
        have hlt : f.version < e.version := by
          have hmax := h.version c hc f hf
          rw [hver, hf, Option.map_some, Option.getD_some, nextVersion, Nat.mod_eq_of_lt hmax]
          omega
        exact (Prod.Lex.toLex_lt_toLex.mpr (.inl hlt)).le
      · refine carries_self ?_
        rw [ExtTreeMap.getElem?_insert, if_neg (by simpa using hk)]
        exact hf

theorem CatalogUpdate.Fits.clean (h : u.Fits nodeId v) (hv : Clean v.indexCatalog) :
    Clean (u.applyTo nodeId v).1.indexCatalog := by
  cases hc : u.collection? with
  | none =>
    cases u with
    | merge incoming => exact hv.merge incoming
    | _ => cases hc
  | some c =>
    intro k f hf
    by_cases hk : c = k
    · subst hk
      exact h.addressable c hc f hf
    · apply hv k f
      rcases @recorded_of_collection nodeId v _ _ hc with hr | ⟨e, -, -, hr⟩
      · rwa [hr] at hf
      · rwa [hr, ExtTreeMap.getElem?_insert, if_neg (by simpa using hk)] at hf

end Update

end DewDB.DurableView
