import DewDB.ClusterMeta

/-!
# Adoption as a join

Adopting a number of views keeps the topology with the greatest id and, for every collection, the
newest of its entries. So it does not matter in which order the views arrive, nor how often.
-/
namespace DewDB.ClusterMeta

open Std (ExtTreeMap)
open Endpoint ReplicationMeta Vote CatalogMerge NewestStamp
open ClusterView (NodeConfig)

def adoptAll (current : ClusterMetadata) (views : List ClusterMetadata) : ClusterMetadata :=
  views.foldl (fun c v => (adopt c v).1) current

def ClusterMetadata.stamp (v : ClusterMetadata) : Stamp := toLex (v.version, v.updatedBy)

/-- The id of a view names one topology, and the stamp of an entry one content. -/
structure Consistent (views : List ClusterMetadata) : Prop where
  topology : ∀ v ∈ views, ∀ w ∈ views, v.version = w.version → v.updatedBy = w.updatedBy →
    v.topology = w.topology
  entry : ∀ v ∈ views, ∀ w ∈ views, ∀ (c : CollectionName) (e f : CollectionIndexes),
    v.indexCatalog[c]? = some e → w.indexCatalog[c]? = some f →
      e.version = f.version → e.updatedBy = f.updatedBy → e = f

variable {current v w : ClusterMetadata} {views views' : List ClusterMetadata}

theorem supersedes_iff_stamp (hv : v.seeded = false) (hw : w.seeded = false) :
    v.supersedes w = true ↔ w.stamp < v.stamp := by
  simp [supersedes_iff, hv, hw, ClusterMetadata.stamp, Prod.Lex.toLex_lt_toLex]

section Topology

/-- The topology that a node holds by decision rather than from its own file. -/
def decided (c : ClusterMetadata) : Option ClusterMetadata :=
  if c.seeded then none else some c.topology

def SeedLow (c : ClusterMetadata) : Prop := c.seeded = true → c.version ≤ 1

theorem version_pos (h : v.validate = .ok ()) : 1 ≤ v.version :=
  Nat.one_le_iff_ne_zero.mpr (validate_iff.mp h).1.1

theorem supersedes_seed (hv : v.validate = .ok ()) (hseed : v.seeded = false)
    (hc : current.seeded = true) (hlow : SeedLow current) : v.supersedes current = true :=
  supersedes_iff.mpr ⟨hseed, .inl ⟨hc, (hlow hc).trans (version_pos hv)⟩⟩

theorem decided_adopt (hv : v.validate = .ok ()) (hseed : v.seeded = false)
    (hlow : SeedLow current) :
    decided (adopt current v).1 = offer ClusterMetadata.stamp (decided current) v.topology := by
  have htop := @adopt_topology current _ (sanitized_valid hv)
  have hflag : (adopt current v).1.seeded = (if v.supersedes current then v
    else current).seeded := by
    have := congrArg ClusterMetadata.seeded htop
    split at this <;> simpa [ClusterMetadata.topology, *] using this
  rw [decided, hflag, htop]
  cases hc : current.seeded with
  | true => simp [decided, hc, supersedes_seed hv hseed hc hlow, hseed, offer]
  | false =>
    by_cases hs : v.supersedes current = true
    · have hlt : current.topology.stamp < v.topology.stamp := (supersedes_iff_stamp hseed hc).mp hs
      simp [decided, hc, hs, hseed, offer, hlt]
    · have hlt : ¬ current.topology.stamp < v.topology.stamp :=
        fun h => hs ((supersedes_iff_stamp hseed hc).mpr h)
      simp [decided, hc, hs, offer, hlt]

theorem seedLow_of_decided {c t : ClusterMetadata} (h : decided c = some t) : SeedLow c := by
  intro hc
  simp [decided, hc] at h

theorem decided_adoptAll (hvalid : ∀ v ∈ views, v.validate = .ok ())
    (hseed : ∀ v ∈ views, v.seeded = false) (hlow : SeedLow current) :
    decided (adoptAll current views) =
      newest ClusterMetadata.stamp (decided current) (views.map ClusterMetadata.topology) := by
  induction views generalizing current with
  | nil => rfl
  | cons v views ih =>
    have hstep := decided_adopt (hvalid v List.mem_cons_self) (hseed v List.mem_cons_self) hlow
    obtain ⟨t, ht, -⟩ := @le_offer _ _ _ ClusterMetadata.stamp (decided current) v.topology
    have hlow' : SeedLow (adopt current v).1 := seedLow_of_decided (hstep.trans ht)
    rw [List.map_cons, newest_cons, ← hstep]
    exact ih (fun w hw => hvalid w (List.mem_cons_of_mem v hw))
      (fun w hw => hseed w (List.mem_cons_of_mem v hw)) hlow'

theorem topology_of_decided {c t : ClusterMetadata} (h : decided c = some t) : c.topology = t := by
  unfold decided at h
  split at h
  · cases h
  · exact Option.some.inj h

/-- Of views whose ids name one topology each, a stamp names one topology. -/
theorem Consistent.topology_eq (h : Consistent views) {s t : ClusterMetadata}
    (hs : s ∈ views.map ClusterMetadata.topology) (ht : t ∈ views.map ClusterMetadata.topology)
    (hst : s.stamp = t.stamp) : s = t := by
  obtain ⟨v, hv, rfl⟩ := List.mem_map.mp hs
  obtain ⟨w, hw, rfl⟩ := List.mem_map.mp ht
  have hpair : (v.version, v.updatedBy) = (w.version, w.updatedBy) := hst
  exact h.topology v hv w hw (congrArg Prod.fst hpair) (congrArg Prod.snd hpair)

end Topology

section Catalog

theorem offers_sanitizeCatalog (catalog : IndexCatalog) (c : CollectionName) :
    offers (sanitizeCatalog catalog) c = offers catalog c := by
  rw [offers, getElem?_sanitizeCatalog, offers]
  cases catalog[c]? with
  | none => rfl
  | some e => cases h : addressable c e <;> simp [Option.filter, h]

theorem getElem?_adoptAll (hvalid : ∀ v ∈ views, v.validate = .ok ()) (c : CollectionName) :
    (adoptAll current views).indexCatalog[c]? =
      newest CollectionIndexes.stamp current.indexCatalog[c]?
        (views.flatMap fun v => offers v.indexCatalog c) := by
  induction views generalizing current with
  | nil => rfl
  | cons v views ih =>
    have hstep := @adopt_indexCatalog current _ (sanitized_valid (hvalid v List.mem_cons_self))
    rw [List.flatMap_cons, newest_append, ← offers_sanitizeCatalog,
      ← getElem?_mergeCatalog, ← hstep]
    exact ih fun w hw => hvalid w (List.mem_cons_of_mem v hw)

theorem mem_offers_flatMap {c : CollectionName} {e : CollectionIndexes} :
    e ∈ (views.flatMap fun v => offers v.indexCatalog c) ↔
      ∃ v ∈ views, v.indexCatalog[c]? = some e ∧ addressable c e = true := by
  simp only [List.mem_flatMap, mem_offers]

/-- Of views whose entries have one content for each stamp, a stamp names one entry. -/
theorem Consistent.entry_eq (h : Consistent views) {c : CollectionName} {e f : CollectionIndexes}
    (he : e ∈ views.flatMap fun v => offers v.indexCatalog c)
    (hf : f ∈ views.flatMap fun v => offers v.indexCatalog c)
    (hef : e.stamp = f.stamp) : e = f := by
  obtain ⟨v, hv, hve, -⟩ := mem_offers_flatMap.mp he
  obtain ⟨w, hw, hwf, -⟩ := mem_offers_flatMap.mp hf
  have hpair : (e.version, e.updatedBy) = (f.version, f.updatedBy) := hef
  exact h.entry v hv w hw c e f hve hwf (congrArg Prod.fst hpair) (congrArg Prod.snd hpair)

end Catalog

section Order

theorem seedLow_seedFromConfig (cfg : NodeConfig) : SeedLow (seedFromConfig cfg) := fun _ => le_rfl

theorem decided_seedFromConfig (cfg : NodeConfig) : decided (seedFromConfig cfg) = none := rfl

/-- The topology after any number of adoptions is that of one of the views, and none has a greater
id. -/
theorem topology_adoptAll (cfg : NodeConfig) (hvalid : ∀ v ∈ views, v.validate = .ok ())
    (hseed : ∀ v ∈ views, v.seeded = false) (hne : views ≠ []) :
    ∃ v ∈ views, (adoptAll (seedFromConfig cfg) views).topology = v.topology ∧
      ∀ w ∈ views, w.stamp ≤ v.stamp := by
  have hall := decided_adoptAll hvalid hseed (seedLow_seedFromConfig cfg)
  rw [decided_seedFromConfig] at hall
  cases hn : newest ClusterMetadata.stamp none (views.map ClusterMetadata.topology) with
  | none => exact absurd (List.map_eq_nil_iff.mp (newest_eq_none.mp hn).2) hne
  | some t =>
    obtain ⟨hmem, -, hle⟩ := newest_spec hn
    rcases hmem with h | hmem
    · cases h
    · obtain ⟨v, hv, rfl⟩ := List.mem_map.mp hmem
      exact ⟨v, hv, topology_of_decided (hall.trans hn),
        fun w hw => hle w.topology (List.mem_map_of_mem hw)⟩

theorem adoptAll_topology_congr {cfg cfg' : NodeConfig} (hvalid : ∀ v ∈ views, v.validate = .ok ())
    (hseed : ∀ v ∈ views, v.seeded = false) (hone : Consistent views)
    (hsame : ∀ v, v ∈ views ↔ v ∈ views') (hcfg : cfg = cfg' ∨ views ≠ []) :
    (adoptAll (seedFromConfig cfg) views).topology =
      (adoptAll (seedFromConfig cfg') views').topology := by
  by_cases hne : views = []
  · have hne' : views' = [] :=
      List.eq_nil_iff_forall_not_mem.mpr fun v hv => by simpa [hne] using (hsame v).mpr hv
    rw [hne, hne', hcfg.resolve_right (not_not.mpr hne)]
  · obtain ⟨v, hv, htop, hle⟩ := topology_adoptAll cfg hvalid hseed hne
    have hne' : views' ≠ [] := List.ne_nil_of_mem ((hsame v).mp hv)
    obtain ⟨w, hw, htop', hle'⟩ := topology_adoptAll cfg' (fun u hu => hvalid u ((hsame u).mpr hu))
      (fun u hu => hseed u ((hsame u).mpr hu)) hne'
    have hvw : v.stamp = w.stamp :=
      le_antisymm (hle' v ((hsame v).mp hv)) (hle w ((hsame w).mpr hw))
    rw [htop, htop']
    exact hone.topology_eq (List.mem_map_of_mem hv) (List.mem_map_of_mem ((hsame w).mpr hw)) hvw

theorem adoptAll_indexCatalog_congr {cfg cfg' : NodeConfig}
    (hvalid : ∀ v ∈ views, v.validate = .ok ())
    (hone : Consistent views) (hsame : ∀ v, v ∈ views ↔ v ∈ views') :
    (adoptAll (seedFromConfig cfg) views).indexCatalog =
      (adoptAll (seedFromConfig cfg') views').indexCatalog := by
  refine ExtTreeMap.ext_getElem? fun c => ?_
  rw [getElem?_adoptAll hvalid, getElem?_adoptAll fun v hv => hvalid v ((hsame v).mpr hv)]
  refine newest_congr (fun e => ?_) fun e f he hf hef => ?_
  · simp only [mem_offers_flatMap, hsame]
  · have hnone : (seedFromConfig cfg).indexCatalog[c]? = none := ExtTreeMap.getElem?_empty
    rw [hnone] at he hf
    exact hone.entry_eq (he.resolve_left (by simp)) (hf.resolve_left (by simp)) hef

theorem adopt_twice (current v : ClusterMetadata) :
    (adopt (adopt current v).1 v).1 = (adopt current v).1 := by
  by_cases hv : v.sanitized.validate = .ok ()
  · refine eq_of_topology_of_indexCatalog ?_ ?_
    · rw [adopt_topology hv]
      split
      · next hs =>
        have htop := @adopt_topology current _ hv
        split at htop
        · exact htop.symm
        · next hs' =>
          rw [supersedes_congr rfl htop] at hs
          exact absurd hs hs'
      · rfl
    · rw [adopt_indexCatalog hv, adopt_indexCatalog hv, mergeCatalog_twice]
  · rw [adopt_invalid hv]

theorem adopt_seed {current seed : ClusterMetadata} (h : seed.seeded = true) :
    (adopt current seed).1.topology = current.topology := by
  by_cases hv : seed.sanitized.validate = .ok ()
  · have hs : seed.supersedes current = false := by
      rw [Bool.eq_false_iff, ne_eq, supersedes_iff]
      simp [h]
    rw [adopt_topology hv, hs]
    rfl
  · rw [adopt_invalid hv]

/-- Nodes that start from seeds and adopt the same valid decided views, in any order and with any
repetitions, come to hold the same view, with the topology of the greatest id. Adopting a view again
changes nothing, and a seed never displaces what a node holds. -/
theorem adoption_order_independent {cfg cfg' : NodeConfig}
    (hvalid : ∀ v ∈ views, v.validate = .ok ())
    (hseed : ∀ v ∈ views, v.seeded = false) (hone : Consistent views)
    (hsame : ∀ v, v ∈ views ↔ v ∈ views') (hcfg : cfg = cfg' ∨ views ≠ []) :
    adoptAll (seedFromConfig cfg) views = adoptAll (seedFromConfig cfg') views' ∧
      (∀ v ∈ views, (∀ w ∈ views, w.stamp ≤ v.stamp) →
        (adoptAll (seedFromConfig cfg) views).topology = v.topology) ∧
      (∀ current v, (adopt (adopt current v).1 v).1 = (adopt current v).1) ∧
      ∀ current seed, seed.seeded = true → (adopt current seed).1.topology = current.topology := by
  refine ⟨?_, fun v hv hle => ?_, adopt_twice, fun current seed h => adopt_seed h⟩
  · exact eq_of_topology_of_indexCatalog (adoptAll_topology_congr hvalid hseed hone hsame hcfg)
      (adoptAll_indexCatalog_congr hvalid hone hsame)
  · obtain ⟨w, hw, htop, hle'⟩ := topology_adoptAll cfg hvalid hseed (List.ne_nil_of_mem hv)
    have hvw : w.stamp = v.stamp := le_antisymm (hle w hw) (hle' v hv)
    rw [htop]
    exact hone.topology_eq (List.mem_map_of_mem hw) (List.mem_map_of_mem hv) hvw

section Rivals

/-- Two nodes publish the same version, each with its own definition for one collection. -/
def rival (by' : NodeId) (url : Url) (entry : CollectionIndexes) : ClusterMetadata :=
  ⟨2, by', false, [⟨⟨url, .shard, none, true, none⟩, none⟩], [], none, none,
    (∅ : IndexCatalog).insert "users".toList entry⟩

def rivals : List ClusterMetadata :=
  [rival ['a'] "http://a".toList ⟨1, ['a'], [⟨"by_age", "age"⟩], none⟩,
    rival ['b'] "http://b".toList ⟨2, ['b'], [], some 60⟩]

theorem getElem?_rival {by' : NodeId} {url : Url} {entry e : CollectionIndexes} {c : CollectionName}
    (h : (rival by' url entry).indexCatalog[c]? = some e) : e = entry := by
  simp only [rival, ExtTreeMap.getElem?_insert, ExtTreeMap.getElem?_empty] at h
  split at h
  · exact (Option.some.inj h).symm
  · cases h

theorem rivals_consistent : Consistent rivals := by
  constructor
  · simp [rivals, rival]
  · intro v hv w hw c e f he hf hver hby
    rcases List.mem_pair.mp hv with rfl | rfl <;> rcases List.mem_pair.mp hw with rfl | rfl
    · rw [getElem?_rival he, getElem?_rival hf]
    · rw [getElem?_rival he, getElem?_rival hf] at hver
      cases hver
    · rw [getElem?_rival he, getElem?_rival hf] at hver
      cases hver
    · rw [getElem?_rival he, getElem?_rival hf]

def bareConfig (nodeId : NodeId) (ownUrl : Url) : NodeConfig :=
  ⟨nodeId, ownUrl, .shard, none, false, none, [], [], [], none⟩

/-- Two nodes with different seeds that hear of the rivals in different orders. -/
theorem adoption_order_independent_rivals :
    adoptAll (seedFromConfig (bareConfig ['c'] "http://c".toList)) rivals =
      adoptAll (seedFromConfig (bareConfig ['d'] "http://d".toList)) (rivals.reverse ++ rivals) :=
  (adoption_order_independent (by decide) (by decide) rivals_consistent (by simp)
    (.inr (by decide))).1

end Rivals

end Order

end DewDB.ClusterMeta
