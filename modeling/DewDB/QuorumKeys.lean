import DewDB.MajorityOverlap
import DewDB.QuorumConfig

/-!
# Quorums count nodes, not spellings

A half counts the nodes its entries name: the threshold is a majority of the distinct endpoints, and
a granted list reaches it by the endpoints it shares with the half.
-/
namespace DewDB.QuorumConfig

open Endpoint Majority MajorityOverlap

def keys (urls : List Url) : Finset Url := (urls.map nodeKey).toFinset

theorem mem_keys {urls : List Url} {k : Url} : k ∈ keys urls ↔ ∃ u ∈ urls, nodeKey u = k := by
  simp [keys]

theorem distinctAfter_keys (seen voters : List Url) :
    ((distinctAfter seen voters).map nodeKey).Nodup ∧
      keys (distinctAfter seen voters) = keys voters \ keys seen := by
  induction voters generalizing seen with
  | nil => simp [distinctAfter, keys]
  | cons v vs ih =>
    obtain ⟨hnodup, hkeys⟩ := ih (seen ++ [v])
    have happend : keys (seen ++ [v]) = keys seen ∪ {nodeKey v} := by
      ext k
      simp [keys]
    have hcons : keys (v :: vs) = {nodeKey v} ∪ keys vs := by
      ext k
      simp [keys]
    have hseen : seen.any (fun w => sameEndpoint w v) = true ↔ nodeKey v ∈ keys seen := by
      simp [mem_keys, sameEndpoint_iff]
    simp only [distinctAfter]
    split
    next hdup =>
      refine ⟨hnodup, ?_⟩
      rw [hkeys, happend, hcons]
      have hv := hseen.mp hdup
      ext k
      simp only [Finset.mem_sdiff, Finset.mem_union, Finset.mem_singleton]
      constructor
      · rintro ⟨hk, hnot⟩
        exact ⟨.inr hk, fun h => hnot (.inl h)⟩
      · rintro ⟨hk | hk, hnot⟩
        · exact absurd (hk ▸ hv) hnot
        · exact ⟨hk, fun h => h.elim hnot fun h => hnot (h ▸ hv)⟩
    next hnew =>
      have hv : nodeKey v ∉ keys seen := fun h => hnew (hseen.mpr h)
      have hnot : nodeKey v ∉ keys (distinctAfter (seen ++ [v]) vs) := by
        rw [hkeys, happend]
        simp
      constructor
      · rw [List.map_cons, List.nodup_cons]
        exact ⟨fun h => hnot (List.mem_toFinset.mpr h), hnodup⟩
      · rw [show keys (v :: distinctAfter (seen ++ [v]) vs) =
          {nodeKey v} ∪ keys (distinctAfter (seen ++ [v]) vs) by ext k; simp [keys], hkeys, happend,
          hcons]
        ext k
        simp only [Finset.mem_sdiff, Finset.mem_union, Finset.mem_singleton]
        constructor
        · rintro (rfl | ⟨hk, hnot'⟩)
          · exact ⟨.inl rfl, hv⟩
          · exact ⟨.inr hk, fun h => hnot' (.inl h)⟩
        · rintro ⟨rfl | hk, hnot'⟩
          · exact .inl rfl
          · by_cases hkv : k = nodeKey v
            · exact .inl hkv
            · exact .inr ⟨hk, fun h => h.elim hnot' hkv⟩

theorem keys_distinct (voters : List Url) : keys (distinct voters) = keys voters := by
  simpa [distinct, keys] using (distinctAfter_keys [] voters).2

theorem nodup_distinct (voters : List Url) : ((distinct voters).map nodeKey).Nodup :=
  (distinctAfter_keys [] voters).1

theorem length_distinct (voters : List Url) : (distinct voters).length = (keys voters).card := by
  rw [← keys_distinct, keys, List.toFinset_card_of_nodup (nodup_distinct voters), List.length_map]

/-- The voters that a granted list reaches are the endpoints it shares with them. -/
theorem countP_distinct (voters granted : List Url) :
    ((distinct voters).countP fun v => granted.any fun g => sameEndpoint g v) =
      (keys voters ∩ keys granted).card := by
  have hfilter : keys voters ∩ keys granted =
      (((distinct voters).filter fun v => granted.any fun g => sameEndpoint g v).map
        nodeKey).toFinset := by
    rw [← keys_distinct]
    ext k
    simp only [Finset.mem_inter, mem_keys, List.mem_toFinset, List.mem_map, List.mem_filter,
      List.any_eq_true, sameEndpoint_iff]
    constructor
    · rintro ⟨⟨v, hv, rfl⟩, g, hg, hgv⟩
      exact ⟨v, ⟨hv, g, hg, hgv⟩, rfl⟩
    · rintro ⟨v, ⟨hv, g, hg, hgv⟩, rfl⟩
      exact ⟨⟨v, hv, rfl⟩, g, hg, hgv⟩
  have hnodup : (((distinct voters).filter fun v =>
      granted.any fun g => sameEndpoint g v).map nodeKey).Nodup :=
    (nodup_distinct voters).sublist (List.filter_sublist.map nodeKey)
  rw [hfilter, List.toFinset_card_of_nodup hnodup, List.length_map, List.countP_eq_length_filter]

/-- A half decides by the nodes it names: an empty one always, another by their majority. -/
theorem halfHasQuorum_keys {voters granted : List Url} : halfHasQuorum voters granted = true ↔
    keys voters = ∅ ∨ IsMajority (keys voters) (keys granted) := by
  unfold halfHasQuorum voterCount
  simp only [length_distinct, countP_distinct]
  by_cases h : keys voters = ∅
  · simp [h]
  · have hcard : (keys voters).card ≠ 0 := by simpa using h
    simp only [hcard, if_false, h, false_or, IsMajority, majority]
    exact decide_eq_true_iff

def Configuration.Meets (c c' : Configuration) : Prop :=
  ∀ A B, c.hasQuorum A = true → c'.hasQuorum B = true → ∃ x ∈ A, ∃ y ∈ B, sameEndpoint x y = true

theorem Configuration.Meets.symm {c c' : Configuration} (h : c.Meets c') : c'.Meets c := by
  intro A B hA hB
  obtain ⟨x, hx, y, hy, hxy⟩ := h B A hB hA
  exact ⟨y, hy, x, hx, by rwa [sameEndpoint_comm]⟩

def Configuration.halves (c : Configuration) : List (List Url) := c.voters :: c.outgoing.toList

theorem hasQuorum_halves {c : Configuration} {A : List Url} :
    c.hasQuorum A = true ↔ ∀ half ∈ c.halves, halfHasQuorum half A = true := by
  cases hout : c.outgoing with
  | none => simp [Configuration.hasQuorum, Configuration.halves, hout]
  | some old => simp [Configuration.hasQuorum, Configuration.halves, hout]

theorem Configuration.meets_of_overlap {c c' : Configuration} {half half' : List Url}
    (h : half ∈ c.halves) (h' : half' ∈ c'.halves) (hne : half ≠ []) (hne' : half' ≠ [])
    (hover : Overlap (keys half) (keys half')) : c.Meets c' := by
  intro A B hA hB
  have hkeys : ∀ {l : List Url}, l ≠ [] → keys l ≠ ∅ := by
    intro l hl
    simpa [keys] using hl
  have hmaj := (halfHasQuorum_keys.mp (hasQuorum_halves.mp hA half h)).resolve_left (hkeys hne)
  have hmaj' := (halfHasQuorum_keys.mp (hasQuorum_halves.mp hB half' h')).resolve_left (hkeys hne')
  obtain ⟨k, hk⟩ := hover.meet hmaj hmaj'
  obtain ⟨hkA, hkB⟩ := Finset.mem_inter.mp hk
  obtain ⟨x, hx, hxk⟩ := mem_keys.mp hkA
  obtain ⟨y, hy, hyk⟩ := mem_keys.mp hkB
  exact ⟨x, hx, y, hy, sameEndpoint_iff.mpr (hxk.trans hyk.symm)⟩

theorem keys_canonicalOnto (out urls : List Url) :
    keys (canonicalOnto out urls) = keys out ∪ keys urls := by
  ext k
  have h : ∀ url, (canonicalOnto out urls).any (fun m => sameEndpoint m url) = true ↔
      out.any (fun m => sameEndpoint m url) = true ∨
        urls.any (fun m => sameEndpoint m url) = true := fun _ => any_canonicalOnto
  constructor
  · intro hk
    obtain ⟨u, hu, rfl⟩ := mem_keys.mp hk
    have := (h u).mp (List.any_eq_true.mpr ⟨u, hu, sameEndpoint_refl u⟩)
    simpa [mem_keys, sameEndpoint_iff] using this
  · intro hk
    obtain ⟨u, hu, rfl⟩ : ∃ u, (u ∈ out ∨ u ∈ urls) ∧ nodeKey u = k := by
      simpa [mem_keys, or_and_right, exists_or] using hk
    have hany : out.any (fun m => sameEndpoint m u) = true ∨
        urls.any (fun m => sameEndpoint m u) = true := by
      rcases hu with hu | hu
      · exact .inl (List.any_eq_true.mpr ⟨u, hu, sameEndpoint_refl u⟩)
      · exact .inr (List.any_eq_true.mpr ⟨u, hu, sameEndpoint_refl u⟩)
    simpa [mem_keys, sameEndpoint_iff] using (h u).mpr hany

theorem keys_canonical (urls : List Url) : keys (canonical urls) = keys urls := by
  rw [canonical, keys_canonicalOnto]
  simp [keys]

end DewDB.QuorumConfig
