import DewDB.HandoverPlan

/-!
# Resets and the keys their receiver owns

A reset deletes at its receiver what the named source owns and the receiver will own. It spares the
receiver's own keys unless the receiver is in the source's group, which a respelled address or a
swap of roles in the target ring brings about: the transfer then goes from a group to itself.
-/
namespace DewDB.ResetSafety

open Endpoint TokenRing HandoverPlan

variable {xxh64 : Xxh64} {current target : HashRing} {mine : Url}

section Groups

theorem sameEndpoint_congr_right {a b c : Url} (h : sameEndpoint a b = true) :
    sameEndpoint c a = sameEndpoint c b := by
  rw [Bool.eq_iff_iff, sameEndpoint_iff, sameEndpoint_iff, sameEndpoint_iff.mp h]

theorem holds_congr {a b : Url} (h : sameEndpoint a b = true) (shard : RingShard) :
    holds shard a = holds shard b := by
  have hfun : (fun r => sameEndpoint r a) = fun r => sameEndpoint r b :=
    funext fun r => sameEndpoint_congr_right h
  rw [holds, holds, sameEndpoint_congr_right h, hfun]

theorem sourceGroup_congr {a b : Url} (h : sameEndpoint a b = true) (ring : HashRing) :
    sourceGroup ring a = sourceGroup ring b := by
  have hfun : (fun shard => holds shard a) = fun shard => holds shard b :=
    funext fun shard => holds_congr h shard
  rw [sourceGroup, sourceGroup, entryFor, entryFor, hfun]

theorem inGroup_congr {a b g : Url} (h : sameEndpoint a b = true) (ring : HashRing) :
    inGroup ring g a = inGroup ring g b := by
  have hfun : (fun shard : RingShard => sameEndpoint shard.nodeUrl g && holds shard a) =
      fun shard => sameEndpoint shard.nodeUrl g && holds shard b :=
    funext fun shard => by rw [holds_congr h]
  rw [inGroup, inGroup, hfun]

theorem inGroup_congr_group {g g' n : Url} (h : sameEndpoint g g' = true) (ring : HashRing) :
    inGroup ring g n = inGroup ring g' n := by
  have hfun : (fun shard : RingShard => sameEndpoint shard.nodeUrl g && holds shard n) =
      fun shard => sameEndpoint shard.nodeUrl g' && holds shard n :=
    funext fun shard => by rw [sameEndpoint_congr_right h]
  rw [inGroup, inGroup, hfun]

theorem ownedBy_congr {a b : Url} (h : sameEndpoint a b = true) (ring : HashRing) (k : DocKey) :
    ownedBy xxh64 ring a k = ownedBy xxh64 ring b k := by
  have hfun : (fun shard : RingShard => sameEndpoint shard.nodeUrl a) =
      fun shard => sameEndpoint shard.nodeUrl b :=
    funext fun shard => sameEndpoint_congr_right h
  rw [ownedBy, ownedBy, hfun]

theorem exists_of_ownedBy {ring : HashRing} {url : Url} {k : DocKey}
    (h : ownedBy xxh64 ring url k = true) :
    ∃ s ∈ ring.shards, ownerOf xxh64 ring k = some s ∧ sameEndpoint s.nodeUrl url = true := by
  obtain ⟨s, hs, hurl⟩ := (Option.any_eq_true _ _).mp h
  exact ⟨s, BuiltRing.mem_of_owner hs, hs, hurl⟩

theorem entryFor_some {ring : HashRing} {n : Url} {e : RingShard} (h : entryFor ring n = some e) :
    e ∈ ring.shards ∧ holds e n = true :=
  ⟨List.mem_of_find?_eq_some h, by simpa using List.find?_some h⟩

/-- The entry of a node at a primary's address is the entry of that primary. -/
theorem sourceGroup_of_primary {ring : HashRing} (hv : ring.validate = .ok ()) {s : RingShard}
    (hs : s ∈ ring.shards) {n : Url} (hn : sameEndpoint s.nodeUrl n = true) :
    ∃ g, sourceGroup ring n = some g ∧ sameEndpoint g n = true := by
  have hsome : (entryFor ring n).isSome := by
    rw [entryFor, List.find?_isSome]
    exact ⟨s, hs, by simp [holds, hn]⟩
  obtain ⟨e, he⟩ := Option.isSome_iff_exists.mp hsome
  refine ⟨e.nodeUrl, by simp [sourceGroup, he], ?_⟩
  obtain ⟨hmem, hholds⟩ := entryFor_some he
  simp only [holds, Bool.or_eq_true, List.any_eq_true] at hholds
  rcases hholds with hprimary | ⟨r, hr, hrn⟩
  · exact hprimary
  · -- a replica at a primary's address is refused by `validate`
    refine absurd ?_ (replica_ne_primary hv hs hmem hr)
    rw [sameEndpoint_iff.mp hrn, sameEndpoint_iff.mp hn]

end Groups

theorem mem_of_mem_distinctEndpoints {seen urls : List Url} {url : Url}
    (h : url ∈ distinctEndpoints seen urls) : url ∈ urls := by
  induction urls generalizing seen with
  | nil => cases h
  | cons u urls ih =>
    simp only [distinctEndpoints] at h
    split at h
    · exact List.mem_cons_of_mem _ (ih h)
    · rcases List.mem_cons.mp h with rfl | h
      · exact List.mem_cons_self
      · exact List.mem_cons_of_mem _ (ih h)

theorem exists_transfer {d : Url} (h : d ∈ destinations xxh64 current target mine) :
    ∃ t ∈ transfers xxh64 current target, sameEndpoint t.source mine = true ∧ t.target = d := by
  obtain ⟨t, ht, rfl⟩ := List.mem_map.mp (mem_of_mem_distinctEndpoints h)
  obtain ⟨ht, hmine⟩ := List.mem_filter.mp ht
  exact ⟨t, ht, hmine, rfl⟩

theorem exists_primary_of_destination (hv : target.validate = .ok ()) {d : Url}
    (h : d ∈ destinations xxh64 current target mine) :
    ∃ s ∈ target.shards, s.nodeUrl = d := by
  obtain ⟨t, ht, -, rfl⟩ := exists_transfer h
  obtain ⟨hash, heq⟩ := target_of_mem_transfers ht
  obtain ⟨hshards, hvnodes⟩ := nonempty_of_validate hv
  obtain ⟨s, hs, howner⟩ : ∃ s ∈ target.shards, (target.build xxh64).owner hash = some s :=
    exists_owner_build hshards hvnodes hash
  exact ⟨s, hs, by simp [heq, BuiltRing.ownerUrl, howner]⟩

/-- What a reset deletes is the source's and goes to the receiver's entry of the target ring. -/
theorem owned_of_mem_tombstones {node : ResetNode} {req : MigrateReset} {k : DocKey}
    {m : Migration} (hring : node.ring = some current) (hmig : node.migration = some m)
    (hk : k ∈ (migrateResetHandler xxh64 node req).tombstones) :
    k ∈ node.keys ∧ ownedBy xxh64 current req.source k = true ∧
      ∃ g, sourceGroup m.target node.own = some g ∧ ownedBy xxh64 m.target g k = true := by
  simp only [migrateResetHandler, hring, hmig] at hk
  split at hk
  · cases hk
  · split at hk
    · split at hk
      · cases hk
      · split at hk
        · cases hk
        · rename_i g hg
          split at hk
          · obtain ⟨hmem, howned⟩ := List.mem_filter.mp hk
            simp only [Bool.and_eq_true] at howned
            exact ⟨hmem, howned.1, g, hg, howned.2⟩
          · cases hk
    · cases hk

/-- The reset of a source's transfer to `d`, received by a leader at `d` that finalizes, deletes
every key of the source that goes to `d`. -/
theorem mem_tombstones (hv : target.validate = .ok ()) {d : Url}
    (hd : d ∈ destinations xxh64 current target mine) {keys : List DocKey} {k : DocKey}
    (hk : k ∈ keys) (hmine : ownedBy xxh64 current mine k = true)
    (hto : ownedBy xxh64 target d k = true) (id : Nat) :
    k ∈ (migrateResetHandler xxh64
      ⟨d, true, some current, some ⟨id, target, .finalizing⟩, [], keys⟩
      ⟨id, .finalizing, mine⟩).tombstones := by
  obtain ⟨s, hs, rfl⟩ := exists_primary_of_destination hv hd
  obtain ⟨g, hg, hgd⟩ := sourceGroup_of_primary hv hs (sameEndpoint_refl s.nodeUrl)
  obtain ⟨t, ht, hsource, htarget⟩ := exists_transfer hd
  have hany : ((transfers xxh64 current target).any fun t =>
      sameEndpoint t.source mine && sameEndpoint t.target g) = true :=
    List.any_eq_true.mpr ⟨t, ht, by
      rw [hsource, htarget, sameEndpoint_comm, hgd]
      rfl⟩
  simp only [migrateResetHandler, Bool.not_true, Bool.false_eq_true, if_false, and_self, if_true,
    List.not_mem_nil, hg, hany, ResetOutcome.tombstones, List.mem_filter, hmine, Bool.true_and]
  exact ⟨hk, by rw [ownedBy_congr hgd]; exact hto⟩

section Source

variable {stores : Url → List DocKey} {s : RingShard}

theorem home_primary (hv : current.validate = .ok ()) (hs : s ∈ current.shards) :
    home current s.nodeUrl = nodeKey s.nodeUrl := by
  obtain ⟨g, hg, hgs⟩ := sourceGroup_of_primary hv hs (sameEndpoint_refl s.nodeUrl)
  rw [home, hg]
  exact sameEndpoint_iff.mp hgs

theorem inGroup_of_home (hv : current.validate = .ok ()) (hs : s ∈ current.shards) {d : Url}
    (h : home current d = home current s.nodeUrl) : inGroup current s.nodeUrl d = true := by
  rw [home_primary hv hs, home] at h
  cases hd : sourceGroup current d with
  | some g =>
    rw [hd] at h
    obtain ⟨e, he, rfl⟩ := Option.map_eq_some_iff.mp hd
    obtain ⟨hmem, hholds⟩ := entryFor_some he
    refine List.any_eq_true.mpr ⟨e, hmem, ?_⟩
    rw [Bool.and_eq_true, sameEndpoint_iff]
    exact ⟨h, hholds⟩
  | none =>
    rw [hd] at h
    have hds : sameEndpoint s.nodeUrl d = true := sameEndpoint_iff.mpr h.symm
    obtain ⟨g, hg, -⟩ := sourceGroup_of_primary hv hs hds
    rw [hd] at hg
    cases hg

/-- No destination of the group `mine` is in that group while it holds a key that goes to it. -/
def SparesOwn (xxh64 : Xxh64) (current target : HashRing) (mine : Url)
    (stores : Url → List DocKey) : Prop :=
  ∀ d ∈ destinations xxh64 current target mine, inGroup current mine d = true →
    ∀ k ∈ stores (home current d), ownedBy xxh64 current mine k = true →
      ownedBy xxh64 target d k = false

theorem mem_passStep (hcur : current.validate = .ok ()) (htgt : target.validate = .ok ())
    (hs : s ∈ current.shards) (hspare : SparesOwn xxh64 current target s.nodeUrl stores) {p : Pass}
    (hp : ∀ k, k ∈ p.stores (home current s.nodeUrl) ↔ k ∈ stores (home current s.nodeUrl))
    {st : PassStep} (hst : st.Sends xxh64 current target s.nodeUrl) (k : DocKey) :
    k ∈ (passStep xxh64 current target s.nodeUrl p st).stores (home current s.nodeUrl) ↔
      k ∈ stores (home current s.nodeUrl) := by
  cases st with
  | plan => exact hp k
  | reset d node id done =>
    simp only [passStep]
    by_cases hhome : home current d = home current s.nodeUrl
    · rw [hhome, Function.update_self, List.mem_filter, hp, and_iff_left_iff_imp,
        decide_eq_true_eq]
      intro hk hstale
      have hgroup := inGroup_of_home hcur hs hhome
      obtain ⟨-, hmine, g, hg, hto⟩ := owned_of_mem_tombstones rfl rfl (List.mem_of_mem_take hstale)
      obtain ⟨t, ht, rfl⟩ := exists_primary_of_destination htgt hst
      obtain ⟨g', hg', hgd⟩ := sourceGroup_of_primary htgt ht (sameEndpoint_refl t.nodeUrl)
      obtain rfl := Option.some.inj (hg.symm.trans hg')
      have hno := hspare t.nodeUrl hst hgroup k (hhome ▸ hk) hmine
      rw [ownedBy_congr hgd, hno] at hto
      cases hto
    · rw [Function.update_of_ne (Ne.symm hhome)]
      exact hp k
  | copy d sent =>
    simp only [passStep]
    by_cases hhome : home current d = home current s.nodeUrl
    · rw [hhome, Function.update_self, List.mem_append, ← hp]
      refine ⟨fun h => h.elim id fun h => ?_, .inl⟩
      simpa using (List.mem_filter.mp (List.mem_of_mem_take h)).2
    · rw [Function.update_of_ne (Ne.symm hhome)]
      exact hp k

theorem mem_runPass (hcur : current.validate = .ok ()) (htgt : target.validate = .ok ())
    (hs : s ∈ current.shards) (hspare : SparesOwn xxh64 current target s.nodeUrl stores)
    {steps : List PassStep} (hsteps : ∀ st ∈ steps, st.Sends xxh64 current target s.nodeUrl)
    {p : Pass} (hp : ∀ k, k ∈ p.stores (home current s.nodeUrl) ↔
      k ∈ stores (home current s.nodeUrl))
    (k : DocKey) :
    k ∈ (runPass xxh64 current target s.nodeUrl p steps).stores (home current s.nodeUrl) ↔
      k ∈ stores (home current s.nodeUrl) := by
  induction steps generalizing p with
  | nil => exact hp k
  | cons st steps ih =>
    exact ih (fun st' h => hsteps st' (List.mem_cons_of_mem _ h))
      (mem_passStep hcur htgt hs hspare hp (hsteps st List.mem_cons_self))

end Source

/-- A source's handover deletes at no destination a key that the destination's group owns, and every
pass leaves each key of the source at the source or at its new owner, exactly when no destination is
in the source's own group while it holds a key that goes to it. -/
theorem reset_spares_own_keys (hcur : current.validate = .ok ()) (htgt : target.validate = .ok ())
    {own : Url} (hown : sourceGroup current own = some mine) (stores : Url → List DocKey) :
    ((∀ d ∈ destinations xxh64 current target mine, ∀ (node : ResetNode) (m : Migration)
        (req : MigrateReset), sameEndpoint node.own d = true → node.ring = some current →
        node.migration = some m → m.target = target → req.source = mine →
        node.keys = stores (home current d) →
        ∀ k ∈ (migrateResetHandler xxh64 node req).tombstones, ∀ g,
          ownerOf xxh64 current k = some g → inGroup current g.nodeUrl node.own = false) ∧
      ∀ steps : List PassStep, (∀ st ∈ steps, st.Sends xxh64 current target mine) →
        ∀ k ∈ stores (home current mine), ownedBy xxh64 current mine k = true →
          let p := runPass xxh64 current target mine ⟨stores, []⟩ steps
          k ∈ p.stores (home current mine) ∨
            ∃ g, ownerOf xxh64 target k = some g ∧ k ∈ p.stores (home current g.nodeUrl)) ↔
    SparesOwn xxh64 current target mine stores := by
  obtain ⟨s, hs, rfl⟩ := Option.map_eq_some_iff.mp hown
  replace hs := (entryFor_some hs).1
  constructor
  · rintro ⟨hreset, -⟩ d hd hgroup k hk hmine
    by_contra hto
    have hstale := mem_tombstones htgt hd hk hmine (by simpa using hto) 0
    obtain ⟨g, -, hg, hgs⟩ := exists_of_ownedBy hmine
    have := hreset d hd _ _ _ (sameEndpoint_refl d) rfl rfl rfl rfl rfl k hstale g hg
    rw [inGroup_congr_group hgs, hgroup] at this
    cases this
  · intro hspare
    refine ⟨?_, fun steps hsteps k hk _ => .inl ?_⟩
    · rintro d hd node m req hnode hring hmig rfl hsource hkeys k hk g hg
      obtain ⟨hmem, hmine, e, he, hto⟩ := owned_of_mem_tombstones hring hmig hk
      rw [hsource] at hmine
      obtain ⟨t, ht, rfl⟩ := exists_primary_of_destination htgt hd
      obtain ⟨e', he', hed⟩ := sourceGroup_of_primary htgt ht (sameEndpoint_refl t.nodeUrl)
      rw [sourceGroup_congr hnode] at he
      obtain rfl := Option.some.inj (he.symm.trans he')
      by_contra hin
      obtain ⟨g', -, hg', hgs⟩ := exists_of_ownedBy hmine
      obtain rfl := Option.some.inj (hg.symm.trans hg')
      have hgroup : inGroup current s.nodeUrl t.nodeUrl = true := by
        rw [← inGroup_congr hnode, ← inGroup_congr_group hgs]
        simpa using hin
      have hno := hspare _ hd hgroup k (hkeys ▸ hmem) hmine
      rw [ownedBy_congr hed, hno] at hto
      cases hto
    · exact (mem_runPass hcur htgt hs hspare hsteps (fun _ => Iff.rfl) k).mpr hk

def sumHash : Xxh64 := fun text => (text.map Char.toNat).sum

def oneGroup : HashRing := ⟨1, [⟨['a'], [['r']]⟩]⟩

def respelled : HashRing := ⟨1, [⟨['A'], [['r']]⟩]⟩

def swapped : HashRing := ⟨1, [⟨['r'], [['a']]⟩]⟩

def oneKey : DocKey := ⟨['c'], ['k']⟩

def newGroup : HashRing := ⟨1, [⟨['b'], []⟩]⟩

/-- A leader at `own` that holds the key, while a handover to `target` finalizes. -/
def finalizingAt (own : Url) (target : HashRing) : ResetNode :=
  ⟨own, true, some oneGroup, some ⟨0, target, .finalizing⟩, [], [oneKey]⟩

/-- A new group drops the stale copy it holds, which is the old group's key. -/
theorem reset_spares_own_keys_new_group :
    (migrateResetHandler sumHash (finalizingAt ['b'] newGroup) ⟨0, .finalizing, ['a']⟩).tombstones =
      [oneKey] ∧
    ∀ g, ownerOf sumHash oneGroup oneKey = some g → inGroup oneGroup g.nodeUrl ['b'] = false := by
  have hcur : oneGroup.validate = .ok () := rfl
  have htgt : newGroup.validate = .ok () := rfl
  have hown : sourceGroup oneGroup ['r'] = some ['a'] := by decide
  have hdest : destinations sumHash oneGroup newGroup ['a'] = [['b']] := by decide
  have hspare : SparesOwn sumHash oneGroup newGroup ['a'] fun _ => [oneKey] := by
    intro d hd hgroup
    rw [hdest, List.mem_singleton] at hd
    subst hd
    exact absurd hgroup (by decide)
  have hstale : (migrateResetHandler sumHash (finalizingAt ['b'] newGroup)
      ⟨0, .finalizing, ['a']⟩).tombstones = [oneKey] := by decide
  obtain ⟨hreset, -⟩ := (reset_spares_own_keys hcur htgt hown _).mpr hspare
  refine ⟨hstale, hreset ['b'] (by simp [hdest]) (finalizingAt ['b'] newGroup) _
    ⟨0, .finalizing, ['a']⟩ rfl rfl rfl rfl rfl rfl oneKey (by simp [hstale])⟩

/-- A target ring that respells the primary, or swaps the two nodes' roles, makes the group a
destination of its own keys: the reset deletes a key the group owns, and the pass copies it
nowhere. -/
theorem own_keys_reset :
    oneGroup.validate = .ok () ∧ ownerOf sumHash oneGroup oneKey = some ⟨['a'], [['r']]⟩ ∧
    ∀ x ∈ [(respelled, ['A']), (swapped, ['r'])],
      x.1.validate = .ok () ∧ x.2 ∈ destinations sumHash oneGroup x.1 ['a'] ∧
      (migrateResetHandler sumHash (finalizingAt x.2 x.1) ⟨0, .finalizing, ['a']⟩).tombstones =
        [oneKey] ∧
      inGroup oneGroup ['a'] x.2 = true ∧
      (runPass sumHash oneGroup x.1 ['a'] ⟨fun g => if g = ['a'] then [oneKey] else [], []⟩
        [.plan, .reset x.2 (finalizingAt x.2 x.1) 0 1, .copy x.2 1]).stores ['a'] = [] := by
  refine ⟨rfl, by decide, fun x hx => ?_⟩
  simp only [List.mem_cons, List.not_mem_nil, or_false] at hx
  rcases hx with rfl | rfl
  · exact ⟨rfl, by decide, by decide, by decide, by decide⟩
  · exact ⟨rfl, by decide, by decide, by decide, by decide⟩

end DewDB.ResetSafety
