import DewDB.KeyOwnership
import DewDB.TransitionSystem

/-!
# The cache of laid out rings

A node lays out the rings of its view once and keeps them under the view's version. A call reads the
view under its lock, looks into the cache, and builds and stores the rings where they are missing;
the view cannot change while a call holds the lock. Views are ordered by more than their version, so
one of the same version can replace another, and the cache answers for it with the rings of the one
before.
-/
namespace DewDB.ViewRings

open Endpoint TokenRing ReplicationMeta Vote CatalogMerge ClusterMeta KeyOwnership TransitionSystem

structure RingCache where
  version : ℕ
  ring : Option BuiltRing
  target : Option BuiltRing

def RingCache.rings (c : RingCache) : Rings := (c.ring, c.target)

/-- A call that holds the lock on the view; `route` is the hash that a router looks up. -/
structure Call where
  id : ℕ
  route : Option ℕ
  view : ClusterMetadata
  building : Bool

/-- A lookup that found no ring and let go of the view, which it reads again for its shards. -/
structure Pending where
  id : ℕ
  hash : ℕ
  first : ClusterMetadata

structure Routed where
  first : ClusterMetadata
  second : ClusterMetadata
  hash : ℕ
  shard : Option (Url × List Url)

structure State where
  view : ClusterMetadata
  cache : RingCache
  calls : List Call
  pending : List Pending
  answers : List (ClusterMetadata × Rings)
  routes : List Routed

inductive Label where
  | adopt (incoming : ClusterMetadata)
  | catalog (c : IndexCatalog)
  | boot (stored : ClusterMetadata)
  | lock (id : ℕ) (route : Option ℕ)
  | lookup (id : ℕ)
  | store (id : ℕ)
  | shards (id : ℕ)

section Steps

variable (xxh64 : Xxh64)

def State.call (s : State) (id : ℕ) (building : Bool) : Option Call :=
  s.calls.find? fun c => c.id == id && c.building == building

def State.answer (s : State) (c : Call) (rings : Rings) : State :=
  let done := { s with
    calls := s.calls.filter fun d => d.id ≠ c.id
    answers := (c.view, rings) :: s.answers }
  match c.route with
  | none => done
  | some hash =>
    if rings.1.isSome then
      { done with routes := ⟨c.view, c.view, hash, configuredShard c.view rings hash⟩ :: s.routes }
    else { done with pending := ⟨c.id, hash, c.view⟩ :: s.pending }

/-- A process starts with the view that it reads back or makes from its configuration. -/
def start (s : State) (stored : ClusterMetadata) : State :=
  { s with
    view := stored
    cache := ⟨0, none, none⟩
    calls := []
    pending := [] }

/-- The steps of one node. The view changes under the write lock, which no call holds together with
it. -/
def step (s : State) : Label → Option State
  | .adopt incoming =>
    if s.calls.isEmpty then some { s with view := (ClusterMeta.adopt s.view incoming).1 } else none
  | .catalog c =>
    if s.calls.isEmpty then some { s with view := { s.view with indexCatalog := c } } else none
  | .boot stored => if stored.validate = .ok () then some (start s stored) else none
  | .lock id route => some { s with calls := ⟨id, route, s.view, false⟩ :: s.calls }
  | .lookup id => (s.call id false).map fun c =>
      if s.cache.version = c.view.version then s.answer c s.cache.rings
      else { s with calls := { c with building := true } :: s.calls.filter fun d => d.id ≠ id }
  | .store id => (s.call id true).map fun c =>
      let rings := ringsOf xxh64 c.view
      -- the rings of a newer version stay, and the call returns its own
      let cache := if s.cache.version ≤ c.view.version
        then ⟨c.view.version, rings.1, rings.2⟩ else s.cache
      { s with cache }.answer c rings
  | .shards id => (s.pending.find? fun p => p.id == id).map fun p =>
      { s with
        pending := s.pending.filter fun q => q.id ≠ id
        routes := ⟨p.first, s.view, p.hash, configuredShard s.view
          (none, none) p.hash⟩ :: s.routes }

/-- What the cache needs of a step: a view that is adopted, wins and has the version of the cached
rings has these rings, and a lookup without a ring finds no new ring, or the shards as they were. -/
def Distinct (s : State) : Label → Prop
  | .adopt incoming => incoming.sanitized.validate = .ok () → incoming.supersedes s.view = true →
      incoming.version = s.cache.version → ringsOf xxh64 incoming = s.cache.rings
  | .shards id => ∀ p ∈ s.pending, p.id = id → s.view.ring = none ∨
      configuredShard s.view (none, none) p.hash = configuredShard p.first (none, none) p.hash
  | _ => True

instance (s : State) : ∀ l, Decidable (Distinct xxh64 s l)
  | .adopt incoming => inferInstanceAs (Decidable (incoming.sanitized.validate = .ok () →
      incoming.supersedes s.view = true → incoming.version = s.cache.version →
      ringsOf xxh64 incoming = s.cache.rings))
  | .shards id => inferInstanceAs (Decidable (∀ p ∈ s.pending, p.id = id → s.view.ring = none ∨
      configuredShard s.view (none, none) p.hash = configuredShard p.first (none, none) p.hash))
  | .catalog _ | .boot _ | .lock .. | .lookup _ | .store _ => isTrue trivial

def Init (s : State) : Prop :=
  ∃ stored, stored.validate = .ok () ∧ s = start ⟨stored, ⟨0, none, none⟩, [], [], [], []⟩ stored

end Steps

section Coherent

variable {xxh64 : Xxh64} {s s' : State} {v w : ClusterMetadata}

def Routed.Sound (xxh64 : Xxh64) (r : Routed) : Prop :=
  r.shard = configuredShard r.first (ringsOf xxh64 r.first) r.hash ∨
    r.shard = configuredShard r.second (ringsOf xxh64 r.second) r.hash

/-- The cached rings are those of the view that they would answer for. -/
structure Coherent (xxh64 : Xxh64) (s : State) : Prop where
  version : s.view.version ≠ 0
  cache : s.cache.version = s.view.version → s.cache.rings = ringsOf xxh64 s.view
  calls : ∀ c ∈ s.calls, c.view = s.view
  pending : ∀ p ∈ s.pending, p.first.ring = none
  answers : ∀ a ∈ s.answers, a.2 = ringsOf xxh64 a.1
  routes : ∀ r ∈ s.routes, r.Sound xxh64

theorem ringsOf_congr (h : v.topology = w.topology) : ringsOf xxh64 v = ringsOf xxh64 w := by
  change ringsOf xxh64 v.topology = ringsOf xxh64 w.topology
  rw [h]

theorem version_congr (h : v.topology = w.topology) : v.version = w.version := by
  change v.topology.version = w.topology.version
  rw [h]

theorem configuredShard_of_no_ring (h : v.ring = none) (hash : ℕ) :
    configuredShard v (none, none) hash = configuredShard v (ringsOf xxh64 v) hash := by
  simp [configuredShard, ringsOf, h]

theorem ring_of_isSome_ringsOf (h : (ringsOf xxh64 v).1.isSome = false) : v.ring = none := by
  simpa [ringsOf] using h

/-- The answer of a call whose rings are those of its view keeps the state coherent. -/
theorem Coherent.answer (h : Coherent xxh64 s) {c : Call} {rings : Rings}
    (hrings : rings = ringsOf xxh64 c.view) : Coherent xxh64 (s.answer c rings) := by
  have hcalls : ∀ d ∈ s.calls.filter fun d => d.id ≠ c.id, d.view = s.view :=
    fun d hd => h.calls d (List.mem_of_mem_filter hd)
  have hanswers : ∀ a ∈ (c.view, rings) :: s.answers, a.2 = ringsOf xxh64 a.1 := by
    intro a ha
    rcases List.mem_cons.mp ha with rfl | ha
    · exact hrings
    · exact h.answers a ha
  unfold State.answer
  dsimp only
  split
  · exact ⟨h.version, h.cache, hcalls, h.pending, hanswers, h.routes⟩
  · next hash _ =>
    split
    · refine ⟨h.version, h.cache, hcalls, h.pending, hanswers, fun r hr => ?_⟩
      rcases List.mem_cons.mp hr with rfl | hr
      · exact .inl (by rw [hrings])
      · exact h.routes r hr
    · next hring =>
      refine ⟨h.version, h.cache, hcalls, fun p hp => ?_, hanswers, h.routes⟩
      rcases List.mem_cons.mp hp with rfl | hp
      · exact @ring_of_isSome_ringsOf xxh64 _ (by simpa [← hrings] using hring)
      · exact h.pending p hp

theorem Coherent.start (h : Coherent xxh64 s) (hv : v.validate = .ok ()) :
    Coherent xxh64 (start s v) where
  version := (validate_iff.mp hv).1.1
  cache := fun h0 => absurd h0.symm (validate_iff.mp hv).1.1
  calls := by simp [ViewRings.start]
  pending := by simp [ViewRings.start]
  answers := h.answers
  routes := h.routes

/-- A view without readers may be replaced by one that the cache is right about. -/
theorem Coherent.replace (h : Coherent xxh64 s) (hcalls : s.calls = []) (hv : v.version ≠ 0)
    (hcache : s.cache.version = v.version → s.cache.rings = ringsOf xxh64 v) :
    Coherent xxh64 { s with view := v } where
  version := hv
  cache := hcache
  calls := by simp [hcalls]
  pending := h.pending
  answers := h.answers
  routes := h.routes

theorem Coherent.adopt (h : Coherent xxh64 s) {incoming : ClusterMetadata} (hcalls : s.calls = [])
    (hdistinct : Distinct xxh64 s (.adopt incoming)) :
    Coherent xxh64 { s with view := (ClusterMeta.adopt s.view incoming).1 } := by
  by_cases hv : incoming.sanitized.validate = .ok ()
  · have htop := @adopt_topology s.view _ hv
    by_cases hs : incoming.supersedes s.view = true
    · rw [if_pos hs] at htop
      apply h.replace hcalls
      · rw [version_congr htop]
        exact (validate_iff.mp hv).1.1
      · rw [version_congr htop, ringsOf_congr htop]
        exact fun hver => (hdistinct hv hs hver.symm).symm
    · rw [if_neg hs] at htop
      apply h.replace hcalls
      · rw [version_congr htop]
        exact h.version
      · rw [version_congr htop, ringsOf_congr htop]
        exact h.cache
  · rw [adopt_invalid hv]
    exact h

theorem Coherent.step {l : Label} (h : Coherent xxh64 s) (hdistinct : Distinct xxh64 s l)
    (hstep : step xxh64 s l = some s') : Coherent xxh64 s' := by
  cases l with
  | adopt incoming =>
    obtain ⟨hcalls, rfl⟩ := Option.ite_none_right_eq_some.mp hstep |>.imp_right Option.some.inj
    exact h.adopt (List.isEmpty_iff.mp hcalls) hdistinct
  | catalog c =>
    obtain ⟨hcalls, rfl⟩ := Option.ite_none_right_eq_some.mp hstep |>.imp_right Option.some.inj
    exact h.replace (List.isEmpty_iff.mp hcalls) h.version h.cache
  | boot stored =>
    obtain ⟨hv, rfl⟩ := Option.ite_none_right_eq_some.mp hstep |>.imp_right Option.some.inj
    exact h.start hv
  | lock id route =>
    obtain rfl := Option.some.inj hstep
    refine { h with calls := fun c hc => ?_ }
    rcases List.mem_cons.mp hc with rfl | hc
    · rfl
    · exact h.calls c hc
  | lookup id =>
    obtain ⟨c, hc, rfl⟩ := Option.map_eq_some_iff.mp hstep
    have hview : c.view = s.view := h.calls c (List.mem_of_find?_eq_some hc)
    split
    · next hver =>
      apply h.answer
      rw [hview] at hver ⊢
      exact h.cache hver
    · refine { h with calls := fun d hd => ?_ }
      rcases List.mem_cons.mp hd with rfl | hd
      · exact hview
      · exact h.calls d (List.mem_of_mem_filter hd)
  | store id =>
    obtain ⟨c, hc, rfl⟩ := Option.map_eq_some_iff.mp hstep
    have hview : c.view = s.view := h.calls c (List.mem_of_find?_eq_some hc)
    by_cases hle : s.cache.version ≤ c.view.version
    · simp only [if_pos hle]
      have hbuilt : Coherent xxh64
          { s with cache := ⟨c.view.version, (ringsOf xxh64 c.view).1,
            (ringsOf xxh64 c.view).2⟩ } :=
        { h with cache := fun _ => by rw [hview]; rfl }
      exact hbuilt.answer rfl
    · simp only [if_neg hle]
      exact h.answer rfl
  | shards id =>
    obtain ⟨p, hp, rfl⟩ := Option.map_eq_some_iff.mp hstep
    have hmem := List.mem_of_find?_eq_some hp
    have hid : p.id = id := by simpa using List.find?_some hp
    refine { h with
      pending := fun q hq => h.pending q (List.mem_of_mem_filter hq)
      routes := fun r hr => ?_ }
    rcases List.mem_cons.mp hr with rfl | hr
    · rcases hdistinct p hmem hid with hring | hsame
      · exact .inr (configuredShard_of_no_ring hring p.hash)
      · exact .inl (hsame.trans (configuredShard_of_no_ring (h.pending p hmem) p.hash))
    · exact h.routes r hr

theorem Init.coherent (h : Init s) : Coherent xxh64 s := by
  obtain ⟨stored, hv, rfl⟩ := h
  have hver := (validate_iff.mp hv).1.1
  exact ⟨hver, fun h0 => absurd h0.symm hver, by simp [start], by simp [start], by simp [start],
    by simp [start]⟩

/-- Every call of a run whose steps meet the condition returns the rings of the view that it read,
and every lookup the shard that one of its views gives. -/
theorem rings_coherent {ls : List Label} (hinit : Init s) (hrun : run (step xxh64) s ls = some s')
    (hdistinct : Meets (step xxh64) (Distinct xxh64) s ls) :
    (∀ a ∈ s'.answers, a.2 = ringsOf xxh64 a.1) ∧ ∀ r ∈ s'.routes, r.Sound xxh64 := by
  have h : Coherent xxh64 s' :=
    run_invariant_of_meets (fun _ _ _ h hok hstep => h.step hok hstep) hrun hdistinct hinit.coherent
  exact ⟨h.answers, h.routes⟩

/-- The condition on an adoption is exact: a view that wins with the version of other cached rings
is answered for with those. -/
theorem answers_stale {incoming : ClusterMetadata} {id : ℕ} (h : s.calls = [])
    (hv : incoming.sanitized.validate = .ok ()) (hwins : incoming.supersedes s.view = true)
    (hver : incoming.version = s.cache.version) (hrings : ringsOf xxh64 incoming ≠ s.cache.rings) :
    ∃ s' a, run (step xxh64) s [.adopt incoming, .lock id none, .lookup id] = some s' ∧
      a ∈ s'.answers ∧ a.2 ≠ ringsOf xxh64 a.1 := by
  have htop := @adopt_topology s.view _ hv
  rw [if_pos hwins] at htop
  have hversion : s.cache.version = (ClusterMeta.adopt s.view incoming).1.version :=
    hver.symm.trans (version_congr htop).symm
  have hrun : run (step xxh64) s [.adopt incoming, .lock id none, .lookup id] = some { s with
      view := (ClusterMeta.adopt s.view incoming).1
      answers := ((ClusterMeta.adopt s.view incoming).1, s.cache.rings) :: s.answers } := by
    simp [run, step, h, State.call, hversion, State.answer]
  refine ⟨_, _, hrun, List.mem_cons_self, ?_⟩
  rw [ringsOf_congr htop]
  exact hrings.symm

section Rival

/-- A shard of one primary, published by the node `by'`. -/
def published (by' : NodeId) (url : Url) : ClusterMetadata :=
  ⟨2, by', false, [], [], some ⟨1, [⟨url, []⟩]⟩, none, ∅⟩

/-- A node that has laid out one view adopts another of the same version. -/
def rivalLabels : List Label :=
  [.lock 0 none, .lookup 0, .store 0, .adopt (published ['b'] "http://b".toList),
    .lock 1 none, .lookup 1]

def rivalStart : State :=
  start ⟨published ['a'] "http://a".toList, ⟨0, none, none⟩, [], [], [], []⟩
    (published ['a'] "http://a".toList)

/-- The second call returns the rings of the view before. -/
theorem rings_coherent_fails : ¬ ∀ (s s' : State) (ls : List Label), Init s →
    run (step List.length) s ls = some s' → ∀ a ∈ s'.answers, a.2 = ringsOf List.length a.1 := by
  intro h
  have hinit : Init rivalStart := ⟨_, by decide, rfl⟩
  have hstale : (run (step List.length) rivalStart rivalLabels).any (fun s' =>
      s'.answers.any fun a => a.2 != ringsOf List.length a.1) = true := by decide
  obtain ⟨s', hrun, hwrong⟩ := (Option.any_eq_true _ _).mp hstale
  obtain ⟨a, ha, hne⟩ := List.any_eq_true.mp hwrong
  exact bne_iff_ne.mp hne (h rivalStart s' rivalLabels hinit hrun a ha)

def nextLabels : List Label :=
  [.lock 0 (some 7), .lookup 0, .store 0, .adopt ((published ['b'] "http://b".toList).bump ['b']),
    .lock 1 none, .lookup 1, .store 1]

theorem rings_coherent_next : ∃ s', run (step List.length) rivalStart nextLabels = some s' ∧
    ∀ a ∈ s'.answers, a.2 = ringsOf List.length a.1 := by
  obtain ⟨s', hrun⟩ : ∃ s', run (step List.length) rivalStart nextLabels = some s' :=
    Option.isSome_iff_exists.mp (by decide)
  exact ⟨s', hrun, (rings_coherent ⟨_, by decide, rfl⟩ hrun (by decide)).1⟩

end Rival

end Coherent

end DewDB.ViewRings
