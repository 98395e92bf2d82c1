import DewDB.AggregationMetrics
import DewDB.Grouping

/-!
# Merging the aggregations of shards

The buckets of a shard cover its documents by the text of their group key, and so do the groups of
its result. Adding a document and merging in a group both keep this, and both refuse when a group is
one too many. Results that cover the same documents say the same.
-/
namespace DewDB.Aggregation

open JsonValue Grouping

variable {N : Type} [Number N] {text : Option (Json N) → List Char} {spec : AggregateSpec}
  {docs ds : List (Json N)} {K : Set (Option (Json N))}

def slotOf (text : Option (Json N) → List Char) (spec : AggregateSpec) (doc : Json N) : List Char :=
  text (groupKey doc spec.group)

structure BucketOf (spec : AggregateSpec) (docs : List (Json N)) (b : Bucket N) : Prop where
  key : ∀ d ∈ docs, groupKey d spec.group = b.key
  count : b.count = docs.length
  metrics : List.Forall₂ (fun m v => Describes false m docs v) spec.metrics b.metrics

/-- The metric that is published under a label: the last one that has it. -/
def labelled (l : List Char) (specs : List MetricSpec) : Option MetricSpec :=
  specs.reverse.find? fun m => m.label = l

structure GroupOf (spec : AggregateSpec) (docs : List (Json N)) (g : AggregateGroup N) : Prop where
  key : ∀ d ∈ docs, groupKey d spec.group = g.key
  count : g.count = docs.length
  metrics : ∀ l, Option.Rel (fun m v => Describes true m docs v) (labelled l spec.metrics)
    (g.metrics.get? l)

structure ResultOf (text : Option (Json N) → List Char) (spec : AggregateSpec)
    (docs : List (Json N)) (r : AggregateResult N) : Prop where
  groups : ∃ m, r.groups = SortedMap.values m ∧ Covers (GroupOf spec) (slotOf text spec) docs m
  matched : r.matched = docs.length

/-- Groups of the same documents, up to which of several extreme values they hold. -/
structure SameGroup (g h : AggregateGroup N) : Prop where
  key : g.key = h.key
  count : g.count = h.count
  metrics : ∀ l, Option.Rel SameMetric (g.metrics.get? l) (h.metrics.get? l)

structure SameResult (r s : AggregateResult N) : Prop where
  groups : List.Forall₂ SameGroup r.groups s.groups
  matched : r.matched = s.matched
  scanned : r.scanned = s.scanned
  isPartial : r.isPartial = s.isPartial

section Groups

omit [Number N] in
theorem groupKey_eq (hinj : K.InjOn text) {a b : Json N} (ha : groupKey a spec.group ∈ K)
    (hb : groupKey b spec.group ∈ K) (h : slotOf text spec a = slotOf text spec b) :
    groupKey a spec.group = groupKey b spec.group := hinj ha hb h

theorem BucketOf.take {b : Bucket N} (h : BucketOf spec docs b) {doc : Json N}
    (hkey : groupKey doc spec.group = b.key) :
    BucketOf spec (docs ++ [doc]) (b.take spec.metrics doc) where
  key := by
    intro d hd
    rcases List.mem_append.mp hd with hd | hd
    · exact h.key d hd
    · rw [List.mem_singleton.mp hd]
      exact hkey
  count := by
    rw [List.length_append, List.length_singleton, ← h.count]
    rfl
  metrics := by
    have hmetrics := h.metrics
    simp only [Bucket.take]
    generalize spec.metrics = specs at hmetrics ⊢
    generalize b.metrics = held at hmetrics ⊢
    induction hmetrics with
    | nil => exact .nil
    | cons hv _ ih => exact .cons (describes_accumulate hv doc) ih

theorem bucketOf_fresh (spec : AggregateSpec) (key : Option (Json N)) :
    BucketOf spec [] (⟨key, 0, List.replicate spec.metrics.length .fresh⟩ : Bucket N) where
  key := by simp
  count := rfl
  metrics := by
    induction spec.metrics with
    | nil => exact .nil
    | cons m ms ih => exact .cons (describes_fresh false m) ih

theorem get?_collect {α : Type} (pairs : List (List Char × α)) (l : List Char) :
    (collect pairs).get? l = (pairs.reverse.find? fun p => p.1 = l).map Prod.snd := by
  induction pairs using List.reverseRecOn with
  | nil => rfl
  | append_singleton pairs p ih =>
    have hcollect : collect (pairs ++ [p]) = (collect pairs).insert p.1 p.2 := by
      rw [collect, List.foldl_append]
      rfl
    rw [hcollect, SortedMap.get?_insert, List.reverse_append, List.reverse_singleton,
      List.singleton_append, List.find?_cons, ih]
    by_cases hl : l = p.1
    · rw [if_pos hl, decide_eq_true hl.symm]
      rfl
    · rw [if_neg hl, decide_eq_false fun h => hl h.symm]

/-- Pairs that belong to the metrics one by one are found under the same labels. -/
theorem rel_find? {specs : List MetricSpec} {pairs : List (List Char × MetricValue N)}
    (l : List Char)
    (h : List.Forall₂ (fun m p => p.1 = m.label ∧ Describes true m docs p.2) specs pairs) :
    Option.Rel (fun m v => Describes true m docs v) (specs.find? fun m => m.label = l)
      ((pairs.find? fun p => p.1 = l).map Prod.snd) := by
  induction h with
  | nil => exact .none
  | @cons m p ms ps hp _ ih =>
    rw [List.find?_cons, List.find?_cons, hp.1]
    by_cases hl : m.label = l
    · rw [decide_eq_true hl]
      exact .some hp.2
    · rw [decide_eq_false hl]
      exact ih

theorem BucketOf.group {b : Bucket N} (h : BucketOf spec docs b) : GroupOf spec docs
    (b.group spec.metrics) where
  key := h.key
  count := h.count
  metrics := by
    intro l
    have hpairs : List.Forall₂ (fun m p => p.1 = m.label ∧ Describes true m docs p.2) spec.metrics
        (List.zipWith (fun m v => (m.label, MetricValue.finish v)) spec.metrics b.metrics) := by
      have hmetrics := h.metrics
      generalize spec.metrics = specs at hmetrics ⊢
      generalize b.metrics = held at hmetrics ⊢
      induction hmetrics with
      | nil => exact .nil
      | cons hv _ ih => exact .cons ⟨rfl, describes_finish hv⟩ ih
    rw [Bucket.group, get?_collect]
    exact rel_find? l (List.rel_reverse hpairs)

theorem get?_join (es : List (List Char × MetricValue N)) (hs : (es.map Prod.fst).Pairwise (· < ·))
    (ms : SortedMap (List Char) (MetricValue N)) (l : List Char) :
    (es.foldl (fun ms e => ms.insert e.1 (((ms.get? e.1).getD .fresh).absorb e.2)) ms).get? l =
      match SortedMap.find l es with
      | some v => some (((ms.get? l).getD .fresh).absorb v)
      | none => ms.get? l := by
  induction es generalizing ms with
  | nil => rfl
  | cons e es ih =>
    have he := SortedMap.sorted_cons hs
    rw [List.foldl_cons, ih he.2, SortedMap.find]
    by_cases hl : l = e.1
    · rw [if_pos hl, hl, SortedMap.find_none_of_lt he.1, SortedMap.get?_insert, if_pos rfl]
    · rw [if_neg hl, SortedMap.get?_insert, if_neg hl]

theorem GroupOf.join {g h : AggregateGroup N} (hg : GroupOf spec docs g) (hh : GroupOf spec ds h)
    (hkey : ∀ d ∈ ds, groupKey d spec.group = g.key) : GroupOf spec (docs ++ ds) (g.join h) where
  key := by
    intro d hd
    rcases List.mem_append.mp hd with hd | hd
    · exact hg.key d hd
    · exact hkey d hd
  count := by
    rw [List.length_append, ← hg.count, ← hh.count]
    rfl
  metrics := by
    intro l
    have hjoin : (g.join h).metrics.get? l = match h.metrics.get? l with
        | some v => some (((g.metrics.get? l).getD .fresh).absorb v)
        | none => g.metrics.get? l := get?_join h.metrics.entries h.metrics.sorted g.metrics l
    have hgl := hg.metrics l
    have hhl := hh.metrics l
    rw [hjoin]
    generalize labelled l spec.metrics = m at hgl hhl ⊢
    generalize g.metrics.get? l = v at hgl ⊢
    generalize h.metrics.get? l = w at hhl ⊢
    cases hgl with
    | none =>
      cases hhl
      exact .none
    | some hv =>
      cases hhl with
      | some hw => exact .some (describes_absorb hv hw)

theorem GroupOf.perm {g : AggregateGroup N} (h : GroupOf spec docs g) (hp : docs.Perm ds) :
    GroupOf spec ds g where
  key d hd := h.key d (hp.mem_iff.mpr hd)
  count := h.count.trans hp.length_eq
  metrics l := by
    have hl := h.metrics l
    generalize labelled l spec.metrics = m at hl ⊢
    generalize g.metrics.get? l = v at hl ⊢
    cases hl with
    | none => exact .none
    | some hv => exact .some (hv.perm hp)

theorem GroupOf.same {g h : AggregateGroup N} (hne : docs ≠ []) (hg : GroupOf spec docs g)
    (hh : GroupOf spec docs h) : SameGroup g h where
  key := by
    obtain ⟨d, hd⟩ := List.exists_mem_of_ne_nil _ hne
    rw [← hg.key d hd, hh.key d hd]
  count := hg.count.trans hh.count.symm
  metrics := by
    intro l
    have hgl := hg.metrics l
    have hhl := hh.metrics l
    generalize labelled l spec.metrics = m at hgl hhl
    generalize g.metrics.get? l = v at hgl ⊢
    generalize h.metrics.get? l = w at hhl ⊢
    cases hgl with
    | none =>
      cases hhl
      exact .none
    | some hv =>
      cases hhl with
      | some hw => exact .some (hv.same hw)

end Groups

section Runs

def groupCount (text : Option (Json N) → List Char) (spec : AggregateSpec)
    (docs : List (Json N)) : ℕ :=
  (image (slotOf text spec) docs).card

def KeysIn (spec : AggregateSpec) (K : Set (Option (Json N))) (docs : List (Json N)) : Prop :=
  ∀ d ∈ docs, groupKey d spec.group ∈ K

structure Taken (text : Option (Json N) → List Char) (spec : AggregateSpec)
    (K : Set (Option (Json N))) (docs : List (Json N)) (agg : Aggregator N) : Prop where
  same : agg.spec = spec
  matched : agg.matched = docs.length
  buckets : Covers (BucketOf spec) (slotOf text spec) docs agg.buckets
  keys : KeysIn spec K docs

def Merged (text : Option (Json N) → List Char) (spec : AggregateSpec) (K : Set (Option (Json N)))
    (docs : List (Json N)) (m : SortedMap (List Char) (AggregateGroup N)) : Prop :=
  Covers (GroupOf spec) (slotOf text spec) docs m ∧ KeysIn spec K docs

omit [Number N] in
theorem KeysIn.append (h : KeysIn spec K docs) (h' : KeysIn spec K ds) : KeysIn spec K
    (docs ++ ds) :=
  fun d hd => (List.mem_append.mp hd).elim (h d) (h' d)

omit [Number N] in
theorem groupCount_mono (docs ds : List (Json N)) : groupCount text spec docs ≤ groupCount text spec
    (docs ++ ds) :=
  card_image_le _ (List.subset_append_left docs ds)

/-- Counting a document puts it in the bucket of its slot, which may be a new one. -/
theorem add_bounded (hinj : K.InjOn text) {agg : Aggregator N} (h : Taken text spec K docs agg)
    {doc : Json N}
    (hdoc : groupKey doc spec.group ∈ K) (hcount : groupCount text spec docs ≤ maxAggregateGroups) :
    Bounded (Taken text spec K) (groupCount text spec) maxAggregateGroups tooManyGroups
      (docs ++ [doc]) (agg.add text doc) := by
  have hslot : ∀ d ∈ [doc], slotOf text spec d = slotOf text spec doc := by simp
  have hsize : agg.buckets.size = groupCount text spec docs := h.buckets.size
  have hcard : groupCount text spec (docs ++ [doc]) =
    if (agg.buckets.get? (slotOf text spec doc)).isSome then
      agg.buckets.size else agg.buckets.size + 1 :=
        h.buckets.card_append hslot (List.cons_ne_nil _ _)
  have hkeys : KeysIn spec K (docs ++ [doc]) := h.keys.append (by simpa [KeysIn] using hdoc)
  have htaken : ∀ b : Bucket N,
    BucketOf spec (fiber (slotOf text spec) (slotOf text spec doc) docs) b →
      groupKey doc spec.group = b.key → Taken text spec K (docs ++ [doc]) { agg with
        buckets := agg.buckets.insert (slotOf text spec doc) (b.take spec.metrics doc)
        matched := agg.matched + 1 } := by
    intro b hb hkey
    refine ⟨h.same, ?_, h.buckets.insert hslot (List.cons_ne_nil _ _) (hb.take hkey), hkeys⟩
    rw [List.length_append, List.length_singleton, ← h.matched]
  have hadd : agg.add text doc = (agg.buckets.get? (slotOf text spec doc)).elim
      (if maxAggregateGroups ≤ agg.buckets.size then .error tooManyGroups
        else .ok { agg with
          buckets := agg.buckets.insert (slotOf text spec doc)
            ((⟨groupKey doc spec.group, 0, List.replicate spec.metrics.length .fresh⟩ :
              Bucket N).take spec.metrics doc)
          matched := agg.matched + 1 })
      fun bucket => .ok { agg with
        buckets := agg.buckets.insert (slotOf text spec doc) (bucket.take spec.metrics doc)
        matched := agg.matched + 1 } := by
    rw [Aggregator.add, h.same, slotOf]
    cases agg.buckets.get? (text (groupKey doc spec.group)) <;> rfl
  rw [hadd]
  rcases h.buckets (slotOf text spec doc) with ⟨hget, hnil⟩ | ⟨b, hget, hne, hb⟩
  · rw [hget] at hcard ⊢
    rw [if_neg (by simp)] at hcard
    by_cases hfull : maxAggregateGroups ≤ agg.buckets.size
    · rw [Option.elim_none, if_pos hfull]
      exact ⟨fun h => by omega, fun _ => rfl⟩
    · rw [Option.elim_none, if_neg hfull]
      refine ⟨fun _ => ⟨_, rfl, htaken _ ?_ rfl⟩, fun h => by omega⟩
      rw [hnil]
      exact bucketOf_fresh spec (groupKey doc spec.group)
  · rw [hget] at hcard ⊢
    rw [if_pos (by rfl)] at hcard
    refine ⟨fun _ => ⟨_, rfl, htaken b hb ?_⟩, fun h => by omega⟩
    obtain ⟨d, hd⟩ := List.exists_mem_of_ne_nil _ hne
    obtain ⟨hd', hdslot⟩ := mem_fiber.mp hd
    rw [← hb.key d hd]
    exact groupKey_eq hinj hdoc (h.keys d hd') hdslot.symm

theorem aggregate_bounded (hinj : K.InjOn text) (hkeys : KeysIn spec K docs) (scanned : ℕ)
    (isPartial : Bool) :
    Bounded (fun docs r => ResultOf text spec docs r ∧ r.scanned = scanned ∧
      r.isPartial = isPartial)
      (groupCount text spec) maxAggregateGroups tooManyGroups docs
        (aggregate text spec docs scanned isPartial) := by
  have hstart : Taken text spec K [] (Aggregator.start spec : Aggregator N) :=
    ⟨rfl, rfl, covers_empty, fun d hd => absurd hd List.not_mem_nil⟩
  have hrun := foldlM_bounded (Aggregator.add text) (fun doc => [doc]) groupCount_mono docs
    (fun doc hdoc xs agg h hcount => add_bounded hinj h (hkeys doc hdoc) hcount) []
    (Aggregator.start spec) hstart (Nat.zero_le _)
  rw [List.nil_append, List.flatMap_singleton'] at hrun
  constructor
  · intro hwithin
    obtain ⟨agg, hagg, htaken⟩ := hrun.1 hwithin
    refine ⟨agg.finish scanned isPartial, by rw [aggregate, hagg]; rfl,
      ⟨?_, htaken.matched⟩, rfl, rfl⟩
    refine ⟨agg.buckets.mapValues (Bucket.group spec.metrics), ?_,
      htaken.buckets.map _ fun _ _ hb => hb.group⟩
    rw [SortedMap.values_mapValues, ← htaken.same]
    rfl
  · intro hbeyond
    rw [aggregate, hrun.2 hbeyond]
    rfl

theorem mergeGroup_bounded (hinj : K.InjOn text) {m : SortedMap (List Char) (AggregateGroup N)}
    {g : AggregateGroup N}
    (h : Merged text spec K docs m) (hg : GroupOf spec ds g) (hne : ds ≠ [])
    (hkeys : KeysIn spec K ds) (hcount : groupCount text spec docs ≤ maxAggregateGroups) :
    Bounded (Merged text spec K) (groupCount text spec) maxAggregateGroups
      tooManyGroups (docs ++ ds) (mergeGroup text m g) := by
  have hslot : ∀ d ∈ ds, slotOf text spec d = text g.key := by
    intro d hd
    rw [slotOf, hg.key d hd]
  have hsize : m.size = groupCount text spec docs := h.1.size
  have hcard : groupCount text spec (docs ++ ds) = if (m.get? (text g.key)).isSome then m.size
    else m.size + 1 :=
    h.1.card_append hslot hne
  rw [mergeGroup]
  rcases h.1 (text g.key) with ⟨hget, hnil⟩ | ⟨held, hget, hin, hheld⟩
  · rw [hget] at hcard ⊢
    rw [if_neg (by simp)] at hcard
    by_cases hfull : maxAggregateGroups ≤ m.size
    · simp only [if_pos hfull]
      exact ⟨fun h => by omega, fun _ => rfl⟩
    · simp only [if_neg hfull]
      refine ⟨fun _ => ⟨_, rfl, h.1.insert hslot hne ?_, h.2.append hkeys⟩, fun h => by omega⟩
      rw [hnil]
      exact hg
  · rw [hget] at hcard ⊢
    rw [if_pos (by rfl)] at hcard
    refine ⟨fun _ => ⟨_, rfl, h.1.insert hslot hne (hheld.join hg ?_), h.2.append hkeys⟩,
      fun h => by omega⟩
    intro d hd
    obtain ⟨d', hd'⟩ := List.exists_mem_of_ne_nil _ hin
    obtain ⟨hd'', hdslot⟩ := mem_fiber.mp hd'
    rw [← hheld.key d' hd']
    exact groupKey_eq hinj (hkeys d hd) (h.2 d' hd'') ((hslot d hd).trans hdslot.symm)

theorem mergePart_bounded (hinj : K.InjOn text) {m : SortedMap (List Char) (AggregateGroup N)}
    {part : AggregateResult N} (h : Merged text spec K docs m) (hpart : ResultOf text spec ds part)
    (hkeys : KeysIn spec K ds) (hcount : groupCount text spec docs ≤ maxAggregateGroups) :
    Bounded (Merged text spec K) (groupCount text spec) maxAggregateGroups
      tooManyGroups (docs ++ ds) (mergePart text m part) := by
  obtain ⟨n, hgroups, hcovers⟩ := hpart.groups
  have hrun := foldlM_bounded (fun m (e : List Char × AggregateGroup N) => mergeGroup text m e.2)
    (fun e => fiber (slotOf text spec) e.1 ds) groupCount_mono n.entries
    (fun e he xs m' hm' hcount' => by
      have hget := SortedMap.mem_entries_iff.mp he
      rcases hcovers e.1 with ⟨hnone, -⟩ | ⟨g, hsome, hne, hg⟩
      · rw [hnone] at hget
        cases hget
      · obtain rfl := Option.some.inj (hsome.symm.trans hget)
        exact mergeGroup_bounded hinj hm' hg hne (fun d hd =>
          hkeys d (mem_fiber.mp hd).1) hcount') docs m h hcount
  have hfold : n.entries.foldlM (fun m e => mergeGroup text m e.2) m = mergePart text m part := by
    rw [mergePart, hgroups, SortedMap.values, List.foldlM_map]
  have hfiber : ∀ k, fiber (slotOf text spec) k (docs ++ n.entries.flatMap fun e =>
    fiber (slotOf text spec) e.1 ds) =
      fiber (slotOf text spec) k (docs ++ ds) := by
    intro k
    rw [fiber_append, hcovers.fiber_entries, fiber_append]
  have himage : groupCount text spec (docs ++ n.entries.flatMap fun e =>
    fiber (slotOf text spec) e.1 ds) =
      groupCount text spec (docs ++ ds) := by
    rw [groupCount, image_congr fun k => List.Perm.of_eq (hfiber k), groupCount]
  rw [hfold] at hrun
  rw [Bounded, himage] at hrun
  refine ⟨fun hwithin => ?_, hrun.2⟩
  obtain ⟨m', hm', hcov, -⟩ := hrun.1 hwithin
  exact ⟨m', hm', hcov.congr (fun _ _ _ hp hg => hg.perm hp) fun k => List.Perm.of_eq (hfiber k),
    h.2.append hkeys⟩

structure Shard (N : Type) where
  docs : List (Json N)
  scanned : ℕ
  isPartial : Bool

theorem merge_bounded (hinj : K.InjOn text) {shards : List (Shard N)}
    {parts : List (AggregateResult N)}
    (hparts : List.Forall₂ (fun s r => ResultOf text spec s.docs r ∧ r.scanned = s.scanned ∧
      r.isPartial = s.isPartial) shards parts) (hkeys : ∀ s ∈ shards, KeysIn spec K s.docs) :
    Bounded (fun docs r => ResultOf text spec docs r ∧ r.scanned = (shards.map Shard.scanned).sum ∧
        r.isPartial = shards.any Shard.isPartial)
      (groupCount text spec) maxAggregateGroups tooManyGroups (shards.flatMap Shard.docs)
        (merge text parts) := by
  obtain ⟨hlength, hzip⟩ := List.forall₂_iff_zip.mp hparts
  have hpair : ∀ p ∈ shards.zip parts, ResultOf text spec p.1.docs p.2 ∧ p.2.scanned = p.1.scanned ∧
      p.2.isPartial = p.1.isPartial := fun p hp => hzip hp
  have hfst : (shards.zip parts).map Prod.fst = shards := List.map_fst_zip (Nat.le_of_eq hlength)
  have hsnd : (shards.zip parts).map Prod.snd = parts :=
    List.map_snd_zip (Nat.le_of_eq hlength.symm)
  have hstart : Merged text spec K [] (.empty : SortedMap (List Char) (AggregateGroup N)) :=
    ⟨covers_empty, fun d hd => absurd hd List.not_mem_nil⟩
  have hrun := foldlM_bounded (fun m (p : Shard N × AggregateResult N) => mergePart text m p.2)
    (fun p => p.1.docs) groupCount_mono (shards.zip parts)
    (fun p hp xs m hm hcount => mergePart_bounded hinj hm (hpair p hp).1
      (hkeys p.1 (List.of_mem_zip hp).1) hcount) [] .empty hstart (Nat.zero_le _)
  have hfold : parts.foldlM (mergePart text) .empty =
      (shards.zip parts).foldlM (fun m p => mergePart text m p.2) .empty := by
    rw [← hsnd, List.foldlM_map, hsnd]
  have hdocs : (shards.zip parts).flatMap (fun p => p.1.docs) = shards.flatMap Shard.docs := by
    rw [← hfst, List.flatMap_map, hfst]
  rw [List.nil_append, ← hfold, hdocs] at hrun
  constructor
  · intro hwithin
    obtain ⟨m, hm, hcovers, -⟩ := hrun.1 hwithin
    refine ⟨_, by rw [merge, hm]; rfl, ⟨⟨m, rfl, hcovers⟩, ?_⟩, ?_, ?_⟩
    · calc (parts.map AggregateResult.matched).sum
          = ((shards.zip parts).map fun p => p.2.matched).sum := by
            rw [← hsnd, List.map_map, hsnd]; rfl
        _ = ((shards.zip parts).map fun p => p.1.docs.length).sum :=
            congrArg List.sum (List.map_congr_left fun p hp => (hpair p hp).1.matched)
        _ = (shards.flatMap Shard.docs).length := by rw [← hdocs, List.length_flatMap]
    · calc (parts.map AggregateResult.scanned).sum
          = ((shards.zip parts).map fun p => p.2.scanned).sum := by
            rw [← hsnd, List.map_map, hsnd]; rfl
        _ = ((shards.zip parts).map fun p => p.1.scanned).sum :=
            congrArg List.sum (List.map_congr_left fun p hp => (hpair p hp).2.1)
        _ = (shards.map Shard.scanned).sum := by rw [← hfst, List.map_map, hfst]; rfl
    · calc parts.any AggregateResult.isPartial
          = (shards.zip parts).any (fun p => p.2.isPartial) := by
            rw [← hsnd, List.any_map, hsnd]; rfl
        _ = (shards.zip parts).any (fun p => p.1.isPartial) := by
            rw [Bool.eq_iff_iff, List.any_eq_true, List.any_eq_true]
            exact exists_congr fun p => and_congr_right fun hp => by rw [(hpair p hp).2.2]
        _ = shards.any Shard.isPartial := by rw [← hfst, List.any_map, hfst]; rfl
  · intro hbeyond
    rw [merge, hrun.2 hbeyond]
    rfl

end Runs

section Distributed

def Shard.run (text : Option (Json N) → List Char) (spec : AggregateSpec) (s : Shard N) :
    Except String (AggregateResult N) := aggregate text spec s.docs s.scanned s.isPartial

/-- The shards aggregate and the router merges; an error of a shard is the answer. -/
def distributed (text : Option (Json N) → List Char) (spec : AggregateSpec)
    (shards : List (Shard N)) :
    Except String (AggregateResult N) := shards.mapM (Shard.run text spec) >>= merge text

def whole (text : Option (Json N) → List Char) (spec : AggregateSpec) (docs : List (Json N))
    (shards : List (Shard N)) : Except String (AggregateResult N) :=
  aggregate text spec docs (shards.map Shard.scanned).sum (shards.any Shard.isPartial)

def SameOutcome (r s : Except String (AggregateResult N)) : Prop :=
  (∃ a b, r = .ok a ∧ s = .ok b ∧ SameResult a b) ∨ r = .error tooManyGroups ∧
    s = .error tooManyGroups

theorem ResultOf.same {r s : AggregateResult N} (hr : ResultOf text spec docs r)
    (hs : ResultOf text spec ds s)
    (hp : docs.Perm ds) (hscanned : r.scanned = s.scanned) (hshort : r.isPartial = s.isPartial) :
    SameResult r s := by
  obtain ⟨m, hm, hcm⟩ := hr.groups
  obtain ⟨n, hn, hcn⟩ := hs.groups
  have hcm' := hcm.congr (fun _ _ _ hp hg => hg.perm hp) fun k => hp.filter _
  refine ⟨?_, by rw [hr.matched, hs.matched, hp.length_eq], hscanned, hshort⟩
  rw [hm, hn]
  exact hcm'.forall₂ hcn fun _ _ _ hne hg hh => hg.same hne hh

theorem Shard.run_bounded (hinj : K.InjOn text) {s : Shard N} (hkeys : KeysIn spec K s.docs) :
    Bounded (fun docs r => ResultOf text spec docs r ∧ r.scanned = s.scanned ∧
      r.isPartial = s.isPartial)
      (groupCount text spec) maxAggregateGroups tooManyGroups s.docs (s.run text spec) :=
  aggregate_bounded hinj hkeys s.scanned s.isPartial

theorem distributed_bounded (hinj : K.InjOn text) {shards : List (Shard N)}
    (hkeys : ∀ s ∈ shards, KeysIn spec K s.docs) :
    Bounded (fun docs r => ResultOf text spec docs r ∧ r.scanned = (shards.map Shard.scanned).sum ∧
        r.isPartial = shards.any Shard.isPartial)
      (groupCount text spec) maxAggregateGroups tooManyGroups (shards.flatMap Shard.docs)
      (distributed text spec shards) := by
  have hrun := fun (s : Shard N) hs => Shard.run_bounded hinj (hkeys s hs)
  by_cases hall : ∀ s ∈ shards, groupCount text spec s.docs ≤ maxAggregateGroups
  · obtain ⟨parts, hparts, hrel⟩ := mapM_ok fun s hs => (hrun s hs).1 (hall s hs)
    rw [distributed, hparts]
    exact merge_bounded hinj hrel hkeys
  · push Not at hall
    obtain ⟨s, hs, hbeyond⟩ := hall
    have herror : shards.mapM (Shard.run text spec) = .error tooManyGroups := by
      apply mapM_error
      · intro s hs
        rcases Nat.lt_or_ge maxAggregateGroups (groupCount text spec s.docs) with h | h
        · exact .inr ((hrun s hs).2 h)
        · obtain ⟨r, hr, -⟩ := (hrun s hs).1 h
          exact .inl ⟨r, hr⟩
      · exact ⟨s, hs, (hrun s hs).2 hbeyond⟩
    have hle : groupCount text spec s.docs ≤ groupCount text spec (shards.flatMap Shard.docs) :=
      card_image_le _ fun d hd => List.mem_flatMap.mpr ⟨s, hs, hd⟩
    have hcount := Nat.lt_of_lt_of_le hbeyond hle
    rw [distributed, herror]
    exact ⟨fun h => absurd hcount (Nat.not_lt_of_le h), fun _ => rfl⟩

/-- However the documents are split over shards, and in whatever order these answer, merging their
results says what one aggregation over all documents says, and the merge refuses a group too many
when that one does. -/
theorem merge_homomorphism (text : Option (Json N) → List Char) (spec : AggregateSpec)
    (docs : List (Json N)) (shards : List (Shard N)) (hdocs : (shards.flatMap Shard.docs).Perm docs)
    (htext : Set.InjOn text {key | ∃ d ∈ docs, groupKey d spec.group = key}) :
    SameOutcome (distributed text spec shards) (whole text spec docs shards) ∧
    ∀ parts, shards.mapM (Shard.run text spec) = .ok parts →
      (merge text parts = .error tooManyGroups ↔
        whole text spec docs shards = .error tooManyGroups) := by
  have hkeys : KeysIn spec {key | ∃ d ∈ docs, groupKey d spec.group = key} docs :=
    fun d hd => ⟨d, hd, rfl⟩
  have hshards : ∀ s ∈ shards, KeysIn spec {key | ∃ d ∈ docs, groupKey d spec.group = key} s.docs :=
    fun s hs d hd => hkeys d (hdocs.subset (List.mem_flatMap.mpr ⟨s, hs, hd⟩))
  have hall := distributed_bounded htext hshards
  have hone := aggregate_bounded htext hkeys (shards.map Shard.scanned).sum
    (shards.any Shard.isPartial)
  have hcount : groupCount text spec (shards.flatMap Shard.docs) = groupCount text spec docs := by
    rw [groupCount, image_congr fun k => hdocs.filter _, groupCount]
  rw [Bounded, hcount] at hall
  have hsame : SameOutcome (distributed text spec shards) (whole text spec docs shards) := by
    rcases Nat.lt_or_ge maxAggregateGroups (groupCount text spec docs) with hbeyond | hwithin
    · exact .inr ⟨hall.2 hbeyond, hone.2 hbeyond⟩
    · obtain ⟨r, hr, hresult, hscanned, hshort⟩ := hall.1 hwithin
      obtain ⟨s, hs, hresult', hscanned', hshort'⟩ := hone.1 hwithin
      exact .inl ⟨r, s, hr, hs,
        hresult.same hresult' hdocs (hscanned.trans hscanned'.symm) (hshort.trans hshort'.symm)⟩
  refine ⟨hsame, fun parts hparts => ?_⟩
  have hmerge : distributed text spec shards = merge text parts := by
    rw [distributed, hparts]
    rfl
  rw [hmerge] at hsame
  rcases hsame with ⟨r, s, hr, hs, -⟩ | ⟨hr, hs⟩
  · rw [hr, hs]
    exact ⟨nofun, nofun⟩
  · exact ⟨fun _ => hs, fun _ => hr⟩

def keyText : Option (Json ℤ) → List Char
  | some (.obj [(_, .str s)]) => s
  | _ => []

/-- The average of `n` for each value of `g`. -/
def averaged : AggregateSpec := ⟨[['g']], [⟨['a', 'v', 'g', ':', 'n'], .avg, some ['n']⟩]⟩

def grouped (g : Char) (n : ℤ) : Json ℤ := .obj [(['g'], .str [g]), (['n'], .num n)]

/-- Two shards of two documents, which share the group `x`. -/
def twoShards : List (Shard ℤ) :=
  [⟨[grouped 'x' 6, grouped 'y' 2], 2, false⟩, ⟨[grouped 'x' 1, grouped 'x' 4], 2, false⟩]

theorem merge_homomorphism_two :
    SameOutcome (distributed keyText averaged twoShards)
      (whole keyText averaged [grouped 'x' 4, grouped 'y' 2, grouped 'x' 1,
        grouped 'x' 6] twoShards) := by
  refine (merge_homomorphism keyText averaged [grouped 'x' 4, grouped 'y' 2, grouped 'x' 1,
    grouped 'x' 6] twoShards (by decide) ?_).1
  intro a ha b hb hab
  have hkeys : ∀ d ∈ [grouped 'x' 4, grouped 'y' 2, grouped 'x' 1, grouped 'x' 6],
      ∀ e ∈ [grouped 'x' 4, grouped 'y' 2, grouped 'x' 1, grouped 'x' 6],
      keyText (groupKey d averaged.group) = keyText (groupKey e averaged.group) →
        groupKey d averaged.group = groupKey e averaged.group := by decide
  obtain ⟨d, hd, rfl⟩ := ha
  obtain ⟨e, he, rfl⟩ := hb
  exact hkeys d hd e he hab

end Distributed

end DewDB.Aggregation
