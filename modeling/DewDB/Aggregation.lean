import DewDB.JsonValue
import DewDB.SortedMap
import Mathlib.Data.Char
import Mathlib.Data.List.Lex
import Mathlib.Algebra.BigOperators.Group.List.Lemmas
import Mathlib.Algebra.Order.Field.Rat

/-!
# Aggregation

A shard folds its documents into buckets, one for each group, and the router merges the results of
the shards. A metric travels with the counts that its merge needs. Sums are exact here. `text`
writes the key of a group as JSON text, under which buckets are kept.
-/
namespace DewDB.Aggregation

open JsonValue Number

def maxAggregateGroups : ℕ := 10000

inductive MetricKind where
  | count
  | sum
  | avg
  | min
  | max
  deriving DecidableEq

structure MetricSpec where
  label : List Char
  kind : MetricKind
  field : Option (List Char)

structure AggregateSpec where
  group : List (List Char)
  metrics : List MetricSpec

structure MetricValue (N : Type) where
  count : ℕ
  sum : Option ℚ
  avg : Option ℚ
  min : Option (Json N)
  max : Option (Json N)

/-- `MetricValue::default`. -/
def MetricValue.fresh {N : Type} : MetricValue N := ⟨0, none, none, none, none⟩

structure AggregateGroup (N : Type) where
  key : Option (Json N)
  count : ℕ
  metrics : SortedMap (List Char) (MetricValue N)

structure AggregateResult (N : Type) where
  groups : List (AggregateGroup N)
  matched : ℕ
  scanned : ℕ
  isPartial : Bool

structure Bucket (N : Type) where
  key : Option (Json N)
  count : ℕ
  metrics : List (MetricValue N)

structure Aggregator (N : Type) where
  spec : AggregateSpec
  buckets : SortedMap (List Char) (Bucket N)
  matched : ℕ

def tooManyGroups : String :=
  "aggregation produced more than " ++ toString maxAggregateGroups ++
    " groups; narrow it with `filter` or fewer `group` fields"

variable {N : Type} [Number N]

/-- `Value::as_f64`. -/
def asNumber : Json N → Option ℚ
  | .num n => some (asF64 n)
  | _ => none

/-- The value that stays of the one held and a new one, when what comes first stays in a tie. -/
def keep (o : Ordering) (held : Option (Json N)) (v : Json N) : Option (Json N) :=
  if held.all fun h => jsonCmp v h = o then some v else held

/-- Adds the state of another shard. The average is taken anew, from the merged totals. -/
def MetricValue.absorb (self other : MetricValue N) : MetricValue N :=
  let count := self.count + other.count
  let sum := match other.sum with
    | some s => some (self.sum.getD 0 + s)
    | none => self.sum
  { count := count
    sum := sum
    avg := if self.avg.isSome || other.avg.isSome then
        if 0 < count then some (sum.getD 0 / count) else none
      else self.avg
    min := match other.min with
      | some v => keep .lt self.min v
      | none => self.min
    max := match other.max with
      | some v => keep .gt self.max v
      | none => self.max }

def accumulate (spec : MetricSpec) (held : MetricValue N) (doc : Json N) : MetricValue N :=
  match spec.field with
  | none => { held with count := held.count + 1 }
  | some field =>
    match getPathValue doc field with
    | none => held
    | some value =>
      match spec.kind with
      | .sum =>
        match asNumber value with
        | none => held
        | some n => { held with count := held.count + 1, sum := some (held.sum.getD 0 + n) }
      | .avg =>
        match asNumber value with
        | none => held
        | some n =>
          { held with count := held.count + 1, sum := some (held.sum.getD 0 + n), avg := some 0 }
      | .min => { held with count := held.count + 1, min := keep .lt held.min value }
      | .max => { held with count := held.count + 1, max := keep .gt held.max value }
      | .count => { held with count := held.count + 1 }

omit [Number N] in
def groupKey (doc : Json N) (fields : List (List Char)) : Option (Json N) :=
  if fields.isEmpty then none
  else some (.obj (fields.foldl (fun map field =>
    match getPathValue doc field with
    | some v => SortedMap.put field v map
    | none => map) []))

variable (text : Option (Json N) → List Char)

omit [Number N] in
/-- `Aggregator::new`. -/
def Aggregator.start (spec : AggregateSpec) : Aggregator N := ⟨spec, .empty, 0⟩

def Bucket.take (specs : List MetricSpec) (bucket : Bucket N) (doc : Json N) : Bucket N :=
  { bucket with
    count := bucket.count + 1
    metrics := List.zipWith (fun spec held => accumulate spec held doc) specs bucket.metrics }

def Aggregator.add (agg : Aggregator N) (doc : Json N) : Except String (Aggregator N) :=
  let key := groupKey doc agg.spec.group
  let slot := text key
  match agg.buckets.get? slot with
  | some bucket =>
    .ok { agg with
      buckets := agg.buckets.insert slot (bucket.take agg.spec.metrics doc)
      matched := agg.matched + 1 }
  | none =>
    if maxAggregateGroups ≤ agg.buckets.size then .error tooManyGroups
    else
      let bucket : Bucket N := ⟨key, 0, List.replicate agg.spec.metrics.length .fresh⟩
      .ok { agg with
        buckets := agg.buckets.insert slot (bucket.take agg.spec.metrics doc)
        matched := agg.matched + 1 }

omit [Number N] in
def MetricValue.finish (v : MetricValue N) : MetricValue N :=
  if v.avg.isSome then { v with avg := if 0 < v.count then some (v.sum.getD 0 / v.count) else none }
    else v

omit [Number N] in
/-- Collecting pairs into a map, in which the last one of a label stays. -/
def collect {α : Type} (pairs : List (List Char × α)) : SortedMap (List Char) α :=
  pairs.foldl (fun map p => map.insert p.1 p.2) .empty

omit [Number N] in
def Bucket.group (specs : List MetricSpec) (bucket : Bucket N) : AggregateGroup N :=
  { key := bucket.key
    count := bucket.count
    metrics := collect (List.zipWith (fun spec v => (spec.label, v.finish)) specs bucket.metrics) }

omit [Number N] in
def Aggregator.finish (agg : Aggregator N) (scanned : ℕ) (isPartial : Bool) : AggregateResult N :=
  { groups := agg.buckets.values.map (Bucket.group agg.spec.metrics)
    matched := agg.matched
    scanned := scanned
    isPartial := isPartial }

def aggregate (spec : AggregateSpec) (docs : List (Json N)) (scanned : ℕ) (isPartial : Bool) :
    Except String (AggregateResult N) :=
  (docs.foldlM (Aggregator.add text) (Aggregator.start spec)).map fun agg =>
    agg.finish scanned isPartial

/-- A group that is held already takes the metrics of another shard, label by label. -/
def AggregateGroup.join (held group : AggregateGroup N) : AggregateGroup N :=
  { held with
    count := held.count + group.count
    metrics := group.metrics.entries.foldl
      (fun metrics e => metrics.insert e.1 (((metrics.get? e.1).getD .fresh).absorb e.2))
        held.metrics }

def mergeGroup (buckets : SortedMap (List Char) (AggregateGroup N)) (group : AggregateGroup N) :
    Except String (SortedMap (List Char) (AggregateGroup N)) :=
  match buckets.get? (text group.key) with
  | some held => .ok (buckets.insert (text group.key) (held.join group))
  | none =>
    if maxAggregateGroups ≤ buckets.size then .error tooManyGroups
    else .ok (buckets.insert (text group.key) group)

def mergePart (buckets : SortedMap (List Char) (AggregateGroup N)) (part : AggregateResult N) :
    Except String (SortedMap (List Char) (AggregateGroup N)) :=
  part.groups.foldlM (mergeGroup text) buckets

def merge (parts : List (AggregateResult N)) : Except String (AggregateResult N) :=
  (parts.foldlM (mergePart text) .empty).map fun buckets =>
    { groups := buckets.values
      matched := (parts.map AggregateResult.matched).sum
      scanned := (parts.map AggregateResult.scanned).sum
      isPartial := parts.any AggregateResult.isPartial }

end DewDB.Aggregation
