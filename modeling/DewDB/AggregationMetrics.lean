import DewDB.Aggregation

/-!
# What a metric says of its documents

A metric value describes the documents it was computed from, whether it was accumulated document by
document or absorbed from values that describe parts of them. The order of the documents shows in
nothing but which of several least or greatest values is held.
-/
namespace DewDB.Aggregation

open JsonValue Number

variable {N : Type} [Number N] {spec : MetricSpec} {docs docs' : List (Json N)}
  {v w : MetricValue N}

omit [Number N] in
def fieldValue (spec : MetricSpec) (doc : Json N) : Option (Json N) :=
  spec.field.bind (getPathValue doc)

def numberOf (spec : MetricSpec) (doc : Json N) : Option ℚ :=
  if spec.kind = .sum ∨ spec.kind = .avg then (fieldValue spec doc).bind asNumber else none

omit [Number N] in
def valueOf (kind : MetricKind) (spec : MetricSpec) (doc : Json N) : Option (Json N) :=
  if spec.kind = kind then fieldValue spec doc else none

def counted (spec : MetricSpec) (doc : Json N) : Bool :=
  if spec.field.isNone then true
  else if spec.kind = .sum ∨ spec.kind = .avg then (numberOf spec doc).isSome
  else (fieldValue spec doc).isSome

def total (ns : List ℚ) : Option ℚ := if ns = [] then none else some ns.sum

/-- A value that nothing is beyond, or none when there is nothing. -/
def Extreme (o : Ordering) (vs : List (Json N)) : Option (Json N) → Prop
  | none => vs = []
  | some v => v ∈ vs ∧ ∀ w ∈ vs, jsonCmp w v ≠ o

/-- The metric value of these documents, before or after it is finished. -/
structure Describes (finished : Bool) (spec : MetricSpec) (docs : List (Json N))
    (v : MetricValue N) : Prop where
  count : v.count = docs.countP (counted spec)
  sum : v.sum = total (docs.filterMap (numberOf spec))
  avg : v.avg = if spec.kind = .avg ∧ docs.filterMap (numberOf spec) ≠ [] then
      some (if finished then (docs.filterMap (numberOf spec)).sum / docs.countP
        (counted spec) else 0)
    else none
  min : Extreme .lt (docs.filterMap (valueOf .min spec)) v.min
  max : Extreme .gt (docs.filterMap (valueOf .max spec)) v.max

section Extremes

variable {o : Ordering}

/-- What is beyond a value is beyond a third one, or the third one is beyond it. -/
theorem jsonCmp_split (ho : o ≠ .eq) (a b c : Json N) (h : jsonCmp a c = o) :
    jsonCmp a b = o ∨ jsonCmp b c = o := by
  have hswap : jsonCmp b a = (jsonCmp a b).swap := Std.OrientedCmp.eq_swap
  cases hab : jsonCmp a b with
  | eq =>
    rw [Std.TransCmp.congr_left hab] at h
    exact .inr h
  | lt =>
    cases o with
    | lt => exact .inl rfl
    | eq => exact absurd rfl ho
    | gt =>
      rw [hab] at hswap
      exact .inr (Std.TransCmp.gt_trans hswap h)
  | gt =>
    cases o with
    | gt => exact .inl rfl
    | eq => exact absurd rfl ho
    | lt =>
      rw [hab] at hswap
      exact .inr (Std.TransCmp.lt_trans hswap h)

theorem extreme_toList (ho : o ≠ .eq) (next : Option (Json N)) : Extreme o next.toList next := by
  cases next with
  | none => exact List.nil_eq.mpr rfl
  | some v =>
    refine ⟨List.mem_singleton_self v, fun w hw => ?_⟩
    rw [List.mem_singleton.mp hw, show jsonCmp v v = .eq from Std.ReflCmp.compare_self]
    exact ho.symm

theorem extreme_keep (ho : o ≠ .eq) {vs ws : List (Json N)} {held : Option (Json N)} {v : Json N}
    (hheld : Extreme o vs held) (hv : Extreme o ws (some v)) : Extreme o (vs ++ ws)
    (keep o held v) := by
  cases held with
  | none =>
    rw [show vs = [] from hheld]
    exact hv
  | some h =>
    by_cases hcmp : jsonCmp v h = o
    · have hkeep : keep o (some h) v = some v := if_pos (by simpa using hcmp)
      rw [hkeep]
      refine ⟨List.mem_append_right _ hv.1, fun w hw hwv => ?_⟩
      rcases List.mem_append.mp hw with hw | hw
      · -- `w` would be beyond `v`, which is beyond `h`
        apply hheld.2 w hw
        cases o with
        | lt => exact Std.TransCmp.lt_trans hwv hcmp
        | eq => exact absurd rfl ho
        | gt => exact Std.TransCmp.gt_trans hwv hcmp
      · exact hv.2 w hw hwv
    · have hkeep : keep o (some h) v = some h := if_neg (by simpa using hcmp)
      rw [hkeep]
      refine ⟨List.mem_append_left _ hheld.1, fun w hw hwh => ?_⟩
      rcases List.mem_append.mp hw with hw | hw
      · exact hheld.2 w hw hwh
      · exact (jsonCmp_split ho w v h hwh).elim (hv.2 w hw) hcmp

theorem extreme_append (ho : o ≠ .eq) {vs ws : List (Json N)} {held next : Option (Json N)}
    (h : Extreme o vs held)
    (hnext : Extreme o ws next) : Extreme o (vs ++ ws) (next.elim held (keep o held)) := by
  cases next with
  | none =>
    rw [show ws = [] from hnext, List.append_nil]
    exact h
  | some v => exact extreme_keep ho h hnext

theorem Extreme.perm {vs ws : List (Json N)} {held : Option (Json N)} (h : Extreme o vs held)
    (hp : vs.Perm ws) : Extreme o ws held := by
  cases held with
  | none =>
    rw [show vs = [] from h] at hp
    exact List.nil_perm.mp hp
  | some v => exact ⟨hp.mem_iff.mp h.1, fun w hw => h.2 w (hp.mem_iff.mpr hw)⟩

def Tie (a b : Option (Json N)) : Prop := Option.Rel (fun v w => jsonCmp v w = .eq) a b

theorem Extreme.tie (ho : o ≠ .eq) {vs : List (Json N)} {a b : Option (Json N)}
    (ha : Extreme o vs a) (hb : Extreme o vs b) : Tie a b := by
  cases a with
  | none =>
    cases b with
    | none => exact .none
    | some w => exact absurd (show vs = [] from ha) (List.ne_nil_of_mem hb.1)
  | some v =>
    cases b with
    | none => exact absurd (show vs = [] from hb) (List.ne_nil_of_mem ha.1)
    | some w =>
      have hvw := hb.2 v ha.1
      have hwv := ha.2 w hb.1
      rw [show jsonCmp w v = (jsonCmp v w).swap from Std.OrientedCmp.eq_swap] at hwv
      refine .some ?_
      cases hcmp : jsonCmp v w with
      | eq => rfl
      | lt =>
        rw [hcmp] at hvw hwv
        cases o with
        | lt => exact absurd rfl hvw
        | eq => exact absurd rfl ho
        | gt => exact absurd rfl hwv
      | gt =>
        rw [hcmp] at hvw hwv
        cases o with
        | lt => exact absurd rfl hwv
        | eq => exact absurd rfl ho
        | gt => exact absurd rfl hvw

end Extremes

section Values

theorem total_append (xs ys : List ℚ) :
    total (xs ++ ys) = (total ys).elim (total xs) fun s => some ((total xs).getD 0 + s) := by
  cases ys with
  | nil => simp [total]
  | cons y ys =>
    cases xs with
    | nil => simp [total]
    | cons x xs => simp [total, add_assoc, add_left_comm]

theorem describes_fresh (finished : Bool) (spec : MetricSpec) :
    Describes finished spec ([] : List (Json N)) .fresh where
  count := rfl
  sum := rfl
  avg := (if_neg fun h => h.2 rfl).symm
  min := rfl
  max := rfl

theorem accumulate_parts (spec : MetricSpec) (held : MetricValue N) (doc : Json N) :
    (accumulate spec held doc).count = held.count + (if counted spec doc then 1 else 0) ∧
    (accumulate spec held doc).sum =
      (numberOf spec doc).elim held.sum (fun n => some (held.sum.getD 0 + n)) ∧
    (accumulate spec held doc).avg =
      (if spec.kind = .avg ∧ (numberOf spec doc).isSome then some 0 else held.avg) ∧
    (accumulate spec held doc).min = (valueOf .min spec doc).elim held.min (keep .lt held.min) ∧
    (accumulate spec held doc).max = (valueOf .max spec doc).elim held.max (keep .gt held.max) := by
  obtain ⟨label, kind, field⟩ := spec
  cases field with
  | none => simp [accumulate, counted, numberOf, valueOf, fieldValue]
  | some field =>
    cases hpath : getPathValue doc field with
    | none => cases kind <;> simp [accumulate, counted, numberOf, valueOf, fieldValue, hpath]
    | some value =>
      cases kind with
      | sum =>
        cases hnumber : asNumber value <;>
          simp [accumulate, counted, numberOf, valueOf, fieldValue, hpath, hnumber]
      | avg =>
        cases hnumber : asNumber value <;>
          simp [accumulate, counted, numberOf, valueOf, fieldValue, hpath, hnumber]
      | count => simp [accumulate, counted, numberOf, valueOf, fieldValue, hpath]
      | min => simp [accumulate, counted, numberOf, valueOf, fieldValue, hpath]
      | max => simp [accumulate, counted, numberOf, valueOf, fieldValue, hpath]

theorem filterMap_concat {α β : Type*} (f : α → Option β) (l : List α) (a : α) :
    (l ++ [a]).filterMap f = l.filterMap f ++ (f a).toList := by
  rw [List.filterMap_append, List.filterMap_cons, List.filterMap_nil]
  cases f a <;> rfl

theorem describes_accumulate {held : MetricValue N} (h : Describes false spec docs held)
    (doc : Json N) : Describes false spec (docs ++ [doc]) (accumulate spec held doc) := by
  obtain ⟨hcount, hsum, havg, hmin, hmax⟩ := accumulate_parts spec held doc
  constructor
  · rw [hcount, h.count, List.countP_append, List.countP_singleton]
  · rw [hsum, h.sum, filterMap_concat, total_append]
    cases numberOf spec doc <;> simp [total]
  · rw [havg, h.avg, filterMap_concat]
    cases numberOf spec doc <;> by_cases hkind : spec.kind = .avg <;> simp [hkind]
  · rw [hmin, filterMap_concat]
    exact extreme_append (by decide) h.min (extreme_toList (by decide) _)
  · rw [hmax, filterMap_concat]
    exact extreme_append (by decide) h.max (extreme_toList (by decide) _)

theorem length_le_countP (spec : MetricSpec) (docs : List (Json N))
    (hfield : ∃ doc ∈ docs, numberOf spec doc ≠ none) : 0 < docs.countP (counted spec) := by
  obtain ⟨doc, hdoc, hnumber⟩ := hfield
  rw [List.countP_pos_iff]
  refine ⟨doc, hdoc, ?_⟩
  have hkind : spec.kind = .sum ∨ spec.kind = .avg := by
    by_contra hkind
    rw [numberOf, if_neg hkind] at hnumber
    exact hnumber rfl
  rw [counted, if_pos hkind]
  split_ifs
  · rfl
  · exact Option.isSome_iff_ne_none.mpr hnumber

theorem countP_pos_of_numbers {spec : MetricSpec} {docs : List (Json N)}
    (h : docs.filterMap (numberOf spec) ≠ []) : 0 < docs.countP (counted spec) := by
  apply length_le_countP
  by_contra hnone
  push Not at hnone
  exact h (List.filterMap_eq_nil_iff.mpr hnone)

theorem total_getD {ns : List ℚ} : (total ns).getD 0 = ns.sum := by
  cases ns <;> simp [total]

theorem describes_finish (h : Describes false spec docs v) : Describes true spec docs v.finish := by
  unfold MetricValue.finish
  have havg := h.avg
  by_cases hnumbers : spec.kind = .avg ∧ docs.filterMap (numberOf spec) ≠ []
  · rw [if_pos hnumbers] at havg
    rw [havg, if_pos (by rfl)]
    refine ⟨h.count, h.sum, ?_, h.min, h.max⟩
    have hpos := countP_pos_of_numbers hnumbers.2
    rw [if_pos hnumbers]
    simp only [h.count, h.sum, total_getD, if_pos hpos, if_true]
  · rw [if_neg hnumbers] at havg
    rw [havg, if_neg (by simp)]
    exact ⟨h.count, h.sum, by rw [havg, if_neg hnumbers], h.min, h.max⟩

/-- Absorbing the state over other documents gives the state over all of them. -/
theorem describes_absorb (hv : Describes true spec docs v) (hw : Describes true spec docs' w) :
    Describes true spec (docs ++ docs') (v.absorb w) := by
  have hcount : (v.absorb w).count = (docs ++ docs').countP (counted spec) := by
    rw [List.countP_append, ← hv.count, ← hw.count]
    rfl
  have hsum : (v.absorb w).sum = total ((docs ++ docs').filterMap (numberOf spec)) := by
    rw [List.filterMap_append, total_append, ← hv.sum, ← hw.sum]
    unfold MetricValue.absorb
    cases w.sum <;> rfl
  refine ⟨hcount, hsum, ?_, ?_, ?_⟩
  · have havg : (v.absorb w).avg = if v.avg.isSome || w.avg.isSome then
        if 0 < (v.absorb w).count then some ((v.absorb w).sum.getD 0 / (v.absorb w).count) else none
      else v.avg := rfl
    rw [havg, hcount, hsum, total_getD, hv.avg, hw.avg, List.filterMap_append]
    by_cases hkind : spec.kind = .avg
    · by_cases hnil : docs.filterMap (numberOf spec) = [] ∧ docs'.filterMap (numberOf spec) = []
      · simp [hnil.1, hnil.2]
      · have hne : (docs ++ docs').filterMap (numberOf spec) ≠ [] := by
          rw [List.filterMap_append]
          exact fun h => hnil (List.append_eq_nil_iff.mp h)
        have hpos := countP_pos_of_numbers hne
        rw [List.filterMap_append] at hne
        rw [if_pos hpos, if_pos (show spec.kind = .avg ∧ _ from ⟨hkind, hne⟩)]
        apply if_pos
        by_contra hnone
        apply hnil
        simp only [hkind, true_and, Bool.or_eq_true, Option.isSome_ite, not_or] at hnone
        exact ⟨not_not.mp hnone.1, not_not.mp hnone.2⟩
    · simp [hkind]
  · have hmin : (v.absorb w).min = w.min.elim v.min (keep .lt v.min) := by
      unfold MetricValue.absorb
      cases w.min <;> rfl
    rw [hmin, List.filterMap_append]
    exact extreme_append (by decide) hv.min hw.min
  · have hmax : (v.absorb w).max = w.max.elim v.max (keep .gt v.max) := by
      unfold MetricValue.absorb
      cases w.max <;> rfl
    rw [hmax, List.filterMap_append]
    exact extreme_append (by decide) hv.max hw.max

theorem Describes.perm {finished : Bool} (h : Describes finished spec docs v)
    (hp : docs.Perm docs') : Describes finished spec docs' v := by
  have hnumbers : (docs.filterMap (numberOf spec)).Perm (docs'.filterMap (numberOf spec)) :=
    hp.filterMap _
  have hnil : docs.filterMap (numberOf spec) = [] ↔ docs'.filterMap (numberOf spec) = [] := by
    constructor
    · exact fun h => List.nil_perm.mp (h ▸ hnumbers)
    · exact fun h => List.nil_perm.mp (h ▸ hnumbers.symm)
  have hcount : docs.countP (counted spec) = docs'.countP (counted spec) := hp.countP_eq _
  refine ⟨h.count.trans hcount, h.sum.trans ?_, h.avg.trans ?_,
    h.min.perm (hp.filterMap _), h.max.perm (hp.filterMap _)⟩
  · rw [total, total, hnumbers.sum_eq]
    exact if_congr hnil rfl rfl
  · rw [hnumbers.sum_eq, hcount]
    exact if_congr (and_congr_right fun _ => not_congr hnil) rfl rfl

/-- Two states of a metric that say the same, up to which of several extreme values they hold. -/
structure SameMetric (v w : MetricValue N) : Prop where
  count : v.count = w.count
  sum : v.sum = w.sum
  avg : v.avg = w.avg
  min : Tie v.min w.min
  max : Tie v.max w.max

theorem Describes.same {finished : Bool} (hv : Describes finished spec docs v)
    (hw : Describes finished spec docs w) : SameMetric v w where
  count := hv.count.trans hw.count.symm
  sum := hv.sum.trans hw.sum.symm
  avg := hv.avg.trans hw.avg.symm
  min := hv.min.tie (by decide) hw.min
  max := hv.max.tie (by decide) hw.max

end Values

end DewDB.Aggregation
