import DewDB.JsonObjects

/-!
# Merge patches

A merge patch describes changes to a document with a document of its own. A member that is null is
taken away, an object is merged member by member, and any other value takes the place of what was
there, an array as a whole.
-/
namespace DewDB.MergePatch

open JsonValue

variable {N : Type}

mutual

def mergePatch (target : Json N) : Json N → Json N
  | .obj pmap => .obj (mergeMembers target.members pmap)
  | other => other

def mergeMembers (tmap : List (List Char × Json N)) : List (List Char × Json N) → List
    (List Char × Json N)
  | [] => tmap
  | (k, v) :: pmap =>
    let tmap :=
      if v.isNull then SortedMap.discard k tmap
      else
        match SortedMap.find k tmap with
        | some existing => SortedMap.put k (mergePatch existing v) tmap
        | none => SortedMap.put k (mergePatch .null v) tmap
    mergeMembers tmap pmap

end

mutual

/-- `MergePatch` of RFC 7386. A target that is undefined is `none`. -/
def rfcMergePatch (target : Option (Json N)) : Json N → Json N
  | .obj patch =>
    match target with
    | some (.obj members) => .obj (rfcEachPair members patch)
    | _ => .obj (rfcEachPair [] patch)
  | patch => patch

def rfcEachPair (target : List (List Char × Json N)) : List (List Char × Json N) → List
    (List Char × Json N)
  | [] => target
  | (name, value) :: patch =>
    if value.isNull then
      if (SortedMap.find name target).isSome then rfcEachPair (SortedMap.discard name target) patch
      else rfcEachPair target patch
    else rfcEachPair (SortedMap.put name (rfcMergePatch (SortedMap.find name target) value) target)
      patch

end

/-- The patch says what becomes of the value that the names lead to. It says so of all that is in an
array and of all that is in the place of a value that is no object, and an object says so of itself.
-/
def Mentions : Json N → List (List Char) → Prop
  | .obj pmap, name :: path =>
    match SortedMap.find name pmap with
    | none => False
    | some v => Mentions v path
  | _, _ => True

theorem mergeMembers_cons (tmap : List (List Char × Json N)) (k : List Char) (v : Json N)
    (pmap : List (List Char × Json N)) :
    mergeMembers tmap ((k, v) :: pmap) = mergeMembers
      (if v.isNull then SortedMap.discard k tmap
        else SortedMap.put k (mergePatch ((SortedMap.find k tmap).getD .null) v) tmap) pmap := by
  rw [mergeMembers]
  cases SortedMap.find k tmap <;> rfl

theorem eq_null {v : Json N} (h : v.isNull = true) : v = .null := by
  cases v with
  | null => rfl
  | _ => cases h

section Members

variable {tmap pmap : List (List Char × Json N)}

theorem ordered_mergeMembers
    (hp : ∀ m ∈ pmap, ∀ target : Json N, target.Ordered → (mergePatch target m.2).Ordered)
    (ht : (Json.obj tmap).Ordered) : (Json.obj (mergeMembers tmap pmap)).Ordered := by
  induction pmap generalizing tmap with
  | nil => exact ht
  | cons m pmap ih =>
    rw [mergeMembers_cons]
    apply ih fun m' hm' => hp m' (List.mem_cons_of_mem _ hm')
    split_ifs
    · exact ht.discard
    · apply ht.put
      apply hp m List.mem_cons_self
      cases hfind : SortedMap.find m.1 tmap with
      | none => exact .null
      | some existing => exact ht.member ((member_obj _).trans hfind)

theorem ordered_mergePatch {target patch : Json N} (ht : target.Ordered) (hp : patch.Ordered) :
    (mergePatch target patch).Ordered := by
  induction hp generalizing target with
  | null => exact .null
  | bool b => exact .bool b
  | num n => exact .num n
  | str s => exact .str s
  | arr h => exact .arr h
  | obj hs h ih => exact ordered_mergeMembers (fun m hm _ ht => ih m hm ht) ht.obj_members

theorem find_mergeMembers (hp : (pmap.map Prod.fst).Pairwise (· < ·))
    (ht : (tmap.map Prod.fst).Pairwise (· < ·)) (name : List Char) :
    SortedMap.find name (mergeMembers tmap pmap) =
      match SortedMap.find name pmap with
      | none => SortedMap.find name tmap
      | some v =>
        if v.isNull then none else some (mergePatch ((SortedMap.find name tmap).getD .null) v) := by
  induction pmap generalizing tmap with
  | nil => rfl
  | cons m pmap ih =>
    obtain ⟨k, v⟩ := m
    have hk := SortedMap.sorted_cons hp
    rw [mergeMembers_cons, SortedMap.find]
    by_cases hname : name = k
    · have hnone : SortedMap.find name pmap = none :=
        SortedMap.find_none_of_lt fun e he => hname ▸ hk.1 e he
      rw [if_pos hname]
      cases hnull : v.isNull with
      | true =>
        have hsorted := ht.sublist ((SortedMap.discard_sublist k tmap).map Prod.fst)
        rw [if_pos rfl, ih hk.2 hsorted, hnone]
        dsimp only
        rw [SortedMap.find_discard ht, if_pos hname, hnull]
        rfl
      | false =>
        rw [if_neg Bool.false_ne_true, ih hk.2 (SortedMap.sorted_put ht), hnone]
        dsimp only
        rw [SortedMap.find_put, if_pos hname, hnull, hname]
        rfl
    · have hkept : SortedMap.find name
          (if v.isNull then SortedMap.discard k tmap
            else SortedMap.put k (mergePatch ((SortedMap.find k tmap).getD .null) v) tmap) =
            SortedMap.find name tmap := by
        split_ifs
        · rw [SortedMap.find_discard ht, if_neg hname]
        · rw [SortedMap.find_put, if_neg hname]
      rw [if_neg hname, ih hk.2 _, hkept]
      split_ifs
      · exact ht.sublist ((SortedMap.discard_sublist k tmap).map Prod.fst)
      · exact SortedMap.sorted_put ht

end Members

section Laws

variable {target patch : Json N}

theorem member_mergePatch {pmap : List (List Char × Json N)} (ht : target.Ordered)
    (hp : (Json.obj pmap).Ordered) (name : List Char) :
    (mergePatch target (.obj pmap)).member name =
      match SortedMap.find name pmap with
      | none => target.member name
      | some v => if v.isNull then none
          else some (mergePatch ((target.member name).getD .null) v) := by
  rw [mergePatch, member_obj, member_eq_find target]
  exact find_mergeMembers hp.sorted ht.sorted name

theorem discard_of_find {es : List (List Char × Json N)} {name : List Char}
    (h : SortedMap.find name es = none) : SortedMap.discard name es = es := by
  induction es with
  | nil => rfl
  | cons e es ih =>
    rw [SortedMap.find] at h
    rw [SortedMap.discard]
    split_ifs at h with hname
    rw [if_neg hname, ih h]

theorem rfcEachPair_eq (tmap : List (List Char × Json N)) {pmap : List (List Char × Json N)}
    (hp : ∀ m ∈ pmap, ∀ target, rfcMergePatch target m.2 = mergePatch (target.getD .null) m.2) :
    rfcEachPair tmap pmap = mergeMembers tmap pmap := by
  induction pmap generalizing tmap with
  | nil => rw [rfcEachPair, mergeMembers]
  | cons m pmap ih =>
    have htail := fun m' hm' => hp m' (List.mem_cons_of_mem m hm')
    rw [mergeMembers_cons, rfcEachPair, ih _ htail, ih _ htail, ih _ htail, hp m List.mem_cons_self]
    split_ifs with hnull hsome
    · rfl
    · rw [discard_of_find (Option.not_isSome_iff_eq_none.mp hsome)]
    · rfl

theorem rfcMergePatch_eq (target : Option (Json N)) (hp : patch.Ordered) :
    rfcMergePatch target patch = mergePatch (target.getD .null) patch := by
  induction hp generalizing target with
  | obj hs h ih =>
    have heach := fun tmap => congrArg Json.obj (rfcEachPair_eq tmap fun m hm target =>
      ih m hm target)
    rw [mergePatch]
    cases target with
    | none => exact heach []
    | some v =>
      cases v with
      | obj members => exact heach members
      | _ => exact heach []
  | _ => simp only [rfcMergePatch, mergePatch]

theorem mergePatch_idempotent (ht : target.Ordered) (hp : patch.Ordered) :
    mergePatch (mergePatch target patch) patch = mergePatch target patch := by
  induction hp generalizing target with
  | @obj pmap hs h ih =>
    have hr := ordered_mergePatch ht (.obj hs h)
    apply eq_of_member (ordered_mergePatch hr (.obj hs h)) hr
      (by simp only [mergePatch, Json.shape]) (by simp only [mergePatch, Json.shape])
    intro name
    rw [member_mergePatch hr (.obj hs h), member_mergePatch ht (.obj hs h)]
    cases hv : SortedMap.find name pmap with
    | none => rfl
    | some v =>
      dsimp only
      split_ifs
      · rfl
      · apply congrArg some
        apply ih _ (SortedMap.mem_of_find hv)
        cases hm : target.member name with
        | none => exact .null
        | some w => exact ht.member hm
  | _ => simp only [mergePatch]

theorem follow_mergePatch {path : List (List Char)} (ht : target.Ordered) (hp : patch.Ordered)
    (h : ¬Mentions patch path) : (mergePatch target patch).follow path = target.follow path := by
  induction path generalizing target patch with
  | nil => exact absurd (by simp [Mentions]) h
  | cons name path ih =>
    cases patch with
    | obj pmap =>
      rw [follow_cons, follow_cons, member_mergePatch ht hp]
      rw [Mentions] at h
      cases hv : SortedMap.find name pmap with
      | none => rfl
      | some v =>
        rw [hv] at h
        dsimp only at h ⊢
        cases hnull : v.isNull with
        | true => exact absurd (by simp [eq_null hnull, Mentions]) h
        | false =>
          have hvo : v.Ordered := hp.member ((member_obj name).trans hv)
          cases hm : target.member name with
          | some w => exact ih (ht.member hm) hvo h
          | none =>
            cases path with
            | nil => exact absurd (by simp [Mentions]) h
            | cons _ _ => exact ih .null hvo h
    | _ => exact absurd trivial h

theorem follow_ne_null {path : List (List Char)} (ht : target.Ordered) (hp : patch.Ordered)
    (hpath : path ≠ [])
    (h : Mentions patch path) : (mergePatch target patch).follow path ≠ some .null := by
  induction path generalizing target patch with
  | nil => exact absurd rfl hpath
  | cons name path ih =>
    cases patch with
    | obj pmap =>
      rw [follow_cons, member_mergePatch ht hp]
      rw [Mentions] at h
      cases hv : SortedMap.find name pmap with
      | none =>
        rw [hv] at h
        exact h.elim
      | some v =>
        rw [hv] at h
        dsimp only at h ⊢
        cases hnull : v.isNull with
        | true => simp
        | false =>
          have hvo : v.Ordered := hp.member ((member_obj name).trans hv)
          cases path with
          | nil =>
            intro hr
            have hmerged : mergePatch ((target.member name).getD .null) v = .null :=
              Option.some.inj hr
            cases v with
            | null => cases hnull
            | obj members => cases hmerged
            | _ => cases hmerged
          | cons _ _ =>
            apply ih _ hvo (List.cons_ne_nil _ _) h
            cases hm : target.member name with
            | none => exact .null
            | some w => exact ht.member hm
    | _ => exact nofun

/-- A merge patch leaves in the target what RFC 7386 defines. To apply it twice is to apply it once.
What it does not mention stays, and no null of it is stored in a member that it creates or merges.
-/
theorem merge_patch_rfc7386 (target patch : Value N) :
    mergePatch target.json patch.json = rfcMergePatch (some target.json) patch.json ∧
    (mergePatch target.json patch.json).Ordered ∧
    mergePatch (mergePatch target.json patch.json) patch.json = mergePatch target.json patch.json ∧
    (∀ path, ¬Mentions patch.json path →
      (mergePatch target.json patch.json).follow path = target.json.follow path) ∧
    ∀ path, path ≠ [] → Mentions patch.json path →
      (mergePatch target.json patch.json).follow path ≠ some .null :=
  ⟨(rfcMergePatch_eq (some target.json) patch.ordered).symm,
    ordered_mergePatch target.ordered patch.ordered,
    mergePatch_idempotent target.ordered patch.ordered,
    fun _ h => follow_mergePatch target.ordered patch.ordered h,
    fun _ hpath h => follow_ne_null target.ordered patch.ordered hpath h⟩

end Laws

end DewDB.MergePatch
