import DewDB.JsonObjects

/-!
# Projections

A projection builds a document up from the listed fields of another one. What it builds reads as the
document does at the paths that lie on the way to a field that is there, or under one, and reads as
nothing elsewhere. A field that is written over another one changes nothing of this.
-/
namespace DewDB.Projection

open JsonValue

variable {N : Type}

/-- A value that is in the way and is no object gives way to one. -/
def setPath (map : List (List Char × Json N)) : List (List Char) → Json N → List
    (List Char × Json N)
  | [], _ => map
  | [part], val => SortedMap.put part val map
  | part :: next :: parts, val =>
    let entry :=
      match SortedMap.find part map with
      | some entry => entry.members
      | none => []
    SortedMap.put part (.obj (setPath entry (next :: parts) val)) map

/-- One field of the loop of `project`. -/
def projectField (doc : Json N) (out : List (List Char × Json N)) (path : List Char) :
    List (List Char × Json N) :=
  match getPathValue doc path with
  | some v => setPath out (path.splitOn '.') v
  | none => out

def project (doc : Json N) (fields : List (List Char)) : Json N :=
  if fields.isEmpty then doc else .obj (fields.foldl (projectField doc) [])

section Writing

variable {map : List (List Char × Json N)} {parts : List (List Char)} {val : Json N}

theorem ordered_setPath (hm : (Json.obj map).Ordered) (hv : val.Ordered) :
    (Json.obj (setPath map parts val)).Ordered := by
  induction parts generalizing map with
  | nil => exact hm
  | cons part parts ih =>
    cases parts with
    | nil => exact hm.put hv
    | cons next parts =>
      apply hm.put
      apply ih
      cases hfind : SortedMap.find part map with
      | none => exact .obj .nil nofun
      | some entry => exact (hm.member ((member_obj part).trans hfind)).obj_members

/-- What is read after a value is written: the value at its path, objects on the way to it, and
elsewhere what was there. -/
theorem read_setPath (hne : parts ≠ []) (path : List (List Char)) :
    (Json.obj (setPath map parts val)).read path =
      if parts <+: path then val.read (path.drop parts.length)
      else if path <+: parts then some none
      else (Json.obj map).read path := by
  induction parts generalizing map path with
  | nil => exact absurd rfl hne
  | cons part parts ih =>
    cases path with
    | nil => simp [Json.read, Json.shape]
    | cons name path =>
      have hread : ∀ {w : Json N}, (Json.obj (SortedMap.put part w map)).read (name :: path) =
          if name = part then w.read path else (Json.obj map).read (name :: path) := by
        intro w
        rw [read_cons, read_cons, member_obj, member_obj, SortedMap.find_put]
        split_ifs <;> rfl
      by_cases hname : name = part
      · cases parts with
        | nil =>
          rw [setPath, hread, if_pos hname, if_pos (by simp [hname])]
          rfl
        | cons next parts =>
          rw [setPath, hread, if_pos hname, ih (List.cons_ne_nil _ _)]
          simp only [hname, List.cons_prefix_cons, true_and, List.length_cons, List.drop_succ_cons]
          split_ifs with hunder habove
          · rfl
          · rfl
          · rw [read_cons, member_obj]
            cases path with
            | nil => exact absurd List.nil_prefix habove
            | cons name' path =>
              cases SortedMap.find part map with
              | none => rfl
              | some entry =>
                dsimp only [Option.bind_some]
                rw [read_cons, read_cons, member_obj, member_eq_find]
      · rw [if_neg fun h => hname (List.cons_prefix_cons.mp h).1.symm,
          if_neg fun h => hname (List.cons_prefix_cons.mp h).1]
        cases parts with
        | nil => rw [setPath, hread, if_neg hname]
        | cons next parts => rw [setPath, hread, if_neg hname]

end Writing

section Loop

variable {doc : Json N} {fields : List (List Char)} {path : List (List Char)}

/-- The path lies on the way to a field that is there, or under one. -/
def Kept (doc : Json N) (fields : List (List Char)) (path : List (List Char)) : Prop :=
  ∃ f ∈ fields, (getPathValue doc f).isSome = true ∧
    (f.splitOn '.' <+: path ∨ path <+: f.splitOn '.')

theorem splitOn_ne_nil (f : List Char) : f.splitOn '.' ≠ [] := List.splitOnP_ne_nil _ f

theorem read_on_the_way {q : List (List Char)} (h : (doc.follow q).isSome = true) (hp : path <+: q)
    (hne : path ≠ q) :
    doc.read path = some none := by
  obtain ⟨r, rfl⟩ := hp
  obtain ⟨w, hw⟩ := Option.isSome_iff_exists.mp h
  rw [follow_append] at hw
  obtain ⟨u, hu, hw⟩ := Option.bind_eq_some_iff.mp hw
  cases r with
  | nil => exact absurd (List.append_nil path).symm hne
  | cons name r =>
    rw [follow_cons] at hw
    obtain ⟨x, hx, -⟩ := Option.bind_eq_some_iff.mp hw
    rw [Json.read, hu]
    exact congrArg some (shape_of_member hx)

theorem ordered_projectFields (hdoc : doc.Ordered) (fields : List (List Char)) :
    (Json.obj (fields.foldl (projectField doc) [])).Ordered := by
  induction fields using List.reverseRecOn with
  | nil => exact .obj .nil nofun
  | append_singleton fields f ih =>
    rw [List.foldl_concat, projectField]
    cases hv : getPathValue doc f with
    | none => exact ih
    | some v => exact ordered_setPath ih (hdoc.follow hv)

/-- The loop keeps what reads as in the document apart from what it has not written. -/
theorem read_projectFields (doc : Json N) (fields : List (List Char)) (path : List (List Char))
    (hne : path ≠ []) :
    (Kept doc fields path → (Json.obj (fields.foldl (projectField doc) [])).read path =
      doc.read path) ∧
    (¬Kept doc fields path → (Json.obj (fields.foldl (projectField doc) [])).read path = none) := by
  induction fields using List.reverseRecOn with
  | nil =>
    constructor
    · rintro ⟨f, hf, -⟩
      exact absurd hf List.not_mem_nil
    · intro _
      cases path with
      | nil => exact absurd rfl hne
      | cons name path => rfl
  | append_singleton fields f ih =>
    have hold : Kept doc fields path → Kept doc (fields ++ [f]) path := by
      rintro ⟨g, hg, h⟩
      exact ⟨g, List.mem_append_left _ hg, h⟩
    have hnew : ¬Kept doc fields path → Kept doc (fields ++ [f]) path →
        (getPathValue doc f).isSome = true ∧ (f.splitOn '.' <+: path ∨ path <+: f.splitOn '.') := by
      rintro hnot ⟨g, hg, h⟩
      rcases List.mem_append.mp hg with hg | hg
      · exact absurd ⟨g, hg, h⟩ hnot
      · exact List.mem_singleton.mp hg ▸ h
    rw [List.foldl_concat, projectField]
    cases hv : getPathValue doc f with
    | none =>
      dsimp only
      refine ⟨fun hk => ?_, fun hk => ih.2 fun h => hk (hold h)⟩
      by_cases h : Kept doc fields path
      · exact ih.1 h
      · have := (hnew h hk).1
        rw [hv] at this
        cases this
    | some v =>
      dsimp only
      have hkept : f.splitOn '.' <+: path ∨ path <+: f.splitOn '.' →
        Kept doc (fields ++ [f]) path :=
        fun h => ⟨f, List.mem_append_right _ (List.mem_singleton_self f), by rw [hv]; rfl, h⟩
      rw [read_setPath (splitOn_ne_nil f)]
      split_ifs with hunder habove
      · refine ⟨fun _ => ?_, fun h => absurd (hkept (.inl hunder)) h⟩
        obtain ⟨q, rfl⟩ := hunder
        rw [List.drop_left, read_append, ← getPathValue_eq_follow, hv]
        rfl
      · refine ⟨fun _ => ?_, fun h => absurd (hkept (.inr habove)) h⟩
        have hsome : (doc.follow (f.splitOn '.')).isSome = true := by
          rw [← getPathValue_eq_follow, hv]
          rfl
        exact (read_on_the_way hsome habove fun h => hunder (h ▸ List.prefix_rfl)).symm
      · refine ⟨fun hk => ih.1 ?_, fun hk => ih.2 fun h => hk (hold h)⟩
        by_contra h
        rcases (hnew h hk).2 with h | h
        · exact hunder h
        · exact habove h

end Loop

section Laws

variable {doc : Json N} {fields fields' : List (List Char)}

theorem read_project (doc : Json N) (hf : fields ≠ []) {path : List (List Char)} (hne : path ≠ []) :
    (Kept doc fields path → (project doc fields).read path = doc.read path) ∧
    (¬Kept doc fields path → (project doc fields).read path = none) := by
  rw [project, if_neg fun h => hf (List.isEmpty_iff.mp h)]
  exact read_projectFields doc fields path hne

theorem ordered_project (hdoc : doc.Ordered) (fields : List (List Char)) :
    (project doc fields).Ordered := by
  rw [project]
  split_ifs
  · exact hdoc
  · exact ordered_projectFields hdoc fields

theorem shape_project (hf : fields ≠ []) : (project doc fields).shape = none := by
  rw [project, if_neg fun h => hf (List.isEmpty_iff.mp h)]
  rfl

theorem getPathValue_project (hdoc : doc.Ordered) {f : List Char} (hf : f ∈ fields) :
    getPathValue (project doc fields) f = getPathValue doc f := by
  apply follow_eq_of_read (ordered_project hdoc fields) hdoc
  intro q
  have hne : f.splitOn '.' ++ q ≠ [] := fun h => splitOn_ne_nil f (List.append_eq_nil_iff.mp h).1
  obtain ⟨hkept, hnot⟩ := read_project doc (List.ne_nil_of_mem hf) hne
  by_cases h : Kept doc fields (f.splitOn '.' ++ q)
  · exact hkept h
  · have hnone : doc.follow (f.splitOn '.') = none := by
      rw [← Option.not_isSome_iff_eq_none]
      exact fun hsome => h ⟨f, hf, hsome, .inl (List.prefix_append _ _)⟩
    rw [hnot h, read_append, hnone]
    rfl

/-- Projections that keep the same paths of two documents, which read alike there, are the same. -/
theorem project_congr {doc' : Json N} (hdoc : doc.Ordered) (hdoc' : doc'.Ordered) (hf : fields ≠ [])
    (hf' : fields' ≠ []) (hkept : ∀ path, Kept doc fields path ↔ Kept doc' fields' path)
    (hread : ∀ path, path ≠ [] → Kept doc fields path → doc.read path = doc'.read path) :
    project doc fields = project doc' fields' := by
  apply eq_of_read (ordered_project hdoc fields) (ordered_project hdoc' fields')
  intro path
  cases path with
  | nil => exact congrArg some ((shape_project hf).trans (shape_project hf').symm)
  | cons name path =>
    have hne := List.cons_ne_nil name path
    obtain ⟨h1, h2⟩ := read_project doc hf hne
    obtain ⟨h1', h2'⟩ := read_project doc' hf' hne
    by_cases h : Kept doc fields (name :: path)
    · rw [h1 h, h1' ((hkept _).mp h), hread _ hne h]
    · rw [h2 h, h2' fun h' => h ((hkept _).mpr h')]

theorem project_fields (hdoc : doc.Ordered) (hf : fields ≠ []) (h : ∀ f, f ∈ fields' ↔ f ∈ fields) :
    project doc fields' = project doc fields := by
  have hf' : fields' ≠ [] := by
    obtain ⟨f, hmem⟩ := List.exists_mem_of_ne_nil fields hf
    exact List.ne_nil_of_mem ((h f).mpr hmem)
  apply project_congr hdoc hdoc hf' hf
  · exact fun path => exists_congr fun f => and_congr_left' (h f)
  · exact fun _ _ _ => rfl

theorem project_idempotent (hdoc : doc.Ordered) (hf : fields ≠ []) :
    project (project doc fields) fields = project doc fields := by
  have hkept : ∀ path, Kept (project doc fields) fields path ↔ Kept doc fields path := by
    intro path
    apply exists_congr
    intro f
    apply and_congr_right
    intro hmem
    rw [getPathValue_project hdoc hmem]
  apply project_congr (ordered_project hdoc fields) hdoc hf hf hkept
  intro path hne hk
  exact (read_project doc hf hne).1 ((hkept path).mp hk)

theorem listed_of_leaf (hdoc : doc.Ordered) (hf : fields ≠ []) {path : List (List Char)}
    (hne : path ≠ [])
    {leaf : Json N} (h : (project doc fields).follow path = some leaf)
    (hleaf : ∀ name, leaf.member name = none) : ∃ f ∈ fields, f.splitOn '.' <+: path := by
  have hk : Kept doc fields path := by
    by_contra hk
    have := (read_project doc hf hne).2 hk
    rw [Json.read, h] at this
    cases this
  obtain ⟨f, hmem, hsome, habove⟩ := hk
  refine ⟨f, hmem, ?_⟩
  rcases habove with hunder | ⟨q, hq⟩
  · exact hunder
  · rw [← getPathValue_project hdoc hmem, getPathValue_eq_follow, ← hq, follow_append, h] at hsome
    cases q with
    | nil => exact hq ▸ (List.append_nil path).symm ▸ List.prefix_rfl
    | cons name q =>
      rw [Option.bind_some, follow_cons, hleaf name] at hsome
      cases hsome

/-- Each listed path reads the same from the projection as from the document. The projection depends
on the set of the fields only, projecting again changes nothing, and each leaf is at a listed path
or under one. -/
theorem projection_laws (doc : Value N) (field : List Char) (fields : List (List Char)) :
    (∀ f ∈ field :: fields, getPathValue (project doc.json (field :: fields)) f =
      getPathValue doc.json f) ∧
    (∀ fields', (∀ f, f ∈ fields' ↔ f ∈ field :: fields) →
      project doc.json fields' = project doc.json (field :: fields)) ∧
    project (project doc.json (field :: fields)) (field :: fields) = project doc.json
      (field :: fields) ∧
    ∀ path leaf, path ≠ [] → (project doc.json (field :: fields)).follow path = some leaf →
      (∀ name, leaf.member name = none) → ∃ f ∈ field :: fields, f.splitOn '.' <+: path := by
  have hne := List.cons_ne_nil field fields
  exact ⟨fun f hf => getPathValue_project doc.ordered hf, fun fields' h =>
    project_fields doc.ordered hne h,
    project_idempotent doc.ordered hne, fun path leaf hpath h hleaf =>
      listed_of_leaf doc.ordered hne hpath h hleaf⟩

end Laws

end DewDB.Projection
