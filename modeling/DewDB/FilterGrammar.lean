import DewDB.FilterParsing
import DewDB.Grouping

/-!
# The grammar of filters

What the parser accepts, said without it. A value fits a part of the grammar with some levels of
nesting: one for each of `$and`, `$or`, `$nor`, `$not` and `$elemMatch` on the way down. The parser
accepts what fits with the levels that are left below its maximum, and the filter that it returns is
no higher than these allow.
-/
namespace DewDB.QueryFilter

open JsonValue

variable {N : Type}

section Sequences

variable {ε α β : Type} {f : α → Except ε β} {xs : List α} {ys : List β}

theorem map_eq_ok {g : α → β} {e : Except ε α} {b : β} :
    g <$> e = .ok b ↔ ∃ a, e = .ok a ∧ g a = b := by
  cases e with
  | error e => exact ⟨nofun, nofun⟩
  | ok a => exact ⟨fun h => ⟨a, rfl, Except.ok.inj h⟩, fun ⟨_, ha, h⟩ =>
      congrArg Except.ok (Except.ok.inj ha ▸ h)⟩

theorem bind_eq_ok {g : α → Except ε β} {e : Except ε α} {b : β} :
    e >>= g = .ok b ↔ ∃ a, e = .ok a ∧ g a = .ok b := by
  cases e with
  | error e => exact ⟨nofun, nofun⟩
  | ok a => exact ⟨fun h => ⟨a, rfl, h⟩, fun ⟨_, ha, h⟩ => Except.ok.inj ha ▸ h⟩

theorem mapM_eq_ok : xs.mapM f = .ok ys ↔ List.Forall₂ (fun x y => f x = .ok y) xs ys := by
  constructor
  · intro h
    induction xs generalizing ys with
    | nil => exact Except.ok.inj h ▸ .nil
    | cons x xs ih =>
      rw [List.mapM_cons] at h
      obtain ⟨y, hy, h⟩ := bind_eq_ok.mp h
      obtain ⟨ys', hys, h⟩ := bind_eq_ok.mp h
      exact Except.ok.inj h ▸ .cons hy (ih hys)
  · intro h
    induction h with
    | nil => rfl
    | cons hxy _ ih =>
      rw [List.mapM_cons, hxy, ih]
      rfl

theorem exists_of_mem_left {R : α → β → Prop} (h : List.Forall₂ R xs ys) {x : α} (hx : x ∈ xs) :
    ∃ y ∈ ys, R x y := by
  induction h with
  | nil => exact absurd hx List.not_mem_nil
  | cons hr _ ih =>
    rcases List.mem_cons.mp hx with rfl | hx
    · exact ⟨_, List.mem_cons_self, hr⟩
    · obtain ⟨y, hy, hr⟩ := ih hx
      exact ⟨y, List.mem_cons_of_mem _ hy, hr⟩

theorem exists_of_mem_right {R : α → β → Prop} (h : List.Forall₂ R xs ys) {y : β} (hy : y ∈ ys) :
    ∃ x ∈ xs, R x y :=
  exists_of_mem_left (List.Forall₂.flip h) hy

theorem exists_mapM (h : ∀ x ∈ xs, ∃ y, f x = .ok y) : ∃ ys, xs.mapM f = .ok ys := by
  obtain ⟨ys, hys, -⟩ := Grouping.mapM_ok (R := fun _ _ => True) fun x hx =>
    (h x hx).imp fun _ hy => ⟨hy, trivial⟩
  exact ⟨ys, hys⟩

theorem mapM_eq_map {g : β → α} (h : ∀ x y, f x = .ok y ↔ x = g y) :
    xs.mapM f = .ok ys ↔ xs = ys.map g := by
  simp only [mapM_eq_ok, h]
  rw [← List.forall₂_map_right_iff, List.forall₂_eq_eq_eq]

end Sequences

/-- The parts of the grammar: a filter, a member of it, the branches of a document operator, a
condition, an operand of an operator in it, and what is asked of an element. -/
inductive Part where
  | filter
  | member (key : List Char)
  | branches
  | condition
  | operand (op : List Char)
  | element

def Takes (asU64 : N → Option ℕ) (operand : Json N) : FieldOp → Prop
  | .eq | .ne => True
  | .inList | .nin | .all => ∃ vs, operand = .arr vs
  | .gt | .gte | .lt | .lte => (∃ n, operand = .num n) ∨ ∃ s, operand = .str s
  | .existing => ∃ want, operand = .bool want
  | .type =>
    (∃ kind : JsonKind, operand = .str kind.name.toList) ∨
      ∃ kinds : List JsonKind, kinds ≠ [] ∧ operand = .arr (kinds.map fun kind =>
        .str kind.name.toList)
  | .hasPrefix | .hasSuffix | .contains => ∃ s, operand = .str s
  | .size => ∃ n k, operand = .num n ∧ asU64 n = some k ∧ k < 2 ^ 64
  | .elemMatch | .not => False

def FieldOp.isRange : FieldOp → Bool
  | .gt | .gte | .lt | .lte => true
  | _ => false

/-- A value fits a part of the grammar with at most so many levels of nesting. -/
inductive Fits (asU64 : N → Option ℕ) : Part → ℕ → Json N → Prop where
  | filter {n : ℕ} {members : List (List Char × Json N)}
      (h : ∀ m ∈ members, Fits asU64 (.member m.1) n m.2) :
    Fits asU64 .filter n (.obj members)
  | docOp {n : ℕ} {v : Json N} (op : DocOp) (h : Fits asU64 .branches n v) :
      Fits asU64 (.member op.name.toList) n v
  | path {n : ℕ} {v : Json N} {key : List Char} (hkey : isOperator key = false)
      (h : Fits asU64 .condition n v) :
    Fits asU64 (.member key) n v
  | branches {n : ℕ} {elems : List (Json N)} (hne : elems ≠ [])
      (h : ∀ b ∈ elems, Fits asU64 .filter n b) :
    Fits asU64 .branches (n + 1) (.arr elems)
  | scalar {n : ℕ} {v : Json N} (h : JsonKind.ofValue v ≠ .object) : Fits asU64 .condition n v
  | literal {n : ℕ} {members : List (List Char × Json N)}
      (h : ∀ m ∈ members, isOperator m.1 = false) :
    Fits asU64 .condition n (.obj members)
  | operators {n : ℕ} {members : List (List Char × Json N)} (hne : members ≠ [])
    (hops : ∀ m ∈ members, isOperator m.1 = true)
    (h : ∀ m ∈ members, Fits asU64 (.operand m.1) n m.2) (kind : JsonKind)
    (hrange : ∀ m ∈ members, ∀ op : FieldOp, op.isRange = true → op.name.toList = m.1 →
      .ofValue m.2 = kind) :
    Fits asU64 .condition n (.obj members)
  | plain {n : ℕ} {v : Json N} (op : FieldOp) (h : Takes asU64 v op) :
      Fits asU64 (.operand op.name.toList) n v
  | not {n : ℕ} {members : List (List Char × Json N)} (hne : members ≠ [])
    (hops : ∀ m ∈ members, isOperator m.1 = true) (h : Fits asU64 .condition n (.obj members)) :
    Fits asU64 (.operand FieldOp.not.name.toList) (n + 1) (.obj members)
  | elemMatch {n : ℕ} {v : Json N} (h : Fits asU64 .element n v) :
    Fits asU64 (.operand FieldOp.elemMatch.name.toList) n v
  | ops {n : ℕ} {members : List (List Char × Json N)} (hop : ∃ m ∈ members, isOperator m.1 = true)
    (h : Fits asU64 .condition n (.obj members)) : Fits asU64 .element (n + 1) (.obj members)
  | doc {n : ℕ} {members : List (List Char × Json N)} (hop : ∀ m ∈ members, isOperator m.1 = false)
    (h : Fits asU64 .filter n (.obj members)) : Fits asU64 .element (n + 1) (.obj members)

def Accepts (asU64 : N → Option ℕ) (depth : ℕ) (v : Json N) : Part → Prop
  | .filter => ∃ e, parseExpr asU64 v depth = .ok e
  | .member key => ∃ e, parseMember asU64 key v depth = .ok e
  | .branches => ∀ op, ∃ es, parseBranches asU64 op v depth = .ok es
  | .condition => ∀ field, ∃ c, parseCondition asU64 field v depth = .ok c
  | .operand op => ∀ field, ∃ o, parseOp asU64 field op v depth = .ok o
  | .element => ∀ field, ∃ p, parseElemMatch asU64 field v depth = .ok p

mutual

def Expr.height : Expr N → ℕ
  | .all parts => partsHeight parts + 1
  | .any parts => partsHeight parts + 1
  | .nor parts => partsHeight parts + 1
  | .field _ cond => cond.height + 1

def partsHeight : List (Expr N) → ℕ
  | [] => 0
  | part :: parts => max part.height (partsHeight parts)

def Condition.height : Condition N → ℕ
  | .mk ops => opsHeight ops + 1

def opsHeight : List (Op N) → ℕ
  | [] => 0
  | op :: ops => max op.height (opsHeight ops)

def Op.height : Op N → ℕ
  | .not inner => inner.height + 1
  | .elemMatch pred => pred.height + 1
  | _ => 1

def ElemPredicate.height : ElemPredicate N → ℕ
  | .ops cond => cond.height
  | .doc root => root.height

end

theorem partsHeight_le {parts : List (Expr N)} {k : ℕ} (h : ∀ part ∈ parts, part.height ≤ k) :
    partsHeight parts ≤ k := by
  induction parts with
  | nil => exact Nat.zero_le k
  | cons part parts ih =>
    rw [partsHeight]
    exact max_le (h part List.mem_cons_self) (ih fun p hp => h p (List.mem_cons_of_mem _ hp))

theorem opsHeight_le {ops : List (Op N)} {k : ℕ} (h : ∀ op ∈ ops, op.height ≤ k) :
    opsHeight ops ≤ k := by
  induction ops with
  | nil => exact Nat.zero_le k
  | cons op ops ih =>
    rw [opsHeight]
    exact max_le (h op List.mem_cons_self) (ih fun o ho => h o (List.mem_cons_of_mem _ ho))

section Names

theorem docOp_of_name (op : DocOp) : DocOp.ofName op.name.toList = some op := by
  cases op <;> decide

theorem name_of_docOp {name : List Char} {op : DocOp} (h : DocOp.ofName name = some op) :
    op.name.toList = name := by
  rw [DocOp.ofName] at h
  simpa using List.find?_some h

theorem isOperator_docOp (op : DocOp) : isOperator op.name.toList = true := by
  cases op <;> decide

theorem fieldOp_of_name (op : FieldOp) : FieldOp.ofName op.name.toList = some op := by
  cases op <;> decide

theorem name_of_fieldOp {name : List Char} {op : FieldOp} (h : FieldOp.ofName name = some op) :
    op.name.toList = name := by
  rw [FieldOp.ofName] at h
  simpa using List.find?_some h

theorem kind_of_name (kind : JsonKind) : JsonKind.parse kind.name.toList = some kind := by
  cases kind <;> decide

theorem name_of_kind {name : List Char} {kind : JsonKind} (h : JsonKind.parse name = some kind) :
    kind.name.toList = name := by
  rw [JsonKind.parse] at h
  simpa using List.find?_some h

end Names

section Operands

variable {asU64 : N → Option ℕ} {op : FieldOp} {field : List Char} {v : Json N}

theorem parseList_eq_ok {vs : List (Json N)} : parseList op field v = .ok vs ↔ v = .arr vs := by
  cases v with
  | arr ws => exact ⟨fun h => congrArg Json.arr (Except.ok.inj h), fun h =>
      congrArg Except.ok (Json.arr.inj h)⟩
  | _ => exact ⟨nofun, nofun⟩

theorem parseText_eq_ok {s : List Char} : parseText op field v = .ok s ↔ v = .str s := by
  cases v with
  | str t => exact ⟨fun h => congrArg Json.str (Except.ok.inj h), fun h =>
      congrArg Except.ok (Json.str.inj h)⟩
  | _ => exact ⟨nofun, nofun⟩

theorem parseBound_eq_ok {w : Json N} :
    parseBound op field v = .ok w ↔ ((∃ n, v = .num n) ∨ ∃ s, v = .str s) ∧ v = w := by
  cases v with
  | num n => exact ⟨fun h => ⟨.inl ⟨n, rfl⟩, Except.ok.inj h⟩, fun h => congrArg Except.ok h.2⟩
  | str s => exact ⟨fun h => ⟨.inr ⟨s, rfl⟩, Except.ok.inj h⟩, fun h => congrArg Except.ok h.2⟩
  | _ => exact ⟨nofun, by simp⟩

theorem parseSize_ok : (∃ k, parseSize field v asU64 = .ok k) ↔ Takes asU64 v .size := by
  cases v with
  | num n =>
    simp only [parseSize, Takes]
    cases hk : asU64 n with
    | none => simp [hk]
    | some k =>
      dsimp only
      split_ifs with hlt
      · exact ⟨fun _ => ⟨n, k, rfl, hk, hlt⟩, fun _ => ⟨k, rfl⟩⟩
      · constructor
        · rintro ⟨_, h⟩
          cases h
        · rintro ⟨_, k', hn, hk', hlt'⟩
          rw [← Json.num.inj hn, hk] at hk'
          exact absurd (Option.some.inj hk' ▸ hlt') hlt
  | _ => simp [parseSize, Takes]

theorem parseKind_eq_ok {name : List Char} {kind : JsonKind} :
    parseKind (N := N) field name = .ok kind ↔ name = kind.name.toList := by
  rw [parseKind]
  constructor
  · intro h
    cases hname : JsonKind.parse name with
    | none =>
      rw [hname] at h
      cases h
    | some k =>
      rw [hname] at h
      rw [← Except.ok.inj h, name_of_kind hname]
  · intro h
    rw [h, kind_of_name]

theorem parseTypeName_eq_ok {s : List Char} : parseTypeName field v = .ok s ↔ v = .str s := by
  cases v with
  | str t => exact ⟨fun h => congrArg Json.str (Except.ok.inj h), fun h =>
      congrArg Except.ok (Json.str.inj h)⟩
  | _ => exact ⟨nofun, nofun⟩

theorem parseTypes_ok : (∃ kinds, parseTypes field v = .ok kinds) ↔ Takes asU64 v .type := by
  have hkinds : ∀ {names : List (List Char)} {kinds : List JsonKind},
      (if names.isEmpty then Except.error (FilterError.noType (N := N) field)
        else names.mapM (parseKind field)) =
        .ok kinds ↔ names ≠ [] ∧ names = kinds.map fun kind => kind.name.toList := by
    intro names kinds
    rw [← mapM_eq_map (f := parseKind (N := N) field) fun _ _ => parseKind_eq_ok]
    cases names with
    | nil => simp
    | cons name names => simp
  simp only [Takes]
  constructor
  · rintro ⟨kinds, h⟩
    obtain ⟨names, hnames, h⟩ := bind_eq_ok.mp h
    obtain ⟨hne, hmap⟩ := hkinds.mp h
    cases v with
    | str s =>
      rw [← Except.ok.inj hnames] at hmap
      cases kinds with
      | nil => cases hmap
      | cons kind kinds => exact .inl ⟨kind, congrArg Json.str (List.cons.inj hmap).1⟩
    | arr vs =>
      have hvs := (mapM_eq_map fun _ _ => parseTypeName_eq_ok).mp hnames
      refine .inr ⟨kinds, ?_, ?_⟩
      · rintro rfl
        exact hne hmap
      · rw [hvs, hmap, List.map_map]
        rfl
    | _ => cases hnames
  · rintro (⟨kind, rfl⟩ | ⟨kinds, hne, rfl⟩)
    · exact ⟨[kind], bind_eq_ok.mpr ⟨_, rfl, hkinds.mpr ⟨List.cons_ne_nil _ _, rfl⟩⟩⟩
    · refine ⟨kinds, bind_eq_ok.mpr ⟨kinds.map fun kind => kind.name.toList, ?_,
        hkinds.mpr ⟨?_, rfl⟩⟩⟩
      · apply (mapM_eq_map fun _ _ => parseTypeName_eq_ok).mpr
        rw [List.map_map]
        rfl
      · exact fun h => hne (List.map_eq_nil_iff.mp h)

theorem checkRangeAgreement_ok {kind : Option JsonKind} {ops : List (Op N)} :
    checkRangeAgreement field kind ops = .ok () ↔
      ∃ k, (∀ seen, kind = some seen → seen = k) ∧ ∀ op ∈ ops, ∀ v, op.bound = some v →
        .ofValue v = k := by
  induction ops generalizing kind with
  | nil =>
    refine ⟨fun _ => ?_, fun _ => rfl⟩
    cases kind with
    | none => exact ⟨.null, nofun, nofun⟩
    | some seen => exact ⟨seen, fun _ h => (Option.some.inj h).symm, nofun⟩
  | cons op ops ih =>
    rw [checkRangeAgreement]
    cases hbound : op.bound with
    | none =>
      dsimp only
      rw [ih]
      simp [hbound]
    | some v =>
      have hnext : (∃ k, (∀ seen, some (JsonKind.ofValue v) = some seen → seen = k) ∧
          ∀ op ∈ ops, ∀ v, op.bound = some v → .ofValue v = k) ↔
          ∀ op ∈ ops, ∀ w, op.bound = some w → JsonKind.ofValue w = .ofValue v := by
        simp
      cases kind with
      | none =>
        dsimp only
        rw [ih, hnext]
        simp [hbound]
      | some seen =>
        have hwhole : (∃ k, (∀ s, some seen = some s → s = k) ∧
            ∀ o ∈ op :: ops, ∀ w, o.bound = some w → JsonKind.ofValue w = k) ↔
            JsonKind.ofValue v = seen ∧ ∀ o ∈ ops, ∀ w, o.bound = some w →
              JsonKind.ofValue w = seen := by
          simp [hbound]
        dsimp only
        rw [hwhole]
        split_ifs with hne
        · exact ⟨nofun, fun h => absurd h.1.symm hne⟩
        · rw [ih, hnext, ← not_not.mp hne]
          exact (and_iff_right rfl).symm

end Operands

section Leaves

variable {asU64 : N → Option ℕ} {op : FieldOp} {field : List Char} {v : Json N} {depth : ℕ}

theorem leaf_of_parseOp {o : Op N} (helem : op ≠ .elemMatch) (hnot : op ≠ .not)
    (h : parseOp asU64 field op.name.toList v depth = .ok o) :
    Takes asU64 v op ∧ o.height = 1 ∧ o.bound = if op.isRange then some v else none := by
  unfold parseOp at h
  rw [fieldOp_of_name] at h
  cases op <;> dsimp only at h
  case eq | ne =>
    obtain rfl := Except.ok.inj h
    exact ⟨trivial, rfl, rfl⟩
  case inList | nin | all =>
    obtain ⟨vs, hvs, rfl⟩ := map_eq_ok.mp h
    exact ⟨⟨vs, parseList_eq_ok.mp hvs⟩, rfl, rfl⟩
  case gt | gte | lt | lte =>
    obtain ⟨w, hw, rfl⟩ := map_eq_ok.mp h
    obtain ⟨htakes, rfl⟩ := parseBound_eq_ok.mp hw
    exact ⟨htakes, rfl, rfl⟩
  case hasPrefix | hasSuffix | contains =>
    obtain ⟨s, hs, rfl⟩ := map_eq_ok.mp h
    exact ⟨⟨s, parseText_eq_ok.mp hs⟩, rfl, rfl⟩
  case existing =>
    cases v with
    | bool want =>
      obtain rfl := Except.ok.inj h
      exact ⟨⟨want, rfl⟩, rfl, rfl⟩
    | _ => cases h
  case type =>
    obtain ⟨kinds, hkinds, rfl⟩ := map_eq_ok.mp h
    exact ⟨parseTypes_ok.mp ⟨kinds, hkinds⟩, rfl, rfl⟩
  case size =>
    obtain ⟨k, hk, rfl⟩ := map_eq_ok.mp h
    exact ⟨parseSize_ok.mp ⟨k, hk⟩, rfl, rfl⟩
  case elemMatch => exact absurd rfl helem
  case not => exact absurd rfl hnot

theorem bound_of_parseOp {name : List Char} {o : Op N} {w : Json N}
    (h : parseOp asU64 field name v depth = .ok o)
    (hw : o.bound = some w) : v = w ∧ ∃ op :
    FieldOp, op.isRange = true ∧ op.name.toList = name := by
  cases hop : FieldOp.ofName name with
  | none =>
    unfold parseOp at h
    rw [hop] at h
    cases h
  | some f =>
    obtain rfl := name_of_fieldOp hop
    by_cases hleaf : f ≠ .elemMatch ∧ f ≠ .not
    · have hbound := (leaf_of_parseOp hleaf.1 hleaf.2 h).2.2
      rw [hbound] at hw
      split_ifs at hw with hrange
      exact ⟨Option.some.inj hw, f, hrange, rfl⟩
    · unfold parseOp at h
      rw [hop] at h
      cases f <;> simp at hleaf
      · obtain ⟨p, -, rfl⟩ := map_eq_ok.mp h
        cases hw
      · cases v with
        | obj members =>
          dsimp only at h
          split_ifs at h
          obtain ⟨c, -, rfl⟩ := map_eq_ok.mp h
          cases hw
        | _ => cases h

theorem parseOp_of_takes (h : Takes asU64 v op) :
    ∃ o, parseOp asU64 field op.name.toList v depth = .ok o := by
  unfold parseOp
  rw [fieldOp_of_name]
  cases op <;> dsimp only
  case eq | ne => exact ⟨_, rfl⟩
  case inList | nin | all =>
    obtain ⟨vs, hvs⟩ := h
    exact ⟨_, map_eq_ok.mpr ⟨vs, parseList_eq_ok.mpr hvs, rfl⟩⟩
  case gt | gte | lt | lte => exact ⟨_, map_eq_ok.mpr ⟨v, parseBound_eq_ok.mpr ⟨h, rfl⟩, rfl⟩⟩
  case hasPrefix | hasSuffix | contains =>
    obtain ⟨s, hs⟩ := h
    exact ⟨_, map_eq_ok.mpr ⟨s, parseText_eq_ok.mpr hs, rfl⟩⟩
  case existing =>
    obtain ⟨want, rfl⟩ := h
    exact ⟨_, rfl⟩
  case type =>
    obtain ⟨kinds, hkinds⟩ := parseTypes_ok.mpr h
    exact ⟨_, map_eq_ok.mpr ⟨kinds, hkinds, rfl⟩⟩
  case size =>
    obtain ⟨k, hk⟩ := parseSize_ok.mpr h
    exact ⟨_, map_eq_ok.mpr ⟨k, hk, rfl⟩⟩
  case elemMatch | not => exact h.elim

end Leaves

section Soundness

variable {asU64 : N → Option ℕ}

theorem le_of_parseExpr {v : Json N} {depth : ℕ} {e : Expr N}
    (h : parseExpr asU64 v depth = .ok e) : depth ≤ maxFilterDepth := by
  unfold parseExpr at h
  split_ifs at h with hdeep
  exact Nat.le_of_not_lt hdeep

theorem le_of_parseCondition {field : List Char} {v : Json N} {depth : ℕ} {c : Condition N}
    (h : parseCondition asU64 field v depth = .ok c) : depth ≤ maxFilterDepth := by
  unfold parseCondition at h
  split_ifs at h with hdeep
  exact Nat.le_of_not_lt hdeep

/-- What is parsed from a value as a filter or as a condition fits it, and is no higher than the
levels left allow. -/
structure Sound (asU64 : N → Option ℕ) (v : Json N) : Prop where
  filter {depth n : ℕ} {e : Expr N} (hd : depth + n = maxFilterDepth)
    (h : parseExpr asU64 v depth = .ok e) : Fits asU64 .filter n v ∧ e.height ≤ 4 * n + 4
  condition {field : List Char} {depth n : ℕ} {c : Condition N} (hd : depth + n = maxFilterDepth)
    (h : parseCondition asU64 field v depth = .ok c) :
    Fits asU64 .condition n v ∧ c.height ≤ 4 * n + 2

variable {v : Json N} {depth n : ℕ}

theorem fits_of_parseBranches {op : DocOp} {parts : List (Expr N)}
    (hs : ∀ w, sizeOf w < sizeOf v → Sound asU64 w)
    (hd : depth + n = maxFilterDepth) (h : parseBranches asU64 op v depth = .ok parts) :
    Fits asU64 .branches n v ∧ partsHeight parts ≤ 4 * n := by
  unfold parseBranches at h
  cases v with
  | arr elems =>
    dsimp only at h
    split_ifs at h with hempty
    have hne : elems ≠ [] := fun h => hempty (List.isEmpty_iff.mpr h)
    have hall := mapM_eq_ok.mp h
    obtain ⟨b, hb⟩ := List.exists_mem_of_ne_nil elems hne
    obtain ⟨e, -, he⟩ := exists_of_mem_left hall hb
    have hdepth := le_of_parseExpr he
    obtain ⟨k, rfl⟩ : ∃ k, n = k + 1 := ⟨n - 1, by omega⟩
    constructor
    · apply Fits.branches hne
      intro b hb
      obtain ⟨e, -, he⟩ := exists_of_mem_left hall hb
      exact ((hs b (sizeOf_elem hb)).filter (by omega) he).1
    · apply partsHeight_le
      intro e he
      obtain ⟨b, hb, he⟩ := exists_of_mem_right hall he
      exact ((hs b (sizeOf_elem hb)).filter (by omega) he).2
  | _ => cases h

theorem fits_of_parseMember {key : List Char} {e : Expr N}
    (hs : ∀ w, sizeOf w ≤ sizeOf v → Sound asU64 w)
    (hd : depth + n = maxFilterDepth) (h : parseMember asU64 key v depth = .ok e) :
    Fits asU64 (.member key) n v ∧ e.height ≤ 4 * n + 3 := by
  unfold parseMember at h
  cases hop : DocOp.ofName key with
  | some op =>
    rw [hop] at h
    dsimp only at h
    obtain ⟨parts, hparts, rfl⟩ := map_eq_ok.mp h
    obtain ⟨hfits, hle⟩ := fits_of_parseBranches (fun w hw => hs w hw.le) hd hparts
    refine ⟨name_of_docOp hop ▸ .docOp op hfits, ?_⟩
    cases op <;> rw [DocOp.expr, Expr.height] <;> omega
  | none =>
    rw [hop] at h
    dsimp only at h
    split_ifs at h with hkey
    obtain ⟨c, hc, rfl⟩ := map_eq_ok.mp h
    obtain ⟨hfits, hle⟩ := (hs v le_rfl).condition hd hc
    refine ⟨.path (Bool.eq_false_iff.mpr hkey) hfits, ?_⟩
    rw [Expr.height]
    omega

theorem fits_of_parseElemMatch {field : List Char} {p : ElemPredicate N} (hs : Sound asU64 v)
    (hd : depth + n = maxFilterDepth) (h : parseElemMatch asU64 field v depth = .ok p) :
    Fits asU64 .element n v ∧ p.height ≤ 4 * n := by
  unfold parseElemMatch at h
  cases v with
  | obj members =>
    dsimp only at h
    split_ifs at h with hop
    · obtain ⟨c, hc, rfl⟩ := map_eq_ok.mp h
      have hdepth := le_of_parseCondition hc
      obtain ⟨k, rfl⟩ : ∃ k, n = k + 1 := ⟨n - 1, by omega⟩
      obtain ⟨hfits, hle⟩ := hs.condition (n := k) (by omega) hc
      refine ⟨.ops (List.any_eq_true.mp hop) hfits, ?_⟩
      rw [ElemPredicate.height]
      omega
    · obtain ⟨e, he, rfl⟩ := map_eq_ok.mp h
      have hdepth := le_of_parseExpr he
      obtain ⟨k, rfl⟩ : ∃ k, n = k + 1 := ⟨n - 1, by omega⟩
      obtain ⟨hfits, hle⟩ := hs.filter (n := k) (by omega) he
      refine ⟨.doc (fun m hm => Bool.eq_false_iff.mpr fun h =>
        hop (List.any_eq_true.mpr ⟨m, hm, h⟩)) hfits, ?_⟩
      rw [ElemPredicate.height]
      omega
  | _ => cases h

theorem fits_of_parseOp {field op : List Char} {o : Op N} (hs : Sound asU64 v)
    (hd : depth + n = maxFilterDepth)
    (h : parseOp asU64 field op v depth = .ok o) :
    Fits asU64 (.operand op) n v ∧ o.height ≤ 4 * n + 1 := by
  cases hop : FieldOp.ofName op with
  | none =>
    unfold parseOp at h
    rw [hop] at h
    cases h
  | some f =>
    obtain rfl := name_of_fieldOp hop
    by_cases helem : f = .elemMatch
    · subst helem
      unfold parseOp at h
      rw [hop] at h
      obtain ⟨p, hp, rfl⟩ := map_eq_ok.mp h
      obtain ⟨hfits, hle⟩ := fits_of_parseElemMatch hs hd hp
      refine ⟨.elemMatch hfits, ?_⟩
      rw [Op.height]
      omega
    · by_cases hnot : f = .not
      · subst hnot
        unfold parseOp at h
        rw [hop] at h
        cases v with
        | obj members =>
          dsimp only at h
          split_ifs at h with hops
          obtain ⟨c, hc, rfl⟩ := map_eq_ok.mp h
          have hdepth := le_of_parseCondition hc
          obtain ⟨k, rfl⟩ : ∃ k, n = k + 1 := ⟨n - 1, by omega⟩
          obtain ⟨hfits, hle⟩ := hs.condition (n := k) (by omega) hc
          refine ⟨.not (fun h => hops.2 (List.isEmpty_iff.mpr h))
            (List.all_eq_true.mp hops.1) hfits, ?_⟩
          rw [Op.height]
          omega
        | _ => cases h
      · obtain ⟨htakes, hheight, -⟩ := leaf_of_parseOp helem hnot h
        exact ⟨.plain f htakes, by omega⟩

theorem fits_of_parseExpr {e : Expr N} (hs : ∀ w, sizeOf w < sizeOf v → Sound asU64 w)
    (hd : depth + n = maxFilterDepth) (h : parseExpr asU64 v depth = .ok e) :
    Fits asU64 .filter n v ∧ e.height ≤ 4 * n + 4 := by
  unfold parseExpr at h
  rw [if_neg (by omega)] at h
  cases v with
  | obj members =>
    dsimp only at h
    obtain ⟨parts, hparts, rfl⟩ := map_eq_ok.mp h
    have hall := mapM_eq_ok.mp hparts
    have hmember : ∀ m ∈ members, ∀ w, sizeOf w ≤ sizeOf m.2 → Sound asU64 w :=
      fun m hm w hw => hs w (Nat.lt_of_le_of_lt hw (sizeOf_member hm))
    constructor
    · apply Fits.filter
      intro m hm
      obtain ⟨part, -, hpart⟩ := exists_of_mem_left hall hm
      exact (fits_of_parseMember (hmember m hm) hd hpart).1
    · have hle : partsHeight parts ≤ 4 * n + 3 := partsHeight_le fun part hp => by
        obtain ⟨m, hm, hpart⟩ := exists_of_mem_right hall hp
        exact (fits_of_parseMember (hmember m hm) hd hpart).2
      rw [Expr.height]
      omega
  | _ => cases h

theorem fits_of_parseCondition {field : List Char} {c : Condition N}
    (hs : ∀ w, sizeOf w < sizeOf v → Sound asU64 w)
    (hd : depth + n = maxFilterDepth) (h : parseCondition asU64 field v depth = .ok c) :
    Fits asU64 .condition n v ∧ c.height ≤ 4 * n + 2 := by
  unfold parseCondition at h
  rw [if_neg (by omega)] at h
  cases v with
  | obj members =>
    dsimp only at h
    split_ifs at h with hnone hmixed
    · obtain rfl := Except.ok.inj h
      refine ⟨.literal fun m hm => ?_, Nat.le_add_left _ _⟩
      exact Bool.eq_false_iff.mpr (List.countP_eq_zero.mp hnone m hm)
    · have hops : ∀ m ∈ members, isOperator m.1 = true :=
        List.countP_eq_length.mp (not_not.mp hmixed)
      obtain ⟨ops, hparsed, h⟩ := bind_eq_ok.mp h
      obtain ⟨⟨⟩, hagree, h⟩ := bind_eq_ok.mp h
      obtain rfl := Except.ok.inj h
      have hall := mapM_eq_ok.mp hparsed
      obtain ⟨kind, -, hkind⟩ := checkRangeAgreement_ok.mp hagree
      constructor
      · refine .operators (fun h => hnone (by rw [h]; rfl)) hops (fun m hm => ?_) kind
          fun m hm op hop hname => ?_
        · obtain ⟨o, -, ho⟩ := exists_of_mem_left hall hm
          exact (fits_of_parseOp (hs m.2 (sizeOf_member hm)) hd ho).1
        · obtain ⟨o, hmem, ho⟩ := exists_of_mem_left hall hm
          rw [← hname] at ho
          have hbound := (leaf_of_parseOp (by rintro rfl; cases hop)
            (by rintro rfl; cases hop) ho).2.2
          rw [if_pos hop] at hbound
          exact hkind o hmem _ hbound
      · have hle : opsHeight ops ≤ 4 * n + 1 := opsHeight_le fun o ho => by
          obtain ⟨m, hm, ho⟩ := exists_of_mem_right hall ho
          exact (fits_of_parseOp (hs m.2 (sizeOf_member hm)) hd ho).2
        rw [Condition.height]
        omega
  | _ =>
    obtain rfl := Except.ok.inj h
    exact ⟨.scalar nofun, Nat.le_add_left _ _⟩

theorem sound (asU64 : N → Option ℕ) (v : Json N) : Sound asU64 v := by
  induction hk : sizeOf v using Nat.strong_induction_on generalizing v with
  | h k ih =>
    have hs : ∀ w, sizeOf w < sizeOf v → Sound asU64 w := fun w hw => ih (sizeOf w) (hk ▸ hw) w rfl
    exact ⟨fits_of_parseExpr hs, fits_of_parseCondition hs⟩

end Soundness

section Completeness

variable {asU64 : N → Option ℕ}

theorem docOp_none {key : List Char} (h : isOperator key = false) : DocOp.ofName key = none := by
  cases hop : DocOp.ofName key with
  | none => rfl
  | some op =>
    rw [← name_of_docOp hop, isOperator_docOp] at h
    cases h

theorem not_isOperator_count {members : List (List Char × Json N)} (hne : members ≠ [])
    (h : ∀ m ∈ members, isOperator m.1 = true) :
    members.countP (fun m => isOperator m.1) ≠ 0 ∧
      members.countP (fun m => isOperator m.1) = members.length := by
  have hall := List.countP_eq_length.mpr h
  exact ⟨fun h0 => hne (List.eq_nil_of_length_eq_zero (hall.symm.trans h0)), hall⟩

theorem accepts_of_fits {part : Part} {n : ℕ} {v : Json N} (h : Fits asU64 part n v) {depth : ℕ}
    (hd : depth + n ≤ maxFilterDepth) : Accepts asU64 depth v part := by
  induction h generalizing depth with
  | @filter n members h ih =>
    obtain ⟨parts, hparts⟩ := exists_mapM fun m hm => ih m hm hd
    refine ⟨.all parts, ?_⟩
    unfold parseExpr
    rw [if_neg (by omega)]
    exact map_eq_ok.mpr ⟨parts, hparts, rfl⟩
  | docOp op h ih =>
    obtain ⟨parts, hparts⟩ := ih hd op
    refine ⟨op.expr parts, ?_⟩
    unfold parseMember
    rw [docOp_of_name]
    exact map_eq_ok.mpr ⟨parts, hparts, rfl⟩
  | @path n v key hkey h ih =>
    obtain ⟨c, hc⟩ := ih hd key
    refine ⟨.field key c, ?_⟩
    unfold parseMember
    rw [docOp_none hkey]
    dsimp only
    rw [if_neg (Bool.eq_false_iff.mp hkey)]
    exact map_eq_ok.mpr ⟨c, hc, rfl⟩
  | @branches n elems hne h ih =>
    intro op
    have hnext : depth + 1 + n ≤ maxFilterDepth := by omega
    obtain ⟨parts, hparts⟩ := exists_mapM fun b hb => ih b hb hnext
    refine ⟨parts, ?_⟩
    unfold parseBranches
    rw [if_neg fun h => hne (List.isEmpty_iff.mp h)]
    exact hparts
  | @scalar n v h =>
    intro field
    unfold parseCondition
    rw [if_neg (by omega)]
    cases v with
    | obj members => exact absurd rfl h
    | _ => exact ⟨_, rfl⟩
  | @literal n members h =>
    intro field
    unfold parseCondition
    rw [if_neg (by omega)]
    dsimp only
    rw [if_pos (List.countP_eq_zero.mpr fun m hm => Bool.eq_false_iff.mp (h m hm))]
    exact ⟨_, rfl⟩
  | @operators n members hne hops h kind hrange ih =>
    intro field
    obtain ⟨ops, hparsed⟩ := exists_mapM fun m hm => ih m hm hd field
    have hall := mapM_eq_ok.mp hparsed
    have hagree : checkRangeAgreement field none ops = .ok () := by
      refine checkRangeAgreement_ok.mpr ⟨kind, nofun, fun o ho w hw => ?_⟩
      obtain ⟨m, hm, ho⟩ := exists_of_mem_right hall ho
      obtain ⟨rfl, op, hop, hname⟩ := bound_of_parseOp ho hw
      exact hrange m hm op hop hname
    obtain ⟨hsome, hcount⟩ := not_isOperator_count hne hops
    refine ⟨.mk ops, ?_⟩
    unfold parseCondition
    rw [if_neg (by omega)]
    dsimp only
    rw [if_neg hsome, if_neg (not_not.mpr hcount)]
    exact bind_eq_ok.mpr ⟨ops, hparsed, bind_eq_ok.mpr ⟨(), hagree, rfl⟩⟩
  | plain op h =>
    intro field
    exact parseOp_of_takes h
  | @not n members hne hops h ih =>
    intro field
    have hnext : depth + 1 + n ≤ maxFilterDepth := by omega
    obtain ⟨c, hc⟩ := ih hnext field
    refine ⟨.not c, ?_⟩
    unfold parseOp
    rw [fieldOp_of_name]
    dsimp only
    rw [if_pos ⟨List.all_eq_true.mpr hops, fun h => hne (List.isEmpty_iff.mp h)⟩]
    exact map_eq_ok.mpr ⟨c, hc, rfl⟩
  | elemMatch h ih =>
    intro field
    obtain ⟨p, hp⟩ := ih hd field
    refine ⟨.elemMatch p, ?_⟩
    unfold parseOp
    rw [fieldOp_of_name]
    exact map_eq_ok.mpr ⟨p, hp, rfl⟩
  | @ops n members hop h ih =>
    intro field
    have hnext : depth + 1 + n ≤ maxFilterDepth := by omega
    obtain ⟨c, hc⟩ := ih hnext field
    refine ⟨.ops c, ?_⟩
    unfold parseElemMatch
    rw [if_pos (List.any_eq_true.mpr hop)]
    exact map_eq_ok.mpr ⟨c, hc, rfl⟩
  | @doc n members hop h ih =>
    intro field
    have hnext : depth + 1 + n ≤ maxFilterDepth := by omega
    obtain ⟨e, he⟩ := ih hnext
    refine ⟨.doc e, ?_⟩
    unfold parseElemMatch
    rw [if_neg fun h => ?_]
    · exact map_eq_ok.mpr ⟨e, he, rfl⟩
    · obtain ⟨m, hm, hmop⟩ := List.any_eq_true.mp h
      exact Bool.eq_false_iff.mp (hop m hm) hmop

end Completeness

section Evaluation

variable [Number N] [DecidableEq N]

mutual

/-- `op_matches`, where `none` is the panic of a branch that is marked unreachable. -/
def runOp : Op N → Option (Json N) → Option Bool
  | .existing want, val => some (val.isSome = want)
  | .not inner, val => (runCondition inner val).map (!·)
  | op, some v => runPresent op v
  | _, none => some false
termination_by op => (sizeOf op, 1)

/-- `present_op_matches`. -/
def runPresent : Op N → Json N → Option Bool
  | .existing _, _ => none
  | .not _, _ => none
  | .elemMatch pred, .arr a => a.anyM fun e => runPred pred e
  | op, v => some (presentOpMatches op v)
termination_by op => (sizeOf op, 0)

def runPred : ElemPredicate N → Json N → Option Bool
  | .ops cond, e => runCondition cond (some e)
  | .doc root, e => runExpr root e
termination_by pred => (sizeOf pred, 0)

def runCondition : Condition N → Option (Json N) → Option Bool
  | .mk ops, val => runOps ops val
termination_by cond => (sizeOf cond, 0)

def runOps : List (Op N) → Option (Json N) → Option Bool
  | [], _ => some true
  | op :: ops, val => do if ← runOp op val then runOps ops val else some false
termination_by ops => (sizeOf ops, 0)

def runExpr : Expr N → Json N → Option Bool
  | .field path cond, doc => runCondition cond (getPathValue doc path)
  | .all parts, doc => runAll parts doc
  | .any parts, doc => runAny parts doc
  | .nor parts, doc => (runAny parts doc).map (!·)
termination_by expr => (sizeOf expr, 0)

def runAll : List (Expr N) → Json N → Option Bool
  | [], _ => some true
  | part :: parts, doc => do if ← runExpr part doc then runAll parts doc else some false
termination_by parts => (sizeOf parts, 0)

def runAny : List (Expr N) → Json N → Option Bool
  | [], _ => some false
  | part :: parts, doc => do if ← runExpr part doc then some true else runAny parts doc
termination_by parts => (sizeOf parts, 0)

end

theorem runOp_leaf {op : Op N} (hnot : ∀ inner, op ≠ .not inner)
    (helem : ∀ pred, op ≠ .elemMatch pred)
    (val : Option (Json N)) : runOp op val = some (opMatches op val) := by
  cases op
  case not => exact absurd rfl (hnot _)
  case elemMatch => exact absurd rfl (helem _)
  all_goals cases val <;> simp [runOp, runPresent, opMatches]

omit [Number N] [DecidableEq N] in
theorem anyM_eq_some {f : Json N → Option Bool} {g : Json N → Bool} (h : ∀ e, f e = some (g e))
    (a : List (Json N)) : a.anyM f = some (a.any g) := by
  induction a with
  | nil => rfl
  | cons e a ih =>
    rw [List.anyM, h e, List.any_cons]
    cases g e with
    | true => rfl
    | false => exact ih

mutual

/-- The operators that a present value is tested with exclude the two that panic. -/
theorem runOp_eq (op : Op N) (val : Option (Json N)) : runOp op val = some (opMatches op val) := by
  match op with
  | .not inner => rw [runOp, runCondition_eq inner val, opMatches, Option.map_some]
  | .elemMatch pred =>
    match val with
    | none => simp [runOp, opMatches]
    | some (.arr a) =>
      have hany := anyM_eq_some (fun e => runPred_eq pred e) a
      simpa [runOp, runPresent, opMatches] using hany
    | some .null | some (.bool _) | some (.num _) | some (.str _) | some (.obj _) =>
      simp [runOp, runPresent, opMatches]
  | .eq _ | .ne _ | .inList _ | .nin _ | .gt _ | .gte _ | .lt _ | .lte _ | .existing _ | .type
      _ | .hasPrefix _
  | .hasSuffix _ | .contains _ | .all _ | .size _ => exact runOp_leaf (by simp) (by simp) val

theorem runPred_eq (pred : ElemPredicate N) (e : Json N) : runPred pred e = some
    (pred.matches e) := by
  match pred with
  | .ops cond => rw [runPred, runCondition_eq cond (some e), ElemPredicate.matches]
  | .doc root => rw [runPred, runExpr_eq root e, ElemPredicate.matches]

theorem runCondition_eq (cond : Condition N) (val : Option (Json N)) :
    runCondition cond val = some (cond.matches val) := by
  match cond with
  | .mk ops => rw [runCondition, runOps_eq ops val, Condition.matches]

theorem runOps_eq (ops : List (Op N)) (val : Option (Json N)) : runOps ops val = some
    (opsMatch ops val) := by
  match ops with
  | [] => rw [runOps, opsMatch]
  | op :: ops =>
    rw [runOps, runOp_eq op val, runOps_eq ops val, opsMatch]
    cases opMatches op val <;> rfl

theorem runExpr_eq (expr : Expr N) (doc : Json N) : runExpr expr doc = some (expr.eval doc) := by
  match expr with
  | .field path cond => rw [runExpr, runCondition_eq cond (getPathValue doc path), Expr.eval]
  | .all parts => rw [runExpr, runAll_eq parts doc, Expr.eval]
  | .any parts => rw [runExpr, runAny_eq parts doc, Expr.eval]
  | .nor parts => rw [runExpr, runAny_eq parts doc, Expr.eval, Option.map_some]

theorem runAll_eq (parts : List (Expr N)) (doc : Json N) : runAll parts doc = some
    (evalAll parts doc) := by
  match parts with
  | [] => rw [runAll, evalAll]
  | part :: parts =>
    rw [runAll, runExpr_eq part doc, runAll_eq parts doc, evalAll]
    cases part.eval doc <;> rfl

theorem runAny_eq (parts : List (Expr N)) (doc : Json N) : runAny parts doc = some
    (evalAny parts doc) := by
  match parts with
  | [] => rw [runAny, evalAny]
  | part :: parts =>
    rw [runAny, runExpr_eq part doc, runAny_eq parts doc, evalAny]
    cases part.eval doc <;> rfl

end

omit [Number N] [DecidableEq N] in
/-- The filter of a request is accepted when its text is JSON that fits the grammar, and only then.
-/
theorem parseFilter_ok_iff (asU64 : N → Option ℕ) (fromStr : String → Except String (Json N))
    (s : String) :
    (∃ f, parseFilter asU64 fromStr s = .ok f) ↔
      ∃ v n, fromStr s = .ok v ∧ n ≤ maxFilterDepth ∧ Fits asU64 .filter n v := by
  cases hs : fromStr s with
  | error e =>
    constructor
    · rintro ⟨f, hf⟩
      rw [parseFilter, hs] at hf
      cases hf
    · rintro ⟨v, n, hv, -⟩
      cases hv
  | ok v =>
    have heq : parseFilter asU64 fromStr s = (parseExpr asU64 v 0).map Filter.mk := by
      rw [parseFilter, hs]
      change (parseExpr asU64 v 0).bind (fun e => .ok (Filter.mk e)) = _
      cases parseExpr asU64 v 0 <;> rfl
    rw [heq]
    constructor
    · rintro ⟨f, hf⟩
      cases hv : parseExpr asU64 v 0 with
      | error e =>
        rw [hv] at hf
        cases hf
      | ok e => exact ⟨v, maxFilterDepth, rfl, Nat.le_refl _,
          ((sound asU64 v).filter (Nat.zero_add _) hv).1⟩
    · rintro ⟨w, n, hw, hn, hfits⟩
      obtain rfl := Except.ok.inj hw
      have haccepts : Accepts asU64 0 v .filter := accepts_of_fits hfits (by omega)
      obtain ⟨e, he⟩ := haccepts
      refine ⟨⟨e⟩, ?_⟩
      rw [he]
      rfl

/-- At every depth that the parser reaches, each of its functions accepts what fits the grammar
within the levels that are left, and nothing else. A filter that it returns is no higher than they
allow. Evaluating a filter on a document never panics, and says what its conditions say. -/
theorem filter_parsing (asU64 : N → Option ℕ) :
    (∀ (part : Part) (v : Json N) (depth : ℕ), depth ≤ maxFilterDepth →
      (Accepts asU64 depth v part ↔ ∃ n, depth + n ≤ maxFilterDepth ∧ Fits asU64 part n v)) ∧
    (∀ (v : Json N) (depth : ℕ), maxFilterDepth < depth →
      ¬Accepts asU64 depth v .filter ∧ ¬Accepts asU64 depth v .condition) ∧
    (∀ (v : Json N) (depth : ℕ) (e : Expr N), parseExpr asU64 v depth = .ok e →
      e.height ≤ 4 * (maxFilterDepth - depth) + 4) ∧
    ∀ (e : Expr N) (doc : Json N), runExpr e doc = some (e.eval doc) := by
  refine ⟨fun part v depth hdepth => ⟨fun h => ?_, fun ⟨n, hn, h⟩ => accepts_of_fits h hn⟩,
    fun v depth hdepth => ?_, fun v depth e h => ?_, runExpr_eq⟩
  · have hd : depth + (maxFilterDepth - depth) = maxFilterDepth := by omega
    refine ⟨maxFilterDepth - depth, hd.le, ?_⟩
    cases part with
    | filter =>
      obtain ⟨e, he⟩ := h
      exact ((sound asU64 v).filter hd he).1
    | member key =>
      obtain ⟨e, he⟩ := h
      exact (fits_of_parseMember (fun w _ => sound asU64 w) hd he).1
    | branches =>
      obtain ⟨parts, hparts⟩ := h .and
      exact (fits_of_parseBranches (fun w _ => sound asU64 w) hd hparts).1
    | condition =>
      obtain ⟨c, hc⟩ := h []
      exact ((sound asU64 v).condition hd hc).1
    | operand op =>
      obtain ⟨o, ho⟩ := h []
      exact (fits_of_parseOp (sound asU64 v) hd ho).1
    | element =>
      obtain ⟨p, hp⟩ := h []
      exact (fits_of_parseElemMatch (sound asU64 v) hd hp).1
  · constructor
    · rintro ⟨e, he⟩
      exact absurd (le_of_parseExpr he) (Nat.not_le_of_lt hdepth)
    · intro h
      obtain ⟨c, hc⟩ := h []
      exact absurd (le_of_parseCondition hc) (Nat.not_le_of_lt hdepth)
  · have hdepth := le_of_parseExpr h
    exact ((sound asU64 v).filter (by omega) h).2

end Evaluation

end DewDB.QueryFilter
