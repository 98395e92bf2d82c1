import DewDB.QueryFilter

/-!
# Parsing filters

A filter comes as a JSON document. `$and`, `$or` and `$nor` hold filters, `$not` holds a condition,
and `$elemMatch` holds either, so the functions of the parser call each other. Each such step goes
one deeper, and both functions that can be reached by it refuse to start below the maximum. A number
is read as a count by `asU64`.
-/
namespace DewDB.QueryFilter

open JsonValue

variable {N : Type}

def maxFilterDepth : ℕ := 16

inductive DocOp where
  | and
  | or
  | nor
  deriving DecidableEq

def DocOp.name : DocOp → String
  | .and => "$and"
  | .or => "$or"
  | .nor => "$nor"

def DocOp.ofName (name : List Char) : Option DocOp :=
  [.and, .or, .nor].find? fun op => op.name.toList = name

def DocOp.expr : DocOp → List (Expr N) → Expr N
  | .and, parts => .all parts
  | .or, parts => .any parts
  | .nor, parts => .nor parts

inductive FieldOp where
  | eq
  | ne
  | inList
  | nin
  | gt
  | gte
  | lt
  | lte
  | existing
  | type
  | hasPrefix
  | hasSuffix
  | contains
  | all
  | size
  | elemMatch
  | not
  deriving DecidableEq

def FieldOp.name : FieldOp → String
  | .eq => "$eq"
  | .ne => "$ne"
  | .inList => "$in"
  | .nin => "$nin"
  | .gt => "$gt"
  | .gte => "$gte"
  | .lt => "$lt"
  | .lte => "$lte"
  | .existing => "$exists"
  | .type => "$type"
  | .hasPrefix => "$prefix"
  | .hasSuffix => "$suffix"
  | .contains => "$contains"
  | .all => "$all"
  | .size => "$size"
  | .elemMatch => "$elemMatch"
  | .not => "$not"

def fieldOps : List FieldOp :=
  [.eq, .ne, .inList, .nin, .gt, .gte, .lt, .lte, .existing, .type, .hasPrefix, .hasSuffix,
    .contains, .all, .size, .elemMatch, .not]

def FieldOp.ofName (name : List Char) : Option FieldOp :=
  fieldOps.find? fun op => op.name.toList = name

def JsonKind.name : JsonKind → String
  | .null => "null"
  | .bool => "bool"
  | .number => "number"
  | .string => "string"
  | .array => "array"
  | .object => "object"

def typeNames : List JsonKind := [.null, .bool, .number, .string, .array, .object]

def JsonKind.parse (name : List Char) : Option JsonKind :=
  typeNames.find? fun kind => kind.name.toList = name

inductive FilterError (N : Type) where
  | json (e : String)
  | nesting
  | filter
  | docOp (name : List Char)
  | branches (op : DocOp)
  | mixed (field : List Char)
  | list (op : FieldOp) (field : List Char)
  | text (op : FieldOp) (field : List Char)
  | bound (op : FieldOp) (field : List Char)
  | existing (field : List Char)
  | typeName (field : List Char) (got : Json N)
  | typeOperand (field : List Char)
  | noType (field : List Char)
  | unknownType (name field : List Char)
  | size (field : List Char)
  | elemMatch (field : List Char)
  | not (field : List Char)
  | fieldOp (name field : List Char)
  | ranges (field : List Char)

/-- The text of an error, where `json` writes a value. -/
def FilterError.message (json : Json N → String) : FilterError N → String
  | .json e => s!"filter must be a JSON object: {e}"
  | .nesting => s!"filter nests deeper than the maximum of {maxFilterDepth}"
  | .filter => "filter must be a JSON object"
  | .docOp name => s!"unsupported document operator `{String.ofList name}`; supported: $and, $or, $nor"
  | .branches op => s!"`{op.name}` requires a non-empty array of filters"
  | .mixed field => s!"condition on `{String.ofList field}` mixes operators with literal keys"
  | .list op field => s!"`{op.name}` on `{String.ofList field}` requires an array"
  | .text op field => s!"`{op.name}` on `{String.ofList field}` requires a string"
  | .bound op field => s!"`{op.name}` on `{String.ofList field}` requires a number or a string"
  | .existing field => s!"`$exists` on `{String.ofList field}` requires a boolean"
  | .typeName field got =>
      s!"`$type` on `{String.ofList field}` requires type names; got {json got}"
  | .typeOperand field =>
      s!"`$type` on `{String.ofList field}` requires a type name or an array of them"
  | .noType field => s!"`$type` on `{String.ofList field}` names no type"
  | .unknownType name field =>
    s!"unknown type `{String.ofList name}` on `{String.ofList field}`; supported: " ++
      ", ".intercalate (typeNames.map JsonKind.name)
  | .size field => s!"`$size` on `{String.ofList field}` requires a non-negative integer"
  | .elemMatch field => s!"`$elemMatch` on `{String.ofList field}` requires an object"
  | .not field => s!"`$not` on `{String.ofList field}` requires an operator object"
  | .fieldOp name field =>
    s!"unsupported operator `{String.ofList name}` on `{String.ofList field}`; supported: " ++
      ", ".intercalate (fieldOps.map FieldOp.name)
  | .ranges field => s!"range bounds on `{String.ofList field}` mix types; " ++
      "all of $gt/$gte/$lt/$lte must compare the same kind"

def isOperator (key : List Char) : Bool := key.head? = some '$'

section Operands

variable (op : FieldOp) (field : List Char) (operand : Json N)

def parseList : Except (FilterError N) (List (Json N)) :=
  match operand with
  | .arr vs => .ok vs
  | _ => .error (.list op field)

def parseText : Except (FilterError N) (List Char) :=
  match operand with
  | .str s => .ok s
  | _ => .error (.text op field)

def parseBound : Except (FilterError N) (Json N) :=
  match operand with
  | .num n => .ok (.num n)
  | .str s => .ok (.str s)
  | _ => .error (.bound op field)

def parseTypeName (v : Json N) : Except (FilterError N) (List Char) :=
  match v with
  | .str s => .ok s
  | v => .error (.typeName field v)

/-- The names in the operand of `$type`. -/
def parseTypeNames : Except (FilterError N) (List (List Char)) :=
  match operand with
  | .str s => .ok [s]
  | .arr vs => vs.mapM (parseTypeName field)
  | _ => .error (.typeOperand field)

def parseKind (name : List Char) : Except (FilterError N) JsonKind :=
  match JsonKind.parse name with
  | some kind => .ok kind
  | none => .error (.unknownType name field)

def parseTypes : Except (FilterError N) (List JsonKind) := do
  let names ← parseTypeNames field operand
  if names.isEmpty then .error (.noType field) else names.mapM (parseKind field)

/-- A count has to fit a `usize`. -/
def parseSize (asU64 : N → Option ℕ) : Except (FilterError N) ℕ :=
  match operand with
  | .num n =>
    match asU64 n with
    | some k => if k < 2 ^ 64 then .ok k else .error (.size field)
    | none => .error (.size field)
  | _ => .error (.size field)

end Operands

def Op.bound : Op N → Option (Json N)
  | .gt v => some v
  | .gte v => some v
  | .lt v => some v
  | .lte v => some v
  | _ => none

/-- The loop of `check_range_agreement`, with the kind seen so far. -/
def checkRangeAgreement (field : List Char) : Option JsonKind → List (Op N) → Except
    (FilterError N) Unit
  | _, [] => .ok ()
  | kind, op :: ops =>
    match op.bound with
    | none => checkRangeAgreement field kind ops
    | some operand =>
      match kind with
      | some seen =>
        if seen ≠ .ofValue operand then .error (.ranges field)
        else checkRangeAgreement field (some (.ofValue operand)) ops
      | none => checkRangeAgreement field (some (.ofValue operand)) ops

theorem sizeOf_member {m : List Char × Json N} {members : List (List Char × Json N)}
    (h : m ∈ members) : sizeOf m.2 < sizeOf (Json.obj members) := by
  have hm := List.sizeOf_lt_of_mem h
  have : sizeOf m = 1 + sizeOf m.1 + sizeOf m.2 := rfl
  have := Json.obj.sizeOf_spec members
  omega

theorem sizeOf_elem {v : Json N} {elems : List (Json N)} (h : v ∈ elems) : sizeOf v < sizeOf
    (Json.arr elems) := by
  have hv := List.sizeOf_lt_of_mem h
  have := Json.arr.sizeOf_spec elems
  omega

variable (asU64 : N → Option ℕ)

mutual

def parseExpr (value : Json N) (depth : ℕ) : Except (FilterError N) (Expr N) :=
  if maxFilterDepth < depth then .error .nesting
  else
    match value with
    | .obj map => .all <$> map.mapM fun m => parseMember m.1 m.2 depth
    | _ => .error .filter
termination_by (sizeOf value, 0)
decreasing_by exact Prod.Lex.left _ _ (sizeOf_member ‹_›)

/-- One member of the document in the loop of `parse_expr`. -/
def parseMember (key : List Char) (operand : Json N) (depth : ℕ) : Except
    (FilterError N) (Expr N) :=
  match DocOp.ofName key with
  | some op => op.expr <$> parseBranches op operand depth
  | none =>
    if isOperator key then .error (.docOp key)
    else .field key <$> parseCondition key operand depth
termination_by (sizeOf operand, 2)

def parseBranches (op : DocOp) (operand : Json N) (depth : ℕ) : Except (FilterError N)
    (List (Expr N)) :=
  match operand with
  | .arr arr => if arr.isEmpty then .error (.branches op) else arr.mapM fun b =>
      parseExpr b (depth + 1)
  | _ => .error (.branches op)
termination_by (sizeOf operand, 1)
decreasing_by exact Prod.Lex.left _ _ (sizeOf_elem ‹_›)

def parseCondition (field : List Char) (cond : Json N) (depth : ℕ) : Except (FilterError N)
    (Condition N) :=
  if maxFilterDepth < depth then .error .nesting
  else
    match cond with
    | .obj map =>
      let ops := map.countP fun m => isOperator m.1
      -- An object with no operators is a literal.
      if ops = 0 then .ok (.mk [.eq (.obj map)])
      else if ops ≠ map.length then .error (.mixed field)
      else do
        let parsed ← map.mapM fun m => parseOp field m.1 m.2 depth
        checkRangeAgreement field none parsed
        return .mk parsed
    | cond => .ok (.mk [.eq cond])
termination_by (sizeOf cond, 0)
decreasing_by exact Prod.Lex.left _ _ (sizeOf_member ‹_›)

def parseOp (field op : List Char) (operand : Json N) (depth : ℕ) : Except (FilterError N) (Op N) :=
  match FieldOp.ofName op with
  | none => .error (.fieldOp op field)
  | some .eq => .ok (.eq operand)
  | some .ne => .ok (.ne operand)
  | some .inList => .inList <$> parseList .inList field operand
  | some .nin => .nin <$> parseList .nin field operand
  | some .gt => .gt <$> parseBound .gt field operand
  | some .gte => .gte <$> parseBound .gte field operand
  | some .lt => .lt <$> parseBound .lt field operand
  | some .lte => .lte <$> parseBound .lte field operand
  | some .existing =>
    match operand with
    | .bool want => .ok (.existing want)
    | _ => .error (.existing field)
  | some .type => .type <$> parseTypes field operand
  | some .hasPrefix => .hasPrefix <$> parseText .hasPrefix field operand
  | some .hasSuffix => .hasSuffix <$> parseText .hasSuffix field operand
  | some .contains => .contains <$> parseText .contains field operand
  | some .all => .all <$> parseList .all field operand
  | some .size => .size <$> parseSize field operand asU64
  | some .elemMatch => .elemMatch <$> parseElemMatch field operand depth
  | some .not =>
    match operand with
    | .obj inner =>
      if (inner.all fun m => isOperator m.1) ∧ ¬inner.isEmpty then
        .not <$> parseCondition field (.obj inner) (depth + 1)
      else .error (.not field)
    | _ => .error (.not field)
termination_by (sizeOf operand, 2)

def parseElemMatch (field : List Char) (operand : Json N) (depth : ℕ) : Except (FilterError N)
    (ElemPredicate N) :=
  match operand with
  | .obj map =>
    if map.any fun m => isOperator m.1 then .ops <$> parseCondition field (.obj map) (depth + 1)
    else .doc <$> parseExpr (.obj map) (depth + 1)
  | _ => .error (.elemMatch field)
termination_by (sizeOf operand, 1)

end

/-- A filter as a request brings it, where `fromStr` reads JSON. -/
def parseFilter (fromStr : String → Except String (Json N)) (s : String) : Except (FilterError N)
    (Filter N) := do
  let value ← (fromStr s).mapError .json
  return ⟨← parseExpr asU64 value 0⟩

end DewDB.QueryFilter
