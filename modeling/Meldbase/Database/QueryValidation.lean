import Meldbase.Database.Query

/-! # Query limits

The checks that every compiled query passes before it runs: the shape of its
expressions, the size of its operands and of its encoding.
-/
namespace Meldbase.Database

structure QueryLimits where
  (maxWireBytes maxDepth maxNodes maxArrayItems maxValueBytes maxSortFields maxLimit : ℕ)

def defaultQueryLimits : QueryLimits := ⟨2 ^ 20,16,128,256,16384,4,10000⟩
def maxQueryArraySize : ℕ := 2 ^ 53 - 1
def canonicalQueryTypes : List Kind := [.null,.bool,.int64,.float64,.string,.time,.id,.binary,.array,.object]
def validatePath (path : Bytes) : Bool := !path.isEmpty && path.length ≤ 512 && (splitPath path).all validField

structure ClientQuery extends QuerySpec where
  seek : Bool

def ClientQuery.hasModifiers (q : ClientQuery) : Bool := q.sort ≠ [] || q.skip ≠ 0 || q.limit.isSome

/-- Adds a required row predicate while preserving sorting and pagination. -/
def ClientQuery.constrain (q policy : ClientQuery) : ClientQuery :=
  { q with whereExpr := .logical .and [policy.whereExpr,q.whereExpr] }

/-- Applies a result cap. -/
def ClientQuery.capped (q : ClientQuery) (max : ℕ) : ClientQuery :=
  { q with limit := some (match q.limit with
      | none => max
      | some limit => if max < limit then max else limit) }

/-! ### Operands -/

mutual
def wireValueBytes : Value → ℕ
  | .null => 1
  | .bool _ => 1
  | .int _ => 8
  | .float _ => 8
  | .time _ => 8
  | .id _ => 16
  | .string s => s.length
  | .binary b => b.length
  | .array items => wireItemsBytes items
  | .object fields => wireFieldsBytes fields
def wireItemsBytes : List Value → ℕ
  | [] => 0
  | v::rest => wireValueBytes v + wireItemsBytes rest
def wireFieldsBytes : Document → ℕ
  | [] => 0
  | (name,v) :: rest => name.length + wireValueBytes v + wireFieldsBytes rest

end

mutual
def QueryLimits.value (limits : QueryLimits) (depth : ℕ) : Value → Bool
  | .float f => depth ≤ limits.maxDepth && f.isFinite
  | .string s => depth ≤ limits.maxDepth && validUTF8 s
  | .array items => depth ≤ limits.maxDepth && items.length ≤ limits.maxArrayItems && QueryLimits.items limits (depth+1) items
  | .object fields =>
    depth ≤ limits.maxDepth && fields.length ≤ limits.maxArrayItems && QueryLimits.fields limits (depth+1) fields
  | _ => depth ≤ limits.maxDepth
def QueryLimits.items (limits : QueryLimits) (depth : ℕ) : List Value → Bool
  | [] => true
  | v::rest => QueryLimits.value limits depth v && QueryLimits.items limits depth rest
def QueryLimits.fields (limits : QueryLimits) (depth : ℕ) : Document → Bool
  | [] => true
  | (name,v) :: rest => validField name && QueryLimits.value limits depth v && QueryLimits.fields limits depth rest

end

def QueryLimits.operand (limits : QueryLimits) (path : Bytes) (value : Value) : Bool :=
  validatePath path && (path ≠ idField || value.kind = .id) && limits.value 0 value &&
    wireValueBytes value ≤ limits.maxValueBytes
def normalizeQueryTypes (types : List Kind) : List Kind := canonicalQueryTypes.filter (fun kind => kind ∈ types)
def containsQueryValue (values : List Value) (candidate : Value) : Bool := values.any (fun value => value.equal candidate)
def QueryLimits.distinctOperands (limits : QueryLimits) (path : Bytes) : List Value → List Value → Bool
  | _,[] => true
  | earlier,v::rest =>
    limits.operand path v && !containsQueryValue earlier v && limits.distinctOperands path (earlier ++ [v]) rest

/-! ### Expressions -/

mutual
def QueryLimits.elementExpression (limits : QueryLimits) (depth nodes : ℕ) : ElementExpr → Option ℕ
  | .logical _ args =>
    if limits.maxDepth < depth ∨ limits.maxNodes < nodes+1 ∨ args = [] ∨ limits.maxArrayItems < args.length then none
    else QueryLimits.elementExpressions limits (depth+1) (nodes+1) args
  | .not arg =>
    if limits.maxDepth < depth ∨ limits.maxNodes < nodes+1 then none
    else QueryLimits.elementExpression limits (depth+1) (nodes+1) arg
  | .compare _ value =>
    if limits.maxDepth < depth ∨ limits.maxNodes < nodes+1 ∨ !limits.value 0 value then none else some (nodes+1)
  | .membership _ values =>
    if limits.maxDepth < depth ∨ limits.maxNodes < nodes+1 ∨ limits.maxArrayItems < values.length ∨
        !values.all (limits.value 0) then none
    else some (nodes+1)
def QueryLimits.elementExpressions (limits : QueryLimits) (depth nodes : ℕ) : List ElementExpr → Option ℕ
  | [] => some nodes
  | e::es => do
    let nodes ← QueryLimits.elementExpression limits depth nodes e
    QueryLimits.elementExpressions limits depth nodes es

end

mutual
/-- A document predicate and its nested conditions; the result is the count of
nodes so far. -/
def QueryLimits.expression (limits : QueryLimits) (depth nodes : ℕ) : Expr → Option ℕ
  | .logical _ args =>
    if limits.maxDepth < depth ∨ limits.maxNodes < nodes+1 ∨ args = [] ∨ limits.maxArrayItems < args.length then none
    else QueryLimits.expressions limits (depth+1) (nodes+1) args
  | .not arg =>
    if limits.maxDepth < depth ∨ limits.maxNodes < nodes+1 then none
    else QueryLimits.expression limits (depth+1) (nodes+1) arg
  | .elemMatchScalar path scalar =>
    if limits.maxDepth < depth ∨ limits.maxNodes < nodes+1 ∨ !validatePath path then none
    else limits.elementExpression (depth+1) (nodes+1) scalar
  | .elemMatchObject path object =>
    if limits.maxDepth < depth ∨ limits.maxNodes < nodes+1 ∨ !validatePath path then none
    else QueryLimits.expression limits (depth+1) (nodes+1) object
  | e =>
    if limits.maxDepth < depth ∨ limits.maxNodes < nodes+1 ∨ !leaf e then none else some (nodes+1)
where
  leaf : Expr → Bool
    | .compare _ path value => limits.operand path value
    | .membership _ path values => values.length ≤ limits.maxArrayItems && values.all (limits.operand path)
    | .exists path _ => validatePath path
    | .size path size => validatePath path && size ≤ maxQueryArraySize
    | .type path types =>
      validatePath path && !types.isEmpty && types.length ≤ limits.maxArrayItems && normalizeQueryTypes types = types
    | .all path values =>
      validatePath path && !values.isEmpty && values.length ≤ limits.maxArrayItems && limits.distinctOperands path [] values
    | _ => true
def QueryLimits.expressions (limits : QueryLimits) (depth nodes : ℕ) : List Expr → Option ℕ
  | [] => some nodes
  | e::es => do
    let nodes ← QueryLimits.expression limits depth nodes e
    QueryLimits.expressions limits depth nodes es

end

def validateSortFields (fields : List SortField) (limits : QueryLimits) : Bool :=
  fields.length ≤ limits.maxSortFields &&
    fields.all (fun field => validatePath field.path && (field.direction = 1 || field.direction = -1)) &&
    (fields.map SortField.path).Nodup

/-- The encoder's size of a query is a parameter. -/
def validateQuerySpec (wireBytes : ClientQuery → ℕ) (limits : QueryLimits) (q : ClientQuery) : Bool :=
  validateSortFields q.sort limits && q.limit.all (fun limit => limit ≤ limits.maxLimit) &&
    (!q.seek || q.sort ≠ [] && q.limit.isSome) && (limits.expression 0 0 q.whereExpr).isSome && wireBytes q ≤ limits.maxWireBytes
def ClientQuery.validate (wireBytes : ClientQuery → ℕ) (q : ClientQuery) : Bool :=
  validateQuerySpec wireBytes defaultQueryLimits q

end Meldbase.Database
