import Meldbase.Database.Mutation
import Meldbase.Library.KeyedList

/-! # Access policies

What a policy lets a caller filter, sort, update and see, how two policies are
combined, and how a policy is applied to a request.  Lookup sets are optional
lists: the source tells a nil map from an empty one.  The order of such a list is
the order in which the source happens to range over the map.
-/
namespace Meldbase.Server
open Database KeyedList

inductive PolicyError where
  | forbidden
  deriving DecidableEq

/-! ### Filter capabilities -/

/-- Operation names: `eq`, `ne`, `gt`, `gte`, `lt`, `lte`. -/
def compareName : CompareOp → Bytes
  | .eq => [0x65,0x71]
  | .ne => [0x6e,0x65]
  | .gt => [0x67,0x74]
  | .gte => [0x67,0x74,0x65]
  | .lt => [0x6c,0x74]
  | .lte => [0x6c,0x74,0x65]

/-- Operation names: `in`, `nin`. -/
def membershipName : MembershipOp → Bytes
  | .isIn => [0x69,0x6e]
  | .notIn => [0x6e,0x69,0x6e]

/-- A field and predicate operation for authorization. -/
structure FilterCapability where
  (path operator : Bytes)
  deriving DecidableEq

mutual
/-- The field and predicate-operation pairs of a filter; the named operations
are `exists`, `size`, `type`, `all` and `elem_match`. -/
def collectFilterCapabilities : Expr → List FilterCapability
  | .true => []
  | .logical _ args => collectAllCapabilities args
  | .not arg => collectFilterCapabilities arg
  | .compare op path _ => [⟨path,compareName op⟩]
  | .membership op path _ => [⟨path,membershipName op⟩]
  | .exists path _ => [⟨path,[0x65,0x78,0x69,0x73,0x74,0x73]⟩]
  | .size path _ => [⟨path,[0x73,0x69,0x7a,0x65]⟩]
  | .type path _ => [⟨path,[0x74,0x79,0x70,0x65]⟩]
  | .all path _ => [⟨path,[0x61,0x6c,0x6c]⟩]
  | .elemMatchScalar path _ => [⟨path,[0x65,0x6c,0x65,0x6d,0x5f,0x6d,0x61,0x74,0x63,0x68]⟩]
  | .elemMatchObject path _ => [⟨path,[0x65,0x6c,0x65,0x6d,0x5f,0x6d,0x61,0x74,0x63,0x68]⟩]
def collectAllCapabilities : List Expr → List FilterCapability
  | [] => []
  | e::es => collectFilterCapabilities e ++ collectAllCapabilities es

end

variable (q : ClientQuery)

/-- The source returns them distinct and sorted; its caller only tests each one. -/
def filterCapabilities : List FilterCapability := collectFilterCapabilities q.whereExpr
def sortPaths : List Bytes := q.sort.map SortField.path

/-! ### Policies -/

/-- Whether a lookup set holds a string; a nil set holds none. -/
def has (set : Option (List Bytes)) (s : Bytes) : Bool := s ∈ set.getD []

structure OperatorGrants where
  entries : List (Bytes × Option (List Bytes))
  distinct : (keys entries).Nodup

/-- The path `*`. -/
def wildcard : Bytes := [0x2a]
def OperatorGrants.forPath (grants : OperatorGrants) (path : Bytes) : Option (List Bytes) :=
  match find path grants.entries with
  | some operators => operators
  | none => (find wildcard grants.entries).getD none

structure QueryPolicyLease where
  identity : ℕ
  version : Bytes
  deriving DecidableEq

structure QueryPolicy where
  policyVersion : Bytes
  lease : Option QueryPolicyLease
  constraint : Option ClientQuery
  maxResults : ℕ
  allowAllQueryPaths : Bool
  allowedQueryPaths : Option (List Bytes)
  allowAllFilterPaths : Bool
  allowedFilterPaths : Option (List Bytes)
  allowAllFilterOperators : Bool
  allowedFilterOperators : Option OperatorGrants
  allowAllSortPaths : Bool
  allowedSortPaths : Option (List Bytes)
  allowAllAggregateFields : Bool
  allowedAggregateFields : Option (List Bytes)
  allowAllResultFields : Bool
  allowedResultFields : Option (List Bytes)
  additionalLease : Option QueryPolicyLease
  compositeLeases : Bool

/-- Row selection with writable paths and an affected-document limit. -/
structure UpdatePolicy extends QueryPolicy where
  allowAllUpdatePaths : Bool
  (allowedUpdatePaths deniedUpdatePaths : Option (List Bytes))
  maxAffected : ℕ

structure DeletePolicy extends QueryPolicy where
  maxAffected : ℕ

/-- Accepted input fields, server-owned field values and permitted result fields. -/
structure InsertPolicy where
  allowAllInputFields : Bool
  allowedInputFields : Option (List Bytes)
  setFields : Document
  allowAllResultFields : Bool
  allowedResultFields : Option (List Bytes)

def validPolicyVersion (version : Bytes) : Bool := !version.isEmpty && version.length ≤ 128 && validUTF8 version

/-! ### Query permissions -/

def pathAllowed (all : Bool) (allowed : Option (List Bytes)) (path : Bytes) (policy : QueryPolicy) : Bool :=
  all || policy.allowAllQueryPaths || has (if allowed = none then policy.allowedQueryPaths else allowed) path

variable (path : Bytes) (policy : QueryPolicy)

def filterPathAllowed : Bool := pathAllowed policy.allowAllFilterPaths policy.allowedFilterPaths path policy
def filterOperatorAllowed (operator : Bytes) (policy : QueryPolicy) : Bool :=
  policy.allowAllFilterOperators ||
    match policy.allowedFilterOperators with
    | none => true
    | some grants => has (grants.forPath path) operator
def sortPathAllowed : Bool := pathAllowed policy.allowAllSortPaths policy.allowedSortPaths path policy
def queryAllowed : Bool :=
  (filterCapabilities q).all (fun capability => capability.path = idField ||
    filterPathAllowed capability.path policy && filterOperatorAllowed capability.path capability.operator policy) &&
  (sortPaths q).all (fun path => path = idField || sortPathAllowed path policy)
def resultPathAllowed (allowed : Option (List Bytes)) : Bool :=
  (allowed.getD []).any (fun candidate => covers candidate path)

section
variable (wireBytes : ClientQuery → ℕ)
variable (q : ClientQuery) (policy : QueryPolicy)

def constrained : ClientQuery :=
  match policy.constraint with
  | none => q
  | some constraint => q.constrain constraint
def leaseAccepted : Bool :=
  policy.lease.all (fun lease => validPolicyVersion lease.version &&
    (policy.compositeLeases || lease.version = policy.policyVersion)) &&
  policy.additionalLease.all (fun lease => validPolicyVersion lease.version)

/-- Validates query permissions and applies the row constraint and result cap. -/
def applyPolicy : Except PolicyError ClientQuery :=
  if !validPolicyVersion policy.policyVersion || !leaseAccepted policy then .error .forbidden
  else if policy.maxResults = 0 || defaultQueryLimits.maxLimit < policy.maxResults then .error .forbidden
  else if !queryAllowed q policy then .error .forbidden
  else if q.seek && !policy.allowAllResultFields &&
      !(sortPaths q).all (fun path => path = idField || resultPathAllowed path policy.allowedResultFields) then
    .error .forbidden
  else
    let query := (constrained q policy).capped policy.maxResults
    if query.validate wireBytes then .ok query else .error .forbidden
def applyMutationQueryPolicy (maxAffected : ℕ) : Except PolicyError ClientQuery :=
  if maxAffected = 0 || defaultQueryLimits.maxLimit < maxAffected then .error .forbidden
  else if !queryAllowed q policy then .error .forbidden
  else
    let query := constrained q policy
    if query.validate wireBytes then .ok query else .error .forbidden
def policyPathDenied (path : Bytes) (denied : Option (List Bytes)) : Bool :=
  (denied.getD []).any (fun ancestor => covers ancestor path)
def applyUpdatePolicy (mutation : MutationSpec) (policy : UpdatePolicy) : Except PolicyError ClientQuery :=
  if mutation.paths.any (fun path => policyPathDenied path policy.deniedUpdatePaths) then .error .forbidden
  else if !policy.allowAllUpdatePaths && !mutation.paths.all (has policy.allowedUpdatePaths) then .error .forbidden
  else applyMutationQueryPolicy wireBytes q policy.toQueryPolicy policy.maxAffected
def applyDeletePolicy (policy : DeletePolicy) : Except PolicyError ClientQuery :=
  applyMutationQueryPolicy wireBytes q policy.toQueryPolicy policy.maxAffected

/-! ### Combining policies -/

def intersectStringSets (firstAll : Bool) (first : Option (List Bytes)) (secondAll : Bool) (second : Option (List Bytes)) :
    Option (List Bytes) :=
  if firstAll then second else if secondAll then first else some ((first.getD []).filter (has second))
def effectivePaths (all : Bool) (allowed : Option (List Bytes)) (policy : QueryPolicy) : Bool × Option (List Bytes) :=
  if all || policy.allowAllQueryPaths then (true,none)
  else if allowed ≠ none then (false,allowed)
  else (false,policy.allowedQueryPaths)
def effectiveFilterPaths : Bool × Option (List Bytes) :=
  effectivePaths policy.allowAllFilterPaths policy.allowedFilterPaths policy
def effectiveSortPaths : Bool × Option (List Bytes) :=
  effectivePaths policy.allowAllSortPaths policy.allowedSortPaths policy

variable (additional : OperatorGrants)

/-- One entry of the base policy; it is dropped when nothing is left of it. -/
def intersectEntry (entry : Bytes × Option (List Bytes)) : Option (Bytes × Option (List Bytes)) :=
  match additional.forPath entry.1 with
  | none => none
  | some operators =>
    let common := (entry.2.getD []).filter (has (some operators))
    if common = [] then none else some (entry.1,some common)

theorem intersectEntry_path {additional : OperatorGrants}
    (h : intersectEntry additional entry = some e) : e.1 = entry.1 := by
  unfold intersectEntry at h
  split at h
  · cases h
  dsimp only at h
  split_ifs at h
  cases h
  rfl

theorem intersectEntries_keys (entries : List (Bytes × Option (List Bytes))) :
    (keys (entries.filterMap (intersectEntry additional))).Sublist (keys entries) := by
  induction entries with
  | nil => exact List.Sublist.slnil
  | cons entry rest ih =>
    rw [List.filterMap_cons]
    split
    · exact ih.cons _
    rename_i e he
    rw [keys_cons,keys_cons,intersectEntry_path he]
    exact ih.cons_cons _

def intersectGrants (base additional : OperatorGrants) : OperatorGrants where
  entries := base.entries.filterMap (intersectEntry additional)
  distinct := (intersectEntries_keys additional base.entries).nodup base.distinct
def intersectFilterOperators (base additional : QueryPolicy) : Bool × Option OperatorGrants :=
  match (if base.allowAllFilterOperators then none else base.allowedFilterOperators),
      (if additional.allowAllFilterOperators then none else additional.allowedFilterOperators) with
  | none,none => (true,none)
  | none,some grants => (false,some grants)
  | some grants,none => (false,some grants)
  | some grants,some others => (false,some (intersectGrants grants others))
def intersectConstraints (base additional : Option ClientQuery) : Except PolicyError (Option ClientQuery) :=
  match base,additional with
  | some b,some a => if (b.constrain a).validate wireBytes then .ok (some (b.constrain a)) else .error .forbidden
  | some b,none => .ok (some b)
  | none,some a => .ok (some a)
  | none,none => .ok none

/-- Combines two policies; `digest` names the pair of versions. -/
def intersectQueryPolicies (digest : Bytes → Bytes) (base additional : QueryPolicy) : Except PolicyError QueryPolicy :=
  if !validPolicyVersion base.policyVersion || !validPolicyVersion additional.policyVersion then .error .forbidden
  else
    let baseFilter := effectiveFilterPaths base
    let additionalFilter := effectiveFilterPaths additional
    let baseSort := effectiveSortPaths base
    let additionalSort := effectiveSortPaths additional
    let operators := intersectFilterOperators base additional
    match intersectConstraints wireBytes base.constraint additional.constraint with
    | .error e => .error e
    | .ok constraint => .ok
      { policyVersion := digest (base.policyVersion ++ [0] ++ additional.policyVersion)
        lease := if base.lease = none then additional.lease else base.lease
        constraint := constraint
        maxResults := min base.maxResults additional.maxResults
        allowAllQueryPaths := base.allowAllQueryPaths && additional.allowAllQueryPaths
        allowedQueryPaths := intersectStringSets base.allowAllQueryPaths base.allowedQueryPaths
          additional.allowAllQueryPaths additional.allowedQueryPaths
        allowAllFilterPaths := baseFilter.1 && additionalFilter.1
        allowedFilterPaths := intersectStringSets baseFilter.1 baseFilter.2 additionalFilter.1 additionalFilter.2
        allowAllFilterOperators := operators.1
        allowedFilterOperators := operators.2
        allowAllSortPaths := baseSort.1 && additionalSort.1
        allowedSortPaths := intersectStringSets baseSort.1 baseSort.2 additionalSort.1 additionalSort.2
        allowAllAggregateFields := base.allowAllAggregateFields && additional.allowAllAggregateFields
        allowedAggregateFields := intersectStringSets base.allowAllAggregateFields base.allowedAggregateFields
          additional.allowAllAggregateFields additional.allowedAggregateFields
        allowAllResultFields := base.allowAllResultFields && additional.allowAllResultFields
        allowedResultFields := intersectStringSets base.allowAllResultFields base.allowedResultFields
          additional.allowAllResultFields additional.allowedResultFields
        additionalLease := if base.lease ≠ none ∧ additional.lease ≠ base.lease then additional.lease else none
        compositeLeases := true }

end

/-! ### Projection -/

def projectPath (destination source : Document) : List Bytes → Document
  | [] => destination
  | field::path =>
    match lookupField source field,path with
    | none,_ => destination
    | some v,[] => putField destination field v
    | some (.object child),_ =>
      let projected := projectPath [] child path
      if projected.isEmpty then destination else putField destination field (.object projected)
    | some _,_ => destination

variable (d : Document)

def projectID : Document :=
  match lookupField d idField with
  | none => []
  | some id => [(idField,id)]
def projectFields (allowAll : Bool) (allowedFields : Option (List Bytes)) : Document :=
  if allowAll then d
  else (allowedFields.getD []).foldl
    (fun result field => if field ≠ idField then projectPath result d (splitPath field) else result) (projectID d)
end Meldbase.Server
