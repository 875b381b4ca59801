import Meldbase.Database.IndexKey

/-! # Query planning

The access plan of a filter: document ids, or intervals of encoded keys of
secondary indexes, whose entries are then rechecked against the whole filter.
An empty byte string is an open bound, as a nil slice is.  What only `Explain`
reports is left out.
-/
namespace Meldbase.Database

/-! ### What a filter says about one field -/

mutual
def equalityCandidate (path : Bytes) : Expr → Option Value
  | .compare .eq p value => if p = path then some value else none
  | .logical .and args => equalityCandidates path args
  | _ => none
def equalityCandidates (path : Bytes) : List Expr → Option Value
  | [] => none
  | e::es =>
    match equalityCandidate path e with
    | some value => some value
    | none => equalityCandidates path es

end

mutual
/-- Equality or membership values that restrict the field: one conjunct is
enough, and a disjunction needs every branch. -/
def indexValuesCandidateExpr (path : Bytes) : Expr → Option (List Value)
  | .compare .eq p value => if p = path then some [value] else none
  | .membership .isIn p values => if p = path then some values else none
  | .logical .and args => indexValuesConjunct path args
  | .logical .or args => indexValuesDisjunct path args
  | _ => none
def indexValuesConjunct (path : Bytes) : List Expr → Option (List Value)
  | [] => none
  | e::es =>
    match indexValuesCandidateExpr path e with
    | some values => some values
    | none => indexValuesConjunct path es
def indexValuesDisjunct (path : Bytes) : List Expr → Option (List Value)
  | [] => some []
  | e::es =>
    match indexValuesCandidateExpr path e with
    | none => none
    | some values => (indexValuesDisjunct path es).map (values ++ ·)

end

def addEncodedValue (unique : List (Value × Bytes)) (value : Value) : Option (List (Value × Bytes)) :=
  match encodeIndexKey value with
  | none => none
  | some key => some (if unique.any (fun e => e.2 = key) then unique else unique ++ [(value,key)])

variable (expression : Expr)

def encodedIndexValuesCandidate (path : Bytes) : Option (List (Value × Bytes)) := do
  let values ← indexValuesCandidateExpr path expression
  values.foldlM addEncodedValue []
def indexValuesCandidate (path : Bytes) : Option (List Value) :=
  (encodedIndexValuesCandidate expression path).map (fun candidates => candidates.map Prod.fst)

/-- A range endpoint with its inclusion rule. -/
structure IndexBound where
  value : Value
  inclusive : Bool

structure RangeCandidate where
  (lower upper : Option IndexBound)
  found : Bool

def tightenBound (direction : Ordering) (current : Option IndexBound) (candidate : IndexBound) : Option IndexBound :=
  match current with
  | none => some candidate
  | some bound =>
    match compareValues candidate.value bound.value with
    | some comparison =>
      if comparison = direction ∨ comparison = .eq ∧ !candidate.inclusive then some candidate else some bound
    | none => some bound
def visitCompare (op : CompareOp) (value : Value) (range : RangeCandidate) : Option RangeCandidate :=
  if op = .eq ∨ op = .ne then some range
  else if (encodeIndexKey value).isNone then none
  else
    let candidate : IndexBound := ⟨value,op = .gte ∨ op = .lte⟩
    if op = .gt ∨ op = .gte then some { range with lower := tightenBound .gt range.lower candidate, found := true }
    else some { range with upper := tightenBound .lt range.upper candidate, found := true }

mutual
def visitRange (path : Bytes) : Expr → RangeCandidate → Option RangeCandidate
  | .logical .and args,range => visitRanges path args range
  | .compare op p value,range => if p = path then visitCompare op value range else some range
  | _,range => some range
def visitRanges (path : Bytes) : List Expr → RangeCandidate → Option RangeCandidate
  | [],range => some range
  | e::es,range => do
    let range ← visitRange path e range
    visitRanges path es range

end

def rangeCandidate (path : Bytes) : Option (Option IndexBound × Option IndexBound) :=
  match visitRange path expression ⟨none,none,false⟩ with
  | none => none
  | some range => if range.found then some (range.lower,range.upper) else none

/-! ### Key intervals -/

/-- An encoded interval; `exact` marks the interval of one complete key. -/
structure IndexScanSpan where
  (start stop : Bytes)
  exact : Bool
  deriving DecidableEq

/-- The least key above a lower bound; the inner `none` when there is none. -/
def lowerBoundKey : Option IndexBound → Except IndexError (Option Bytes)
  | none => .ok (some [])
  | some bound =>
    match encodeIndexKey bound.value with
    | none => .error .invalidIndex
    | some key => .ok (if bound.inclusive then some key else indexKeyPrefixEnd key)
def upperBoundKey : Option IndexBound → Except IndexError Bytes
  | none => .ok []
  | some bound =>
    match encodeIndexKey bound.value with
    | none => .error .invalidIndex
    | some key => .ok (if bound.inclusive then (indexKeyPrefixEnd key).getD [] else key)

/-- A half-open interval of a single-field index; `none` when it is empty. -/
def storageIndexBounds (lower upper : Option IndexBound) : Except IndexError (Option (Bytes × Bytes)) := do
  match ← lowerBoundKey lower with
  | none => .ok none
  | some start =>
    let stop ← upperBoundKey upper
    if start ≠ [] ∧ stop ≠ [] ∧ stop ≤ start then .ok none else .ok (some (start,stop))

/-- The encodable equalities on the leading fields; `none` when one cannot be encoded. -/
def leadingEqualities (expression : Expr) : List IndexField → Option (List Value)
  | [] => some []
  | f::fs =>
    match equalityCandidate f.field expression with
    | none => some []
    | some value =>
      if (encodeIndexKey value).isNone then none else (leadingEqualities expression fs).map (value :: ·)

variable (leading : Bytes) (next : IndexField)

def boundKey (bound : IndexBound) : Option Bytes :=
  (encodeCompoundIndexKey [bound.value] [next]).map (leading ++ ·)

/-- The start of a compound range; the inner `none` when no key lies above it. -/
def compoundStart : Option IndexBound → Option (Option Bytes)
  | none => some (some (leading ++ [compoundComponentFloor]))
  | some bound => (boundKey leading next bound).map (fun key => if bound.inclusive then some key else indexKeyPrefixEnd key)
def compoundStop : Option IndexBound → Option Bytes
  | none => some ((indexKeyPrefixEnd leading).getD [])
  | some bound =>
    (boundKey leading next bound).map (fun key => if bound.inclusive then (indexKeyPrefixEnd key).getD [] else key)
def compoundRangeBounds (lower upper : Option IndexBound) : Option IndexScanSpan :=
  let physicalLower := if next.order = -1 then upper else lower
  let physicalUpper := if next.order = -1 then lower else upper
  match compoundStart leading next physicalLower with
  | none => none
  | some none => some ⟨[],[],false⟩
  | some (some start) =>
    match compoundStop leading next physicalUpper with
    | none => none
    | some stop => if start ≠ [] ∧ stop ≠ [] ∧ stop ≤ start then some ⟨[],[],false⟩ else some ⟨start,stop,false⟩

variable (definition : IndexDefinition)

/-- A scan interval from leading equalities and the range on the next field;
`⟨[],[],false⟩` stands for an empty or unusable range. -/
def compoundIndexQueryBounds (expression : Expr) : Option IndexScanSpan :=
  if !usesCompoundIndexCodec definition ∨ definition.fields = [] then none
  else match leadingEqualities expression definition.fields with
    | none => none
    | some equalities =>
      match definition.fields.drop equalities.length with
      | [] => (encodeCompoundIndexKey equalities definition.fields).map
          (fun key => ⟨key,(indexKeyPrefixEnd key).getD [],true⟩)
      | next::_ =>
        match (if equalities = [] then some [] else encodeCompoundIndexPrefix equalities definition.fields) with
        | none => none
        | some leading =>
          match rangeCandidate expression next.field with
          | none => if leading = [] then none else some ⟨leading,(indexKeyPrefixEnd leading).getD [],false⟩
          | some (lower,upper) => compoundRangeBounds leading next lower upper

/-- One prefix interval for each allowed value of the first field. -/
def compoundIndexValueSpans (expression : Expr) : Option (List IndexScanSpan) :=
  match definition.fields with
  | [] => none
  | first::_ =>
    if !usesCompoundIndexCodec definition then none
    else do
      let values ← indexValuesCandidate expression first.field
      values.mapM (fun value => do
        let key ← encodeCompoundIndexPrefix [value] definition.fields
        let stop ← indexKeyPrefixEnd key
        some ⟨key,stop,false⟩)

/-! ### Plans -/

structure QueryPlanSource where
  primary : Bool
  definition : IndexDefinition
  ids : List DocumentID
  spans : List IndexScanSpan

structure QueryAccessPlan where
  (usable empty : Bool)
  score : ℕ
  sortCompatible : Bool
  sources : List QueryPlanSource

def primaryAccessScore : ℕ := 2 ^ 20
def emptyAccessScore : ℕ := 2 ^ 21
def QueryAccessPlan.unusable : QueryAccessPlan := ⟨false,false,0,false,[]⟩
def primaryDefinition : IndexDefinition := ⟨idField,[⟨idField,1⟩],false⟩

/-- Each equality adds two points and a range adds one. -/
def indexQueryScoreFields (expression : Expr) : List IndexField → ℕ → ℕ
  | [],score => score
  | f::fs,score =>
    match indexValuesCandidate expression f.field with
    | some values =>
      if values = [] then score+2
      else if values.length ≠ 1 then score+2
      else indexQueryScoreFields expression fs (score+2)
    | none =>
      match rangeCandidate expression f.field with
      | none => score
      | some (lower,upper) =>
        if lower.any (fun b => (encodeIndexKey b.value).isNone) ∨ upper.any (fun b => (encodeIndexKey b.value).isNone) then 0
        else score+1
def indexQueryScore (expression : Expr) : ℕ := indexQueryScoreFields expression definition.fields 0
def indexSortCompatible (q : QuerySpec) : Bool :=
  match q.sort,leadingEqualities q.whereExpr definition.fields with
  | [],_ => false
  | _,none => false
  | sort,some equalities =>
    let following := definition.fields.drop equalities.length
    equalities ≠ [] && sort.length ≤ following.length &&
      (sort.zip following).all (fun (s,f) => s.path = f.field && s.direction = 1 && f.order = 1)
def normalizedSingleSourcePlan (source : QueryPlanSource) (score : ℕ) (q : QuerySpec) : QueryAccessPlan :=
  let empty := source.ids = [] ∧ source.spans = []
  ⟨true,empty,if empty then emptyAccessScore else score,!source.primary && indexSortCompatible source.definition q,[source]⟩
def valueID : Value → Option DocumentID
  | .id id => some id
  | _ => none

/-- An ID lookup from allowed `_id` values. -/
def primaryQueryAccessPlan : QueryAccessPlan :=
  match indexValuesCandidate expression idField with
  | none => .unusable
  | some values =>
    match values.mapM valueID with
    | none => .unusable
    | some ids =>
      ⟨true,ids = [],if ids = [] then emptyAccessScore else primaryAccessScore,false,[⟨true,primaryDefinition,ids,[]⟩]⟩
def valueSpan (candidate : Value × Bytes) : Option IndexScanSpan :=
  (indexKeyPrefixEnd candidate.2).map (fun stop => ⟨candidate.2,stop,true⟩)
def compoundQueryAccessPlan (q : QuerySpec) : QueryAccessPlan :=
  let score := indexQueryScore definition expression
  match compoundIndexQueryBounds definition expression with
  | some span =>
    if !span.exact ∧ span.start = [] ∧ span.stop = [] then .unusable
    else normalizedSingleSourcePlan ⟨false,definition,[],[span]⟩ score q
  | none =>
    match compoundIndexValueSpans definition expression with
    | some spans => normalizedSingleSourcePlan ⟨false,definition,[],spans⟩ score q
    | none => .unusable
def scalarQueryAccessPlan (field : Bytes) (q : QuerySpec) : QueryAccessPlan :=
  match encodedIndexValuesCandidate expression field with
  | some candidates =>
    match candidates.mapM valueSpan with
    | none => .unusable
    | some spans => normalizedSingleSourcePlan ⟨false,definition,[],spans⟩ 2 q
  | none =>
    match rangeCandidate expression field with
    | none => .unusable
    | some (lower,upper) =>
      match storageIndexBounds lower upper with
      | .error _ => .unusable
      | .ok none =>
        { normalizedSingleSourcePlan ⟨false,definition,[],[]⟩ 1 q with empty := true, score := emptyAccessScore }
      | .ok (some (start,stop)) => normalizedSingleSourcePlan ⟨false,definition,[],[⟨start,stop,false⟩]⟩ 1 q
def indexQueryAccessPlan (q : QuerySpec) : QueryAccessPlan :=
  if usesCompoundIndexCodec definition then compoundQueryAccessPlan expression definition q
  else match definition.fields with
    | [] => .unusable
    | f::_ => scalarQueryAccessPlan expression definition f.field q

variable (plan : QueryAccessPlan)

def queryPlanWork : ℕ := (plan.sources.map (fun source => source.ids.length+source.spans.length)).sum
def queryPlanSignature : Bytes :=
  List.intercalate [0] (plan.sources.map (fun source => source.definition.name))
def betterQueryAccessPlan (current candidate : QueryAccessPlan) : QueryAccessPlan :=
  if !candidate.usable then current
  else if !current.usable then candidate
  else if current.empty ≠ candidate.empty then if candidate.empty then candidate else current
  else if current.score ≠ candidate.score then if current.score < candidate.score then candidate else current
  else if current.sortCompatible ≠ candidate.sortCompatible then if candidate.sortCompatible then candidate else current
  else if queryPlanWork current ≠ queryPlanWork candidate then
    if queryPlanWork candidate < queryPlanWork current then candidate else current
  else if current.sources.length ≠ candidate.sources.length then
    if candidate.sources.length < current.sources.length then candidate else current
  else if queryPlanSignature candidate < queryPlanSignature current then candidate else current
def directQueryAccessPlan (definitions : List IndexDefinition) (q : QuerySpec) : QueryAccessPlan :=
  definitions.foldl (fun best definition => betterQueryAccessPlan best (indexQueryAccessPlan expression definition q))
    (primaryQueryAccessPlan expression)
def compareLowerBounds (left right : Bytes) : Ordering := threeWay left right
def compareUpperBounds (left right : Bytes) : Ordering :=
  if left = [] then if right = [] then .eq else .gt
  else if right = [] then .lt
  else threeWay left right
def compareSpans (a b : IndexScanSpan) : Ordering :=
  (compareLowerBounds a.start b.start).then (compareUpperBounds a.stop b.stop)
def mergeSpan (result : List IndexScanSpan) (span : IndexScanSpan) : List IndexScanSpan :=
  match result with
  | [] => [span]
  | last::rest =>
    if last.start = span.start ∧ last.stop = span.stop then { last with exact := last.exact && span.exact } :: rest
    else if last.stop = [] ∨ span.start = [] ∨ span.start < last.stop then
      if last.stop ≠ [] ∧ (span.stop = [] ∨ last.stop < span.stop) then ⟨last.start,span.stop,false⟩ :: rest
      else { last with exact := false } :: rest
    else span::last::rest

/-- Sorts the intervals and merges duplicate or overlapping ones. -/
def normalizeIndexScanSpans (spans : List IndexScanSpan) : List IndexScanSpan :=
  ((Comparison.stableSort (Comparison.lessBy compareSpans) spans).foldl mergeSpan []).reverse

variable (sources : List QueryPlanSource)

def mergedSource (name : Bytes) : Option QueryPlanSource :=
  match sources.filter (fun source => !source.primary && source.definition.name = name) with
  | [] => none
  | first::rest =>
    some ⟨false,first.definition,[],normalizeIndexScanSpans ((first::rest).flatMap QueryPlanSource.spans)⟩
def addDistinct (seen : List DocumentID) (id : DocumentID) : List DocumentID := if id ∈ seen then seen else seen ++ [id]
def addName (names : List Bytes) (name : Bytes) : List Bytes := if name ∈ names then names else names ++ [name]
def secondaryNames : List Bytes :=
  Comparison.stableSort (fun a b => a < b)
    (((sources.filter (fun source => !source.primary)).map (fun source => source.definition.name)).foldl addName [])
def mergedPrimary : List QueryPlanSource :=
  match sources.filter QueryPlanSource.primary with
  | [] => []
  | first::rest => [⟨true,primaryDefinition,((first::rest).flatMap QueryPlanSource.ids).foldl addDistinct [],[]⟩]

/-- One source for the ids and one for each index, without redundant ids and intervals. -/
def normalizeQueryAccessPlan (q : QuerySpec) : QueryAccessPlan :=
  if !plan.usable then .unusable
  else
    let sources := mergedPrimary plan.sources ++ (secondaryNames plan.sources).filterMap (mergedSource plan.sources)
    let none := sources.all (fun source => source.ids = [] ∧ source.spans = [])
    let compatible := match sources with
      | [source] => !source.primary && indexSortCompatible source.definition q
      | _ => false
    { plan with sources := sources, empty := plan.empty || none, sortCompatible := compatible }
def directPlanFullyCoversOr (definitions : List IndexDefinition) : Bool :=
  match plan.sources with
  | [source] =>
    if !plan.usable ∨ plan.empty then plan.usable && plan.empty
    else source.primary ||
      (source.definition.fields.length = 1 && definitions.all (fun definition => definition.fields.length ≤ 1) &&
        source.spans ≠ [] && source.spans.all IndexScanSpan.exact)
  | _ => plan.usable && plan.empty

/-- Adds a branch to the union; `none` when the branch has no usable plan. -/
def unionPlan (union candidate : QueryAccessPlan) : Option QueryAccessPlan :=
  if !candidate.usable then none
  else if candidate.empty then some union
  else some { union with
    score := if union.score = emptyAccessScore ∨ candidate.score < union.score then candidate.score else union.score
    sources := union.sources ++ candidate.sources }
def finishUnion (best union : QueryAccessPlan) (q : QuerySpec) : QueryAccessPlan :=
  if union.sources = [] then betterQueryAccessPlan best { union with empty := true, score := emptyAccessScore }
  else betterQueryAccessPlan best (normalizeQueryAccessPlan union q)

section
variable (definitions : List IndexDefinition) (q : QuerySpec)

mutual
def bestQueryAccessPlan : Expr → QueryAccessPlan
  | .logical .and args => bestConjunct args (directQueryAccessPlan (.logical .and args) definitions q)
  | .logical .or args =>
    let best := directQueryAccessPlan (.logical .or args) definitions q
    if directPlanFullyCoversOr best definitions then best
    else match unionOfBranches args ⟨true,false,emptyAccessScore,false,[]⟩ with
      | none => best
      | some union => finishUnion best union q
  | expression => directQueryAccessPlan expression definitions q
def bestConjunct : List Expr → QueryAccessPlan → QueryAccessPlan
  | [],best => best
  | e::es,best =>
    let candidate := bestQueryAccessPlan e
    if candidate.usable && candidate.empty then candidate
    else bestConjunct es (betterQueryAccessPlan best candidate)
def unionOfBranches : List Expr → QueryAccessPlan → Option QueryAccessPlan
  | [],union => some union
  | e::es,union =>
    match unionPlan union (bestQueryAccessPlan e) with
    | none => none
    | some union => unionOfBranches es union

end
end

def selectQueryAccessPlan (definitions : List IndexDefinition) (q : QuerySpec) : QueryAccessPlan :=
  bestQueryAccessPlan (Comparison.stableSort (fun a b => a.name < b.name) definitions) q expression

end Meldbase.Database
