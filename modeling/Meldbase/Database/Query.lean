import Meldbase.Database.Value
import Meldbase.Library.BoundedHeap

/-! # Queries

Compiled filters, the order of query results, and the evaluation of a query
over matched candidates.  Paths are the dotted strings of the source.  Work
budgets are not modelled: they only end an evaluation early with an error.
-/
namespace Meldbase.Database
open Comparison

/-! ### Comparing values -/

inductive Kind where
  | null
  | bool
  | int64
  | float64
  | string
  | binary
  | time
  | array
  | object
  | id
  deriving DecidableEq

def Value.kind : Value → Kind
  | .null => .null
  | .bool _ => .bool
  | .int _ => .int64
  | .float _ => .float64
  | .string _ => .string
  | .binary _ => .binary
  | .time _ => .time
  | .array _ => .array
  | .object _ => .object
  | .id _ => .id

/-- Whether a value type supports scalar range comparison. -/
def scalarKind : Kind → Bool
  | .array => false
  | .object => false
  | _ => true

/-- Type positions matching scalar index-key order. -/
def valueKindRank : Kind → ℕ
  | .null => 0
  | .bool => 1
  | .int64 => 2
  | .float64 => 2
  | .string => 3
  | .time => 4
  | .id => 5
  | .binary => 6
  | .array => 7
  | .object => 8
abbrev threeWay {α : Type*} [LinearOrder α] (a b : α) : Ordering := cmp a b

def nameOrder {α : Type} (a b : Bytes × α) : Ordering := threeWay a.1 b.1

/-- The entries of a map in the order of `sort.Strings`. -/
def sortByName {α : Type} (entries : List (Bytes × α)) : List (Bytes × α) := stableSort (lessBy nameOrder) entries

section
variable {α : Type*} [LinearOrder α] (a b : α)

theorem threeWay_swap : threeWay b a = (threeWay a b).swap := (cmp_swap a b).symm

theorem threeWay_eq_lt : threeWay a b = .lt ↔ a < b := cmp_eq_lt_iff a b

theorem threeWay_eq_gt : threeWay a b = .gt ↔ b < a := cmp_eq_gt_iff a b

theorem threeWay_eq_eq : threeWay a b = .eq ↔ a = b := cmp_eq_eq_iff a b

end

def compareValueKinds (a b : Kind) : Ordering := threeWay (valueKindRank a) (valueKindRank b)

/-- `<` on floats: false when either is NaN. -/
def Float64.less (f g : Float64) : Bool :=
  match f.value,g.value with
  | .finite a,.finite b => a < b
  | .infinite a,.infinite b => a && !b
  | .infinite a,.finite _ => a
  | .finite _,.infinite b => !b
  | _,_ => false
def Float64.compare (f g : Float64) : Ordering :=
  if f.less g then .lt else if g.less f then .gt else .eq
def compareSameKind : Value → Value → Option Ordering
  | .null,.null => some .eq
  | .int a,.int b => some (threeWay a.toInt b.toInt)
  | .float a,.float b => some (a.compare b)
  | .string a,.string b => some (threeWay a b)
  | .bool a,.bool b => some (threeWay a b)
  | .time a,.time b => some (threeWay a b)
  | .id a,.id b => some (threeWay a b)
  | .binary a,.binary b => some (threeWay a b)
  | _,_ => none

/-- Orders scalar values; `none` when range comparison is not supported. -/
def compareValues (a b : Value) : Option Ordering :=
  match compareNumeric a b with
  | some comparison => some comparison
  | none =>
    if !scalarKind a.kind || !scalarKind b.kind then none
    else if a.kind ≠ b.kind then some (compareValueKinds a.kind b.kind)
    else compareSameKind a b

/-- Arrays and objects have a type position, and tie among themselves. -/
def compareSortValues (a b : Value) : Ordering :=
  if a.kind ≠ b.kind then
    match compareNumeric a b with
    | some comparison => comparison
    | none => compareValueKinds a.kind b.kind
  else (compareValues a b).getD .eq

theorem Float64.compare_swap (f g : Float64) : g.compare f = (f.compare g).swap := by
  have hasymm : f.less g → g.less f = false := by
    unfold Float64.less
    cases f.value <;> cases g.value <;> simp_all
    exact fun h => h.le
  unfold Float64.compare
  cases hfg : f.less g <;> cases hgf : g.less f <;> simp_all

theorem compareNumeric_swap (a b : Value) : compareNumeric b a = (compareNumeric a b).map Ordering.swap := by
  cases a <;> cases b <;> simp [compareNumeric,Function.comp_def]

theorem compareValueKinds_swap (a b : Kind) : compareValueKinds b a = (compareValueKinds a b).swap :=
  (cmp_swap _ _).symm

theorem compareSameKind_swap (a b : Value) : compareSameKind b a = (compareSameKind a b).map Ordering.swap := by
  cases a <;> cases b
  case float.float f g => exact congrArg some (Float64.compare_swap f g)
  all_goals first | rfl | exact congrArg some (threeWay_swap _ _)

theorem compareValues_swap (a b : Value) : compareValues b a = (compareValues a b).map Ordering.swap := by
  unfold compareValues
  rw [compareNumeric_swap a b]
  cases compareNumeric a b with
  | some o => rfl
  | none =>
    dsimp only [Option.map_none]
    rw [Bool.or_comm,compareSameKind_swap a b,compareValueKinds_swap a.kind b.kind]
    by_cases hs : (!scalarKind a.kind || !scalarKind b.kind) = true
    · rw [if_pos hs,if_pos hs]
      rfl
    rw [if_neg hs,if_neg hs]
    by_cases hk : a.kind = b.kind
    · rw [if_neg (by simp [hk]),if_neg (by simp [hk])]
    · rw [if_pos hk,if_pos (Ne.symm hk)]
      rfl

theorem compareSortValues_swap (a b : Value) : compareSortValues b a = (compareSortValues a b).swap := by
  unfold compareSortValues
  rw [compareNumeric_swap a b,compareValues_swap a b,compareValueKinds_swap a.kind b.kind]
  by_cases hk : a.kind = b.kind
  · rw [if_neg (by simp [hk]),if_neg (by simp [hk])]
    cases compareValues a b <;> rfl
  · rw [if_pos hk,if_pos (Ne.symm hk)]
    cases compareNumeric a b <;> rfl

/-- Array membership for operands that are no arrays themselves. -/
def fieldEquals (field candidate : Value) : Bool :=
  match field with
  | .array items => if candidate.kind ≠ .array then items.any (fun item => item.equal candidate) else field.equal candidate
  | _ => field.equal candidate

/-! ### Paths -/

def splitPath : Bytes → List Bytes
  | [] => [[]]
  | b::rest =>
    if b = 0x2e then [] :: splitPath rest
    else match splitPath rest with
      | [] => [[b]]
      | part::parts => (b::part) :: parts
def lookupParts (d : Document) : List Bytes → Option Value
  | [] => none
  | part::parts =>
    match lookupField d part,parts with
    | none,_ => none
    | some v,[] => some v
    | some (.object fields),_ => lookupParts fields parts
    | some _,_ => none
def lookupInternal (d : Document) (path : Bytes) : Option Value := lookupParts d (splitPath path)

/-! ### Filters -/

inductive CompareOp where
  | eq
  | ne
  | gt
  | gte
  | lt
  | lte
  deriving DecidableEq

inductive MembershipOp where
  | isIn
  | notIn
  deriving DecidableEq

inductive LogicalOp where
  | and
  | or
  deriving DecidableEq

inductive ElementExpr where
  | logical (op : LogicalOp) (args : List ElementExpr)
  | not (arg : ElementExpr)
  | compare (op : CompareOp) (value : Value)
  | membership (op : MembershipOp) (values : List Value)

/-- Document conditions. -/
inductive Expr where
  | true
  | logical (op : LogicalOp) (args : List Expr)
  | not (arg : Expr)
  | compare (op : CompareOp) (path : Bytes) (value : Value)
  | membership (op : MembershipOp) (path : Bytes) (values : List Value)
  | exists (path : Bytes) (value : Bool)
  | size (path : Bytes) (size : ℕ)
  | type (path : Bytes) (types : List Kind)
  | all (path : Bytes) (values : List Value)
  | elemMatchScalar (path : Bytes) (scalar : ElementExpr)
  | elemMatchObject (path : Bytes) (object : Expr)

def matchCompare (op : CompareOp) (value operand : Value) : Bool :=
  match op with
  | .eq => fieldEquals value operand
  | .ne => !fieldEquals value operand
  | .gt => compareValues value operand = some .gt
  | .gte => compareValues value operand = some .gt || compareValues value operand = some .eq
  | .lt => compareValues value operand = some .lt
  | .lte => compareValues value operand = some .lt || compareValues value operand = some .eq
def matchMembership (op : MembershipOp) (hit : Bool) : Bool :=
  match op with
  | .isIn => hit
  | .notIn => !hit

mutual
def matchElementExpression : ElementExpr → Value → Bool
  | .logical .and args,v => matchEveryElement args v
  | .logical .or args,v => matchSomeElement args v
  | .not arg,v => !matchElementExpression arg v
  | .compare op operand,v => matchCompare op v operand
  | .membership op values,v => matchMembership op (values.any (fieldEquals v))
def matchEveryElement : List ElementExpr → Value → Bool
  | [],_ => true
  | e::es,v => matchElementExpression e v && matchEveryElement es v
def matchSomeElement : List ElementExpr → Value → Bool
  | [],_ => false
  | e::es,v => matchElementExpression e v || matchSomeElement es v

end

mutual
def matchExpression : Expr → Document → Bool
  | .true,_ => true
  | .logical .and args,d => matchEvery args d
  | .logical .or args,d => matchSome args d
  | .not arg,d => !matchExpression arg d
  | .compare op path operand,d =>
    match lookupInternal d path with
    | none => op = .ne
    | some value => matchCompare op value operand
  | .membership op path values,d =>
    match lookupInternal d path with
    | none => matchMembership op false
    | some value => matchMembership op (values.any (fieldEquals value))
  | .exists path value,d => (lookupInternal d path).isSome = value
  | .size path size,d =>
    match lookupInternal d path with
    | some (.array items) => items.length = size
    | _ => false
  | .type path types,d =>
    match lookupInternal d path with
    | none => false
    | some value => types.contains value.kind
  | .all path values,d =>
    match lookupInternal d path with
    | some (.array items) => values.all (fun required => items.any (fun item => item.equal required))
    | _ => false
  | .elemMatchScalar path scalar,d =>
    match lookupInternal d path with
    | some (.array items) => items.any (matchElementExpression scalar)
    | _ => false
  | .elemMatchObject path object,d =>
    match lookupInternal d path with
    | some (.array items) => items.any (fun item =>
        match item with
        | .object fields => matchExpression object fields
        | _ => false)
    | _ => false
def matchEvery : List Expr → Document → Bool
  | [],_ => true
  | e::es,d => matchExpression e d && matchEvery es d
def matchSome : List Expr → Document → Bool
  | [],_ => false
  | e::es,d => matchExpression e d || matchSome es d

end

theorem matchSome_iff :
    matchSome args d = true ↔ ∃ e ∈ args, matchExpression e d = true := by
  induction args with
  | nil => simp [matchSome]
  | cons e es ih => simp [matchSome,ih]

/-! ### Query results -/

structure SortField where
  path : Bytes
  direction : ℤ
  deriving DecidableEq

/-- A compiled filter with sorting and pagination. -/
structure QuerySpec where
  whereExpr : Expr
  sort : List SortField
  skip : ℕ
  limit : Option ℕ

def QuerySpec.matches (q : QuerySpec) (d : Document) : Bool := matchExpression q.whereExpr d

/-- A matching document with its insertion position. -/
structure QueryCandidate where
  document : Document
  position : ℕ

def SortField.compare (field : SortField) (left right : Document) : Ordering :=
  match lookupInternal left field.path,lookupInternal right field.path with
  | none,none => .eq
  | none,some _ => if field.direction = 1 then .lt else .gt
  | some _,none => if field.direction = 1 then .gt else .lt
  | some lv,some rv =>
    if field.direction = -1 then (compareSortValues lv rv).swap else compareSortValues lv rv
def compareSortFields : List SortField → Document → Document → Ordering
  | [],_,_ => .eq
  | field::fields,left,right => (field.compare left right).then (compareSortFields fields left right)

/-- Sort fields, then insertion position. -/
def QuerySpec.compareCandidates (q : QuerySpec) (left right : QueryCandidate) : Ordering :=
  (compareSortFields q.sort left.document right.document).then (threeWay left.position right.position)
def QuerySpec.page {α : Type*} (q : QuerySpec) (l : List α) : List α :=
  match q.limit with
  | none => l.drop q.skip
  | some limit => (l.drop q.skip).take limit
def QuerySpec.orderMatched (q : QuerySpec) (result : List QueryCandidate) : List QueryCandidate :=
  if q.sort ≠ [] then stableSort (lessBy q.compareCandidates) result
  else if result.IsChain (fun a b => a.position ≤ b.position) then result
  else stableSort (fun a b => a.position < b.position) result
def QuerySpec.executeMatched (q : QuerySpec) (result : List QueryCandidate) : List Document :=
  (q.page (q.orderMatched result)).map QueryCandidate.document

/-! ### The order of results -/

def SortsLawfully (sort : List SortField) (docs : Set Document) : Prop :=
  ∀ field ∈ sort, PreorderOn compareSortValues
    {v | ∃ d ∈ docs, lookupInternal d field.path = some v}

theorem SortsLawfully.mono (h : SortsLawfully sort docs)
    (hd : docs' ⊆ docs) : SortsLawfully sort docs' := by
  intro field hf
  have hv : {v | ∃ d ∈ docs', lookupInternal d field.path = some v} ⊆
      {v | ∃ d ∈ docs, lookupInternal d field.path = some v} := fun v ⟨d,hd',hv⟩ => ⟨d,hd hd',hv⟩
  exact ⟨fun a ha b hb => (h field hf).swap a (hv ha) b (hv hb),
    fun a ha b hb c hc => (h field hf).trans a (hv ha) b (hv hb) c (hv hc)⟩

theorem sortsLawfully_nil (docs : Set Document) : SortsLawfully [] docs := fun _ hf => absurd hf List.not_mem_nil

theorem SortField.compare_swap (field : SortField) (a b : Document) : field.compare b a = (field.compare a b).swap := by
  unfold SortField.compare
  cases lookupInternal a field.path <;> cases lookupInternal b field.path
  · rfl
  · dsimp only
    split_ifs <;> rfl
  · dsimp only
    split_ifs <;> rfl
  dsimp only
  rw [compareSortValues_swap]
  split_ifs <;> rfl

theorem SortField.compare_preorder {field : SortField}
    (h : PreorderOn compareSortValues {v | ∃ d ∈ docs, lookupInternal d field.path = some v}) :
    PreorderOn field.compare docs where
  swap a _ b _ := field.compare_swap a b
  trans a ha b hb c hc := by
    unfold SortField.compare
    cases hav : lookupInternal a field.path <;> cases hbv : lookupInternal b field.path <;>
      cases hcv : lookupInternal c field.path
    case some.some.some x y z =>
      have hxyz := h.trans x ⟨a,ha,hav⟩ y ⟨b,hb,hbv⟩ z ⟨c,hc,hcv⟩
      have hzyx := h.trans z ⟨c,hc,hcv⟩ y ⟨b,hb,hbv⟩ x ⟨a,ha,hav⟩
      dsimp only
      split_ifs
      · rw [← compareSortValues_swap,← compareSortValues_swap,← compareSortValues_swap]
        exact fun hab hbc => hzyx hbc hab
      · exact hxyz
    all_goals
      dsimp only
      try split_ifs
      all_goals simp

theorem compareSortFields_preorder (h : SortsLawfully sort docs) :
    PreorderOn (compareSortFields sort) docs := by
  induction sort with
  | nil => exact ⟨fun _ _ _ _ => rfl,fun _ _ _ _ _ _ _ _ => by simp [compareSortFields]⟩
  | cons field sort ih =>
    exact (SortField.compare_preorder (h field List.mem_cons_self)).then
      (ih (fun f hf => h f (List.mem_cons_of_mem field hf)))

theorem compareCandidates_lawful {q : QuerySpec}
    (hd : PreorderOn (compareSortFields q.sort) {d | ∃ c ∈ S, c.document = d})
    (hp : ∀ a ∈ S, ∀ b ∈ S, a.position = b.position → a = b) : LawfulOn q.compareCandidates S := by
  have hdocs : PreorderOn (fun a b : QueryCandidate => compareSortFields q.sort a.document b.document) S :=
    ⟨fun a ha b hb => hd.swap _ ⟨a,ha,rfl⟩ _ ⟨b,hb,rfl⟩,
      fun a ha b hb c hc => hd.trans _ ⟨a,ha,rfl⟩ _ ⟨b,hb,rfl⟩ _ ⟨c,hc,rfl⟩⟩
  have hall := hdocs.then (PreorderOn.of_linearOrder QueryCandidate.position)
  refine ⟨⟨hall.swap,hall.trans⟩,fun a ha b hb hab => hp a ha b hb ?_⟩
  have hpos := (Ordering.then_eq_eq.mp hab).2
  exact cmp_eq_eq_iff _ _ |>.mp hpos

end Meldbase.Database
