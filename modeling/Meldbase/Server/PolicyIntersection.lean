import Meldbase.Server.Policy

/-! # Combined policies

The combination of two policies accepts the filter and sort paths that both
accept, keeps the lesser cap, requires both row constraints and shows no field
that one of them hides.  Operators are combined entry by entry: a path whose
entry is lost falls back to the wildcard grant, which may permit more or less
than its own entry did.
-/
namespace Meldbase.Server
open List KeyedList
open Database
variable {base additional result : QueryPolicy} {path : Bytes} {wireBytes : ClientQuery → ℕ} {d : Document}

/-! ### Paths -/

@[simp] theorem has_none (s : Bytes) : has none s = false := rfl

@[simp] theorem has_nil (s : Bytes) : has (some []) s = false := rfl

theorem has_filter (set other : Option (List Bytes)) (s : Bytes) :
    has (some ((set.getD []).filter (has other))) s = (has set s && has other s) := by
  unfold has
  rw [Bool.eq_iff_iff]
  simp

theorem permits_intersect (firstAll : Bool) (first : Option (List Bytes)) (secondAll : Bool) (second : Option (List Bytes))
    (s : Bytes) : (firstAll && secondAll || has (intersectStringSets firstAll first secondAll second) s) =
      ((firstAll || has first s) && (secondAll || has second s)) := by
  unfold intersectStringSets
  cases firstAll <;> cases secondAll <;> simp [has_filter]

theorem pathAllowed_effective (all : Bool) (allowed : Option (List Bytes)) (path : Bytes) (policy : QueryPolicy) :
    pathAllowed all allowed path policy =
      ((effectivePaths all allowed policy).1 || has (effectivePaths all allowed policy).2 path) := by
  unfold pathAllowed effectivePaths
  cases all <;> cases policy.allowAllQueryPaths <;> cases allowed <;> simp

/-- A combined set is nil only where one policy permits no path at all; the
shared query permissions that then take over permit none either. -/
theorem pathAllowed_intersect (hall : result.allowAllQueryPaths = (base.allowAllQueryPaths && additional.allowAllQueryPaths))
    (hquery : result.allowedQueryPaths = intersectStringSets base.allowAllQueryPaths base.allowedQueryPaths
      additional.allowAllQueryPaths additional.allowedQueryPaths) (path : Bytes) :
    pathAllowed ((effectivePaths allBase ownBase base).1 && (effectivePaths allAdditional ownAdditional additional).1)
      (intersectStringSets (effectivePaths allBase ownBase base).1 (effectivePaths allBase ownBase base).2
        (effectivePaths allAdditional ownAdditional additional).1 (effectivePaths allAdditional ownAdditional additional).2)
      path result = (pathAllowed allBase ownBase path base && pathAllowed allAdditional ownAdditional path additional) := by
  rw [pathAllowed_effective allBase,pathAllowed_effective allAdditional,← permits_intersect]
  unfold pathAllowed
  rw [hall,hquery]
  unfold effectivePaths intersectStringSets
  cases hb : base.allowAllQueryPaths <;> cases ha : additional.allowAllQueryPaths <;> cases allBase <;> cases allAdditional <;>
    cases ownBase <;> cases ownAdditional <;> cases hbq : base.allowedQueryPaths <;> cases haq : additional.allowedQueryPaths <;>
    simp [has]

/-! ### Operators -/

theorem find_intersect (additional : OperatorGrants) (hd : (keys entries).Nodup) (path : Bytes) :
    find path (entries.filterMap (intersectEntry additional)) =
      (find path entries).bind (fun operators => (intersectEntry additional (path,operators)).map Prod.snd) := by
  induction entries with
  | nil => rfl
  | cons entry rest ih =>
    rw [KeyedList.keys_cons,nodup_cons] at hd
    have hih := ih hd.2
    rw [filterMap_cons,find]
    by_cases hpath : entry.1 = path
    · subst hpath
      rw [if_pos rfl,Option.bind_some]
      have hrest : find entry.1 (rest.filterMap (intersectEntry additional)) = none :=
        find_eq_none.mpr (fun hm => hd.1 ((intersectEntries_keys additional rest).subset hm))
      cases he : intersectEntry additional entry with
      | none => simpa [he] using hrest
      | some e => simp [find,intersectEntry_path he]
    rw [if_neg hpath,← hih]
    cases he : intersectEntry additional entry with
    | none => rfl
    | some e =>
      dsimp only
      rw [find,if_neg (by rwa [intersectEntry_path he])]

theorem forPath_of_find {grants : OperatorGrants}
    (h : find path grants.entries = some operators) : grants.forPath path = operators := by
  simp only [OperatorGrants.forPath,h]

theorem forPath_fallback {grants : OperatorGrants} (h : path ∉ keys grants.entries) :
    grants.forPath path = grants.forPath wildcard := by
  simp only [OperatorGrants.forPath,find_eq_none.mpr h]
  cases find wildcard grants.entries <;> rfl

/-- What both policies grant at a path. -/
def OperatorGrants.common (b a : OperatorGrants) (path operator : Bytes) : Bool :=
  has (b.forPath path) operator && has (a.forPath path) operator

/-- The base policy has no entry for the path, or the policies have no operator in common there. -/
def OperatorGrants.Loses (b a : OperatorGrants) (path : Bytes) : Prop :=
  path ∉ keys b.entries ∨ ∀ operator, b.common a path operator = false

theorem intersectEntry_eq_none {a : OperatorGrants} {operators : Option (List Bytes)} :
    intersectEntry a (path,operators) = none ↔ ∀ operator, (has operators operator && has (a.forPath path) operator) = false := by
  unfold intersectEntry
  cases a.forPath path with
  | none => simp
  | some others =>
    simp only [← has_filter]
    split_ifs with hcommon
    · simp [hcommon]
    · obtain ⟨operator,rest,hrest⟩ := exists_cons_of_ne_nil hcommon
      refine iff_of_false (by simp) (fun h => absurd (h operator) ?_)
      rw [hrest]
      simp [has]

theorem find_intersect_eq_none {b a : OperatorGrants} : find path (intersectGrants b a).entries = none ↔ b.Loses a path := by
  refine (iff_of_eq (congrArg (· = none) (find_intersect a b.distinct path))).trans ?_
  unfold OperatorGrants.Loses OperatorGrants.common
  rw [← find_eq_none]
  cases hb : find path b.entries with
  | none => simp
  | some operators => simp [forPath_of_find hb,intersectEntry_eq_none]

theorem forPath_kept {b a : OperatorGrants} (h : ¬ b.Loses a path) (operator : Bytes) :
    has ((intersectGrants b a).forPath path) operator = b.common a path operator := by
  have hfind := find_intersect a b.distinct path
  cases hb : find path b.entries with
  | none => exact absurd (.inl (find_eq_none.mp hb)) h
  | some operators =>
    rw [hb,Option.bind_some] at hfind
    cases he : intersectEntry a (path,operators) with
    | none => exact absurd (find_intersect_eq_none.mp (by rw [intersectGrants,hfind,he]; rfl)) h
    | some e =>
      rw [he] at hfind
      rw [forPath_of_find hfind,OperatorGrants.common,forPath_of_find hb]
      unfold intersectEntry at he
      split at he
      · cases he
      rename_i others hothers
      dsimp only at he hothers
      split_ifs at he
      cases he
      rw [hothers,has_filter]

/-- A lost path falls back to what the wildcard entries have in common. -/
theorem forPath_lost {b a : OperatorGrants} (h : b.Loses a path) (operator : Bytes) :
    has ((intersectGrants b a).forPath path) operator = b.common a wildcard operator := by
  rw [forPath_fallback (find_eq_none.mp (find_intersect_eq_none.mpr h))]
  by_cases hlost : b.Loses a wildcard
  · have hnone := find_intersect_eq_none.mpr hlost
    simp only [OperatorGrants.forPath,hnone,Option.getD_none,has_none]
    rcases hlost with hmissing | hempty
    · simp [OperatorGrants.common,OperatorGrants.forPath,find_eq_none.mpr hmissing]
    · exact (hempty operator).symm
  · exact forPath_kept hlost operator

theorem forPath_intersect_iff {b a : OperatorGrants} :
    (∀ path operator, has ((intersectGrants b a).forPath path) operator = b.common a path operator) ↔
      ∀ path, b.Loses a path → ∀ operator, b.common a path operator = b.common a wildcard operator := by
  constructor
  · intro h path hlost operator
    rw [← h path operator,forPath_lost hlost]
  intro h path operator
  by_cases hlost : b.Loses a path
  · rw [forPath_lost hlost,h path hlost]
  · exact forPath_kept hlost operator

/-- Where both policies restrict operators, they grant the same at a lost path as at the wildcard. -/
def OperatorsKept (base additional : QueryPolicy) : Prop :=
  ∀ b a, base.allowAllFilterOperators = false → base.allowedFilterOperators = some b →
    additional.allowAllFilterOperators = false → additional.allowedFilterOperators = some a →
    ∀ path, b.Loses a path → ∀ operator, b.common a path operator = b.common a wildcard operator

theorem filterOperatorAllowed_intersect_iff (hall : result.allowAllFilterOperators = (intersectFilterOperators base additional).1)
    (hgrants : result.allowedFilterOperators = (intersectFilterOperators base additional).2) :
    (∀ path operator, filterOperatorAllowed path operator result =
      (filterOperatorAllowed path operator base && filterOperatorAllowed path operator additional)) ↔
    OperatorsKept base additional := by
  unfold filterOperatorAllowed OperatorsKept
  rw [hall,hgrants]
  unfold intersectFilterOperators
  cases hb : base.allowAllFilterOperators <;> cases ha : additional.allowAllFilterOperators <;>
    cases hbg : base.allowedFilterOperators <;> cases hag : additional.allowedFilterOperators <;> simp
  exact forPath_intersect_iff

theorem queryAllowed_intersect (hfilter : ∀ path, filterPathAllowed path result =
      (filterPathAllowed path base && filterPathAllowed path additional))
    (hoperator : ∀ path operator, filterOperatorAllowed path operator result =
      (filterOperatorAllowed path operator base && filterOperatorAllowed path operator additional))
    (hsort : ∀ path, sortPathAllowed path result = (sortPathAllowed path base && sortPathAllowed path additional))
    (q : ClientQuery) : queryAllowed q result = (queryAllowed q base && queryAllowed q additional) := by
  unfold queryAllowed
  rw [Bool.eq_iff_iff]
  simp only [Bool.and_eq_true,all_eq_true,Bool.or_eq_true,decide_eq_true_eq,hfilter,hoperator,hsort]
  grind

/-! ### Rows -/

def rowAllowed (policy : QueryPolicy) (d : Document) : Bool := policy.constraint.all (fun constraint => constraint.matches d)

theorem constrain_matches (q policy : ClientQuery) (d : Document) :
    (q.constrain policy).matches d = (policy.matches d && q.matches d) := by
  simp [ClientQuery.constrain,QuerySpec.matches,matchExpression,matchEvery]

/-- An accepted query is the given one with the constraint added and the limit lowered. -/
theorem applyPolicy_accepted (h : applyPolicy wireBytes q policy = .ok accepted) :
    queryAllowed q policy = true ∧ accepted = (constrained q policy).capped policy.maxResults := by
  unfold applyPolicy at h
  split at h
  · cases h
  split at h
  · cases h
  split at h
  · cases h
  rename_i hallowed
  split at h
  · cases h
  dsimp only at h
  split at h
  · refine ⟨?_,(Except.ok.inj h).symm⟩
    simpa using hallowed
  · cases h

theorem constrained_sort (q : ClientQuery) (policy : QueryPolicy) : (constrained q policy).sort = q.sort := by
  unfold constrained
  split <;> rfl

theorem constrained_matches (q : ClientQuery) (policy : QueryPolicy) (d : Document) :
    (constrained q policy).matches d = (rowAllowed policy d && q.matches d) := by
  unfold constrained rowAllowed
  split
  · rename_i h
    simp [h]
  · rename_i constraint h
    rw [h,Option.all_some,constrain_matches]

theorem rowAllowed_intersect (h : intersectConstraints wireBytes base.constraint additional.constraint = .ok result.constraint)
    (d : Document) :
    rowAllowed result d = (rowAllowed base d && rowAllowed additional d) := by
  unfold intersectConstraints at h
  unfold rowAllowed
  split at h
  · rename_i b a hb ha
    split_ifs at h
    rw [hb,ha,← Except.ok.inj h]
    simp only [Option.all_some]
    rw [constrain_matches,Bool.and_comm]
  · rename_i b hb ha
    rw [hb,ha,← Except.ok.inj h]
    simp
  · rename_i a hb ha
    rw [hb,ha,← Except.ok.inj h]
    simp
  rename_i hb ha
  rw [hb,ha,← Except.ok.inj h]
  simp

/-! ### Projected fields -/

def projectedValue (source : Document) (field : Bytes) (path : List Bytes) : Option Value :=
  lookupField (projectPath [] source (field::path)) field

theorem projectPath_cons (destination source : Document) (field : Bytes) (path : List Bytes) :
    projectPath destination source (field::path) =
      match projectedValue source field path with
      | none => destination
      | some v => putField destination field v := by
  unfold projectedValue
  simp only [projectPath]
  split
  · rfl
  · rw [lookupField_putField]
  · split_ifs
    · rfl
    · rw [lookupField_putField]
  · rfl

theorem projectPath_within {path other : List Bytes}
    (h : (lookupParts (projectPath [] source path) other).isSome) : (lookupParts source other).isSome := by
  induction path generalizing source other with
  | nil => simp [projectPath] at h
  | cons field path ih =>
    cases other with
    | nil => simp [lookupParts] at h
    | cons first others =>
      simp only [projectPath] at h
      have hfield : ∀ v : Value, (lookupParts (putField [] field v) (first::others)).isSome → first = field := by
        intro v hv
        by_contra hne
        rw [lookupParts_putField_ne hne] at hv
        simp at hv
      split at h
      · simp at h
      · rename_i v hv
        obtain rfl := hfield v h
        rwa [lookupParts_congr ((lookupField_putField [] first v).trans hv.symm)] at h
      · rename_i child hchild _
        split_ifs at h with hempty
        · simp at h
        obtain rfl := hfield _ h
        by_cases hothers : others = []
        · subst hothers
          simp [lookupParts,hchild]
        rw [lookupParts_putField_object hothers] at h
        rw [lookupParts_object hchild hothers]
        exact ih h
      · simp at h

def grantValue (d : Document) (field grant : Bytes) : Option Value :=
  if grant = idField then none
  else match splitPath grant with
    | [] => none
    | first::path => if first = field then projectedValue d first path else none
def projectGrant (d result : Document) (grant : Bytes) : Document :=
  if grant ≠ idField then projectPath result d (splitPath grant) else result

theorem lookupField_projectGrant (d result : Document) (field grant : Bytes) :
    lookupField (projectGrant d result grant) field = (grantValue d field grant).or (lookupField result field) := by
  unfold projectGrant grantValue
  by_cases hid : grant = idField
  · simp [hid]
  rw [if_pos hid,if_neg hid]
  obtain ⟨first,path,hsplit⟩ := exists_cons_of_ne_nil (splitPath_ne_nil grant)
  rw [hsplit,projectPath_cons]
  dsimp only
  by_cases hfirst : first = field
  · subst hfirst
    rw [if_pos rfl]
    cases projectedValue d first path with
    | none => rfl
    | some v => rw [lookupField_putField,Option.some_or]
  rw [if_neg hfirst]
  cases projectedValue d first path with
  | none => rfl
  | some v => rw [lookupField_putField_ne (Ne.symm hfirst),Option.none_or]

theorem lookupField_projected {grants : List Bytes}
    (h : lookupField (grants.foldl (projectGrant d) init) field = some v) :
    (∃ grant ∈ grants, grantValue d field grant = some v) ∨ lookupField init field = some v := by
  induction grants generalizing init with
  | nil => exact .inr h
  | cons grant grants ih =>
    rcases ih h with ⟨g,hg,hv⟩ | hinit
    · exact .inl ⟨g,mem_cons_of_mem _ hg,hv⟩
    rw [lookupField_projectGrant,Option.or_eq_some_iff] at hinit
    rcases hinit with hv | ⟨-,hinit⟩
    · exact .inl ⟨grant,mem_cons_self,hv⟩
    · exact .inr hinit

theorem lookupField_projectID (h : lookupField (projectID d) field = some v) :
    field = idField ∧ lookupField d idField = some v := by
  unfold projectID at h
  split at h
  · cases h
  rename_i id hid
  simp only [lookupField] at h
  split_ifs at h with hfield
  exact ⟨hfield.symm,hid.trans h⟩

theorem grantValue_id {id : DocumentID} (hid : d.id = some id) (grant : Bytes) : grantValue d idField grant = none := by
  have hvalue : lookupField d idField = some (.id id) := Document.id_eq_some.mp hid
  unfold grantValue
  split_ifs with hgrant
  · rfl
  split
  · rfl
  rename_i first path hsplit
  split_ifs with hfirst
  · subst hfirst
    cases path with
    | nil =>
      -- the only path with this single part is `_id` itself
      have hpath : splitPath grant = splitPath idField := hsplit
      have hext := splitPath_extends.mp (hpath ▸ prefix_refl (splitPath grant) : splitPath grant <+: splitPath idField)
      rcases hext with hext | hext
      · exact absurd hext.symm hgrant
      have hback := splitPath_extends.mp (hpath ▸ prefix_refl (splitPath grant) : splitPath idField <+: splitPath grant)
      rcases hback with hback | hback
      · exact absurd hback hgrant
      have h1 := hext.length_le
      have h2 := hback.length_le
      simp only [length_append,length_singleton] at h1 h2
      omega
    | cons next rest =>
      unfold projectedValue
      simp [projectPath,hvalue,lookupField]
  · rfl

/-- Some order of the grants shows a value at the path. -/
def Projects (policy : QueryPolicy) (d : Document) (path : Bytes) : Prop :=
  ∃ grants, grants.Perm (policy.allowedResultFields.getD []) ∧
    (lookupInternal (projectFields d policy.allowAllResultFields (some grants)) path).isSome

theorem projectFields_grants (d : Document) (grants : List Bytes) :
    projectFields d false (some grants) = grants.foldl (projectGrant d) (projectID d) := rfl

/-- What restricted grants show is in the document. -/
theorem projectFields_within {grants : List Bytes}
    (h : (lookupInternal (projectFields d false (some grants)) path).isSome) : (lookupInternal d path).isSome := by
  rw [projectFields_grants] at h
  unfold lookupInternal at h ⊢
  obtain ⟨first,parts,hsplit⟩ := exists_cons_of_ne_nil (splitPath_ne_nil path)
  rw [hsplit] at h ⊢
  cases hv : lookupField (grants.foldl (projectGrant d) (projectID d)) first with
  | none =>
    rw [lookupParts_missing hv] at h
    cases h
  | some v =>
    rcases lookupField_projected hv with ⟨grant,-,hgrant⟩ | hid
    · unfold grantValue at hgrant
      split_ifs at hgrant
      split at hgrant
      · cases hgrant
      rename_i field rest _
      split_ifs at hgrant with hfield
      subst hfield
      rw [lookupParts_congr (hv.trans hgrant.symm)] at h
      exact projectPath_within h
    · obtain ⟨rfl,hdoc⟩ := lookupField_projectID hid
      rwa [lookupParts_congr (hv.trans hdoc.symm)] at h

/-- Fewer grants show no more than the document or more grants do. -/
theorem Projects.mono {id : DocumentID} (hid : d.id = some id)
    (hall : policy.allowAllResultFields = true → other.allowAllResultFields = true)
    (hsub : other.allowAllResultFields = false → ∀ grant ∈ policy.allowedResultFields.getD [],
      grant ∈ other.allowedResultFields.getD []) (h : Projects policy d path) : Projects other d path := by
  obtain ⟨grants,hperm,hsome⟩ := h
  cases hother : other.allowAllResultFields with
  | true =>
    refine ⟨_,List.Perm.refl _,?_⟩
    rw [hother]
    cases hpolicy : policy.allowAllResultFields with
    | true =>
      rw [hpolicy] at hsome
      exact hsome
    | false =>
      rw [hpolicy] at hsome
      exact projectFields_within hsome
  | false =>
    have hpolicy : policy.allowAllResultFields = false := by
      cases hp : policy.allowAllResultFields with
      | false => rfl
      | true =>
        rw [hall hp] at hother
        cases hother
    rw [hpolicy,projectFields_grants] at hsome
    unfold lookupInternal at hsome
    obtain ⟨first,parts,hsplit⟩ := exists_cons_of_ne_nil (splitPath_ne_nil path)
    rw [hsplit] at hsome
    -- it is enough that an order of the other grants leaves the same value at the first field
    suffices hsame : ∃ order : List Bytes, order.Perm (other.allowedResultFields.getD []) ∧
        lookupField (order.foldl (projectGrant d) (projectID d)) first =
          lookupField (grants.foldl (projectGrant d) (projectID d)) first by
      obtain ⟨order,horder,hsame⟩ := hsame
      refine ⟨order,horder,?_⟩
      rw [hother,projectFields_grants]
      unfold lookupInternal
      rwa [hsplit,lookupParts_congr hsame]
    cases hv : lookupField (grants.foldl (projectGrant d) (projectID d)) first with
    | none =>
      rw [lookupParts_missing hv] at hsome
      cases hsome
    | some v =>
      rcases lookupField_projected hv with ⟨grant,hmem,hgrant⟩ | hinit
      · -- the grant that wrote the value comes last
        have hin := hsub hother grant (hperm.subset hmem)
        refine ⟨(other.allowedResultFields.getD []).erase grant ++ [grant],?_,?_⟩
        · exact (perm_append_singleton grant _).trans (perm_cons_erase hin).symm
        · rw [foldl_append,foldl_cons,foldl_nil,lookupField_projectGrant,hgrant,Option.some_or]
      obtain ⟨rfl,-⟩ := lookupField_projectID hinit
      refine ⟨_,List.Perm.refl _,?_⟩
      have hkeep : ∀ (order : List Bytes) (init : Document), lookupField (order.foldl (projectGrant d) init) idField =
          lookupField init idField := by
        intro order
        induction order with
        | nil => exact fun _ => rfl
        | cons grant order ih =>
          intro init
          rw [foldl_cons,ih,lookupField_projectGrant,grantValue_id hid,Option.none_or]
      rw [hkeep,hinit]

/-! ### What a combined policy permits -/

theorem intersectStringSets_mem (h : s ∈ (intersectStringSets firstAll first secondAll second).getD []) :
    (firstAll = false → s ∈ first.getD []) ∧ (secondAll = false → s ∈ second.getD []) := by
  have hboth := permits_intersect firstAll first secondAll second s
  have hhas : has (intersectStringSets firstAll first secondAll second) s = true := decide_eq_true h
  rw [hhas,Bool.or_true,eq_comm,Bool.and_eq_true] at hboth
  constructor
  · rintro rfl
    exact of_decide_eq_true (by simpa [has] using hboth.1)
  · rintro rfl
    exact of_decide_eq_true (by simpa [has] using hboth.2)

structure Combined (wireBytes : ClientQuery → ℕ) (base additional result : QueryPolicy) : Prop where
  constraint : intersectConstraints wireBytes base.constraint additional.constraint = .ok result.constraint
  maxResults : result.maxResults = min base.maxResults additional.maxResults
  queryAll : result.allowAllQueryPaths = (base.allowAllQueryPaths && additional.allowAllQueryPaths)
  queryPaths : result.allowedQueryPaths = intersectStringSets base.allowAllQueryPaths base.allowedQueryPaths
    additional.allowAllQueryPaths additional.allowedQueryPaths
  filterAll : result.allowAllFilterPaths = ((effectiveFilterPaths base).1 && (effectiveFilterPaths additional).1)
  filterPaths : result.allowedFilterPaths = intersectStringSets (effectiveFilterPaths base).1 (effectiveFilterPaths base).2
    (effectiveFilterPaths additional).1 (effectiveFilterPaths additional).2
  operatorsAll : result.allowAllFilterOperators = (intersectFilterOperators base additional).1
  operators : result.allowedFilterOperators = (intersectFilterOperators base additional).2
  sortAll : result.allowAllSortPaths = ((effectiveSortPaths base).1 && (effectiveSortPaths additional).1)
  sortPaths : result.allowedSortPaths = intersectStringSets (effectiveSortPaths base).1 (effectiveSortPaths base).2
    (effectiveSortPaths additional).1 (effectiveSortPaths additional).2
  resultAll : result.allowAllResultFields = (base.allowAllResultFields && additional.allowAllResultFields)
  resultFields : result.allowedResultFields = intersectStringSets base.allowAllResultFields base.allowedResultFields
    additional.allowAllResultFields additional.allowedResultFields

theorem intersectQueryPolicies_combined {digest : Bytes → Bytes}
    (h : intersectQueryPolicies wireBytes digest base additional = .ok result) : Combined wireBytes base additional result := by
  unfold intersectQueryPolicies at h
  split at h
  · cases h
  dsimp only at h
  split at h
  · cases h
  rename_i constraint hconstraint
  obtain rfl := Except.ok.inj h
  exact ⟨hconstraint,rfl,rfl,rfl,rfl,rfl,rfl,rfl,rfl,rfl,rfl,rfl⟩

/-- The combination of two policies permits exactly what both permit, exactly when they grant the same
operators at a path whose entry is lost as at the wildcard. -/
theorem intersection_permits_both (wireBytes : ClientQuery → ℕ) (digest : Bytes → Bytes) (base additional result : QueryPolicy)
    (h : intersectQueryPolicies wireBytes digest base additional = .ok result) : OperatorsKept base additional ↔
    (∀ path, filterPathAllowed path result = (filterPathAllowed path base && filterPathAllowed path additional)) ∧
    (∀ path operator, filterOperatorAllowed path operator result =
      (filterOperatorAllowed path operator base && filterOperatorAllowed path operator additional)) ∧
    (∀ path, sortPathAllowed path result = (sortPathAllowed path base && sortPathAllowed path additional)) ∧
    (∀ q, queryAllowed q result = (queryAllowed q base && queryAllowed q additional)) ∧
    result.maxResults = min base.maxResults additional.maxResults ∧
    (∀ d, rowAllowed result d = (rowAllowed base d && rowAllowed additional d)) ∧
    (∀ d id path, d.id = some id → Projects result d path → Projects base d path ∧ Projects additional d path) := by
  have hc := intersectQueryPolicies_combined h
  have hfilter : ∀ path, filterPathAllowed path result = (filterPathAllowed path base && filterPathAllowed path additional) := by
    intro path
    unfold filterPathAllowed
    rw [hc.filterAll,hc.filterPaths]
    exact pathAllowed_intersect hc.queryAll hc.queryPaths path
  have hsort : ∀ path, sortPathAllowed path result = (sortPathAllowed path base && sortPathAllowed path additional) := by
    intro path
    unfold sortPathAllowed
    rw [hc.sortAll,hc.sortPaths]
    exact pathAllowed_intersect hc.queryAll hc.queryPaths path
  have hiff := filterOperatorAllowed_intersect_iff hc.operatorsAll hc.operators
  refine ⟨fun hkept => ?_,fun h => hiff.mp h.2.1⟩
  have hoperator := hiff.mpr hkept
  refine ⟨hfilter,hoperator,hsort,queryAllowed_intersect hfilter hoperator hsort,hc.maxResults,
    rowAllowed_intersect hc.constraint,?_⟩
  intro d id path hid hprojects
  have hall : result.allowAllResultFields = true → base.allowAllResultFields = true ∧ additional.allowAllResultFields = true := by
    rw [hc.resultAll,Bool.and_eq_true]
    exact fun hall => hall
  constructor
  · refine hprojects.mono hid (fun h => (hall h).1) (fun hfields grant hgrant => ?_)
    rw [hc.resultFields] at hgrant
    exact (intersectStringSets_mem hgrant).1 hfields
  refine hprojects.mono hid (fun h => (hall h).2) (fun hfields grant hgrant => ?_)
  rw [hc.resultFields] at hgrant
  exact (intersectStringSets_mem hgrant).2 hfields

def operatorPolicy (grants : OperatorGrants) (fields : List Bytes) : QueryPolicy where
  policyVersion := [0x76]
  lease := none
  constraint := none
  maxResults := 10
  allowAllQueryPaths := true
  allowedQueryPaths := none
  allowAllFilterPaths := false
  allowedFilterPaths := none
  allowAllFilterOperators := false
  allowedFilterOperators := some grants
  allowAllSortPaths := false
  allowedSortPaths := none
  allowAllAggregateFields := false
  allowedAggregateFields := none
  allowAllResultFields := false
  allowedResultFields := some fields
  additionalLease := none
  compositeLeases := false
def nameField : Bytes := [0x6e]

/-- Range scans on every path. -/
def anyAbove : OperatorGrants := ⟨[(wildcard,some [compareName .gt])],by decide⟩
def nameEqual : OperatorGrants := ⟨[(nameField,some [compareName .eq]),(wildcard,some [compareName .gt])],by decide⟩
def nameAbove : ClientQuery := ⟨⟨.compare .gt nameField .null,[],0,none⟩,false⟩

/-- One policy permits only equality on `n`, and no range scan of it.  Combined
with range scans on every path, its entry for `n` is lost and the wildcard grant
permits the scan. -/
theorem combination_permits_more : ∃ result,
    intersectQueryPolicies (fun _ => 0) id (operatorPolicy anyAbove []) (operatorPolicy nameEqual []) = .ok result ∧
    queryAllowed nameAbove (operatorPolicy nameEqual []) = false ∧ queryAllowed nameAbove result = true :=
  ⟨_,rfl,by decide,by decide⟩

def alsoNameAbove : OperatorGrants := ⟨[(nameField,some [compareName .gt]),(wildcard,some [compareName .gt])],by decide⟩

/-- The entry for `n` is lost, and grants what the wildcard does. -/
theorem intersection_permits_both_lost : ∃ result,
    intersectQueryPolicies (fun _ => 0) id (operatorPolicy anyAbove []) (operatorPolicy alsoNameAbove []) = .ok result ∧
    queryAllowed nameAbove result = true ∧
    ∀ path operator, filterOperatorAllowed path operator result =
      (filterOperatorAllowed path operator (operatorPolicy anyAbove []) &&
      filterOperatorAllowed path operator (operatorPolicy alsoNameAbove [])) := by
  have hbase (path : Bytes) : anyAbove.forPath path = some [compareName .gt] := by
    simp only [OperatorGrants.forPath,anyAbove,find]
    split_ifs <;> rfl
  have hadditional (path : Bytes) : alsoNameAbove.forPath path = some [compareName .gt] := by
    simp only [OperatorGrants.forPath,alsoNameAbove,find]
    split_ifs <;> rfl
  refine ⟨_,rfl,by decide,((intersection_permits_both (fun _ => 0) id _ _ _ rfl).mp ?_).2.1⟩
  intro b a _ hb _ ha path _ operator
  cases hb
  cases ha
  simp only [OperatorGrants.common,hbase,hadditional]

end Meldbase.Server
