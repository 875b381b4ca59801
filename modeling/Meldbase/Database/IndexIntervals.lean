import Meldbase.Database.QueryPlan

/-! # What planned intervals cover

A filter that a document matches says where the document's keys lie: at the
values of its equalities, within the bounds of its ranges, and behind the
components of a compound prefix.  The results are about one document that its
indexes accept, under the assumption that values compare as their encoded keys do.
-/
namespace Meldbase.Database
open List Option Outcome
open PrefixOrder

/-! ### Coverage -/

def IndexScanSpan.covers (span : IndexScanSpan) (key : Bytes) : Prop :=
  (span.start ≠ [] → span.start ≤ key) ∧ (span.stop ≠ [] → key < span.stop)

/-- On these values `compareValues` agrees with the order of the encoded keys. -/
def KeysAgree (values : Set Value) : Prop :=
  ∀ a ∈ values, ∀ b ∈ values, ∀ ka kb, encodeIndexKey a = some ka → encodeIndexKey b = some kb →
    compareValues a b = some (threeWay ka kb)

mutual
def Expr.operands : Expr → List Value
  | .compare _ _ value => [value]
  | .membership _ _ values => values
  | .logical _ args => operandsOf args
  | _ => []
def operandsOf : List Expr → List Value
  | [] => []
  | e::es => e.operands ++ operandsOf es

end

variable {v : Value}

/-! ### What a match says about one field -/

section
variable {path : Bytes} {d : Document}

mutual
theorem equalityCandidate_sound : ∀ (e : Expr) {value : Value}, equalityCandidate path e = some value →
    matchExpression e d = true →
    value ∈ e.operands ∧ ∃ v, lookupInternal d path = some v ∧ fieldEquals v value = true
  | .compare op p w,value,h,hm => by
    cases op <;> simp only [equalityCandidate,reduceCtorEq] at h
    split_ifs at h with hp
    cases h
    subst hp
    simp only [matchExpression] at hm
    cases hv : lookupInternal d p with
    | none => simp [hv] at hm
    | some v =>
      rw [hv] at hm
      exact ⟨by simp [Expr.operands],v,rfl,hm⟩
  | .logical .and args,value,h,hm => by
    rw [equalityCandidate] at h
    rw [matchExpression] at hm
    exact equalityCandidates_sound args h hm
  | .logical .or args,value,h,_ => by simp [equalityCandidate] at h
  | .true,_,h,_ | .not _,_,h,_ | .membership _ _ _,_,h,_ | .exists _ _,_,h,_ | .size _ _,_,h,_ | .type _ _,_,h,_
  | .all _ _,_,h,_ | .elemMatchScalar _ _,_,h,_ | .elemMatchObject _ _,_,h,_ => by simp [equalityCandidate] at h

theorem equalityCandidates_sound : ∀ (args : List Expr) {value : Value}, equalityCandidates path args = some value →
    matchEvery args d = true →
    value ∈ operandsOf args ∧ ∃ v, lookupInternal d path = some v ∧ fieldEquals v value = true
  | [],_,h,_ => by simp [equalityCandidates] at h
  | e::es,value,h,hm => by
    rw [matchEvery,Bool.and_eq_true] at hm
    rw [equalityCandidates] at h
    cases he : equalityCandidate path e with
    | some w =>
      rw [he] at h
      cases h
      obtain ⟨hop,hv⟩ := equalityCandidate_sound e he hm.1
      exact ⟨mem_append_left _ hop,hv⟩
    | none =>
      rw [he] at h
      obtain ⟨hop,hv⟩ := equalityCandidates_sound es h hm.2
      exact ⟨mem_append_right _ hop,hv⟩

end

mutual
theorem indexValuesCandidateExpr_sound : ∀ (e : Expr) {values : List Value},
    indexValuesCandidateExpr path e = some values →
    (∀ w ∈ values, w ∈ e.operands) ∧
      (matchExpression e d = true → ∃ v, lookupInternal d path = some v ∧ ∃ w ∈ values, fieldEquals v w = true)
  | .compare op p w,values,h => by
    cases op <;> simp only [indexValuesCandidateExpr,reduceCtorEq] at h
    split_ifs at h with hp
    cases h
    subst hp
    refine ⟨by simp [Expr.operands],fun hm => ?_⟩
    simp only [matchExpression] at hm
    cases hv : lookupInternal d p with
    | none => simp [hv] at hm
    | some v =>
      rw [hv] at hm
      exact ⟨v,rfl,w,by simp,hm⟩
  | .membership op p ws,values,h => by
    cases op <;> simp only [indexValuesCandidateExpr,reduceCtorEq] at h
    split_ifs at h with hp
    cases h
    subst hp
    refine ⟨fun w hw => hw,fun hm => ?_⟩
    simp only [matchExpression] at hm
    cases hv : lookupInternal d p with
    | none => simp [hv,matchMembership] at hm
    | some v =>
      rw [hv] at hm
      obtain ⟨w,hw,hmatch⟩ := any_eq_true.mp hm
      exact ⟨v,rfl,w,hw,hmatch⟩
  | .logical .and args,values,h => by
    rw [indexValuesCandidateExpr] at h
    rw [matchExpression]
    exact indexValuesConjunct_sound args h
  | .logical .or args,values,h => by
    rw [indexValuesCandidateExpr] at h
    rw [matchExpression]
    exact indexValuesDisjunct_sound args h
  | .true,_,h | .not _,_,h | .exists _ _,_,h | .size _ _,_,h | .type _ _,_,h | .all _ _,_,h
  | .elemMatchScalar _ _,_,h | .elemMatchObject _ _,_,h => by simp [indexValuesCandidateExpr] at h

theorem indexValuesConjunct_sound : ∀ (args : List Expr) {values : List Value},
    indexValuesConjunct path args = some values →
    (∀ w ∈ values, w ∈ operandsOf args) ∧
      (matchEvery args d = true → ∃ v, lookupInternal d path = some v ∧ ∃ w ∈ values, fieldEquals v w = true)
  | [],_,h => by simp [indexValuesConjunct] at h
  | e::es,values,h => by
    rw [indexValuesConjunct] at h
    rw [matchEvery,Bool.and_eq_true,operandsOf]
    cases he : indexValuesCandidateExpr path e with
    | some ws =>
      rw [he] at h
      cases h
      obtain ⟨hop,hv⟩ := indexValuesCandidateExpr_sound e he
      exact ⟨fun w hw => mem_append_left _ (hop w hw),fun hm => hv hm.1⟩
    | none =>
      rw [he] at h
      obtain ⟨hop,hv⟩ := indexValuesConjunct_sound es h
      exact ⟨fun w hw => mem_append_right _ (hop w hw),fun hm => hv hm.2⟩

theorem indexValuesDisjunct_sound : ∀ (args : List Expr) {values : List Value},
    indexValuesDisjunct path args = some values →
    (∀ w ∈ values, w ∈ operandsOf args) ∧
      (matchSome args d = true → ∃ v, lookupInternal d path = some v ∧ ∃ w ∈ values, fieldEquals v w = true)
  | [],_,h => by
    cases h
    simp [matchSome]
  | e::es,values,h => by
    rw [indexValuesDisjunct] at h
    rw [matchSome,Bool.or_eq_true,operandsOf]
    cases he : indexValuesCandidateExpr path e with
    | none =>
      rw [he] at h
      cases h
    | some ws =>
      rw [he] at h
      obtain ⟨rest,hrest,rfl⟩ := map_eq_some_iff.mp h
      obtain ⟨hop,hv⟩ := indexValuesCandidateExpr_sound e he
      obtain ⟨hops,hvs⟩ := indexValuesDisjunct_sound es hrest
      refine ⟨fun w hw => ?_,fun hm => ?_⟩
      · rcases mem_append.mp hw with hw | hw
        · exact mem_append_left _ (hop w hw)
        · exact mem_append_right _ (hops w hw)
      rcases hm with hm | hm
      · obtain ⟨v,hlook,w,hw,heq⟩ := hv hm
        exact ⟨v,hlook,w,mem_append_left _ hw,heq⟩
      · obtain ⟨v,hlook,w,hw,heq⟩ := hvs hm
        exact ⟨v,hlook,w,mem_append_right _ hw,heq⟩

end
end

/-! ### Distinct values -/

theorem mapM_eq_some_mem {α β : Type} {f : α → Option β} {as : List α} {bs : List β} (h : as.mapM f = some bs) :
    (∀ a ∈ as, ∃ b ∈ bs, f a = some b) ∧ ∀ b ∈ bs, ∃ a ∈ as, f a = some b := by
  induction as generalizing bs with
  | nil =>
    cases h
    simp
  | cons x as ih =>
    rw [mapM_cons] at h
    obtain ⟨y,hy,h⟩ := bind_eq_some_iff.mp h
    obtain ⟨ys,hys,h⟩ := bind_eq_some_iff.mp h
    cases h
    obtain ⟨hto,hfrom⟩ := ih hys
    constructor
    · rintro a (_ | ⟨_,ha⟩)
      · exact ⟨y,mem_cons_self,hy⟩
      · exact (hto a ha).imp (fun b hb => ⟨mem_cons_of_mem y hb.1,hb.2⟩)
    rintro b (_ | ⟨_,hb⟩)
    · exact ⟨x,mem_cons_self,hy⟩
    · exact (hfrom b hb).imp (fun a ha => ⟨mem_cons_of_mem x ha.1,ha.2⟩)

variable {values : List Value} {expression : Expr} {d : Document}

theorem foldlM_addEncodedValue (h : values.foldlM addEncodedValue acc = some unique) :
    (∀ e ∈ unique, e ∈ acc ∨ e.1 ∈ values ∧ encodeIndexKey e.1 = some e.2) ∧ (∀ e ∈ acc, e ∈ unique) ∧
      ∀ w ∈ values, ∃ k, encodeIndexKey w = some k ∧ ∃ w', (w',k) ∈ unique := by
  induction values generalizing acc with
  | nil =>
    cases h
    exact ⟨fun e he => .inl he,fun e he => he,by simp⟩
  | cons w values ih =>
    rw [foldlM_cons] at h
    obtain ⟨acc',hw,h⟩ := bind_eq_some_iff.mp h
    unfold addEncodedValue at hw
    cases hk : encodeIndexKey w with
    | none =>
      rw [hk] at hw
      cases hw
    | some k =>
      rw [hk] at hw
      cases hw
      obtain ⟨hfrom,hkept,hall⟩ := ih h
      have hin : ∃ w', (w',k) ∈ (if acc.any (fun e => e.2 = k) then acc else acc ++ [(w,k)]) := by
        split_ifs with hany
        · obtain ⟨⟨w',k'⟩,he,hk'⟩ := any_eq_true.mp hany
          obtain rfl : k' = k := of_decide_eq_true hk'
          exact ⟨w',he⟩
        · exact ⟨w,by simp⟩
      refine ⟨fun e he => ?_,fun e he => hkept e ?_,fun v hv => ?_⟩
      · rcases hfrom e he with he | ⟨he,hek⟩
        · split_ifs at he
          · exact .inl he
          rcases mem_append.mp he with he | he
          · exact .inl he
          · obtain rfl : e = (w,k) := by simpa using he
            exact .inr ⟨mem_cons_self,hk⟩
        · exact .inr ⟨mem_cons_of_mem w he,hek⟩
      · split_ifs
        · exact he
        · exact mem_append_left _ he
      rcases mem_cons.mp hv with rfl | hv
      · obtain ⟨w',hw'⟩ := hin
        exact ⟨k,hk,w',hkept _ hw'⟩
      · exact hall v hv

theorem encodedIndexValuesCandidate_sound (h : encodedIndexValuesCandidate expression path = some candidates) :
    (∀ e ∈ candidates, e.1 ∈ expression.operands ∧ encodeIndexKey e.1 = some e.2) ∧
      ∀ d, matchExpression expression d = true → ∃ v, lookupInternal d path = some v ∧
        ∃ w ∈ expression.operands, fieldEquals v w = true ∧ ∃ k, encodeIndexKey w = some k ∧ ∃ w', (w',k) ∈ candidates := by
  obtain ⟨values,hvalues,hfold⟩ := bind_eq_some_iff.mp h
  obtain ⟨hfrom,-,hall⟩ := foldlM_addEncodedValue hfold
  refine ⟨fun e he => ?_,fun d hm => ?_⟩
  · rcases hfrom e he with he | ⟨he,hk⟩
    · cases he
    · exact ⟨(indexValuesCandidateExpr_sound (d := []) expression hvalues).1 _ he,hk⟩
  obtain ⟨hops,hmatch⟩ := indexValuesCandidateExpr_sound (d := d) expression hvalues
  obtain ⟨v,hv,w,hw,heq⟩ := hmatch hm
  exact ⟨v,hv,w,hops w hw,heq,hall w hw⟩

/-! ### Ranges -/

def IndexBound.admits (bound : IndexBound) (direction : Ordering) (v : Value) : Prop :=
  compareValues v bound.value = some direction ∨ compareValues v bound.value = some .eq ∧ bound.inclusive = true

/-- The value lies on that side of the bound in the order of the keys. -/
def IndexBound.permits (bound : IndexBound) (side : Ordering) (v : Value) : Prop :=
  ∃ kv kb, encodeIndexKey v = some kv ∧ encodeIndexKey bound.value = some kb ∧
    (threeWay kv kb = side ∨ threeWay kv kb = .eq ∧ bound.inclusive = true)

/-- The value lies within the bounds. -/
def InBounds (lower upper : Option IndexBound) (v : Value) : Prop :=
  (∀ b, lower = some b → b.permits .gt v) ∧ ∀ b, upper = some b → b.permits .lt v
def BoundSound (operands : List Value) (path : Bytes) (d : Document) (side : Ordering) (bound : Option IndexBound) : Prop :=
  ∀ b, bound = some b → b.value ∈ operands ∧ (encodeIndexKey b.value).isSome ∧ ∃ v, lookupInternal d path = some v ∧
    b.admits side v

/-- What the bounds found so far say of a document that matches. -/
structure RangeSound (operands : List Value) (path : Bytes) (d : Document) (range : RangeCandidate) : Prop where
  present : range.found = true → ∃ v, lookupInternal d path = some v
  lower : BoundSound operands path d .gt range.lower
  upper : BoundSound operands path d .lt range.upper

theorem BoundSound.tighten
    (h : BoundSound operands path d side current) (hcandidate : BoundSound operands path d side (some candidate)) :
    BoundSound operands path d side (tightenBound side current candidate) := by
  unfold tightenBound
  split
  · exact hcandidate
  split
  · split_ifs
    · exact hcandidate
    · exact h
  · exact h

theorem visitCompare_sound {range range' : RangeCandidate} (h : visitCompare op value range = some range')
    (hr : RangeSound operands path d range) (hop : value ∈ operands) (hv : lookupInternal d path = some v)
    (hm : matchCompare op v value = true) : RangeSound operands path d range' := by
  unfold visitCompare at h
  split_ifs at h with heq hkey hlow
  · cases h
    exact hr
  all_goals
    cases h
    have hkey : (encodeIndexKey value).isSome := by simpa [isNone_iff_eq_none,isSome_iff_ne_none] using hkey
  · refine ⟨fun _ => ⟨v,hv⟩,hr.lower.tighten (fun b hb => ?_),hr.upper⟩
    cases hb
    refine ⟨hop,hkey,v,hv,?_⟩
    unfold IndexBound.admits
    cases op <;> simp_all [matchCompare]
  refine ⟨fun _ => ⟨v,hv⟩,hr.lower,hr.upper.tighten (fun b hb => ?_)⟩
  cases hb
  refine ⟨hop,hkey,v,hv,?_⟩
  unfold IndexBound.admits
  cases op <;> simp_all [matchCompare]

section
variable {path : Bytes} {d : Document} {operands : List Value}

mutual
theorem visitRange_sound : ∀ (e : Expr) {range range' : RangeCandidate}, visitRange path e range = some range' →
    RangeSound operands path d range → (∀ v ∈ e.operands, v ∈ operands) → matchExpression e d = true →
    RangeSound operands path d range'
  | .compare op p value,range,range',h,hr,hop,hm => by
    rw [visitRange] at h
    split_ifs at h with hp
    · subst hp
      have hvalue : value ∈ operands := hop value (by simp [Expr.operands])
      simp only [matchExpression] at hm
      cases hv : lookupInternal d p with
      | none =>
        have hne : op = .ne := by simpa [hv] using hm
        rw [hne,visitCompare,if_pos (.inr rfl)] at h
        cases h
        exact hr
      | some v =>
        rw [hv] at hm
        exact visitCompare_sound h hr hvalue hv hm
    · cases h
      exact hr
  | .logical .and args,range,range',h,hr,hop,hm => by
    rw [visitRange] at h
    rw [matchExpression] at hm
    exact visitRanges_sound args h hr hop hm
  | .logical .or args,range,range',h,hr,_,_ => by
    simp only [visitRange,some.injEq] at h
    exact h ▸ hr
  | .true,range,range',h,hr,_,_ | .not _,range,range',h,hr,_,_ | .membership _ _ _,range,range',h,hr,_,_
  | .exists _ _,range,range',h,hr,_,_ | .size _ _,range,range',h,hr,_,_ | .type _ _,range,range',h,hr,_,_
  | .all _ _,range,range',h,hr,_,_ | .elemMatchScalar _ _,range,range',h,hr,_,_
  | .elemMatchObject _ _,range,range',h,hr,_,_ => by
    simp only [visitRange,some.injEq] at h
    exact h ▸ hr

theorem visitRanges_sound : ∀ (args : List Expr) {range range' : RangeCandidate},
    visitRanges path args range = some range' → RangeSound operands path d range →
    (∀ v ∈ operandsOf args, v ∈ operands) → matchEvery args d = true → RangeSound operands path d range'
  | [],range,range',h,hr,_,_ => by
    cases h
    exact hr
  | e::es,range,range',h,hr,hop,hm => by
    rw [matchEvery,Bool.and_eq_true] at hm
    rw [visitRanges] at h
    obtain ⟨mid,he,h⟩ := bind_eq_some_iff.mp h
    have hmid := visitRange_sound e he hr (fun v hv => hop v (mem_append_left _ hv)) hm.1
    exact visitRanges_sound es h hmid (fun v hv => hop v (mem_append_right _ hv)) hm.2

end
end

variable {lower upper : Option IndexBound} {fields : List IndexField} {vs : List Value} {key : Bytes}
  {definition : IndexDefinition} {f : IndexField}

theorem rangeCandidate_sound
    (h : rangeCandidate expression path = some (lower,upper)) (hm : matchExpression expression d = true) :
    ∃ v, lookupInternal d path = some v ∧
      (∀ b, lower = some b → b.value ∈ expression.operands ∧ (encodeIndexKey b.value).isSome ∧ b.admits .gt v) ∧
      ∀ b, upper = some b → b.value ∈ expression.operands ∧ (encodeIndexKey b.value).isSome ∧ b.admits .lt v := by
  unfold rangeCandidate at h
  split at h
  · cases h
  rename_i range hvisit
  split_ifs at h with hfound
  obtain ⟨rfl,rfl⟩ := Prod.mk.inj (some.inj h)
  have hsound : RangeSound expression.operands path d range :=
    visitRange_sound expression hvisit ⟨by simp,nofun,nofun⟩ (fun v hv => hv) hm
  obtain ⟨v,hv⟩ := hsound.present hfound
  refine ⟨v,hv,fun b hb => ?_,fun b hb => ?_⟩
  · obtain ⟨hop,hkey,w,hw,hadm⟩ := hsound.lower b hb
    rw [hv] at hw
    cases hw
    exact ⟨hop,hkey,hadm⟩
  obtain ⟨hop,hkey,w,hw,hadm⟩ := hsound.upper b hb
  rw [hv] at hw
  cases hw
  exact ⟨hop,hkey,hadm⟩

/-! ### The key of a document -/

theorem presentValues_mem (h : v ∈ presentValues d fields) :
    ∃ f ∈ fields, lookupInternal d f.field = some v := by
  induction fields with
  | nil => simp [presentValues] at h
  | cons f fs ih =>
    rw [presentValues] at h
    cases hf : lookupInternal d f.field with
    | none => simp [hf] at h
    | some w =>
      rw [hf] at h
      rcases mem_cons.mp h with rfl | h
      · exact ⟨f,mem_cons_self,hf⟩
      · obtain ⟨g,hg,hv⟩ := ih h
        exact ⟨g,mem_cons_of_mem f hg,hv⟩

theorem presentValues_length_le (d : Document) (fields : List IndexField) :
    (presentValues d fields).length ≤ fields.length := by
  induction fields with
  | nil => simp [presentValues]
  | cons f fs ih =>
    rw [presentValues]
    split
    · simp
    · simpa using ih

theorem presentValues_drop (h : n ≤ (presentValues d fields).length) :
    (presentValues d fields).drop n = presentValues d (fields.drop n) := by
  induction n generalizing fields with
  | zero => rfl
  | succ n ih =>
    cases fields with
    | nil => simp [presentValues] at h
    | cons f fs =>
      rw [presentValues] at h ⊢
      cases hf : lookupInternal d f.field with
      | none => simp [hf] at h
      | some v =>
        rw [hf] at h
        exact ih (by simpa using h)

theorem indexComponents_append (hlen : vs.length = fs.length)
    (h : indexComponents (vs ++ ws) (fs ++ gs) = some key) :
    ∃ a b, indexComponents vs fs = some a ∧ indexComponents ws gs = some b ∧ key = a ++ b := by
  induction vs generalizing fs key with
  | nil =>
    obtain rfl := eq_nil_of_length_eq_zero hlen.symm
    exact ⟨[],key,rfl,h,rfl⟩
  | cons v vs ih =>
    cases fs with
    | nil => simp at hlen
    | cons f fs =>
      rw [cons_append,cons_append,indexComponents] at h
      obtain ⟨c,hc,h⟩ := bind_eq_some_iff.mp h
      obtain ⟨rest,hrest,h⟩ := bind_eq_some_iff.mp h
      obtain ⟨a,b,ha,hb,rfl⟩ := ih (by simpa using hlen) hrest
      refine ⟨c ++ a,b,?_,hb,by simpa using (some.inj h).symm⟩
      rw [indexComponents,hc,ha]
      rfl

theorem indexComponents_encodable (hlen : vs.length = fs.length)
    (h : indexComponents vs fs = some key) : ∀ v ∈ vs, (encodeIndexKey v).isSome := by
  induction vs generalizing fs key with
  | nil => simp
  | cons v vs ih =>
    cases fs with
    | nil => simp at hlen
    | cons f fs =>
      rw [indexComponents] at h
      obtain ⟨c,hc,h⟩ := bind_eq_some_iff.mp h
      obtain ⟨rest,hrest,-⟩ := bind_eq_some_iff.mp h
      intro w hw
      rcases mem_cons.mp hw with rfl | hw
      · unfold indexComponent at hc
        split_ifs at hc
        all_goals
          obtain ⟨k,hk,-⟩ := map_eq_some_iff.mp hc
          simp [hk]
      · exact ih (by simpa using hlen) hrest w hw

theorem indexComponents_congr (h : vs.map encodeIndexKey = ws.map encodeIndexKey) :
    indexComponents vs fs = indexComponents ws fs := by
  induction vs generalizing ws fs with
  | nil => rw [map_eq_nil_iff.mp h.symm]
  | cons v vs ih =>
    obtain ⟨w,ws,rfl,hw,hws⟩ := map_eq_cons_iff.mp h.symm
    cases fs with
    | nil => rfl
    | cons f fs => rw [indexComponents,indexComponents,indexComponent,indexComponent,hw,ih hws.symm]

theorem encodeCompoundIndexKey_eq (h : encodeCompoundIndexKey values fields = some key) :
    values.length = fields.length ∧ indexComponents values fields = some key := by
  unfold encodeCompoundIndexKey at h
  split_ifs at h with hbad
  obtain ⟨k,hk,h⟩ := bind_eq_some_iff.mp h
  split_ifs at h
  cases h
  exact ⟨by_contra (fun hne => hbad (.inr (.inl hne))),hk⟩

/-- A document with a leading field is listed under its components, and a marker
with its id when later fields are missing. -/
theorem indexDocumentKey_compound (h : indexDocumentKey definition d = .ok r) (hc : usesCompoundIndexCodec definition)
    (hne : presentValues d definition.fields ≠ []) :
    ∃ components tail, r = some (components ++ tail) ∧
      indexComponents (presentValues d definition.fields)
        (definition.fields.take (presentValues d definition.fields).length) = some components ∧
      if (presentValues d definition.fields).length < definition.fields.length then
        ∃ rest, tail = compoundPartialMarker :: rest else tail = [] := by
  unfold indexDocumentKey at h
  dsimp only at h
  split_ifs at h with hnil hless hskip
  · rcases hskip with hskip | hskip
    · exact absurd hskip hne
    · simp [hc] at hskip
  · split at h
    · cases h
    rename_i id hid
    split at h
    · cases h
    rename_i key hkey
    cases h
    unfold encodeCompoundPartialIndexKey at hkey
    split_ifs at hkey
    obtain ⟨k,hk,hkey⟩ := bind_eq_some_iff.mp hkey
    split_ifs at hkey
    cases hkey
    exact ⟨k,compoundPartialMarker::id.val,rfl,(encodeCompoundIndexKey_eq hk).2,by rw [if_pos hless]; exact ⟨id.val,rfl⟩⟩
  have hfull : (presentValues d definition.fields).length = definition.fields.length :=
    le_antisymm (presentValues_length_le d _) (not_lt.mp hless)
  split at h
  · cases h
  rename_i key hkey
  cases h
  rw [hfull,take_length]
  exact ⟨key,[],by simp,(encodeCompoundIndexKey_eq hkey).2,by rw [if_neg (lt_irrefl _)]⟩

theorem scalar_definition_fields (hc : usesCompoundIndexCodec definition = false) :
    ∃ f, definition.fields = [f] := by
  unfold usesCompoundIndexCodec at hc
  split at hc
  · rename_i f hf
    exact ⟨f,hf⟩
  · cases hc

theorem indexDocumentKey_scalar (h : indexDocumentKey definition d = .ok r) (hc : usesCompoundIndexCodec definition = false)
    (hf : definition.fields = [f]) (hv : lookupInternal d f.field = some v) :
    ∃ key, r = some key ∧ encodeIndexKey v = some key := by
  have hp : presentValues d definition.fields = [v] := by rw [hf,presentValues,hv,presentValues]
  unfold indexDocumentKey at h
  rw [hp,hf] at h
  simp only [reduceCtorEq,if_false,length_cons,length_nil,lt_irrefl,hc,Bool.false_eq_true,List.head?_cons,
    bind_some] at h
  cases hk : encodeIndexKey v with
  | none => simp [hk] at h
  | some key =>
    rw [hk] at h
    cases h
    exact ⟨key,rfl,rfl⟩

/-! ### Keys of values that compare -/

section
variable {values : Set Value} (hagree : KeysAgree values) {v w : Value} (hv : v ∈ values) (hw : w ∈ values)
include hagree hv hw

theorem encodeIndexKey_eq_of_fieldEquals (hvk : (encodeIndexKey v).isSome) (hwk : (encodeIndexKey w).isSome)
    (h : fieldEquals v w = true) : encodeIndexKey v = encodeIndexKey w := by
  obtain ⟨kv,hkv⟩ := isSome_iff_exists.mp hvk
  obtain ⟨kw,hkw⟩ := isSome_iff_exists.mp hwk
  have hs := scalarKind_of_encodeIndexKey hkv
  rw [fieldEquals_scalar hs] at h
  have hcmp := hagree v hv w hw kv kw hkv hkw
  rw [compareValues_of_equal h hs] at hcmp
  rw [hkv,hkw,(cmp_eq_eq_iff kv kw).mp (some.inj hcmp).symm]

end

/-! ### Keys and the ends of an interval -/

/-- Where a key stands to the ends of an interval. -/
structure Delimits (span : IndexScanSpan) (key : Bytes) (low high : Ordering) : Prop where
  start : Placed low key span.start
  stop : Under high key span.stop

variable {span : IndexScanSpan}

theorem Delimits.covers_iff (h : Delimits span key low high) :
    span.covers key ↔ low ≠ .lt ∧ high = .lt := by
  have hstop := h.stop
  unfold Under at hstop
  refine and_congr ?_ ?_
  · rw [← h.start.le_iff]
    refine ⟨fun hle => ?_,fun hle _ => hle⟩
    by_cases hs : span.start = []
    · exact hs ▸ not_lt.mp (not_lt_nil key)
    · exact hle hs
  split_ifs at hstop with hs
  · exact iff_of_true (fun hne => absurd hs hne) hstop
  · rw [← not_le,hstop.le_iff,not_not]
    exact ⟨fun hlt => hlt hs,fun hlt _ => hlt⟩

theorem covers_of_extends (exact : Bool) (h : leading <+: key) :
    (⟨leading,(indexKeyPrefixEnd leading).getD [],exact⟩ : IndexScanSpan).covers key := by
  obtain ⟨high,hhigh,hiff⟩ := placed_prefixEnd_getD (o := .eq) h
  have hdelimits : Delimits ⟨leading,(indexKeyPrefixEnd leading).getD [],exact⟩ key .eq high := ⟨h,hhigh⟩
  exact hdelimits.covers_iff.mpr ⟨nofun,hiff.mpr nofun⟩

theorem permits_iff {b : IndexBound} (hkv : encodeIndexKey v = some kv)
    (hkb : encodeIndexKey b.value = some kb) :
    b.permits side v ↔ threeWay kv kb = side ∨ threeWay kv kb = .eq ∧ b.inclusive = true := by
  simp [IndexBound.permits,hkv,hkb]

/-! ### Single-field intervals -/

section
variable {lower upper : Option IndexBound} (hkey : encodeIndexKey v = some key)
include hkey

theorem encodeIndexKey_placed (hkw : encodeIndexKey w = some kw) : Placed (threeWay key kw) key kw := by
  have hv := encodeIndexKey_scalar hkey
  have hw := encodeIndexKey_scalar hkw
  cases ho : threeWay key kw with
  | lt => exact scalarKey_prefixFree.diverges hv hw ((cmp_eq_lt_iff _ _).mp ho)
  | eq => exact (cmp_eq_eq_iff _ _).mp ho ▸ prefix_refl _
  | gt => exact scalarKey_prefixFree.diverges hw hv ((cmp_eq_gt_iff _ _).mp ho)

theorem lowerBoundKey_placed {start : Option Bytes} (h : lowerBoundKey lower = .ok start) :
    ∃ s low, start = some s ∧ Placed low key s ∧ (low ≠ .lt ↔ ∀ b, lower = some b → b.permits .gt v) := by
  cases lower with
  | none =>
    cases h
    exact ⟨[],.eq,rfl, nil_prefix,by simp⟩
  | some b =>
    rw [lowerBoundKey] at h
    split at h
    · cases h
    rename_i kb hkb
    obtain ⟨tag,rest,rfl,-,htag⟩ := (encodeIndexKey_scalar hkb).tag
    obtain ⟨s,low,hs,-,hlow,hiff⟩ := placed_lowerEnd (encodeIndexKey_placed hkey hkb) b.inclusive mem_cons_self
      (by rintro rfl; exact absurd htag (by decide))
    rw [hs] at h
    cases h
    exact ⟨s,low,rfl,hlow,by simp [hiff,permits_iff hkey hkb]⟩

theorem upperBoundKey_under {stop : Bytes} (h : upperBoundKey upper = .ok stop) :
    ∃ high, Under high key stop ∧ (high = .lt ↔ ∀ b, upper = some b → b.permits .lt v) := by
  cases upper with
  | none =>
    cases h
    exact ⟨.lt,rfl,by simp⟩
  | some b =>
    rw [upperBoundKey] at h
    split at h
    · cases h
    rename_i kb hkb
    obtain ⟨tag,rest,htag,-⟩ := (encodeIndexKey_scalar hkb).tag
    obtain ⟨high,hhigh,hiff⟩ := placed_upperEnd (encodeIndexKey_placed hkey hkb) b.inclusive (by simp [htag])
    cases h
    exact ⟨high,hhigh,by simp [hiff,permits_iff hkey hkb]⟩

theorem storageIndexBounds_delimits (h : storageIndexBounds lower upper = .ok r) :
    match r with
    | some (start,stop) => ∃ low high, Delimits ⟨start,stop,false⟩ key low high ∧
        (low ≠ .lt ∧ high = .lt ↔ InBounds lower upper v)
    | none => ¬ InBounds lower upper v := by
  unfold storageIndexBounds at h
  obtain ⟨low,hlow,h⟩ := bind_eq_ok.mp h
  obtain ⟨start,low,rfl,hstart,hlower⟩ := lowerBoundKey_placed hkey hlow
  obtain ⟨stop,hstop,h⟩ := bind_eq_ok.mp h
  obtain ⟨high,hunder,hupper⟩ := upperBoundKey_under hkey hstop
  have hdelimits : Delimits ⟨start,stop,false⟩ key low high := ⟨hstart,hunder⟩
  have hiff : low ≠ .lt ∧ high = .lt ↔ InBounds lower upper v := and_congr hlower hupper
  split_ifs at h with hempty
  · cases h
    intro hin
    obtain ⟨hle,hlt⟩ := hdelimits.covers_iff.mpr (hiff.mpr hin)
    exact absurd ((hle hempty.1).trans_lt (hlt hempty.2.1)) (not_lt.mpr hempty.2.2)
  · cases h
    exact ⟨low,high,hdelimits,hiff⟩

theorem storageIndexBounds_covers (h : storageIndexBounds lower upper = .ok r)
    (hin : InBounds lower upper v) : ∃ start stop, r = some (start,stop) ∧ (⟨start,stop,false⟩ : IndexScanSpan).covers key := by
  have hdelimits := storageIndexBounds_delimits hkey h
  cases r with
  | none => exact absurd hin hdelimits
  | some r =>
    obtain ⟨low,high,hd,hiff⟩ := hdelimits
    exact ⟨r.1,r.2,rfl,hd.covers_iff.mpr (hiff.mpr hin)⟩

end

/-! ### Compound intervals -/

theorem leadingEqualities_sound (hm : matchExpression expression d = true)
    (h : leadingEqualities expression fields = some equalities) :
    ∃ vs, presentValues d fields = vs ++ presentValues d (fields.drop equalities.length) ∧
      Forall₂ (fun v w => fieldEquals v w = true ∧ w ∈ expression.operands ∧ (encodeIndexKey w).isSome) vs equalities := by
  induction fields generalizing equalities with
  | nil =>
    cases h
    exact ⟨[],by simp,.nil⟩
  | cons f fs ih =>
    rw [leadingEqualities] at h
    cases heq : equalityCandidate f.field expression with
    | none =>
      rw [heq] at h
      cases h
      exact ⟨[],by simp,.nil⟩
    | some w =>
      rw [heq] at h
      dsimp only at h
      split_ifs at h with hk
      obtain ⟨rest,hrest,rfl⟩ := map_eq_some_iff.mp h
      obtain ⟨hop,v,hv,hvw⟩ := equalityCandidate_sound expression heq hm
      obtain ⟨vs,hvs,hall⟩ := ih hrest
      refine ⟨v::vs,?_,.cons ⟨hvw,hop,?_⟩ hall⟩
      · rw [presentValues,hv,length_cons,drop_succ_cons,cons_append,← hvs]
      · simpa [isNone_iff_eq_none,isSome_iff_ne_none] using hk

theorem indexComponent_key (h : indexComponent f v = some c) :
    ∃ k, encodeIndexKey v = some k ∧
      (f.order = 1 ∧ c = escapeIndexBytes k ∨ f.order = -1 ∧ c = (escapeIndexBytes k).map invertByte) := by
  unfold indexComponent at h
  split_ifs at h with hbad hone
  · obtain ⟨k,hk,rfl⟩ := map_eq_some_iff.mp h
    exact ⟨k,hk,.inl ⟨hone,rfl⟩⟩
  obtain ⟨k,hk,rfl⟩ := map_eq_some_iff.mp h
  have hminus : f.order = -1 := by_contra (fun hne => hbad ⟨hone,hne⟩)
  exact ⟨k,hk,.inr ⟨hminus,descendingIndexComponent_eq k⟩⟩

theorem indexComponent_ordered (hkv : encodeIndexKey v = some kv)
    (hkw : encodeIndexKey w = some kw) (hcv : indexComponent f v = some cv) (hcw : indexComponent f w = some cw) :
    EncodedAs (if f.order = 1 then threeWay kv kw else (threeWay kv kw).swap) cv cw := by
  obtain ⟨kv',hkv',hv⟩ := indexComponent_key hcv
  obtain ⟨kw',hkw',hw⟩ := indexComponent_key hcw
  obtain rfl : kv = kv' := some.inj (hkv.symm.trans hkv')
  obtain rfl : kw = kw' := some.inj (hkw.symm.trans hkw')
  have h := encodedAs_cmp (fun _ _ => escapeIndexBytes_diverges) kv kw
  rcases hv with ⟨hone,rfl⟩ | ⟨hminus,rfl⟩
  · obtain rfl := (hw.resolve_right (fun h => by simp [hone] at h)).2
    rwa [if_pos hone]
  obtain rfl := (hw.resolve_left (fun h => by simp [hminus] at h)).2
  rw [if_neg (by omega)]
  exact h.map_strictAnti invertByte_strictAnti

theorem indexComponent_floor (h : indexComponent f v = some c) :
    ∃ b rest, c = b::rest ∧ compoundComponentFloor < b ∧ b < 255 := by
  obtain ⟨k,hk,hc⟩ := indexComponent_key h
  obtain ⟨tag,rest,rfl,hlow,hhigh⟩ := (encodeIndexKey_scalar hk).tag
  have hne : tag ≠ 0 := by
    rintro rfl
    exact absurd hlow (by decide)
  have hescape : escapeIndexBytes (tag::rest) = tag :: escapeIndexBytes rest := by rw [escapeIndexBytes,if_neg hne]
  rcases hc with ⟨-,rfl⟩ | ⟨-,rfl⟩
  · exact ⟨tag,_,hescape,lt_of_lt_of_le (by decide) hlow,lt_of_le_of_lt hhigh (by decide)⟩
  refine ⟨invertByte tag,_,by rw [hescape,map_cons],lt_of_lt_of_le (b := invertByte 0x70) (by decide) ?_,
    lt_of_le_of_lt (b := invertByte 0x10) ?_ (by decide)⟩
  · exact invertByte_strictAnti.antitone hhigh
  · exact invertByte_strictAnti.antitone hlow

theorem boundKey_eq {next : IndexField}
    (h : boundKey leading next bound = some key) : ∃ c, indexComponent next bound.value = some c ∧ key = leading ++ c := by
  obtain ⟨c,hc,rfl⟩ := map_eq_some_iff.mp h
  have hc := (encodeCompoundIndexKey_eq hc).2
  rw [indexComponents] at hc
  obtain ⟨a,ha,hc⟩ := bind_eq_some_iff.mp hc
  simp only [indexComponents,bind_eq_bind,bind_some,append_nil,some.injEq] at hc
  exact ⟨c,hc ▸ ha,rfl⟩

theorem component_ordered {next : IndexField} {b : IndexBound} (hcv : indexComponent next v = some cv)
    (hcb : indexComponent next b.value = some cb) : ∃ o, EncodedAs o cv cb ∧ ∀ side : Ordering,
      (b.permits (if next.order = -1 then side.swap else side) v ↔ o = side ∨ o = .eq ∧ b.inclusive = true) := by
  obtain ⟨kv,hkv,hsign⟩ := indexComponent_key hcv
  obtain ⟨kb,hkb,-⟩ := indexComponent_key hcb
  refine ⟨_,indexComponent_ordered hkv hkb hcv hcb,fun side => ?_⟩
  rw [permits_iff hkv hkb]
  rcases hsign with ⟨hone,-⟩ | ⟨hminus,-⟩
  · rw [if_neg (by omega),if_pos hone]
  · rw [if_pos hminus,if_neg (by omega)]
    cases threeWay kv kb <;> cases side <;> simp [Ordering.swap]

/-- Where a key stands to the component of a bound, or to a cut when there is none. -/
def PlacedAt (o : Ordering) (key leading : Bytes) (next : IndexField) (bound : Option IndexBound) (cut : Bytes) : Prop :=
  match bound with
  | some b => ∀ c, indexComponent next b.value = some c → Placed o key (leading ++ c)
  | none => Placed o key cut
def Within (side o : Ordering) (bound : Option IndexBound) : Prop := o = side ∨ o = .eq ∧ ∀ b ∈ bound, b.inclusive = true

section
variable {leading : Bytes} {next : IndexField} {bound : Option IndexBound} {o : Ordering}

theorem compoundStart_placed (h : compoundStart leading next bound = some r)
    (hbound : PlacedAt o key leading next bound (leading ++ [compoundComponentFloor])) :
    ∃ start low, r = some start ∧ start ≠ [] ∧ Placed low key start ∧ (low ≠ .lt ↔ Within .gt o bound) := by
  cases bound with
  | none =>
    cases h
    exact ⟨_,o,rfl,by simp,hbound,by cases o <;> simp [Within]⟩
  | some b =>
    obtain ⟨k,hk,h⟩ := map_eq_some_iff.mp h
    obtain ⟨c,hc,rfl⟩ := boundKey_eq hk
    obtain ⟨x,rest,rfl,-,hx⟩ := indexComponent_floor hc
    obtain ⟨start,low,hstart,hne,hlow,hiff⟩ := placed_lowerEnd (hbound _ hc) b.inclusive
      (mem_append_right leading mem_cons_self) hx.ne
    exact ⟨start,low,h.symm.trans hstart,hne,hlow,by simpa [Within] using hiff⟩

theorem compoundStop_under (h : compoundStop leading next bound = some stop)
    (hbound : PlacedAt o key leading next bound leading) : ∃ high, Under high key stop ∧ (high = .lt ↔ Within .lt o bound) := by
  cases bound with
  | none =>
    cases h
    obtain ⟨high,hhigh,hiff⟩ := placed_prefixEnd_getD hbound
    exact ⟨high,hhigh,by rw [hiff]; cases o <;> simp [Within]⟩
  | some b =>
    obtain ⟨k,hk,rfl⟩ := map_eq_some_iff.mp h
    obtain ⟨c,hc,rfl⟩ := boundKey_eq hk
    obtain ⟨x,rest,rfl,-⟩ := indexComponent_floor hc
    obtain ⟨high,hhigh,hiff⟩ := placed_upperEnd (hbound _ hc) b.inclusive (by simp)
    exact ⟨high,hhigh,by simpa [Within] using hiff⟩

/-- A key whose component lies on some side of the bound, or of the cut of an open end. -/
theorem component_placedAt (side : Ordering) (bound : Option IndexBound) {cv rest cut : Bytes}
    (hcv : indexComponent next v = some cv) (hside : side ≠ .eq)
    (hcut : Placed o (leading ++ (cv ++ rest)) cut) (ho : o = side ∨ o = .eq) :
    ∃ o, PlacedAt o (leading ++ (cv ++ rest)) leading next bound cut ∧
      (Within side o bound ↔ ∀ b, bound = some b → b.permits (if next.order = -1 then side.swap else side) v) := by
  cases bound with
  | none => exact ⟨o,hcut,by simpa [Within] using ho⟩
  | some b =>
    cases hcb : indexComponent next b.value with
    | some cb =>
      obtain ⟨o,hordered,hpermits⟩ := component_ordered hcv hcb
      refine ⟨o,fun c hc => ?_,by simp [Within,hpermits]⟩
      obtain rfl := some.inj (hcb.symm.trans hc)
      exact (hordered.placed.append rest).after leading
    | none =>
      refine ⟨side.swap,fun c hc => by simp [hcb] at hc,iff_of_false ?_ (fun h => ?_)⟩
      · cases side <;> simp_all [Within]
      obtain ⟨-,kb,-,hkb,-⟩ := h b rfl
      unfold indexComponent at hcb hcv
      split_ifs at hcb hcv <;> simp [hkb] at hcb

end

/-- The interval of a range holds a key iff the key is on the inner side of both bounds. -/
theorem compoundRangeBounds_delimits {next : IndexField}
    (h : compoundRangeBounds leading next lower upper = some span)
    (hlower : PlacedAt o key leading next (if next.order = -1 then upper else lower) (leading ++ [compoundComponentFloor]))
    (hupper : PlacedAt o' key leading next (if next.order = -1 then lower else upper) leading) :
    ∃ low high, (if span = ⟨[],[],false⟩ then ¬(low ≠ .lt ∧ high = .lt) else Delimits span key low high) ∧
      (low ≠ .lt ↔ Within .gt o (if next.order = -1 then upper else lower)) ∧
      (high = .lt ↔ Within .lt o' (if next.order = -1 then lower else upper)) := by
  unfold compoundRangeBounds at h
  dsimp only at h
  split at h
  · cases h
  · rename_i hstart
    obtain ⟨start,-,hr,-⟩ := compoundStart_placed hstart hlower
    cases hr
  rename_i start hstart
  obtain ⟨_,low,hr,hne,hlow,hlowiff⟩ := compoundStart_placed hstart hlower
  cases hr
  split at h
  · cases h
  rename_i stop hstop
  obtain ⟨high,hhigh,hhighiff⟩ := compoundStop_under hstop hupper
  have hdelimits : Delimits ⟨start,stop,false⟩ key low high := ⟨hlow,hhigh⟩
  refine ⟨low,high,?_,hlowiff,hhighiff⟩
  split_ifs at h with hempty
  · cases h
    rw [if_pos rfl,← hdelimits.covers_iff]
    exact fun hcov => absurd ((hcov.1 hempty.1).trans_lt (hcov.2 hempty.2.1)) (not_lt.mpr hempty.2.2)
  · cases h
    rwa [if_neg (by simp [hne])]

/-! ### Keys of documents and leading components -/

theorem indexComponent_eq_iff (hcv : indexComponent f v = some cv) (hcw : indexComponent f w = some cw) :
    ∃ o, EncodedAs o cw cv ∧ (o = .eq ↔ encodeIndexKey v = encodeIndexKey w) := by
  obtain ⟨kv,hkv,-⟩ := indexComponent_key hcv
  obtain ⟨kw,hkw,-⟩ := indexComponent_key hcw
  refine ⟨_,indexComponent_ordered hkw hkv hcw hcv,?_⟩
  have heq : threeWay kw kv = .eq ↔ kw = kv := cmp_eq_eq_iff kw kv
  rw [hkv,hkw,some.injEq,eq_comm (a := kv),← heq]
  split_ifs
  · rfl
  · cases threeWay kw kv <;> simp

theorem components_placed {a b tail : Bytes} (hvs : vs.length ≤ fields.length)
    (ha : indexComponents vs (fields.take vs.length) = some a) (hb : indexComponents ws (fields.take ws.length) = some b)
    (htail : if ws.length < fields.length then ∃ rest, tail = compoundPartialMarker :: rest else tail = []) :
    ∃ o, Placed o (b ++ tail) a ∧ (o = .eq ↔ vs.map encodeIndexKey <+: ws.map encodeIndexKey) := by
  induction vs generalizing fields ws a b with
  | nil =>
    cases ha
    exact ⟨.eq, nil_prefix,iff_of_true rfl nil_prefix⟩
  | cons v vs ih =>
    obtain ⟨f,fields,rfl⟩ := exists_cons_of_length_pos (Nat.zero_lt_of_lt hvs)
    rw [length_cons,take_succ_cons,indexComponents] at ha
    obtain ⟨cv,hcv,ha⟩ := bind_eq_some_iff.mp ha
    obtain ⟨a,ha',ha⟩ := bind_eq_some_iff.mp ha
    cases ha
    cases ws with
    | nil =>
      -- The marker of a missing field is below every component.
      rw [if_pos (by simp)] at htail
      obtain ⟨rest,rfl⟩ := htail
      cases hb
      obtain ⟨c,more,rfl,hfloor,-⟩ := indexComponent_floor hcv
      exact ⟨.lt,.of_head _ _ (lt_trans (by decide) hfloor),by simp⟩
    | cons w ws =>
      rw [length_cons,take_succ_cons,indexComponents] at hb
      obtain ⟨cw,hcw,hb⟩ := bind_eq_some_iff.mp hb
      obtain ⟨b,hb',hb⟩ := bind_eq_some_iff.mp hb
      cases hb
      obtain ⟨o,hordered,hiff⟩ := indexComponent_eq_iff hcv hcw
      rw [map_cons,map_cons,cons_prefix_cons,← hiff,append_assoc]
      by_cases ho : o = .eq
      · subst ho
        obtain rfl : cw = cv := hordered
        obtain ⟨o,hplaced,hiff⟩ := ih (by simpa using hvs) ha' hb' (by simpa using htail)
        exact ⟨o,hplaced.after cw,by simp [hiff]⟩
      · exact ⟨o,(hordered.placed.append (b ++ tail)).extend ho a,by simp [ho]⟩

section
variable (hc : usesCompoundIndexCodec definition = true) (hkey : indexDocumentKey definition d = .ok (some key))
include hc hkey

theorem indexDocumentKey_components :
    ∃ components tail, key = components ++ tail ∧
      indexComponents (presentValues d definition.fields)
        (definition.fields.take (presentValues d definition.fields).length) = some components ∧
      if (presentValues d definition.fields).length < definition.fields.length then
        ∃ rest, tail = compoundPartialMarker :: rest else tail = [] := by
  have hne : presentValues d definition.fields ≠ [] := by
    intro hnil
    unfold indexDocumentKey at hkey
    rw [hnil] at hkey
    by_cases hf : definition.fields = []
    · simp [hf] at hkey
    · simp [hf,length_pos_iff.mpr hf] at hkey
  obtain ⟨components,tail,hr,hcomponents,htail⟩ := indexDocumentKey_compound hkey hc hne
  exact ⟨components,tail,some.inj hr,hcomponents,htail⟩

variable {equalities : List Value} {leading : Bytes} (hlen : equalities.length ≤ definition.fields.length)
  (hleading : indexComponents equalities (definition.fields.take equalities.length) = some leading)
include hlen hleading

theorem indexDocumentKey_placed : ∃ o, Placed o key leading ∧
    (o = .eq ↔ equalities.map encodeIndexKey <+: (presentValues d definition.fields).map encodeIndexKey) := by
  obtain ⟨components,tail,rfl,hcomponents,htail⟩ := indexDocumentKey_components hc hkey
  exact components_placed hlen hleading hcomponents htail

/-- Behind the leading components comes that of the next field, or the marker. -/
theorem indexDocumentKey_next {next : IndexField} (hnext : definition.fields.drop equalities.length = next::more)
    (heq : equalities.map encodeIndexKey <+: (presentValues d definition.fields).map encodeIndexKey) :
    ∃ rest, key = leading ++ rest ∧ match lookupInternal d next.field with
      | some v => ∃ c rest', indexComponent next v = some c ∧ rest = c ++ rest'
      | none => ∃ rest', rest = compoundPartialMarker::rest' := by
  obtain ⟨components,tail,rfl,hcomponents,htail⟩ := indexDocumentKey_components hc hkey
  obtain ⟨keys,heq⟩ := heq
  obtain ⟨vs,us,hpresent,hvs,-⟩ := map_eq_append_iff.mp heq.symm
  have hlength : vs.length = equalities.length := by simpa using congrArg length hvs
  have hus : us = presentValues d (next::more) := by
    rw [← hnext,← hlength,← presentValues_drop (by simp [hpresent]),hpresent,drop_left]
  rw [hpresent,length_append,take_add] at hcomponents
  obtain ⟨a,b,ha,hb,rfl⟩ := indexComponents_append (by simp [hlength,hlen]) hcomponents
  rw [indexComponents_congr hvs,hlength,hleading] at ha
  cases ha
  refine ⟨b ++ tail,append_assoc _ _ _,?_⟩
  rw [hlength,hnext] at hb
  rw [presentValues] at hus
  cases hv : lookupInternal d next.field with
  | none =>
    rw [hv] at hus
    subst hus
    cases hb
    have hlt : equalities.length < definition.fields.length := by
      have := congrArg length hnext
      rw [length_drop,length_cons] at this
      omega
    rwa [hpresent,append_nil,hlength,if_pos hlt] at htail
  | some v =>
    rw [hv] at hus
    subst hus
    rw [length_cons,take_succ_cons,indexComponents] at hb
    obtain ⟨c,hc,hb⟩ := bind_eq_some_iff.mp hb
    obtain ⟨rest,-,hb⟩ := bind_eq_some_iff.mp hb
    cases hb
    exact ⟨c,rest ++ tail,hc,append_assoc _ _ _⟩

end

/-! ### What the bounds of a query select -/

/-- The document has the keys of the equalities on the leading fields, and on the next one a value within the bounds. -/
def LeadingRange (definition : IndexDefinition) (expression : Expr) (d : Document) : Prop :=
  ∃ equalities, leadingEqualities expression definition.fields = some equalities ∧
    equalities.map encodeIndexKey <+: (presentValues d definition.fields).map encodeIndexKey ∧
    ∀ next, definition.fields[equalities.length]? = some next →
      ∀ range, rangeCandidate expression next.field = some range → ∃ v, lookupInternal d next.field = some v ∧
        InBounds range.1 range.2 v

theorem encodeCompoundIndexKey_head (h : encodeCompoundIndexKey values fields = some key) :
    ∃ b rest, key = b::rest ∧ b < 255 := by
  obtain ⟨hlen,hcomponents⟩ := encodeCompoundIndexKey_eq h
  cases values with
  | nil => simp [encodeCompoundIndexKey] at h
  | cons v vs =>
    obtain ⟨f,fs,rfl⟩ := exists_cons_of_length_eq_add_one hlen.symm
    rw [indexComponents] at hcomponents
    obtain ⟨c,hc,hcomponents⟩ := bind_eq_some_iff.mp hcomponents
    obtain ⟨more,-,hcomponents⟩ := bind_eq_some_iff.mp hcomponents
    cases hcomponents
    obtain ⟨b,rest,rfl,-,hb⟩ := indexComponent_floor hc
    exact ⟨b,_,rfl,hb⟩

theorem encodeCompoundIndexPrefix_eq (h : encodeCompoundIndexPrefix values fields = some key) :
    values.length ≤ fields.length ∧ indexComponents values (fields.take values.length) = some key := by
  unfold encodeCompoundIndexPrefix at h
  split_ifs at h with hbad
  exact ⟨not_lt.mp (fun hlt => hbad (.inr hlt)),(encodeCompoundIndexKey_eq h).2⟩

section
variable {expression : Expr} {span : IndexScanSpan}

/-- The interval is that of the keys that begin with the components of the equalities, or a range behind them. -/
theorem compoundIndexQueryBounds_cases (h : compoundIndexQueryBounds definition expression = some span) :
    ∃ equalities leading, leadingEqualities expression definition.fields = some equalities ∧
      equalities.length ≤ definition.fields.length ∧
      indexComponents equalities (definition.fields.take equalities.length) = some leading ∧
      ((∀ next, definition.fields[equalities.length]? = some next → rangeCandidate expression next.field = none) ∧
          leading ≠ [] ∧ (∃ exact, span = ⟨leading,(indexKeyPrefixEnd leading).getD [],exact⟩) ∧
          (span.exact = true → encodeCompoundIndexKey equalities definition.fields = some leading) ∨
        ∃ next more lower upper, definition.fields.drop equalities.length = next::more ∧
          rangeCandidate expression next.field = some (lower,upper) ∧
            compoundRangeBounds leading next lower upper = some span) := by
  unfold compoundIndexQueryBounds at h
  split_ifs at h
  split at h
  · cases h
  rename_i equalities heq
  split at h
  · rename_i hdrop
    obtain ⟨key,hkey,rfl⟩ := map_eq_some_iff.mp h
    obtain ⟨hlen,hcomponents⟩ := encodeCompoundIndexKey_eq hkey
    obtain ⟨b,rest,rfl,-⟩ := encodeCompoundIndexKey_head hkey
    exact ⟨equalities,_,heq,hlen.le,by rwa [hlen,take_length],.inl
      ⟨by simp [← head?_drop,hdrop],by simp,⟨true,rfl⟩,fun _ => hkey⟩⟩
  rename_i next more hdrop
  split at h
  · cases h
  rename_i leading hleading
  have hcomponents : equalities.length ≤ definition.fields.length ∧
      indexComponents equalities (definition.fields.take equalities.length) = some leading := by
    split_ifs at hleading with hnil
    · cases hleading
      subst hnil
      exact ⟨Nat.zero_le _,rfl⟩
    · exact encodeCompoundIndexPrefix_eq hleading
  refine ⟨equalities,leading,heq,hcomponents.1,hcomponents.2,?_⟩
  split at h
  · rename_i hrange
    split_ifs at h with hnil
    cases h
    exact .inl ⟨by simp [← head?_drop,hdrop,hrange],hnil,⟨false,rfl⟩,nofun⟩
  · rename_i lower upper hrange
    exact .inr ⟨next,more,lower,upper,hdrop,hrange,h⟩

theorem compoundRangeBounds_ordered {next : IndexField}
    (h : compoundRangeBounds leading next lower upper = some span) :
    span.exact = false ∧ (span.start ≠ [] → span.stop ≠ [] → span.start ≤ span.stop) := by
  unfold compoundRangeBounds at h
  dsimp only at h
  split at h
  · cases h
  · cases h
    exact ⟨rfl,fun hs => absurd rfl hs⟩
  split at h
  · cases h
  split_ifs at h with hbad
  · cases h
    exact ⟨rfl,fun hs => absurd rfl hs⟩
  · cases h
    exact ⟨rfl,fun hs he => (not_le.mp (fun hle => hbad ⟨hs,he,hle⟩)).le⟩

/-- The interval holds the key of a document iff the document has the equalities and is within the bounds. -/
theorem compoundIndexQueryBounds_delimits (hc : usesCompoundIndexCodec definition = true)
    (hkey : indexDocumentKey definition d = .ok (some key)) (h : compoundIndexQueryBounds definition expression = some span) :
    if span = ⟨[],[],false⟩ then ¬ LeadingRange definition expression d
    else ∃ low high, Delimits span key low high ∧ (low ≠ .lt ∧ high = .lt ↔ LeadingRange definition expression d) := by
  obtain ⟨equalities,leading,heq,hlen,hleading,h⟩ := compoundIndexQueryBounds_cases h
  obtain ⟨o,hplaced,hiff⟩ := indexDocumentKey_placed hc hkey hlen hleading
  rcases h with ⟨hrange,hne,⟨exact,rfl⟩,-⟩ | ⟨next,more,lower,upper,hnext,hrange,h⟩
  · rw [if_neg (by simp [hne])]
    obtain ⟨high,hhigh,hhighiff⟩ := placed_prefixEnd_getD hplaced
    refine ⟨o,high,⟨hplaced,hhigh⟩,?_⟩
    have hmeets : LeadingRange definition expression d ↔ o = .eq := by
      simp +contextual [LeadingRange,heq,hiff,hrange]
    rw [hmeets,hhighiff]
    cases o <;> simp
  have hmeets : LeadingRange definition expression d ↔ o = .eq ∧ ∃ v, lookupInternal d next.field = some v ∧
    InBounds lower upper v := by
    have hfield : definition.fields[equalities.length]? = some next := by rw [← head?_drop,hnext,List.head?_cons]
    simp [LeadingRange,heq,hiff,hfield,hrange]
  -- The sides of the two ends, and that they are the inner ones iff the document is within the bounds.
  obtain ⟨o1,o2,h1,h2,hwithin⟩ : ∃ o1 o2,
      PlacedAt o1 key leading next (if next.order = -1 then upper else lower) (leading ++ [compoundComponentFloor]) ∧
      PlacedAt o2 key leading next (if next.order = -1 then lower else upper) leading ∧
      (Within .gt o1 (if next.order = -1 then upper else lower) ∧ Within .lt o2 (if next.order = -1 then lower else upper) ↔
        LeadingRange definition expression d) := by
    by_cases ho : o = .eq
    · obtain ⟨rest,rfl,hrest⟩ := indexDocumentKey_next hc hkey hlen hleading hnext (hiff.mp ho)
      cases hv : lookupInternal d next.field with
      | none =>
        -- The marker is below the floor of the components.
        rw [hv] at hrest
        obtain ⟨rest,rfl⟩ := hrest
        have hbelow : ∀ bound, PlacedAt .lt (leading ++ compoundPartialMarker::rest) leading next bound
          (leading ++ [compoundComponentFloor]) := by
          rintro (_ | b)
          · exact (Diverges.of_head rest [] (by decide)).after leading
          intro c hcb
          obtain ⟨x,xs,rfl,hfloor,-⟩ := indexComponent_floor hcb
          exact (Diverges.of_head rest xs (lt_trans (by decide) hfloor)).after leading
        obtain ⟨o2,h2⟩ : ∃ o2, PlacedAt o2 (leading ++ compoundPartialMarker::rest) leading next
            (if next.order = -1 then lower else upper) leading := by
          cases hbound : if next.order = -1 then lower else upper with
          | none => exact ⟨.eq,prefix_append _ _⟩
          | some b => exact ⟨.lt,hbelow (some b)⟩
        exact ⟨.lt,o2,hbelow _,h2,by simp [hmeets,hv,Within]⟩
      | some v =>
        rw [hv] at hrest
        obtain ⟨c,rest,hcv,rfl⟩ := hrest
        obtain ⟨x,xs,hx,hfloor,-⟩ := indexComponent_floor hcv
        have hcut : Placed .gt (leading ++ (c ++ rest)) (leading ++ [compoundComponentFloor]) :=
          Diverges.after (hx ▸ .of_head [] (xs ++ rest) hfloor) leading
        have hcut' : Placed .eq (leading ++ (c ++ rest)) leading := prefix_append _ _
        obtain ⟨o1,h1,hw1⟩ := component_placedAt .gt (if next.order = -1 then upper else lower) hcv nofun hcut (.inl rfl)
        obtain ⟨o2,h2,hw2⟩ := component_placedAt .lt (if next.order = -1 then lower else upper) hcv nofun hcut' (.inr rfl)
        refine ⟨o1,o2,h1,h2,?_⟩
        rw [hmeets,hw1,hw2]
        simp only [ho,hv,true_and,some.injEq,exists_eq_left',InBounds]
        split_ifs
        · exact and_comm
        · exact Iff.rfl
    have hat : ∀ bound cut, PlacedAt o key leading next bound (leading ++ cut) := by
      intro bound cut
      cases bound with
      | none => exact hplaced.extend ho cut
      | some b => exact fun c _ => hplaced.extend ho c
    refine ⟨o,o,hat _ _,by simpa using hat _ [],?_⟩
    rw [hmeets]
    simp only [Within,ho,false_and,or_false,iff_false]
    rintro ⟨rfl,h⟩
    cases h
  obtain ⟨low,high,hspan,hlow,hhigh⟩ := compoundRangeBounds_delimits h h1 h2
  rw [← hlow,← hhigh] at hwithin
  rw [← hwithin]
  split_ifs at hspan ⊢
  · exact hspan
  · exact ⟨low,high,hspan,Iff.rfl⟩

theorem compoundIndexQueryBounds_delimited (hc : usesCompoundIndexCodec definition = true)
    (h : compoundIndexQueryBounds definition expression = some span) (hkey : indexDocumentKey definition d = .ok (some key)) :
    ∃ low high, Delimits span key low high := by
  have hd := compoundIndexQueryBounds_delimits hc hkey h
  split_ifs at hd with hspan
  · exact ⟨.eq,.lt,hspan ▸ ⟨ nil_prefix,rfl⟩⟩
  · obtain ⟨low,high,hd,-⟩ := hd
    exact ⟨low,high,hd⟩

end

section
variable {values : Set Value} (hagree : KeysAgree values) {expression : Expr}
  {r : Option Bytes} (hops : ∀ v ∈ expression.operands, v ∈ values)
  (hstored : ∀ f ∈ definition.fields, ∀ v, lookupInternal d f.field = some v → v ∈ values)
  (hindex : indexDocumentKey definition d = .ok r) (hc : usesCompoundIndexCodec definition)
  (hm : matchExpression expression d = true)
include hagree hops hm

theorem inBounds_of_match (hrange : rangeCandidate expression path = some (lower,upper))
    (hin : ∀ v, lookupInternal d path = some v → v ∈ values ∧ (encodeIndexKey v).isSome) :
    ∃ v, lookupInternal d path = some v ∧ InBounds lower upper v := by
  obtain ⟨v,hv,hlower,hupper⟩ := rangeCandidate_sound hrange hm
  obtain ⟨hmem,hkv⟩ := hin v hv
  obtain ⟨kv,hkv⟩ := isSome_iff_exists.mp hkv
  have hpermits : ∀ {b : IndexBound} {side}, b.value ∈ expression.operands ∧ (encodeIndexKey b.value).isSome ∧ b.admits side v →
      b.permits side v := by
    rintro b side ⟨hop,hkb,hadmits⟩
    obtain ⟨kb,hkb⟩ := isSome_iff_exists.mp hkb
    rw [IndexBound.admits,hagree v hmem _ (hops _ hop) kv kb hkv hkb,some.injEq,some.injEq] at hadmits
    exact ⟨kv,kb,hkv,hkb,hadmits⟩
  exact ⟨v,hv,fun b hb => hpermits (hlower b hb),fun b hb => hpermits (hupper b hb)⟩

omit hagree hops hm

include hstored hindex hc

theorem presentValues_encodable (hv : v ∈ presentValues d definition.fields) : v ∈ values ∧ (encodeIndexKey v).isSome := by
  obtain ⟨f,hf,hlook⟩ := presentValues_mem hv
  refine ⟨hstored f hf v hlook,?_⟩
  obtain ⟨components,tail,-,hcomponents,-⟩ := indexDocumentKey_compound hindex hc (ne_nil_of_mem hv)
  exact indexComponents_encodable (by simp [presentValues_length_le]) hcomponents v hv

include hagree hops hm

theorem leadingRange_of_match (heq : leadingEqualities expression definition.fields = some equalities) :
    LeadingRange definition expression d := by
  obtain ⟨vs,hvs,hall⟩ := leadingEqualities_sound hm heq
  have hencodable : ∀ v ∈ presentValues d definition.fields, v ∈ values ∧ (encodeIndexKey v).isSome :=
    fun v hv => presentValues_encodable hstored hindex hc hv
  rw [hvs] at hencodable
  have hkeys : vs.map encodeIndexKey = equalities.map encodeIndexKey := by
    rw [← forall₂_eq_eq_eq,forall₂_map_left_iff,forall₂_map_right_iff]
    refine ((forall₂_and_left vs equalities).mpr ⟨fun v hv => hencodable v (mem_append_left _ hv),hall⟩).imp (fun v w h => ?_)
    exact encodeIndexKey_eq_of_fieldEquals hagree h.1.1 (hops w h.2.2.1) h.1.2 h.2.2.2 h.2.1
  refine ⟨equalities,heq,?_,fun next hnext range hrange => ?_⟩
  · rw [hvs,map_append,hkeys]
    exact prefix_append _ _
  refine inBounds_of_match hagree hops hm hrange (fun v hv => hencodable v (mem_append_right _ ?_))
  rw [← head?_drop] at hnext
  obtain ⟨more,hdrop⟩ := head?_eq_some_iff.mp hnext
  rw [hdrop,presentValues,hv]
  exact mem_cons_self

theorem compoundIndexQueryBounds_covers {span : IndexScanSpan} (h : compoundIndexQueryBounds definition expression = some span) :
    ∃ key, r = some key ∧ span.covers key := by
  obtain ⟨equalities,leading,heq,-,hleading,hcases⟩ := compoundIndexQueryBounds_cases h
  have hrange := leadingRange_of_match hagree hops hstored hindex hc hm heq
  have hne : presentValues d definition.fields ≠ [] := by
    intro hnil
    obtain ⟨_,heq',hp,hnext⟩ := hrange
    obtain rfl := some.inj (heq.symm.trans heq')
    rw [hnil] at hp
    obtain rfl : equalities = [] := by simpa using hp
    rcases hcases with ⟨-,hne,-⟩ | ⟨next,more,lower,upper,hdrop,hr,-⟩
    · exact hne (some.inj hleading).symm
    rw [length_nil,drop_zero] at hdrop
    obtain ⟨v,hv,-⟩ := hnext next (by simp [hdrop]) _ hr
    rw [hdrop,presentValues,hv] at hnil
    cases hnil
  obtain ⟨components,tail,rfl,-⟩ := indexDocumentKey_compound hindex hc hne
  have hdelimits := compoundIndexQueryBounds_delimits hc hindex h
  split_ifs at hdelimits
  · exact absurd hrange hdelimits
  · obtain ⟨low,high,hd,hiff⟩ := hdelimits
    exact ⟨_,rfl,hd.covers_iff.mpr (hiff.mpr hrange)⟩

/-- The prefix intervals of the allowed first values cover the key of every matching document. -/
theorem compoundIndexValueSpans_covers {spans : List IndexScanSpan}
    (h : compoundIndexValueSpans definition expression = some spans) :
    ∃ key, r = some key ∧ ∃ span ∈ spans, span.covers key := by
  unfold compoundIndexValueSpans at h
  split at h
  · cases h
  rename_i first more hfields
  split_ifs at h
  obtain ⟨allowed,hallowed,h⟩ := bind_eq_some_iff.mp h
  obtain ⟨encoded,hencoded,rfl⟩ := map_eq_some_iff.mp hallowed
  obtain ⟨hencode,hmatch⟩ := encodedIndexValuesCandidate_sound hencoded
  obtain ⟨v,hv,w,hw,heq,k,hk,w',hw'⟩ := hmatch d hm
  have hvin : v ∈ values := hstored first (by simp [hfields]) v hv
  have hpresent : presentValues d definition.fields = v :: presentValues d more := by rw [hfields,presentValues,hv]
  obtain ⟨components,tail,rfl,-⟩ := indexDocumentKey_compound hindex hc (by simp [hpresent])
  obtain ⟨-,hkv⟩ := presentValues_encodable hstored hindex hc (hpresent ▸ mem_cons_self)
  -- The value, the operand and the retained candidate have one key, so one component.
  have hsame : encodeIndexKey v = encodeIndexKey w' := by
    rw [(hencode _ hw').2,← hk]
    exact encodeIndexKey_eq_of_fieldEquals hagree hvin (hops w hw) hkv (by simp [hk]) heq
  obtain ⟨span,hspan,hvalue⟩ := (mapM_eq_some_mem h).1 w' (mem_map.mpr ⟨_,hw',rfl⟩)
  obtain ⟨leading,hleading,hvalue⟩ := bind_eq_some_iff.mp hvalue
  obtain ⟨stop,hstop,hvalue⟩ := bind_eq_some_iff.mp hvalue
  cases hvalue
  obtain ⟨hlen,hleading⟩ := encodeCompoundIndexPrefix_eq hleading
  obtain ⟨o,hplaced,hiff⟩ := indexDocumentKey_placed hc hindex hlen hleading
  rw [hiff.mpr (by simp [hpresent,hsame])] at hplaced
  have hcov := covers_of_extends false hplaced
  rw [hstop] at hcov
  exact ⟨_,rfl,_,hspan,hcov⟩

end

/-! ### Well-formed intervals -/

structure WholeKey (definition : IndexDefinition) (span : IndexScanSpan) : Prop where
  stop : indexKeyPrefixEnd span.start = some span.stop
  only : ∀ d key, indexDocumentKey definition d = .ok (some key) → ∃ o, Placed o key span.start ∧ (o = .eq → key = span.start)

/-- What the executors rely on: the ends are in order, every key lies on one side of
each end, and an exact interval is that of one key. -/
structure SpanOk (definition : IndexDefinition) (span : IndexScanSpan) : Prop where
  ordered : span.start ≠ [] → span.stop ≠ [] → span.start ≤ span.stop
  delimited : ∀ d key, indexDocumentKey definition d = .ok (some key) → ∃ low high, Delimits span key low high
  whole : span.exact = true → WholeKey definition span

section
variable (h : WholeKey definition span)
include h

theorem WholeKey.delimits (hkey : indexDocumentKey definition d = .ok (some key)) :
    ∃ low high, Delimits span key low high ∧ (low ≠ .lt ∧ high = .lt → key = span.start) := by
  obtain ⟨o,hplaced,honly⟩ := h.only d key hkey
  obtain ⟨high,hhigh,hiff⟩ := placed_prefixEnd_getD hplaced
  rw [h.stop] at hhigh
  refine ⟨o,high,⟨hplaced,hhigh⟩,?_⟩
  rw [hiff]
  cases o with
  | eq => exact fun _ => honly rfl
  | lt => exact fun h => absurd rfl h.1
  | gt => exact fun h => absurd rfl h.2

theorem WholeKey.eq_of_covers
    (hkey : indexDocumentKey definition d = .ok (some key)) (hcov : span.covers key) : key = span.start := by
  obtain ⟨low,high,hd,heq⟩ := h.delimits hkey
  exact heq (hd.covers_iff.mp hcov)

theorem WholeKey.ok : SpanOk definition span := by
  refine ⟨fun _ _ => (lt_indexKeyPrefixEnd h.stop (prefix_refl _)).le,fun d key hkey => ?_,fun _ => h⟩
  obtain ⟨low,high,hd,-⟩ := h.delimits hkey
  exact ⟨low,high,hd⟩

end

theorem indexDocumentKey_value (hc : usesCompoundIndexCodec definition = false) (hf : definition.fields = [f])
    (hkey : indexDocumentKey definition d = .ok (some key)) :
    ∃ v, lookupInternal d f.field = some v ∧ encodeIndexKey v = some key := by
  cases hv : lookupInternal d f.field with
  | none => simp [indexDocumentKey,hf,presentValues,hv] at hkey
  | some v =>
    obtain ⟨_,hr,hk⟩ := indexDocumentKey_scalar hkey hc hf hv
    cases hr
    exact ⟨v,rfl,hk⟩

theorem wholeKey_scalar (hc : usesCompoundIndexCodec definition = false) (hkey : encodeIndexKey v = some key)
    (hstop : indexKeyPrefixEnd key = some stop) : WholeKey definition ⟨key,stop,true⟩ := by
  refine ⟨hstop,fun d other hother => ?_⟩
  obtain ⟨f,hf⟩ := scalar_definition_fields hc
  obtain ⟨w,-,hw⟩ := indexDocumentKey_value hc hf hother
  exact ⟨_,encodeIndexKey_placed hw hkey,(cmp_eq_eq_iff other key).mp⟩

theorem wholeKey_compound (hc : usesCompoundIndexCodec definition = true)
    (hkey : encodeCompoundIndexKey values definition.fields = some key) :
    WholeKey definition ⟨key,(indexKeyPrefixEnd key).getD [],true⟩ := by
  obtain ⟨hlen,hcomp⟩ := encodeCompoundIndexKey_eq hkey
  obtain ⟨b,rest,hb,hlast⟩ := encodeCompoundIndexKey_head hkey
  obtain ⟨stop,hstop⟩ := indexKeyPrefixEnd_isSome (hb ▸ mem_cons_self) hlast.ne
  refine ⟨by rw [hstop]; rfl,fun d other hother => ?_⟩
  obtain ⟨o,hplaced,hiff⟩ := indexDocumentKey_placed hc hother hlen.le (by rwa [hlen,take_length])
  refine ⟨o,hplaced,fun ho => ?_⟩
  -- A document with these values has no others, so its key has no tail.
  have hcount := presentValues_length_le d definition.fields
  have hmap := (hiff.mp ho).eq_of_length_le (by simpa [hlen] using hcount)
  have hfull : (presentValues d definition.fields).length = definition.fields.length := by
    simpa [hlen] using (congrArg length hmap).symm
  obtain ⟨components,tail,rfl,hcomponents,htail⟩ := indexDocumentKey_components hc hother
  rw [if_neg (by omega)] at htail
  rw [← indexComponents_congr hmap,hfull,take_length,hcomp] at hcomponents
  rw [htail,append_nil,some.inj hcomponents]

theorem indexKeyPrefixEnd_getD_le (leading : Bytes) (h : (indexKeyPrefixEnd leading).getD [] ≠ []) :
    leading ≤ (indexKeyPrefixEnd leading).getD [] := by
  cases he : indexKeyPrefixEnd leading with
  | none => simp [he] at h
  | some stop => exact (lt_indexKeyPrefixEnd he (prefix_refl _)).le

theorem storageIndexBounds_ok
    (hc : usesCompoundIndexCodec definition = false) (h : storageIndexBounds lower upper = .ok (some (start,stop))) :
    SpanOk definition ⟨start,stop,false⟩ := by
  refine ⟨fun hs he => ?_,fun d key hkey => ?_,nofun⟩
  · unfold storageIndexBounds at h
    obtain ⟨low,-,h⟩ := bind_eq_ok.mp h
    cases low with
    | none => cases h
    | some low =>
      obtain ⟨high,-,h⟩ := bind_eq_ok.mp h
      split_ifs at h with hbad
      · cases h
      · cases h
        exact (not_le.mp (fun hle => hbad ⟨hs,he,hle⟩)).le
  obtain ⟨f,hf⟩ := scalar_definition_fields hc
  obtain ⟨v,-,hv⟩ := indexDocumentKey_value hc hf hkey
  obtain ⟨low,high,hd,-⟩ := storageIndexBounds_delimits hv h
  exact ⟨low,high,hd⟩

theorem compoundIndexQueryBounds_ok (hc : usesCompoundIndexCodec definition = true)
    (h : compoundIndexQueryBounds definition expression = some span) :
    SpanOk definition span := by
  obtain ⟨equalities,leading,-,-,-,⟨-,-,⟨exact,rfl⟩,hexact⟩ | ⟨next,more,lower,upper,-,-,hrange⟩⟩ :=
    compoundIndexQueryBounds_cases h
  · cases exact with
    | true => exact (wholeKey_compound hc (hexact rfl)).ok
    | false => exact ⟨fun _ => indexKeyPrefixEnd_getD_le leading,fun _ _ => compoundIndexQueryBounds_delimited hc h,nofun⟩
  · obtain ⟨hexact,hordered⟩ := compoundRangeBounds_ordered hrange
    exact ⟨hordered,fun _ _ => compoundIndexQueryBounds_delimited hc h,fun hwhole => by simp [hexact] at hwhole⟩

theorem compoundIndexValueSpans_ok {spans : List IndexScanSpan}
    (h : compoundIndexValueSpans definition expression = some spans) : ∀ span ∈ spans, SpanOk definition span := by
  unfold compoundIndexValueSpans at h
  split at h
  · cases h
  split_ifs at h with hc
  obtain ⟨values,-,h⟩ := Option.bind_eq_some_iff.mp h
  intro span hspan
  obtain ⟨value,-,hvalue⟩ := (mapM_eq_some_mem h).2 span hspan
  obtain ⟨key,hkey,hvalue⟩ := Option.bind_eq_some_iff.mp hvalue
  obtain ⟨stop,hstop,hvalue⟩ := Option.bind_eq_some_iff.mp hvalue
  cases hvalue
  obtain ⟨hlen,hcomponents⟩ := encodeCompoundIndexPrefix_eq hkey
  refine ⟨fun _ _ => (lt_indexKeyPrefixEnd hstop (prefix_refl _)).le,fun d other hother => ?_,nofun⟩
  obtain ⟨o,hplaced,-⟩ := indexDocumentKey_placed (by simpa using hc) hother hlen hcomponents
  obtain ⟨high,hhigh,-⟩ := placed_prefixEnd_getD hplaced
  rw [hstop] at hhigh
  exact ⟨o,high,hplaced,hhigh⟩

end Meldbase.Database
