import Meldbase.Database.IndexIntervals

/-! # Soundness of query planning

Every plan of a filter covers the documents that match it: the id is listed, or
the key in some index of the plan lies in one of the planned intervals.
-/
namespace Meldbase.Database
open List Comparison

def QueryPlanSource.covers (source : QueryPlanSource) (d : Document) (id : DocumentID) : Prop :=
  if source.primary then id ∈ source.ids
  else ∃ key, indexDocumentKey source.definition d = .ok (some key) ∧ ∃ span ∈ source.spans, span.covers key
def QueryAccessPlan.covers (plan : QueryAccessPlan) (d : Document) (id : DocumentID) : Prop :=
  ∃ source ∈ plan.sources, source.covers d id

/-! ### Merging intervals -/

variable {result : List IndexScanSpan}

theorem IndexScanSpan.covers_iff {span : IndexScanSpan} :
    span.covers key ↔ span.start ≤ key ∧ (span.stop = [] ∨ key < span.stop) := by
  have hnil : [] ≤ key := not_lt.mp (not_lt_nil key)
  unfold IndexScanSpan.covers
  by_cases hstart : span.start = [] <;> simp [hstart,hnil,or_iff_not_imp_left]

theorem mergeSpan_cons {last span : IndexScanSpan} (rest : List IndexScanSpan) (hle : last.start ≤ span.start) :
    (∃ united, mergeSpan (last::rest) span = united::rest ∧ united.start = last.start ∧
      ∀ key, united.covers key ↔ last.covers key ∨ span.covers key) ∨
    mergeSpan (last::rest) span = span::last::rest ∧ last.stop ≠ [] ∧ last.stop ≤ span.start := by
  rw [mergeSpan]
  split_ifs with hsame hoverlap hextend
  · refine .inl ⟨_,rfl,rfl,fun key => ?_⟩
    simp only [IndexScanSpan.covers_iff,← hsame.1,← hsame.2,or_self]
  · refine .inl ⟨_,rfl,rfl,fun key => ?_⟩
    simp only [IndexScanSpan.covers_iff]
    have hstart : last.stop ≤ key → span.start ≤ key := by
      intro hkey
      rcases hoverlap with hnil | hnil | hlt
      · exact absurd hnil hextend.1
      · rw [hnil]
        exact not_lt.mp (not_lt_nil key)
      · exact hlt.le.trans hkey
    constructor
    · rintro ⟨hlow,hhigh⟩
      rcases lt_or_ge key last.stop with hkey | hkey
      · exact .inl ⟨hlow,.inr hkey⟩
      · exact .inr ⟨hstart hkey,hhigh⟩
    rintro (⟨hlow,hhigh⟩ | ⟨hlow,hhigh⟩)
    · exact ⟨hlow,hextend.2.imp_right (fun hlt => (hhigh.resolve_left hextend.1).trans hlt)⟩
    · exact ⟨hle.trans hlow,hhigh⟩
  · refine .inl ⟨_,rfl,rfl,fun key => ?_⟩
    simp only [IndexScanSpan.covers_iff]
    refine ⟨.inl,fun h => h.elim id (fun ⟨hlow,hhigh⟩ => ⟨hle.trans hlow,?_⟩)⟩
    by_cases hstop : last.stop = []
    · exact .inl hstop
    have hspan : span.stop ≠ [] := fun e => hextend ⟨hstop,.inl e⟩
    have hge : span.stop ≤ last.stop := not_lt.mp (fun hlt => hextend ⟨hstop,.inr hlt⟩)
    exact .inr ((hhigh.resolve_left hspan).trans_le hge)
  · rw [not_or,not_or,not_lt] at hoverlap
    exact .inr ⟨rfl,hoverlap.1,hoverlap.2.2⟩

def IndexScanSpan.Precedes (a b : IndexScanSpan) : Prop := a.start ≤ b.start ∧ a.stop ≠ [] ∧ a.stop ≤ b.start

structure Merged (spans result : List IndexScanSpan) : Prop where
  apart : result.Pairwise (fun b a => a.Precedes b)
  covers : ∀ key, (∃ s ∈ result, s.covers key) ↔ ∃ s ∈ spans, s.covers key

variable {spans : List IndexScanSpan}

theorem Merged.mergeSpan {span : IndexScanSpan} (h : Merged spans result) (hle : ∀ last ∈ result, last.start ≤ span.start) :
    Merged (spans ++ [span]) (mergeSpan result span) ∧ ∀ s ∈ Database.mergeSpan result span, s.start ≤ span.start := by
  have hall : ∀ key, (∃ s ∈ spans ++ [span], s.covers key) ↔ (∃ s ∈ result, s.covers key) ∨ span.covers key := by
    simp [h.covers,or_and_right,exists_or]
  cases result with
  | nil => exact ⟨⟨pairwise_singleton _ _,fun key => by rw [hall]; simp [Database.mergeSpan]⟩,by simp [Database.mergeSpan]⟩
  | cons last rest =>
    obtain ⟨hfirst,hrest⟩ := pairwise_cons.mp h.apart
    obtain ⟨hlast,hle⟩ := forall_mem_cons.mp hle
    rcases mergeSpan_cons rest hlast with ⟨united,heq,hstart,hcovers⟩ | ⟨heq,hstop,hnext⟩
    · rw [heq]
      refine ⟨⟨pairwise_cons.mpr ⟨fun s hs => ?_,hrest⟩,fun key => ?_⟩,
        forall_mem_cons.mpr ⟨hstart.trans_le hlast,hle⟩⟩
      · rw [IndexScanSpan.Precedes,hstart]
        exact hfirst s hs
      · rw [hall,exists_mem_cons_iff,exists_mem_cons_iff,hcovers,or_right_comm]
    rw [heq]
    refine ⟨⟨pairwise_cons.mpr ⟨forall_mem_cons.mpr ⟨⟨hlast,hstop,hnext⟩,fun s hs => ?_⟩,h.apart⟩,fun key => ?_⟩,
      forall_mem_cons.mpr ⟨le_rfl,forall_mem_cons.mpr ⟨hlast,hle⟩⟩⟩
    · exact ⟨hle s hs,(hfirst s hs).2.1,(hfirst s hs).2.2.trans hlast⟩
    · rw [hall,exists_mem_cons_iff,or_comm]

theorem Merged.foldl (h : Merged spans result)
    (hle : ∀ last ∈ result, ∀ s ∈ later, last.start ≤ s.start) (hsorted : later.Pairwise (fun a b => a.start ≤ b.start)) :
    Merged (spans ++ later) (later.foldl Database.mergeSpan result) := by
  induction later generalizing spans result with
  | nil => simpa using h
  | cons span later ih =>
    obtain ⟨hspan,hsorted⟩ := pairwise_cons.mp hsorted
    obtain ⟨hnext,hstarts⟩ := h.mergeSpan (fun last hl => hle last hl span mem_cons_self)
    have hmerged := ih hnext (fun last hl s hs => (hstarts last hl).trans (hspan s hs)) hsorted
    rwa [append_assoc] at hmerged

theorem compareUpperBounds_preorder (S : Set Bytes) : PreorderOn compareUpperBounds S where
  swap a _ b _ := by
    unfold compareUpperBounds
    split_ifs
    · rfl
    · rfl
    · rfl
    · exact threeWay_swap a b
  trans a _ b _ c _ := by
    unfold compareUpperBounds
    split_ifs <;> simp only [ne_eq,not_true_eq_false,reduceCtorEq,not_false_eq_true,false_implies,implies_true,imp_self]
    rw [threeWay_eq_gt,threeWay_eq_gt,threeWay_eq_gt,not_lt,not_lt,not_lt]
    exact le_trans

theorem compareSpans_preorder (S : Set IndexScanSpan) : PreorderOn compareSpans S := by
  have hlow : PreorderOn (fun a b : IndexScanSpan => compareLowerBounds a.start b.start) S :=
    PreorderOn.of_linearOrder IndexScanSpan.start
  have hup := compareUpperBounds_preorder Set.univ
  have hup : PreorderOn (fun a b : IndexScanSpan => compareUpperBounds a.stop b.stop) S :=
    ⟨fun a _ b _ => hup.swap _ trivial _ trivial,fun a _ b _ c _ => hup.trans _ trivial _ trivial _ trivial⟩
  exact hlow.then hup

theorem normalizeIndexScanSpans_merged (spans : List IndexScanSpan) :
    (normalizeIndexScanSpans spans).Pairwise IndexScanSpan.Precedes ∧
      ∀ key, (∃ s ∈ normalizeIndexScanSpans spans, s.covers key) ↔ ∃ s ∈ spans, s.covers key := by
  have hsorted : (stableSort (lessBy compareSpans) spans).Pairwise (fun a b => a.start ≤ b.start) := by
    refine (stableSort_ordered (compareSpans_preorder _)).imp (fun {a b} hab => ?_)
    rw [← not_lt]
    intro hlt
    refine hab ?_
    unfold compareSpans compareLowerBounds
    rw [(threeWay_eq_gt a.start b.start).mpr hlt]
    rfl
  have hmerged : Merged [] [] := ⟨List.Pairwise.nil,fun key => Iff.rfl⟩
  obtain ⟨hapart,hcovers⟩ := hmerged.foldl nofun hsorted
  refine ⟨pairwise_reverse.mpr hapart,fun key => ?_⟩
  simpa [normalizeIndexScanSpans] using hcovers key

theorem IndexScanSpan.Precedes.disjoint {a b : IndexScanSpan} (h : a.Precedes b) (key : Bytes) :
    ¬(a.covers key ∧ b.covers key) := by
  rw [covers_iff,covers_iff]
  rintro ⟨⟨_,hstop⟩,hstart,_⟩
  exact (h.2.2.trans hstart).not_gt (hstop.resolve_left h.2.1)

/-- Normalised spans are sorted and disjoint, and together they cover the keys of the spans given. -/
theorem normalizeIndexScanSpans_exact (spans : List IndexScanSpan) :
    (normalizeIndexScanSpans spans).Pairwise (fun a b => a.Precedes b ∧ ∀ key, ¬(a.covers key ∧ b.covers key)) ∧
      ∀ key, (∃ s ∈ normalizeIndexScanSpans spans, s.covers key) ↔ ∃ s ∈ spans, s.covers key := by
  obtain ⟨hapart,hcovers⟩ := normalizeIndexScanSpans_merged spans
  exact ⟨hapart.imp (fun h => ⟨h,h.disjoint⟩),hcovers⟩

/-! ### Merging sources -/

theorem mergeSpan_ok {span : IndexScanSpan}
    (hr : ∀ s ∈ result, SpanOk definition s) (hs : SpanOk definition span) :
    ∀ s ∈ mergeSpan result span, SpanOk definition s := by
  cases result with
  | nil => simpa [mergeSpan] using hs
  | cons last rest =>
    have hlast := hr last mem_cons_self
    have hrest : ∀ s ∈ rest, SpanOk definition s := fun s h => hr s (mem_cons_of_mem last h)
    have hdelimited : ∀ (exact : Bool) d key, indexDocumentKey definition d = .ok (some key) →
        ∃ low high, Delimits { last with exact := exact } key low high :=
      fun _ d key hkey => (hlast.delimited d key hkey).imp (fun _ => Exists.imp (fun _ h => ⟨h.start,h.stop⟩))
    rw [mergeSpan]
    split_ifs with hsame hover hgrow
    · refine forall_mem_cons.mpr ⟨⟨hlast.ordered,hdelimited _,fun he => ?_⟩,hrest⟩
      have hwhole := hlast.whole (Bool.and_eq_true_iff.mp he).1
      exact ⟨hwhole.stop,hwhole.only⟩
    · refine forall_mem_cons.mpr ⟨⟨fun hstart hstop => ?_,fun d key hkey => ?_,nofun⟩,hrest⟩
      · exact (hlast.ordered hstart hgrow.1).trans (hgrow.2.resolve_left hstop).le
      obtain ⟨low,_,hlow⟩ := hlast.delimited d key hkey
      obtain ⟨_,high,hhigh⟩ := hs.delimited d key hkey
      exact ⟨low,high,hlow.start,hhigh.stop⟩
    · exact forall_mem_cons.mpr ⟨⟨hlast.ordered,hdelimited _,nofun⟩,hrest⟩
    · exact forall_mem_cons.mpr ⟨hs,hr⟩

theorem normalizeIndexScanSpans_ok
    (h : ∀ s ∈ spans, SpanOk definition s) : ∀ s ∈ normalizeIndexScanSpans spans, SpanOk definition s := by
  have hfold : ∀ (l acc : List IndexScanSpan), (∀ s ∈ l, SpanOk definition s) → (∀ s ∈ acc, SpanOk definition s) →
      ∀ s ∈ l.foldl mergeSpan acc, SpanOk definition s := by
    intro l
    induction l with
    | nil => exact fun _ _ hacc => hacc
    | cons x l ih =>
      intro acc hl hacc
      exact ih _ (fun s hs => hl s (mem_cons_of_mem x hs)) (mergeSpan_ok hacc (hl x mem_cons_self))
  intro s hs
  exact hfold _ [] (fun s hs => h s (mem_stableSort.mp hs)) (by simp) s (mem_reverse.mp hs)

theorem mem_foldl_addDistinct {ids seen : List DocumentID} {id : DocumentID} :
    id ∈ ids.foldl addDistinct seen ↔ id ∈ seen ∨ id ∈ ids := by
  induction ids generalizing seen with
  | nil => simp
  | cons x ids ih =>
    rw [foldl_cons,ih]
    unfold addDistinct
    split_ifs with hx
    · aesop
    · simp [or_assoc]

theorem mem_foldl_addName {names seen : List Bytes} :
    name ∈ names.foldl addName seen ↔ name ∈ seen ∨ name ∈ names := by
  induction names generalizing seen with
  | nil => simp
  | cons x names ih =>
    rw [foldl_cons,ih]
    unfold addName
    split_ifs with hx
    · aesop
    · simp [or_assoc]

theorem mem_secondaryNames {sources : List QueryPlanSource} :
    name ∈ secondaryNames sources ↔ ∃ s ∈ sources, s.primary = false ∧ s.definition.name = name := by
  unfold secondaryNames
  rw [mem_stableSort,mem_foldl_addName]
  simp [and_assoc]

section
variable {definitions : List IndexDefinition}

/-- A lookup by id, or well-formed intervals of a known index. -/
structure SourceOk (definitions : List IndexDefinition) (source : QueryPlanSource) : Prop where
  known : source.primary = false → source.definition ∈ definitions
  spans : source.primary = false → ∀ span ∈ source.spans, SpanOk source.definition span

structure PlanOk (definitions : List IndexDefinition) (plan : QueryAccessPlan) : Prop where
  bare : plan.empty = true → ∀ s ∈ plan.sources, s.ids = [] ∧ s.spans = []
  sources : ∀ s ∈ plan.sources, SourceOk definitions s

theorem PlanOk.not_covers (h : PlanOk definitions plan) (he : plan.empty = true)
    {id : DocumentID} : ¬ plan.covers d id := by
  rintro ⟨s,hs,hcov⟩
  obtain ⟨hids,hspans⟩ := h.bare he s hs
  unfold QueryPlanSource.covers at hcov
  rw [hids,hspans] at hcov
  split_ifs at hcov
  · cases hcov
  · obtain ⟨key,-,span,hspan,-⟩ := hcov
    cases hspan

theorem planOk_unusable : PlanOk definitions .unusable := ⟨by simp [QueryAccessPlan.unusable],by simp [QueryAccessPlan.unusable]⟩

theorem mem_mergedSource (h : mergedSource sources name = some s) :
    s.primary = false ∧ (∃ first ∈ sources, first.primary = false ∧ first.definition.name = name ∧
      s.definition = first.definition) ∧
    s.spans = normalizeIndexScanSpans
      ((sources.filter (fun source => !source.primary && source.definition.name = name)).flatMap QueryPlanSource.spans) := by
  unfold mergedSource at h
  split at h
  · cases h
  rename_i first rest hf
  cases h
  have hmem : first ∈ sources.filter (fun source => !source.primary && source.definition.name = name) := by
    rw [hf]
    exact mem_cons_self
  obtain ⟨hin,hcond⟩ := mem_filter.mp hmem
  rw [Bool.and_eq_true,Bool.not_eq_true',decide_eq_true_eq] at hcond
  exact ⟨rfl,⟨first,hin,hcond.1,hcond.2,rfl⟩,by rw [hf]⟩

theorem normalizeQueryAccessPlan_ok (h : PlanOk definitions plan)
    (hnames : ∀ a ∈ definitions, ∀ b ∈ definitions, a.name = b.name → a = b) (hne : plan.empty = false) :
    PlanOk definitions (normalizeQueryAccessPlan plan q) := by
  unfold normalizeQueryAccessPlan
  split_ifs
  · exact planOk_unusable
  refine ⟨fun he s hs => ?_,fun s hs => ?_⟩
  · dsimp only at he hs
    rw [hne,Bool.false_or] at he
    have hs := all_eq_true.mp he s hs
    simpa using hs
  rcases mem_append.mp hs with hs | hs
  · unfold mergedPrimary at hs
    split at hs
    · cases hs
    · obtain rfl := mem_singleton.mp hs
      exact ⟨nofun,nofun⟩
  obtain ⟨name,-,hname⟩ := mem_filterMap.mp hs
  obtain ⟨-,⟨first,hfirst,hfp,hfname,hdef⟩,hspans⟩ := mem_mergedSource hname
  have hknown := (h.sources first hfirst).known hfp
  refine ⟨fun _ => hdef ▸ hknown,fun _ => ?_⟩
  rw [hdef,hspans]
  refine normalizeIndexScanSpans_ok (fun span hspan => ?_)
  obtain ⟨source,hsource,hspan⟩ := mem_flatMap.mp hspan
  obtain ⟨hin,hcond⟩ := mem_filter.mp hsource
  rw [Bool.and_eq_true,Bool.not_eq_true',decide_eq_true_eq] at hcond
  have hok := h.sources source hin
  rw [hnames _ hknown _ (hok.known hcond.1) (hfname.trans hcond.2.symm)]
  exact hok.spans hcond.1 span hspan

theorem normalizeQueryAccessPlan_covers {plan : QueryAccessPlan} (h : PlanOk definitions plan)
    (hnames : ∀ a ∈ definitions, ∀ b ∈ definitions, a.name = b.name → a = b) (hu : plan.usable = true)
    {id : DocumentID} (hcov : plan.covers d id) : (normalizeQueryAccessPlan plan q).covers d id := by
  unfold normalizeQueryAccessPlan
  rw [if_neg (by simp [hu])]
  obtain ⟨s,hs,hcov⟩ := hcov
  unfold QueryPlanSource.covers at hcov
  cases hp : s.primary with
  | true =>
    rw [hp,if_pos rfl] at hcov
    have hmem : s ∈ plan.sources.filter QueryPlanSource.primary := mem_filter.mpr ⟨hs,hp⟩
    cases hf : plan.sources.filter QueryPlanSource.primary with
    | nil =>
      rw [hf] at hmem
      cases hmem
    | cons first rest =>
      refine ⟨⟨true,primaryDefinition,((first::rest).flatMap QueryPlanSource.ids).foldl addDistinct [],[]⟩,
        mem_append_left _ (by simp [mergedPrimary,hf]),?_⟩
      unfold QueryPlanSource.covers
      rw [if_pos rfl,mem_foldl_addDistinct]
      exact .inr (mem_flatMap.mpr ⟨s,hf ▸ hmem,hcov⟩)
  | false =>
    rw [hp,if_neg Bool.false_ne_true] at hcov
    obtain ⟨key,hkey,hspan⟩ := hcov
    have hmem : s ∈ plan.sources.filter (fun source => !source.primary && source.definition.name = s.definition.name) :=
      mem_filter.mpr ⟨hs,by simp [hp]⟩
    cases hm : mergedSource plan.sources s.definition.name with
    | none =>
      unfold mergedSource at hm
      split at hm
      · rename_i hf
        rw [hf] at hmem
        cases hmem
      · cases hm
    | some merged =>
      obtain ⟨hmp,⟨first,hfirst,hfp,hname,hdef⟩,hspans⟩ := mem_mergedSource hm
      have hin : merged ∈ (secondaryNames plan.sources).filterMap (mergedSource plan.sources) :=
        mem_filterMap.mpr ⟨s.definition.name,mem_secondaryNames.mpr ⟨s,hs,hp,rfl⟩,hm⟩
      refine ⟨merged,mem_append_right _ hin,?_⟩
      unfold QueryPlanSource.covers
      rw [hmp,if_neg Bool.false_ne_true,hdef,hnames _ ((h.sources first hfirst).known hfp) _ ((h.sources s hs).known hp)
        hname,hspans]
      refine ⟨key,hkey,((normalizeIndexScanSpans_merged _).2 key).mpr ?_⟩
      obtain ⟨span,hin,hc⟩ := hspan
      exact ⟨span,mem_flatMap.mpr ⟨s,hmem,hin⟩,hc⟩

theorem betterQueryAccessPlan_cases (current candidate : QueryAccessPlan) :
    betterQueryAccessPlan current candidate = current ∨ betterQueryAccessPlan current candidate = candidate := by
  unfold betterQueryAccessPlan
  split_ifs <;> simp

end

/-! ### Plans of one document -/

structure Admitted (values : Set Value) (definitions : List IndexDefinition) (d : Document) (id : DocumentID) : Prop where
  identity : lookupInternal d idField = some (.id id)
  indexed : ∀ definition ∈ definitions, ∃ r, indexDocumentKey definition d = .ok r
  stored : ∀ definition ∈ definitions, ∀ f ∈ definition.fields, ∀ v, lookupInternal d f.field = some v → v ∈ values

section
variable {values : Set Value} {definitions : List IndexDefinition} {e : Expr} {definition : IndexDefinition}

/-- A sound plan for the filter: if usable, it covers every matching document. -/
structure Planned (values : Set Value) (definitions : List IndexDefinition) (e : Expr) (plan : QueryAccessPlan) : Prop
    extends PlanOk definitions plan where
  covers : (∀ v ∈ e.operands, v ∈ values) → ∀ d id, Admitted values definitions d id → matchExpression e d = true →
    plan.usable = true → plan.covers d id

theorem Planned.imp (h : Planned values definitions e plan)
    (hmatch : ∀ d, matchExpression e' d = true → matchExpression e d = true) (hops : ∀ v ∈ e.operands, v ∈ e'.operands) :
    Planned values definitions e' plan :=
  ⟨h.toPlanOk,fun ho d id hd hm hu => h.covers (fun v hv => ho v (hops v hv)) d id hd (hmatch d hm) hu⟩

theorem planned_unusable : Planned values definitions e .unusable :=
  ⟨planOk_unusable,fun _ _ _ _ _ hu => by cases hu⟩

theorem Planned.better (h : Planned values definitions e current)
    (h' : Planned values definitions e candidate) : Planned values definitions e (betterQueryAccessPlan current candidate) := by
  rcases betterQueryAccessPlan_cases current candidate with heq | heq
  · rw [heq]
    exact h
  · rw [heq]
    exact h'

theorem planned_single (hdef : definition ∈ definitions) (hspans : ∀ span ∈ spans, SpanOk definition span)
    (h : (∀ v ∈ e.operands, v ∈ values) → ∀ d id, Admitted values definitions d id → matchExpression e d = true →
      ∃ key, indexDocumentKey definition d = .ok (some key) ∧ ∃ span ∈ spans, span.covers key) :
    Planned values definitions e (normalizedSingleSourcePlan ⟨false,definition,[],spans⟩ score q) := by
  refine ⟨⟨fun he s hs => ?_,fun s hs => ?_⟩,fun ho d id hd hm _ => ?_⟩
  · obtain rfl := mem_singleton.mp hs
    exact of_decide_eq_true he
  · obtain rfl := mem_singleton.mp hs
    exact ⟨fun _ => hdef,fun _ => hspans⟩
  · exact ⟨_,mem_singleton_self _,by simpa [QueryPlanSource.covers] using h ho d id hd hm⟩

theorem primaryQueryAccessPlan_planned (e : Expr) : Planned values definitions e (primaryQueryAccessPlan e) := by
  unfold primaryQueryAccessPlan
  split
  · exact planned_unusable
  rename_i candidates hc
  split
  · exact planned_unusable
  rename_i ids hids
  refine ⟨⟨fun he s hs => ?_,fun s hs => ?_⟩,fun _ d id hd hm _ => ?_⟩
  · obtain rfl := mem_singleton.mp hs
    exact ⟨of_decide_eq_true he,rfl⟩
  · obtain rfl := mem_singleton.mp hs
    exact ⟨by rintro ⟨⟩,by rintro ⟨⟩⟩
  obtain ⟨encoded,hencoded,rfl⟩ := Option.map_eq_some_iff.mp hc
  obtain ⟨hencode,hmatch⟩ := encodedIndexValuesCandidate_sound hencoded
  obtain ⟨v,hv,w,-,heq,k,hk,w',hw'⟩ := hmatch d hm
  rw [hd.identity] at hv
  cases hv
  obtain ⟨x,hx,hvalue⟩ := (mapM_eq_some_mem hids).1 w' (mem_map.mpr ⟨_,hw',rfl⟩)
  obtain rfl : w' = .id x := by
    cases w' <;> simp only [valueID,reduceCtorEq,Option.some.injEq] at hvalue
    rw [hvalue]
  -- The operand is the document's id, and a candidate with the same key is too.
  obtain rfl : w = .id id := by
    cases w <;> simp [fieldEquals,Value.equal,compareNumeric] at heq
    rw [heq]
  obtain rfl : x = id := Subtype.ext (List.cons.inj (Option.some.inj ((hencode _ hw').2.trans hk.symm))).2
  exact ⟨_,mem_singleton_self _,by simpa [QueryPlanSource.covers] using hx⟩

variable (hagree : KeysAgree values)
include hagree in
theorem compoundQueryAccessPlan_planned (hdef : definition ∈ definitions) (hc : usesCompoundIndexCodec definition) :
    Planned values definitions e (compoundQueryAccessPlan e definition q) := by
  unfold compoundQueryAccessPlan
  dsimp only
  split
  · rename_i span hspan
    split_ifs
    · exact planned_unusable
    refine planned_single hdef (forall_mem_singleton.mpr (compoundIndexQueryBounds_ok hc hspan)) (fun ho d id hd hm => ?_)
    obtain ⟨r,hr⟩ := hd.indexed definition hdef
    obtain ⟨key,rfl,hcov⟩ := compoundIndexQueryBounds_covers hagree ho (hd.stored definition hdef) hr hc hm hspan
    exact ⟨key,hr,span,mem_singleton_self span,hcov⟩
  split
  · rename_i spans hspans
    refine planned_single hdef (compoundIndexValueSpans_ok hspans) (fun ho d id hd hm => ?_)
    obtain ⟨r,hr⟩ := hd.indexed definition hdef
    obtain ⟨key,rfl,hcov⟩ := compoundIndexValueSpans_covers hagree ho (hd.stored definition hdef) hr hc hm hspans
    exact ⟨key,hr,hcov⟩
  · exact planned_unusable

theorem valueSpans_ok (hc : usesCompoundIndexCodec definition = false)
    (hcandidates : encodedIndexValuesCandidate e field = some candidates) (hspans : candidates.mapM valueSpan = some spans) :
    ∀ span ∈ spans, SpanOk definition span := by
  intro span hspan
  obtain ⟨candidate,hin,hvalue⟩ := (mapM_eq_some_mem hspans).2 span hspan
  obtain ⟨stop,hstop,rfl⟩ := Option.map_eq_some_iff.mp hvalue
  exact (wholeKey_scalar hc ((encodedIndexValuesCandidate_sound hcandidates).1 candidate hin).2 hstop).ok

include hagree in
theorem scalarQueryAccessPlan_planned
    (hdef : definition ∈ definitions) (hc : usesCompoundIndexCodec definition = false) (hf : definition.fields = [f]) :
    Planned values definitions e (scalarQueryAccessPlan e definition f.field q) := by
  have hstored : ∀ {d id}, Admitted values definitions d id → ∀ v, lookupInternal d f.field = some v → v ∈ values :=
    fun hd => hd.stored definition hdef f (by simp [hf])
  unfold scalarQueryAccessPlan
  split
  · rename_i candidates hcandidates
    split
    · exact planned_unusable
    rename_i spans hspans
    refine planned_single hdef (valueSpans_ok hc hcandidates hspans) (fun ho d id hd hm => ?_)
    obtain ⟨r,hr⟩ := hd.indexed definition hdef
    obtain ⟨v,hv,w,hw,heq,k,hk,w',hw'⟩ := (encodedIndexValuesCandidate_sound hcandidates).2 d hm
    obtain ⟨key,rfl,hkey⟩ := indexDocumentKey_scalar hr hc hf hv
    have hsame : encodeIndexKey v = encodeIndexKey w :=
      encodeIndexKey_eq_of_fieldEquals hagree (hstored hd v hv) (ho w hw) (by simp [hkey]) (by simp [hk]) heq
    obtain rfl : key = k := Option.some.inj (hkey.symm.trans (hsame.trans hk))
    obtain ⟨span,hspan,hvalue⟩ := (mapM_eq_some_mem hspans).1 _ hw'
    obtain ⟨stop,hstop,rfl⟩ := Option.map_eq_some_iff.mp hvalue
    have hcov := covers_of_extends true (prefix_refl key)
    rw [hstop] at hcov
    exact ⟨key,hr,_,hspan,hcov⟩
  split
  · exact planned_unusable
  rename_i lower upper hrange
  have hbounds : ∀ {b}, storageIndexBounds lower upper = .ok b → (∀ v ∈ e.operands, v ∈ values) →
      ∀ d id, Admitted values definitions d id → matchExpression e d = true →
        ∃ key, indexDocumentKey definition d = .ok (some key) ∧
          ∃ start stop, b = some (start,stop) ∧ (⟨start,stop,false⟩ : IndexScanSpan).covers key := by
    intro b hb ho d id hd hm
    obtain ⟨r,hr⟩ := hd.indexed definition hdef
    obtain ⟨v,hv,hin⟩ := inBounds_of_match hagree ho hm hrange (fun v hv => ⟨hstored hd v hv,by
      obtain ⟨key,-,hkey⟩ := indexDocumentKey_scalar hr hc hf hv
      simp [hkey]⟩)
    obtain ⟨key,rfl,hkey⟩ := indexDocumentKey_scalar hr hc hf hv
    exact ⟨key,hr,storageIndexBounds_covers hkey hb hin⟩
  split
  · exact planned_unusable
  · rename_i hempty
    -- An empty range contradicts the match.
    refine ⟨⟨fun _ s hs => ?_,fun s hs => ?_⟩,fun ho d id hd hm _ => ?_⟩
    · obtain rfl := mem_singleton.mp hs
      exact ⟨rfl,rfl⟩
    · obtain rfl := mem_singleton.mp hs
      exact ⟨fun _ => hdef,fun _ => nofun⟩
    · obtain ⟨key,-,start,stop,hbad,-⟩ := hbounds hempty ho d id hd hm
      cases hbad
  rename_i start stop hspan
  refine planned_single hdef (forall_mem_singleton.mpr (storageIndexBounds_ok hc hspan)) (fun ho d id hd hm => ?_)
  obtain ⟨key,hkey,start',stop',heq,hcov⟩ := hbounds hspan ho d id hd hm
  cases heq
  exact ⟨key,hkey,_,mem_singleton_self _,hcov⟩

include hagree in
theorem indexQueryAccessPlan_planned (e : Expr) (q : QuerySpec)
    (hdef : definition ∈ definitions) : Planned values definitions e (indexQueryAccessPlan e definition q) := by
  unfold indexQueryAccessPlan
  split_ifs with hc
  · exact compoundQueryAccessPlan_planned hagree hdef hc
  have hc : usesCompoundIndexCodec definition = false := by simpa using hc
  obtain ⟨f,hf⟩ := scalar_definition_fields hc
  rw [hf]
  exact scalarQueryAccessPlan_planned hagree hdef hc hf

include hagree in
theorem directQueryAccessPlan_planned (e : Expr) (q : QuerySpec)
    (hused : ∀ definition ∈ used, definition ∈ definitions) :
    Planned values definitions e (directQueryAccessPlan e used q) := by
  unfold directQueryAccessPlan
  have hfirst : Planned values definitions e (primaryQueryAccessPlan e) := primaryQueryAccessPlan_planned e
  revert hfirst
  generalize primaryQueryAccessPlan e = best
  induction used generalizing best with
  | nil => exact fun h => h
  | cons definition used ih =>
    intro h
    have hplan := indexQueryAccessPlan_planned hagree e q (hused definition mem_cons_self)
    exact ih (fun x hx => hused x (mem_cons_of_mem _ hx)) _ (h.better hplan)

/-! ### Logical branches -/

structure UnionOk (definitions : List IndexDefinition) (union : QueryAccessPlan) : Prop where
  usable : union.usable = true
  nonempty : union.empty = false
  sources : ∀ s ∈ union.sources, SourceOk definitions s

theorem UnionOk.plan (h : UnionOk definitions union) : PlanOk definitions union :=
  ⟨fun he => by simp [h.nonempty] at he,h.sources⟩

theorem unionPlan_ok (h : unionPlan union candidate = some union')
    (hu : UnionOk definitions union) (hc : Planned values definitions e candidate) :
    UnionOk definitions union' ∧ (∀ s ∈ union.sources, s ∈ union'.sources) ∧
      ((∀ v ∈ e.operands, v ∈ values) → ∀ d id, Admitted values definitions d id → matchExpression e d = true →
        union'.covers d id) := by
  unfold unionPlan at h
  by_cases husable : candidate.usable = true
  · rw [if_neg (by simp [husable])] at h
    by_cases hempty : candidate.empty = true
    · rw [if_pos hempty] at h
      cases h
      exact ⟨hu,fun s hs => hs,
        fun ho d id hd hm => absurd (hc.covers ho d id hd hm husable) (hc.toPlanOk.not_covers hempty)⟩
    rw [if_neg hempty] at h
    cases h
    refine ⟨⟨hu.usable,hu.nonempty,fun s hs => ?_⟩,fun s hs => mem_append_left _ hs,fun ho d id hd hm => ?_⟩
    · rcases mem_append.mp hs with hs | hs
      · exact hu.sources s hs
      · exact hc.sources s hs
    · obtain ⟨s,hs,hcov⟩ := hc.covers ho d id hd hm husable
      exact ⟨s,mem_append_right _ hs,hcov⟩
  · rw [if_pos (by simpa using husable)] at h
    cases h

variable (hnames : ∀ a ∈ definitions, ∀ b ∈ definitions, a.name = b.name → a = b)
include hnames in
theorem finishUnion_planned (hbest : Planned values definitions (.logical .or args) best) (hu : UnionOk definitions union)
    (hcov : (∀ v ∈ operandsOf args, v ∈ values) → ∀ d id, Admitted values definitions d id → matchSome args d = true →
      union.covers d id) :
    Planned values definitions (.logical .or args) (finishUnion best union q) := by
  unfold finishUnion
  split_ifs with hnil
  · refine hbest.better ⟨⟨fun _ s hs => ?_,fun s hs => ?_⟩,fun ho d id hd hm _ => ?_⟩
    · rw [hnil] at hs
      cases hs
    · rw [hnil] at hs
      cases hs
    · rw [matchExpression] at hm
      exact hcov ho d id hd hm
  refine hbest.better ⟨normalizeQueryAccessPlan_ok hu.plan hnames hu.nonempty,fun ho d id hd hm _ => ?_⟩
  rw [matchExpression] at hm
  exact normalizeQueryAccessPlan_covers hu.plan hnames hu.usable (hcov ho d id hd hm)

section
variable {used : List IndexDefinition} {q : QuerySpec}

theorem bestConjunct_planned (whole : Expr) : ∀ args : List Expr,
    (∀ e ∈ args, Planned values definitions e (bestQueryAccessPlan used q e)) →
    (∀ d, matchExpression whole d = true → matchEvery args d = true) → (∀ v ∈ operandsOf args, v ∈ whole.operands) →
    ∀ best, Planned values definitions whole best → Planned values definitions whole (bestConjunct used q args best)
  | [],_,_,_,best,hbest => by
    rw [bestConjunct]
    exact hbest
  | e::es,hargs,hmatch,hops,best,hbest => by
    have hcandidate : Planned values definitions whole (bestQueryAccessPlan used q e) := by
      refine (hargs e mem_cons_self).imp (fun d hm => ?_) (fun v hv => hops v (mem_append_left _ hv))
      have hm := hmatch d hm
      rw [matchEvery,Bool.and_eq_true] at hm
      exact hm.1
    rw [bestConjunct]
    split_ifs
    · exact hcandidate
    refine bestConjunct_planned whole es (fun e he => hargs e (mem_cons_of_mem _ he)) (fun d hm => ?_)
      (fun v hv => hops v (mem_append_right _ hv)) _ (hbest.better hcandidate)
    have hm := hmatch d hm
    rw [matchEvery,Bool.and_eq_true] at hm
    exact hm.2

theorem unionOfBranches_ok : ∀ (args : List Expr) (union : QueryAccessPlan) {union' : QueryAccessPlan},
    (∀ e ∈ args, Planned values definitions e (bestQueryAccessPlan used q e)) →
    unionOfBranches used q args union = some union' → UnionOk definitions union →
    UnionOk definitions union' ∧ (∀ s ∈ union.sources, s ∈ union'.sources) ∧
      ((∀ v ∈ operandsOf args, v ∈ values) → ∀ d id, Admitted values definitions d id → ∀ e ∈ args,
        matchExpression e d = true → union'.covers d id)
  | [],union,union',_,h,hu => by
    rw [unionOfBranches] at h
    cases h
    exact ⟨hu,fun s hs => hs,fun _ _ _ _ e he => absurd he not_mem_nil⟩
  | e::es,union,union',hargs,h,hu => by
    rw [unionOfBranches] at h
    split at h
    · cases h
    rename_i mid hmid
    obtain ⟨hmidok,hkept,hcov⟩ := unionPlan_ok hmid hu (hargs e mem_cons_self)
    obtain ⟨hok,hkept',hcov'⟩ := unionOfBranches_ok es mid (fun e he => hargs e (mem_cons_of_mem _ he)) h hmidok
    refine ⟨hok,fun s hs => hkept' s (hkept s hs),fun ho d id hd x hx hm => ?_⟩
    rcases mem_cons.mp hx with rfl | hx
    · obtain ⟨s,hs,hc⟩ := hcov (fun v hv => ho v (mem_append_left _ hv)) d id hd hm
      exact ⟨s,hkept' s hs,hc⟩
    · exact hcov' (fun v hv => ho v (mem_append_right _ hv)) d id hd x hx hm

include hagree hnames in
theorem bestQueryAccessPlan_planned (hused : ∀ definition ∈ used, definition ∈ definitions) :
    ∀ e : Expr, Planned values definitions e (bestQueryAccessPlan used q e)
  | .logical .and args => by
    rw [bestQueryAccessPlan]
    refine bestConjunct_planned (.logical .and args) args (fun e _ => bestQueryAccessPlan_planned hused e) (fun d hm => ?_)
      (fun v hv => hv) _ (directQueryAccessPlan_planned hagree _ q hused)
    rwa [matchExpression] at hm
  | .logical .or args => by
    have hdirect := directQueryAccessPlan_planned hagree (.logical .or args) q hused
    rw [bestQueryAccessPlan]
    split_ifs
    · exact hdirect
    split
    · exact hdirect
    rename_i union hunion
    obtain ⟨hu,-,hcov⟩ :=
      unionOfBranches_ok args _ (fun e _ => bestQueryAccessPlan_planned hused e) hunion ⟨rfl,rfl,by simp⟩
    refine finishUnion_planned hnames hdirect hu (fun ho d id hd hm => ?_)
    obtain ⟨e,he,hm⟩ := matchSome_iff.mp hm
    exact hcov ho d id hd e he hm
  | .true | .not _ | .compare _ _ _ | .membership _ _ _ | .exists _ _ | .size _ _ | .type _ _ | .all _ _
  | .elemMatchScalar _ _ | .elemMatchObject _ _ => by
    rw [bestQueryAccessPlan]
    · exact directQueryAccessPlan_planned hagree _ q hused
    all_goals simp

end

include hagree hnames in
theorem selectQueryAccessPlan_planned (e : Expr) (q : QuerySpec) :
    Planned values definitions e (selectQueryAccessPlan e definitions q) :=
  bestQueryAccessPlan_planned hagree hnames (fun _ h => mem_stableSort.mp h) e

end
end Meldbase.Database
