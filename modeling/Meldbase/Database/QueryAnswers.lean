import Meldbase.Database.OrderedMerge
import Meldbase.Database.IndexKeyOrder

/-! # Query answers

The memory executors gather the ids that a plan names and look at their
documents; with them all executors give the same answer, with any indexes.
-/
namespace Meldbase.Database
open List Comparison Outcome

/-! ### Memory candidates -/

section
variable {m : MemoryCollection} {q : QuerySpec} {definitions : List IndexDefinition}

def IndexScanSpan.contains (span : IndexScanSpan) (key : Bytes) : Bool :=
  (span.start = [] ∨ span.start ≤ key) ∧ (span.stop = [] ∨ key < span.stop)

theorem contains_iff {span : IndexScanSpan} : span.contains key = true ↔ span.covers key := by
  unfold IndexScanSpan.contains IndexScanSpan.covers
  rw [decide_eq_true_iff,or_iff_not_imp_left,or_iff_not_imp_left]

section
variable (hdefs : definitions = m.indexes.map MemoryIndex.definition)
include hdefs

end

/-! ### Memory executors -/

variable (ids : List DocumentID)

end

/-! ### Documents in insertion order determine the answer -/

def scalarsInvolved (q : QuerySpec) (definitions : List IndexDefinition) (records : List StoredDocument) : Set Value :=
  {v | v ∈ q.whereExpr.operands ∨ ∃ definition ∈ definitions, ∃ f ∈ definition.fields, ∃ r ∈ records,
    lookupInternal r.document f.field = some v}

theorem lookupInternal_id {id : DocumentID} (h : d.id = some id) : lookupInternal d idField = some (.id id) := by
  have hsplit : splitPath idField = [idField] := rfl
  rw [lookupInternal,hsplit]
  simp only [lookupParts,Document.id_eq_some.mp h]

section
variable {c : CollectionRecords} {q : QuerySpec} {definitions : List IndexDefinition}
  (hindexed : ∀ definition ∈ definitions, ∀ r ∈ c.records, ∃ key, indexDocumentKey definition r.document = .ok key)
  (hagree : KeysAgree (scalarsInvolved q definitions c.records))
include hindexed

theorem admitted (hr : r ∈ c.records) :
    Admitted (scalarsInvolved q definitions c.records) definitions r.document r.id :=
  ⟨lookupInternal_id (c.identified r hr),fun definition hdef => hindexed definition hdef r hr,
    fun definition hdef f hf _ hv => .inr ⟨definition,hdef,f,hf,r,hr,hv⟩⟩

include hagree

theorem selected_covers (hnames : (definitions.map IndexDefinition.name).Nodup) :
    PlanOk definitions (selectQueryAccessPlan q.whereExpr definitions q) ∧
      ((selectQueryAccessPlan q.whereExpr definitions q).usable = true → ∀ r ∈ c.records, q.matches r.document = true →
        (selectQueryAccessPlan q.whereExpr definitions q).covers r.document r.id) := by
  have hplanned := selectQueryAccessPlan_planned hagree
    (fun a ha b hb hab => inj_on_of_nodup_map hnames ha hb hab) q.whereExpr q
  exact ⟨hplanned.toPlanOk,fun husable r hr hm =>
    hplanned.covers (fun v hv => .inl hv) r.document r.id (admitted hindexed hr) hm husable⟩

end

section
variable {c : StoredCollection}

theorem StoredCollection.definition_indexed (c : StoredCollection) :
    ∀ definition ∈ c.indexes.map StoredIndex.definition, ∀ r ∈ c.records,
      ∃ key, indexDocumentKey definition r.document = .ok key := by
  intro definition hdef r hr
  obtain ⟨index,hin,rfl⟩ := mem_map.mp hdef
  exact c.indexed index hin r hr

theorem StoredCollection.definition_names (c : StoredCollection) :
    ((c.indexes.map StoredIndex.definition).map IndexDefinition.name).Nodup := by
  rw [map_map]
  exact c.names

theorem MemoryCollection.definition_indexed (m : MemoryCollection) :
    ∀ definition ∈ m.indexes.map MemoryIndex.definition, ∀ r ∈ m.records,
      ∃ key, indexDocumentKey definition r.document = .ok key := by
  intro definition hdef r hr
  obtain ⟨index,hin,rfl⟩ := mem_map.mp hdef
  exact m.indexed index hin r hr

theorem MemoryCollection.definition_names (m : MemoryCollection) :
    ((m.indexes.map MemoryIndex.definition).map IndexDefinition.name).Nodup := by
  rw [map_map]
  exact m.names

end

/-! ### Candidates of a plan -/

def StoredIndex.candidates (index : StoredIndex) (span : IndexScanSpan) : List DocumentID :=
  index.tree.entries.filterMap (fun e =>
    match decodeIndexEntry e with
    | .ok entry => if span.contains entry.key then some entry.id else none
    | .error _ => none)
def QueryPlanSource.candidates (c : StoredCollection) (source : QueryPlanSource) : List DocumentID :=
  if source.primary then source.ids
  else match c.indexes.find? (fun index => index.definition.name = source.definition.name) with
    | none => []
    | some index => source.spans.flatMap index.candidates
def QueryAccessPlan.candidates (c : StoredCollection) (access : QueryAccessPlan) : List DocumentID :=
  access.sources.flatMap (QueryPlanSource.candidates c)

theorem mem_indexCandidates {c : StoredCollection} (hin : index ∈ c.indexes)
    (hr : r ∈ c.records) (hkey : indexDocumentKey index.definition r.document = .ok (some key))
    {span : IndexScanSpan} (hcov : span.covers key) : r.id ∈ index.candidates span := by
  obtain ⟨hmem,hentry⟩ := entry_of_document hin hr hkey
  refine mem_filterMap.mpr ⟨_,hmem,?_⟩
  unfold decodeIndexEntry
  rw [Logical.secondaryKeyParts_eq hentry]
  simp [contains_iff.mpr hcov]

theorem mem_indexCandidates_iff {id : DocumentID} (hin : index ∈ c.indexes) {span : IndexScanSpan}
    (hspan : SpanOk index.definition span)
    (hfit : span.fits) : id ∈ index.candidates span ↔
      ∃ entries, openIndexIterator c index.definition.name span.start span.stop = .ok entries ∧
        id ∈ entries.map IndexEntry.id := by
  obtain ⟨entries,hentries,hfrom,-⟩ := openIndexIterator_ok hin hspan hfit.1 hfit.2
  simp only [hentries,Except.ok.injEq,exists_eq_left']
  constructor
  · intro h
    obtain ⟨x,hx,hid⟩ := mem_filterMap.mp h
    obtain ⟨e,r,he,hr,-⟩ := decode_entry hin hx
    simp only [he,Option.ite_none_right_eq_some,Option.some.injEq] at hid
    exact mem_map.mpr ⟨e,(hfrom e).mpr ⟨⟨r,hr⟩,contains_iff.mp hid.1⟩,hid.2⟩
  · intro h
    obtain ⟨e,he,rfl⟩ := mem_map.mp h
    obtain ⟨⟨r,hr⟩,hcov⟩ := (hfrom e).mp he
    rw [hr.id]
    exact mem_indexCandidates hin hr.stored hr.key hcov

/-- The candidates of a plan whose intervals fit are the ids that its iterators list. -/
theorem mem_candidates_iff {id : DocumentID} (hok : PlanOk (c.indexes.map StoredIndex.definition) access) (hfit : access.fits) :
    id ∈ access.candidates c ↔ ∃ source ∈ access.sources, if source.primary then id ∈ source.ids
      else ∃ span ∈ source.spans, ∃ entries,
        openIndexIterator c source.definition.name span.start span.stop = .ok entries ∧ id ∈ entries.map IndexEntry.id := by
  refine mem_flatMap.trans (exists_congr (fun source => and_congr_right (fun hsource => ?_)))
  unfold QueryPlanSource.candidates
  cases hp : source.primary with
  | true => rfl
  | false =>
    have hsourceok := hok.sources source hsource
    obtain ⟨index,hin,hdef⟩ := hsourceok.index rfl hp
    rw [if_neg Bool.false_ne_true,if_neg Bool.false_ne_true,← hdef,find_index hin]
    refine mem_flatMap.trans (exists_congr (fun span => and_congr_right (fun hspan => ?_)))
    exact mem_indexCandidates_iff hin (hdef ▸ hsourceok.spans hp span hspan) (hfit source hsource hp span hspan)

theorem mem_candidates (hok : PlanOk (c.indexes.map StoredIndex.definition) access) (hr : r ∈ c.records)
    (hcov : access.covers r.document r.id) : r.id ∈ access.candidates c := by
  obtain ⟨source,hsource,hcov⟩ := hcov
  refine mem_flatMap.mpr ⟨source,hsource,?_⟩
  unfold QueryPlanSource.candidates
  unfold QueryPlanSource.covers at hcov
  cases hp : source.primary with
  | true => simpa [hp] using hcov
  | false =>
    rw [hp,if_neg Bool.false_ne_true] at hcov
    obtain ⟨key,hkey,span,hspan,hcov⟩ := hcov
    obtain ⟨index,hin,hdef⟩ := mem_map.mp ((hok.sources source hsource).known hp)
    rw [← hdef] at hkey ⊢
    rw [if_neg Bool.false_ne_true,find_index hin]
    exact mem_flatMap.mpr ⟨span,hspan,mem_indexCandidates hin hr hkey hcov⟩

variable (c : StoredCollection)

/-- An index is an optimization only: every matching document is among the
candidates of the selected plan, and filtering the candidates gives the full scan. -/
theorem selectQueryAccessPlan_sound (q : QuerySpec)
    (hagree : KeysAgree (scalarsInvolved q (c.indexes.map StoredIndex.definition) c.records))
    (husable : (selectQueryAccessPlan q.whereExpr (c.indexes.map StoredIndex.definition) q).usable = true) :
    (∀ r ∈ c.records, q.matches r.document = true →
      r.id ∈ (selectQueryAccessPlan q.whereExpr (c.indexes.map StoredIndex.definition) q).candidates c) ∧
    (c.records.filter (fun r =>
        r.id ∈ (selectQueryAccessPlan q.whereExpr (c.indexes.map StoredIndex.definition) q).candidates c)).filter
      (fun r => q.matches r.document) = c.records.filter (fun r => q.matches r.document) := by
  obtain ⟨hok,hcov⟩ := selected_covers c.definition_indexed hagree c.definition_names
  have hall : ∀ r ∈ c.records, q.matches r.document = true →
      r.id ∈ (selectQueryAccessPlan q.whereExpr (c.indexes.map StoredIndex.definition) q).candidates c :=
    fun r hr hm => mem_candidates hok hr (hcov husable r hr hm)
  refine ⟨hall,?_⟩
  rw [filter_filter]
  refine filter_congr (fun r hr => ?_)
  cases hm : q.matches r.document with
  | false => rfl
  | true => simp [hall r hr hm]

/-! ### Building collections -/

def StoredCollection.empty (definitions : List IndexDefinition) (hnames : (definitions.map IndexDefinition.name).Nodup) :
    StoredCollection where
  records := []
  ascending := .nil
  distinct := nodup_nil
  identified := by simp
  indexes := definitions.map (fun definition => ⟨definition,∅⟩)
  placed := by simp
  names := by rwa [map_map]
  indexed := by simp
  holds := by
    refine forall_mem_map.mpr (fun definition _ => ?_)
    exact Logical.holds_empty _
def StoredIndex.add (index : StoredIndex) (r : StoredDocument) : StoredIndex :=
  match indexDocumentKey index.definition r.document with
  | .ok (some key) => { index with tree := index.tree.insert (Logical.compositeKey key r.position r.id) [0] }
  | _ => index
def StoredIndex.accepts (index : StoredIndex) (r : StoredDocument) : Bool :=
  match indexDocumentKey index.definition r.document with
  | .ok key => (key.getD []).length ≤ Logical.maxSecondaryScalarKeyBytes
  | .error _ => false

/-- A document that can be added to a collection. -/
structure Addable (c : StoredCollection) (r : StoredDocument) : Prop where
  identified : r.id.isZero = false ∧ r.document.id = some r.id
  placed : 0 < r.position ∧ r.position ≤ Logical.maxUint64
  fresh : ∀ x ∈ c.records, x.position < r.position ∧ x.id ≠ r.id
  accepted : ∀ index ∈ c.indexes, index.accepts r = true

theorem StoredIndex.add_definition (index : StoredIndex) (r : StoredDocument) : (index.add r).definition = index.definition := by
  unfold StoredIndex.add
  split <;> rfl

theorem StoredIndex.accepts_key {index : StoredIndex} (h : index.accepts r = true) :
    ∃ key, indexDocumentKey index.definition r.document = .ok key ∧
      (key.getD []).length ≤ Logical.maxSecondaryScalarKeyBytes := by
  unfold StoredIndex.accepts at h
  split at h
  · exact ⟨_,by assumption,of_decide_eq_true h⟩
  · cases h

theorem findRecord_concat {records : List StoredDocument} (h : ∀ x ∈ records, x.id ≠ r.id) (id : DocumentID) :
    findRecord (records ++ [r]) id = if id = r.id then some r else findRecord records id := by
  unfold findRecord
  rw [find?_append]
  split_ifs with hid
  · subst hid
    rw [List.find?_eq_none.mpr (by simpa using h)]
    simp
  · simp [Ne.symm hid]

theorem Addable.holds {c : StoredCollection} (h : Addable c r) {index : StoredIndex} (hin : index ∈ c.indexes) :
    Logical.Holds (indexedKey index.definition (c.records ++ [r])) (recordPosition (c.records ++ [r])) (index.add r).tree := by
  have hfind := findRecord_concat (fun x hx => (h.fresh x hx).2)
  have hnone : findRecord c.records r.id = none := List.find?_eq_none.mpr (by simpa using fun x hx => (h.fresh x hx).2)
  have hfree : indexedKey index.definition c.records r.id = [] := by rw [indexedKey,hnone]
  have hother {id : DocumentID} (hid : id ≠ r.id) :
      indexedKey index.definition (c.records ++ [r]) id = indexedKey index.definition c.records id ∧
        recordPosition (c.records ++ [r]) id = recordPosition c.records id := by
    simp only [indexedKey,recordPosition,hfind,if_neg hid,and_self]
  obtain ⟨key,hkey,hlen⟩ := StoredIndex.accepts_key (h.accepted index hin)
  have hholds := c.holds index hin
  unfold StoredIndex.add
  rw [hkey]
  cases key with
  | none =>
    -- a document without the indexed fields has no entry
    have hself : indexedKey index.definition (c.records ++ [r]) r.id = [] := by simp [indexedKey,hfind,hkey]
    refine hholds.congr (fun id => ?_) (fun id hne => (hother ?_).2)
    · by_cases hid : id = r.id
      · rw [hid,hself,hfree]
      · exact (hother hid).1
    · rintro rfl
      exact hne hfree
  | some k =>
    have hentry : Logical.EntryOk k r.position r.id :=
      ⟨indexDocumentKey_ne_nil hkey,hlen,h.placed.1,h.placed.2,h.identified.1⟩
    refine (hholds.insert hfree hentry).congr (fun id => ?_) (fun id _ => ?_)
    all_goals
      by_cases hid : id = r.id
      · subst hid
        simp [indexedKey,recordPosition,hfind,hkey]
      · rw [Function.update_of_ne hid]
        first | exact (hother hid).1 | exact (hother hid).2

def StoredCollection.add (c : StoredCollection) (r : StoredDocument) (h : Addable c r) : StoredCollection where
  records := c.records ++ [r]
  ascending := pairwise_append.mpr ⟨c.ascending,pairwise_singleton _ _,fun x hx => forall_mem_singleton.mpr (h.fresh x hx).1⟩
  distinct := by
    rw [map_append]
    refine c.distinct.append (nodup_singleton _) (disjoint_singleton.mpr fun hmem => ?_)
    obtain ⟨x,hx,hid⟩ := mem_map.mp hmem
    exact (h.fresh x hx).2 hid
  identified := forall_mem_append.mpr ⟨c.identified,forall_mem_singleton.mpr h.identified.2⟩
  indexes := c.indexes.map (StoredIndex.add · r)
  placed := forall_mem_append.mpr ⟨c.placed,forall_mem_singleton.mpr ⟨h.placed.1,h.identified.1⟩⟩
  names := by
    rw [map_map]
    simpa only [Function.comp_def,StoredIndex.add_definition] using c.names
  indexed := by
    refine forall_mem_map.mpr (fun index hin => ?_)
    rw [index.add_definition]
    obtain ⟨key,hkey,-⟩ := StoredIndex.accepts_key (h.accepted index hin)
    exact forall_mem_append.mpr ⟨c.indexed index hin,forall_mem_singleton.mpr ⟨key,hkey⟩⟩
  holds := by
    refine forall_mem_map.mpr (fun index hin => ?_)
    rw [index.add_definition]
    exact h.holds hin

def kField : Bytes := [107]
def hField : Bytes := [104]
def kIndex : IndexDefinition := ⟨[97],[⟨kField,1⟩],false⟩
def khIndex : IndexDefinition := ⟨[98],[⟨kField,1⟩,⟨hField,-1⟩],false⟩
def numbered (n : Byte) (fields : Document) : StoredDocument := ⟨.ending n,n.val,(idField,.id (.ending n))::fields⟩

/-- Documents with the keys `a` and `b`; the last is listed in the compound index under a part of its key. -/
def letterCollection : StoredCollection :=
  (((StoredCollection.empty [kIndex,khIndex] (by decide)).add (numbered 1 [(kField,.string [97]),(hField,.string [120])])
    ⟨by decide,by decide,by decide,by decide⟩).add (numbered 2 [(kField,.string [98]),(hField,.string [121])])
    ⟨by decide,by decide,by decide,by decide⟩).add (numbered 3 [(kField,.string [98])])
    ⟨by decide,by decide,by decide,by decide⟩
def underLetter : QuerySpec :=
  ⟨.logical .and [.compare .eq kField (.string [98]),.compare .lt hField (.string [122])],[],0,some 2⟩

theorem keysAgree_bytes {values : Set Value} (h : ∀ v ∈ values, indexRank v = 3 ∨ indexRank v = 6) : KeysAgree values :=
  fun a ha _ _ _ _ hka hkb => compareValues_bytes (h a ha) hka hkb

theorem letters_agree :
    KeysAgree (scalarsInvolved underLetter (letterCollection.indexes.map StoredIndex.definition) letterCollection.records) := by
  have hstored : ∀ definition ∈ letterCollection.indexes.map StoredIndex.definition, ∀ f ∈ definition.fields,
      ∀ r ∈ letterCollection.records, (lookupInternal r.document f.field).all (fun v => indexRank v = 3) = true := by decide
  refine keysAgree_bytes (fun v hv => .inl ?_)
  rcases hv with hv | ⟨definition,hdef,f,hf,r,hr,hv⟩
  · have hoperands : ∀ w ∈ underLetter.whereExpr.operands, indexRank w = 3 := by decide
    exact hoperands v hv
  have hrank := hstored definition hdef f hf r hr
  rw [hv] at hrank
  exact of_decide_eq_true hrank

theorem letterCollection_planned :
    (selectQueryAccessPlan underLetter.whereExpr (letterCollection.indexes.map StoredIndex.definition) underLetter).sources.map
      QueryPlanSource.definition = [khIndex] ∧
    (numbered 2 []).id ∈ (selectQueryAccessPlan underLetter.whereExpr (letterCollection.indexes.map StoredIndex.definition)
      underLetter).candidates letterCollection :=
  ⟨rfl,(selectQueryAccessPlan_sound letterCollection underLetter letters_agree rfl).1
    (numbered 2 [(kField,.string [98]),(hField,.string [121])]) (mem_cons_of_mem _ mem_cons_self) rfl⟩

/-! ### One answer -/

theorem QuerySpec.Lawful.congr {q : QuerySpec} {c c' : CollectionRecords} (h : q.Lawful c.records)
    (hsame : c'.records.map StoredDocument.document = c.records.map StoredDocument.document) : q.Lawful c'.records := by
  refine h.mono ?_
  rintro d ⟨r,hr,hm,rfl⟩
  have hmem : r.document ∈ c.records.map StoredDocument.document := hsame ▸ mem_map.mpr ⟨r,hr,rfl⟩
  obtain ⟨r',hr',hd⟩ := mem_map.mp hmem
  exact ⟨r',hr',by rw [hd]; exact hm,hd⟩

theorem KeysAgree.mono {values values' : Set Value} (h : KeysAgree values) (hsub : values' ⊆ values) : KeysAgree values' :=
  fun a ha b hb => h a (hsub ha) b (hsub hb)

section
variable {a : Value} {b : IndexBound} (ha : encodeIndexKey a = some ka) (hb : encodeIndexKey b.value = some kb)

include ha

include hb

end

def emptyCollection : StoredCollection := .empty [kIndex] (by decide)
end Meldbase.Database
