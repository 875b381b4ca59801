import Meldbase.Database.QueryAnswers

/-! # What index intervals select

The ends of an interval are keys or the ends of their extensions, and the tree
holds keys filled up with a position and an id.  An iterator whose ends fit
lists the entries within the bounds and no others; with a longer end it fails.
-/
namespace Meldbase.Database
open List

/-- The iterator lists exactly the entries of documents with the property. -/
def Selects (c : StoredCollection) (definition : IndexDefinition) (start stop : Bytes) (P : Document → Prop) : Prop :=
  ∃ entries, openIndexIterator c definition.name start stop = .ok entries ∧
    ∀ e, e ∈ entries ↔ ∃ r, EntryOf c definition e r ∧ P r.document
def FieldInBounds (definition : IndexDefinition) (lower upper : Option IndexBound) (d : Document) : Prop :=
  ∃ f v, definition.fields = [f] ∧ lookupInternal d f.field = some v ∧ InBounds lower upper v

section
variable {c : StoredCollection} {index : StoredIndex} (hin : index ∈ c.indexes) {P : Document → Prop} {span : IndexScanSpan}
include hin

theorem selects_iff_fits (hok : SpanOk index.definition span)
    (h : ∀ d key, indexDocumentKey index.definition d = .ok (some key) →
      ∃ low high, Delimits span key low high ∧ (low ≠ .lt ∧ high = .lt ↔ P d)) :
    Selects c index.definition span.start span.stop P ↔ span.fits := by
  refine ⟨fun ⟨_,hopened,_⟩ => openIndexIterator_fits hopened,fun hfit => ?_⟩
  obtain ⟨entries,hentries,hfrom,-⟩ := openIndexIterator_ok hin hok hfit.1 hfit.2
  refine ⟨entries,hentries,fun e => ?_⟩
  rw [hfrom e,← exists_and_right]
  refine exists_congr (fun r => and_congr_right (fun hr => ?_))
  obtain ⟨low,high,hd,hiff⟩ := h r.document e.key hr.key
  rw [hd.covers_iff,hiff]

end

theorem fieldInBounds_iff (hf : definition.fields = [f]) (hv : lookupInternal d f.field = some v) :
    FieldInBounds definition lower upper d ↔ InBounds lower upper v := by
  simp [FieldInBounds,hf,hv]

/-- The interval computed from bounds, or from equalities and bounds, selects the entries that
satisfy them exactly when its ends fit; an empty one is reported only when there are none. -/
theorem index_spans_exact (c : StoredCollection) (index : StoredIndex) (hin : index ∈ c.indexes) :
    (usesCompoundIndexCodec index.definition = false → ∀ lower upper bounds, storageIndexBounds lower upper = .ok bounds →
      match bounds with
      | none => ∀ e r, EntryOf c index.definition e r → ¬ FieldInBounds index.definition lower upper r.document
      | some (start,stop) => Selects c index.definition start stop (FieldInBounds index.definition lower upper) ↔
          (⟨start,stop,false⟩ : IndexScanSpan).fits) ∧
    (usesCompoundIndexCodec index.definition = true → ∀ expression span,
      compoundIndexQueryBounds index.definition expression = some span →
      if span = ⟨[],[],false⟩ then ∀ e r, EntryOf c index.definition e r → ¬ LeadingRange index.definition expression r.document
      else Selects c index.definition span.start span.stop (LeadingRange index.definition expression) ↔ span.fits) := by
  refine ⟨fun hc lower upper bounds h => ?_,fun hc expression span h => ?_⟩
  · obtain ⟨f,hf⟩ := scalar_definition_fields hc
    cases bounds with
    | none =>
      intro e r hr
      obtain ⟨v,hv,hkey⟩ := indexDocumentKey_value hc hf hr.key
      rw [fieldInBounds_iff hf hv]
      exact storageIndexBounds_delimits hkey h
    | some bounds =>
      refine selects_iff_fits hin (storageIndexBounds_ok hc h) (fun d key hkey => ?_)
      obtain ⟨v,hv,hkey⟩ := indexDocumentKey_value hc hf hkey
      rw [fieldInBounds_iff hf hv]
      exact storageIndexBounds_delimits hkey h
  split_ifs with hspan
  · intro e r hr
    have hnot := compoundIndexQueryBounds_delimits hc hr.key h
    rwa [if_pos hspan] at hnot
  refine selects_iff_fits hin (compoundIndexQueryBounds_ok hc h) (fun d key hkey => ?_)
  have hdelimits := compoundIndexQueryBounds_delimits hc hkey h
  rwa [if_neg hspan] at hdelimits

theorem letters_selected : Selects letterCollection kIndex [0x40,97,0,0] []
    (FieldInBounds kIndex (some ⟨.string [97],true⟩) none) :=
  ((index_spans_exact letterCollection _ mem_cons_self).1 rfl (some ⟨.string [97],true⟩) none _ rfl).mpr ⟨by decide,by decide⟩

def longBound : IndexBound := ⟨.string (List.replicate 4100 97),true⟩

/-- The entry is above the bound, but the key of the bound is longer than any index key and the iterator refuses it. -/
theorem long_bound_refused : ∃ start e r, storageIndexBounds (some longBound) none = .ok (some (start,[])) ∧
    EntryOf letterCollection kIndex e r ∧ FieldInBounds kIndex (some longBound) none r.document ∧
    openIndexIterator letterCollection kIndex.name start [] = .error .corrupt := by
  refine ⟨_,⟨[0x40,98,0,0],3,.ending 3⟩,numbered 3 [(kField,.string [98])],rfl,
    ⟨by simp [letterCollection,StoredCollection.add],rfl,rfl,rfl⟩,?_,?_⟩
  · refine (fieldInBounds_iff (f := ⟨kField,1⟩) rfl rfl).mpr ⟨fun b hb => ?_,by simp⟩
    cases hb
    exact ⟨_,_,rfl,rfl,.inl ((cmp_eq_gt_iff _ _).mpr (by decide +kernel))⟩
  · exact if_pos (.inl (by decide +kernel))

end Meldbase.Database
