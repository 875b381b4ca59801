import Meldbase.Database.QueryExecution

/-! # Executors agree

Every executor examines distinct documents of the collection in some order.
Either it has examined all that match, or the query is unsorted, the documents
came in insertion order and the page is complete.  In both cases the retained
candidates give the page of all matching documents in result order.
-/
namespace Meldbase.Database
open List Comparison Outcome
open PrefixOrder

def QuerySpec.matched (q : QuerySpec) (records : List StoredDocument) : List QueryCandidate :=
  (records.filter (fun r => q.matches r.document)).map StoredDocument.candidate

/-- All matching documents, ordered by the sort keys and then by insertion
position, sliced by skip and limit. -/
def QuerySpec.answer (q : QuerySpec) (records : List StoredDocument) : List Document :=
  (q.page (stableSort (lessBy q.compareCandidates) (q.matched records))).map QueryCandidate.document

variable (c : CollectionRecords)

theorem CollectionRecords.eq_of_position (ha : a ∈ c.records)
    (hb : b ∈ c.records) (h : a.position = b.position) : a = b := by
  have hnodup : (c.records.map StoredDocument.position).Nodup := pairwise_map.mpr (c.ascending.imp (fun h => h.ne))
  exact inj_on_of_nodup_map hnodup ha hb h

theorem CollectionRecords.eq_of_id (ha : a ∈ c.records)
    (hb : b ∈ c.records) (h : a.id = b.id) : a = b :=
  inj_on_of_nodup_map c.distinct ha hb h

theorem CollectionRecords.findRecord_mem (hr : r ∈ c.records) :
    findRecord c.records r.id = some r := by
  unfold findRecord
  cases hf : c.records.find? (fun x => x.id = r.id) with
  | none => exact absurd (List.find?_eq_none.mp hf r hr) (by simp)
  | some x =>
    have hid : x.id = r.id := by simpa using List.find?_some hf
    rw [c.eq_of_id (mem_of_find?_eq_some hf) hr hid]

theorem findRecord_some {records : List StoredDocument} {id : DocumentID}
    (h : findRecord records id = some r) : r ∈ records ∧ r.id = id :=
  ⟨mem_of_find?_eq_some h,by simpa using List.find?_some h⟩

/-! ### Pages of retained candidates -/

section
variable {q : QuerySpec} {c : CollectionRecords} {L : List StoredDocument} {items : List QueryCandidate} {window : ℕ}

theorem mem_matched :
    x ∈ q.matched records ↔ ∃ r ∈ records, q.matches r.document = true ∧ r.candidate = x := by
  simp [QuerySpec.matched,and_assoc]

theorem matched_nodup (hL : L.Nodup) (hsub : ∀ r ∈ L, r ∈ c.records) : (q.matched L).Nodup := by
  refine (nodup_map_iff_inj_on (hL.filter _)).mpr (fun a ha b hb hab => ?_)
  exact c.eq_of_position (hsub a (mem_filter.mp ha).1) (hsub b (mem_filter.mp hb).1)
    (congrArg QueryCandidate.position hab)

/-- The sort values of the matching documents compare as a total preorder. -/
def QuerySpec.Lawful (q : QuerySpec) (records : List StoredDocument) : Prop :=
  SortsLawfully q.sort {d | ∃ r ∈ records, q.matches r.document = true ∧ r.document = d}

theorem lawful_unsorted (hq : q.sort = []) (records : List StoredDocument) : q.Lawful records := by
  unfold QuerySpec.Lawful
  rw [hq]
  exact sortsLawfully_nil _

theorem matched_lawful (h : q.Lawful c.records) (hsub : ∀ r ∈ L, r ∈ c.records) :
    LawfulOn q.compareCandidates {x | x ∈ q.matched L} := by
  refine compareCandidates_lawful (compareSortFields_preorder (h.mono ?_)) ?_
  · rintro d ⟨x,hx,rfl⟩
    obtain ⟨r,hr,hm,rfl⟩ := mem_matched.mp hx
    exact ⟨r,hsub r hr,hm,rfl⟩
  intro a ha b hb hpos
  obtain ⟨r,hr,-,rfl⟩ := mem_matched.mp ha
  obtain ⟨s,hs,-,rfl⟩ := mem_matched.mp hb
  rw [c.eq_of_position (hsub r hr) (hsub s hs) hpos]

theorem compareCandidates_unsorted (hq : q.sort = []) (a b : QueryCandidate) :
    q.compareCandidates a b = threeWay a.position b.position := by
  rw [QuerySpec.compareCandidates,hq]
  rfl

/-- Leaving an ordered result alone is sorting it. -/
theorem orderMatched_eq (hS : LawfulOn q.compareCandidates {x | x ∈ items})
    (hnodup : items.Nodup) : q.orderMatched items = stableSort (lessBy q.compareCandidates) items := by
  unfold QuerySpec.orderMatched
  by_cases hq : q.sort = []
  · have hless : (fun a b : QueryCandidate => decide (a.position < b.position)) = lessBy q.compareCandidates := by
      funext a b
      rw [lessBy,compareCandidates_unsorted hq]
      simp [cmp_eq_lt_iff]
    rw [if_neg (not_not.mpr hq)]
    split_ifs with hchain
    · refine (stableSort_eq hS ?_ (List.Perm.refl _)).symm
      have hpair : items.Pairwise (fun a b => a.position ≤ b.position) :=
        (isChain_iff_pairwise (R := fun a b : QueryCandidate => a.position ≤ b.position)).mp hchain
      refine (hpair.and hnodup).imp_of_mem (fun {a b} ha hb hab => ?_)
      rw [compareCandidates_unsorted hq]
      refine (cmp_eq_lt_iff _ _).mpr (lt_of_le_of_ne hab.1 (fun heq => hab.2 (hS.eq a ha b hb ?_)))
      rw [compareCandidates_unsorted hq]
      exact (cmp_eq_eq_iff _ _).mpr heq
    · rw [hless]
  · rw [if_pos hq]

theorem foldl_collect_none (h : accessPlanWindow q = none) (L items : List QueryCandidate) :
    L.foldl q.collect items = items ++ L := by
  induction L generalizing items with
  | nil => simp
  | cons x L ih =>
    rw [foldl_cons,ih,QuerySpec.collect,h]
    simp

section
variable (h : accessPlanWindow q = some window)
include h

theorem foldl_collect_some (L items : List QueryCandidate) :
    L.foldl q.collect items = L.foldl (retain q.compareCandidates window) items := by
  have : q.collect = retain q.compareCandidates window := by
    funext items x
    rw [QuerySpec.collect,h]
  rw [this]

theorem accessPlanWindow_some : ∃ limit, q.limit = some limit ∧ window = q.skip+limit := by
  unfold accessPlanWindow at h
  split at h
  · cases h
  rename_i limit hlimit
  split_ifs at h
  exact ⟨limit,hlimit,(Option.some.inj h).symm⟩

theorem page_take {α : Type*} {l l' : List α}
    (hl : l.take window = l'.take window) : q.page l = q.page l' := by
  obtain ⟨limit,hlimit,rfl⟩ := accessPlanWindow_some h
  have hpage : ∀ l : List α, q.page l = (l.take (q.skip+limit)).drop q.skip := by
    intro l
    simp [QuerySpec.page,hlimit,take_drop]
  rw [hpage,hpage,hl]

end

theorem executeMatched_collected {L : List QueryCandidate} (hS : LawfulOn q.compareCandidates {x | x ∈ L})
    (hnodup : L.Nodup) : q.executeMatched (L.foldl q.collect []) =
      (q.page (stableSort (lessBy q.compareCandidates) L)).map QueryCandidate.document := by
  unfold QuerySpec.executeMatched
  cases hw : accessPlanWindow q with
  | none => rw [foldl_collect_none hw,nil_append,orderMatched_eq hS hnodup]
  | some window =>
    rw [foldl_collect_some hw]
    obtain ⟨hfront,-⟩ := foldl_retain_front (k := window) hS hnodup
    rw [orderMatched_eq (hS.mono hfront.subset) hfront.nodup,hfront.stableSort_eq hS hnodup]
    exact congrArg (List.map QueryCandidate.document) (page_take hw (by simp))

theorem length_collected (hw : accessPlanWindow q = some window) {L : List QueryCandidate}
    (hS : LawfulOn q.compareCandidates {x | x ∈ L}) (hnodup : L.Nodup) :
    (L.foldl q.collect []).length = min window L.length := by
  rw [foldl_collect_some hw]
  exact (foldl_retain_front hS hnodup).1.length

structure Examined (c : CollectionRecords) (q : QuerySpec) (L : List StoredDocument) (items : List QueryCandidate) : Prop where
  stored : ∀ r ∈ L, r ∈ c.records
  nodup : L.Nodup
  items : items = (q.matched L).foldl q.collect []

structure InOrder (c : CollectionRecords) (q : QuerySpec) (L : List StoredDocument) : Prop where
  ascending : L.Pairwise (fun a b => a.position < b.position)
  closed : ∀ r ∈ c.records, q.matches r.document = true → r ∉ L → ∀ x ∈ L, x.position < r.position

theorem Examined.complete (h : Examined c q L items)
    (hlaw : q.Lawful c.records) (hall : ∀ r ∈ c.records, q.matches r.document = true → r ∈ L) :
    q.executeMatched items = q.answer c.records := by
  have hnodup := matched_nodup (q := q) h.nodup h.stored
  have hrecords : c.records.Nodup := c.distinct.of_map
  have hperm : (q.matched L).Perm (q.matched c.records) := by
    refine (perm_ext_iff_of_nodup hnodup (matched_nodup (c := c) hrecords (fun r hr => hr))).mpr (fun x => ?_)
    rw [mem_matched,mem_matched]
    constructor
    · rintro ⟨r,hr,hm,hx⟩
      exact ⟨r,h.stored r hr,hm,hx⟩
    · rintro ⟨r,hr,hm,hx⟩
      exact ⟨r,hall r hr hm,hm,hx⟩
  have hS := matched_lawful hlaw (L := c.records) (fun r hr => hr)
  have hSL := matched_lawful hlaw h.stored
  rw [h.items,executeMatched_collected hSL hnodup,QuerySpec.answer]
  have hsorted := stableSort_sorted hS (matched_nodup (c := c) hrecords (fun r hr => hr))
  rw [stableSort_eq (hS.mono (fun x hx => mem_stableSort.mp hx)) hsorted
    (hperm.trans (stableSort_perm _ _).symm)]

/-- Matching documents examined in insertion order are the first ones. -/
theorem InOrder.matched_front (h : InOrder c q L) (hstored : ∀ r ∈ L, r ∈ c.records) :
    q.matched L <+: q.matched c.records := by
  classical
  refine List.IsPrefix.map _ ?_
  refine ⟨(c.records.filter (fun r => q.matches r.document)).filter (fun r => r ∉ L),?_⟩
  have hmem : ∀ r, r ∈ L.filter (fun r => q.matches r.document) ++
      (c.records.filter (fun r => q.matches r.document)).filter (fun r => r ∉ L) ↔
        r ∈ c.records.filter (fun r => q.matches r.document) := by
    intro r
    simp only [mem_append,mem_filter,decide_eq_true_eq]
    constructor
    · rintro (⟨hr,hm⟩ | ⟨hr,-⟩)
      · exact ⟨hstored r hr,hm⟩
      · exact hr
    rintro ⟨hr,hm⟩
    by_cases hL : r ∈ L
    · exact .inl ⟨hL,hm⟩
    · exact .inr ⟨⟨hr,hm⟩,hL⟩
  have hsorted : (L.filter (fun r => q.matches r.document) ++
      (c.records.filter (fun r => q.matches r.document)).filter (fun r => r ∉ L)).Pairwise
        (fun a b => a.position < b.position) := by
    refine pairwise_append.mpr ⟨h.ascending.filter _,(c.ascending.filter _).filter _,fun x hx r hr => ?_⟩
    obtain ⟨hr,hL⟩ := mem_filter.mp hr
    obtain ⟨hr,hm⟩ := mem_filter.mp hr
    exact h.closed r hr hm (of_decide_eq_true hL) x (mem_filter.mp hx).1
  have hasc : (c.records.filter (fun r => q.matches r.document)).Pairwise (fun a b => a.position < b.position) :=
    c.ascending.filter _
  have hnodup : ∀ {l : List StoredDocument}, l.Pairwise (fun a b => a.position < b.position) → l.Nodup :=
    fun hl => hl.imp (fun hab heq => absurd hab (by rw [heq]; exact lt_irrefl _))
  exact ((perm_ext_iff_of_nodup (hnodup hsorted) (hnodup hasc)).mpr hmem).eq_of_pairwise
    (fun a b _ _ hab hba => absurd hab hba.not_gt) hsorted hasc

theorem Examined.stopped (h : Examined c q L items)
    (hq : q.sort = []) (horder : InOrder c q L) (hw : accessPlanWindow q = some window)
    (hfull : window ≤ items.length) : q.executeMatched items = q.answer c.records := by
  have hlaw : q.Lawful c.records := lawful_unsorted hq c.records
  have hnodup := matched_nodup (q := q) h.nodup h.stored
  have hS := matched_lawful hlaw (L := c.records) (fun r hr => hr)
  have hSL := matched_lawful hlaw h.stored
  have hpre := horder.matched_front h.stored
  have hsorted : Sorted q.compareCandidates (q.matched c.records) := by
    refine pairwise_map.mpr ((c.ascending.filter _).imp (fun {a b} hab => ?_))
    rw [compareCandidates_unsorted hq]
    exact (cmp_eq_lt_iff _ _).mpr hab
  have hlen : window ≤ (q.matched L).length := by
    rw [h.items,length_collected hw hSL hnodup] at hfull
    omega
  rw [h.items,executeMatched_collected hSL hnodup,QuerySpec.answer]
  rw [stableSort_eq hSL (hsorted.sublist hpre.sublist) (List.Perm.refl _),
    stableSort_eq hS hsorted (List.Perm.refl _)]
  refine congrArg (List.map QueryCandidate.document) (page_take hw ?_)
  obtain ⟨rest,hrest⟩ := hpre
  rw [← hrest,take_append_of_le_length hlen]

end

/-! ### Index iterators -/

structure EntryOf (c : StoredCollection) (definition : IndexDefinition) (e : IndexEntry) (r : StoredDocument) : Prop where
  stored : r ∈ c.records
  id : e.id = r.id
  position : e.position = r.position
  key : indexDocumentKey definition r.document = .ok (some e.key)

theorem indexDocumentKey_ne_nil (h : indexDocumentKey definition d = .ok (some key)) : key ≠ [] := by
  cases hc : usesCompoundIndexCodec definition with
  | false =>
    obtain ⟨f,hf⟩ := scalar_definition_fields hc
    obtain ⟨v,-,hkey⟩ := indexDocumentKey_value hc hf h
    obtain ⟨tag,rest,rfl,-⟩ := (encodeIndexKey_scalar hkey).tag
    exact cons_ne_nil _ _
  | true =>
    obtain ⟨components,tail,rfl,hcomponents,htail⟩ := indexDocumentKey_components hc h
    intro hnil
    obtain ⟨rfl,rfl⟩ := append_eq_nil_iff.mp hnil
    by_cases hless : (presentValues d definition.fields).length < definition.fields.length
    · rw [if_pos hless] at htail
      obtain ⟨rest,hrest⟩ := htail
      cases hrest
    cases hf : definition.fields with
    | nil => simp [indexDocumentKey,hf] at h
    | cons f fs =>
      cases hv : presentValues d (f::fs) with
      | nil => simp [hf,hv] at hless
      | cons v vs =>
        rw [hf,hv,length_cons,take_succ_cons,indexComponents] at hcomponents
        obtain ⟨component,hcomponent,hcomponents⟩ := Option.bind_eq_some_iff.mp hcomponents
        obtain ⟨rest,-,hcomponents⟩ := Option.bind_eq_some_iff.mp hcomponents
        obtain ⟨b,more,rfl,-⟩ := indexComponent_floor hcomponent
        cases hcomponents

/-- Filled up with a position and an id, a key stays on the side of an end it is on. -/
theorem Delimits.inRange_iff {span : IndexScanSpan} (h : Delimits span key low high)
    {id : DocumentID} :
    Entries.inRange (compositeBound span.start) (compositeBound span.stop) (Logical.compositeKey key n id) = true ↔
      span.covers key := by
  have hfill : ∀ {o b}, Placed o key b → (b ++ List.replicate 24 0 ≤ Logical.compositeKey key n id ↔ o ≠ .lt) :=
    fun hb => hb.fill_le_iff (by simp [id.property])
  have hstop := h.stop
  unfold Under at hstop
  rw [h.covers_iff,Entries.inRange_iff]
  refine and_congr ?_ ?_
  · unfold compositeBound
    split_ifs with hs
    · have hstart := h.start
      rw [hs] at hstart
      simpa using hstart.le_iff.mp (not_lt.mp (not_lt_nil key))
    · simpa using hfill h.start
  unfold compositeBound
  split_ifs at hstop ⊢ with hs
  · simpa using hstop
  · simpa using not_congr (hfill hstop)

variable {definition : IndexDefinition}

theorem indexedKey_ne {records : List StoredDocument} {id : DocumentID}
    (h : indexedKey definition records id ≠ []) :
    ∃ r, findRecord records id = some r ∧ indexDocumentKey definition r.document = .ok (some (indexedKey definition records id)) ∧
      recordPosition records id = r.position := by
  unfold indexedKey at h ⊢
  cases hr : findRecord records id with
  | none => simp [hr] at h
  | some r =>
    rw [hr] at h
    dsimp only at h ⊢
    cases hk : indexDocumentKey definition r.document with
    | error e => simp [hk] at h
    | ok k =>
      cases k with
      | none => simp [hk] at h
      | some key => exact ⟨r,rfl,hk,by simp [recordPosition,hr]⟩

section
variable {c : StoredCollection} {index : StoredIndex} (hin : index ∈ c.indexes)
include hin

theorem find_index : c.indexes.find? (fun x => x.definition.name = index.definition.name) = some index := by
  cases hf : c.indexes.find? (fun x => x.definition.name = index.definition.name) with
  | none => exact absurd (List.find?_eq_none.mp hf index hin) (by simp)
  | some x =>
    have hname : x.definition.name = index.definition.name := by simpa using List.find?_some hf
    rw [inj_on_of_nodup_map c.names (mem_of_find?_eq_some hf) hin hname]

theorem decode_entry (hx : x ∈ index.tree.entries) :
    ∃ e r, decodeIndexEntry x = .ok e ∧ EntryOf c index.definition e r ∧ x.1 = Logical.compositeKey e.key e.position e.id ∧
      Logical.EntryOk e.key e.position e.id := by
  have hholds := c.holds index hin
  obtain ⟨hv,id,hne,hkey⟩ := (hholds.find x.1 x.2).mp (SortedMap.mem_entries.mp hx)
  have hvalid := hholds.valid id hne
  obtain ⟨r,hr,hdoc,hpos⟩ := indexedKey_ne hne
  obtain ⟨hstored,hid⟩ := findRecord_some hr
  refine ⟨⟨indexedKey index.definition c.records id,recordPosition c.records id,id⟩,r,?_,⟨hstored,hid.symm,hpos,hdoc⟩,hkey,hvalid⟩
  unfold decodeIndexEntry
  rw [hkey,Logical.secondaryKeyParts_eq hvalid,hv]
  rfl

theorem entry_of_document (hr : r ∈ c.records)
    (hkey : indexDocumentKey index.definition r.document = .ok (some key)) :
    (Logical.compositeKey key r.position r.id,[(0 : Byte)]) ∈ index.tree.entries ∧ Logical.EntryOk key r.position r.id := by
  have hfind := c.toCollectionRecords.findRecord_mem hr
  have hk : indexedKey index.definition c.records r.id = key := by simp [indexedKey,hfind,hkey]
  have hp : recordPosition c.records r.id = r.position := by simp [recordPosition,hfind]
  have hne : indexedKey index.definition c.records r.id ≠ [] := by
    rw [hk]
    exact indexDocumentKey_ne_nil hkey
  refine ⟨SortedMap.mem_entries.mpr (((c.holds index hin).find _ _).mpr ⟨rfl,r.id,hne,by rw [hk,hp]⟩),?_⟩
  simpa [hk,hp] using (c.holds index hin).valid r.id hne

/-- An iterator over a well-formed interval whose ends fit lists the entries
with keys in it; those of one key come in insertion order. -/
theorem openIndexIterator_ok {span : IndexScanSpan} (hspan : SpanOk index.definition span)
    (hstart : span.start.length ≤ Logical.maxSecondaryScalarKeyBytes)
    (hstop : span.stop.length ≤ Logical.maxSecondaryScalarKeyBytes) :
    ∃ entries, openIndexIterator c index.definition.name span.start span.stop = .ok entries ∧
      (∀ e, e ∈ entries ↔ (∃ r, EntryOf c index.definition e r) ∧ span.covers e.key) ∧
      (span.exact = true → entries.Pairwise (fun a b => a.position < b.position)) := by
  have hdecode : ∀ x ∈ Entries.range index.tree.entries (compositeBound span.start) (compositeBound span.stop),
      ∃ e, decodeIndexEntry x = .ok e := by
    intro x hx
    obtain ⟨e,-,he,-⟩ := decode_entry hin (Entries.mem_range.mp hx).1
    exact ⟨e,he⟩
  obtain ⟨entries,hentries⟩ := mapM_ok hdecode
  have hfrom : ∀ {x e}, x ∈ Entries.range index.tree.entries (compositeBound span.start) (compositeBound span.stop) →
      decodeIndexEntry x = .ok e → ∃ r, EntryOf c index.definition e r ∧ span.covers e.key ∧
        x.1 = Logical.compositeKey e.key e.position e.id ∧ e.position ≤ Logical.maxUint64 := by
    intro x e hx hxe
    obtain ⟨hx,hrange⟩ := Entries.mem_range.mp hx
    obtain ⟨e',r,he',hr,hkey,hok⟩ := decode_entry hin hx
    obtain rfl : e = e' := Except.ok.inj (hxe.symm.trans he')
    obtain ⟨low,high,hd⟩ := hspan.delimited _ _ hr.key
    exact ⟨r,hr,hd.inRange_iff.mp (hkey ▸ hrange),hkey,hok.position_le⟩
  refine ⟨entries,?_,fun e => ⟨fun he => ?_,?_⟩,fun hexact => ?_⟩
  · unfold openIndexIterator
    rw [if_neg,find_index hin]
    · exact hentries
    rintro (h | h | ⟨hs,he,h⟩)
    · exact absurd hstart (not_le.mpr h)
    · exact absurd hstop (not_le.mpr h)
    · exact absurd (hspan.ordered hs he) (not_le.mpr h)
  · obtain ⟨x,hx,hxe⟩ := mapM_mem hentries e he
    obtain ⟨r,hr,hcov,-⟩ := hfrom hx hxe
    exact ⟨⟨r,hr⟩,hcov⟩
  · rintro ⟨⟨r,hr⟩,hcov⟩
    obtain ⟨low,high,hd⟩ := hspan.delimited _ _ hr.key
    obtain ⟨hentry,hp⟩ := entry_of_document hin hr.stored hr.key
    obtain ⟨e',he',hdec⟩ := mapM_of_mem hentries _ (Entries.mem_range.mpr ⟨hentry,hd.inRange_iff.mpr hcov⟩)
    obtain ⟨r',-,-,hkey,hp'⟩ := hfrom (Entries.mem_range.mpr ⟨hentry,hd.inRange_iff.mpr hcov⟩) hdec
    obtain ⟨hk,hpos,hid⟩ := Logical.compositeKey_inj hp.position_le hp' hkey
    obtain rfl : e = e' := by
      cases e
      cases e'
      cases hk
      cases hr.id.trans hid
      cases hr.position.trans hpos
      rfl
    exact he'
  refine mapM_pairwise (fun x e y e' hxe hye' hxy => ?_) hentries
    ((index.tree.ordered.filter _).imp_of_mem (fun hx hy hxy => And.intro hx (And.intro hy hxy)))
  obtain ⟨r,hr,hcov,hxk,hp⟩ := hfrom hxy.1 hxe
  obtain ⟨r',hr',hcov',hyk,hp'⟩ := hfrom hxy.2.1 hye'
  have hwhole := hspan.whole hexact
  have hlt := hxy.2.2
  rw [hxk,hyk,Logical.compositeKey,Logical.compositeKey,hwhole.eq_of_covers hr.key hcov,hwhole.eq_of_covers hr'.key hcov'] at hlt
  rcases lt_trichotomy e.position e'.position with h | h | h
  · exact h
  · -- Equal positions belong to one document, which has one entry.
    have hrr := c.eq_of_position hr.stored hr'.stored (hr.position.symm.trans (h.trans hr'.position))
    rw [h,hr.id,hrr,← hr'.id] at hlt
    exact absurd hlt (lt_irrefl _)
  · exact absurd hlt ((((FixedWidth.bigEndian_diverges h (Logical.position_lt hp)).append _ _).after _).lt.not_gt)

end

/-! ### Scans -/

def addRecord (L : List StoredDocument) (r : StoredDocument) : List StoredDocument :=
  if r.id ∈ L.map StoredDocument.id then L else L ++ [r]

section
variable {c : CollectionRecords} {q : QuerySpec} {L : List StoredDocument}

theorem mem_foldl_addRecord (rs : List StoredDocument) (hL : ∀ r ∈ L, r ∈ c.records) (hrs : ∀ r ∈ rs, r ∈ c.records)
    : r ∈ rs.foldl addRecord L ↔ r ∈ L ∨ r ∈ rs := by
  induction rs generalizing L with
  | nil => simp
  | cons x rs ih =>
    obtain ⟨hx,hrest⟩ := forall_mem_cons.mp hrs
    rw [foldl_cons,addRecord]
    split_ifs with hseen
    · obtain ⟨y,hy,hyx⟩ := mem_map.mp hseen
      obtain rfl := c.eq_of_id (hL y hy) hx hyx
      rw [ih hL hrest,mem_cons]
      constructor
      · rintro (h | h)
        · exact .inl h
        · exact .inr (.inr h)
      rintro (h | rfl | h)
      · exact .inl h
      · exact .inl hy
      · exact .inr h
    · rw [ih (forall_mem_append.mpr ⟨hL,forall_mem_singleton.mpr hx⟩) hrest]
      simp [or_assoc]

structure Scanned (c : CollectionRecords) (q : QuerySpec) (L : List StoredDocument) (st : Scan) : Prop
    extends Examined c q L st.items where
  seen : ∀ id, id ∈ st.seen ↔ id ∈ L.map StoredDocument.id

theorem matched_concat (L : List StoredDocument) (r : StoredDocument) :
    q.matched (L ++ [r]) = q.matched L ++ if q.matches r.document then [r.candidate] else [] := by
  unfold QuerySpec.matched
  rw [filter_append,map_append]
  congr 1
  split_ifs with hm
  · simp [hm]
  · simp [hm]

theorem Scanned.examine (h : Scanned c q L st)
    (hr : r ∈ c.records) (hnew : r.id ∉ st.seen) : Scanned c q (L ++ [r]) (st.examine q r.id r.candidate) := by
  have hL : r ∉ L := fun hm => hnew ((h.seen r.id).mpr (mem_map.mpr ⟨r,hm,rfl⟩))
  refine ⟨⟨forall_mem_append.mpr ⟨h.stored,forall_mem_singleton.mpr hr⟩,?_,?_⟩,fun id => ?_⟩
  · exact nodup_append.mpr ⟨h.nodup,nodup_singleton r,fun a ha b hb hab => hL (by
      rw [← mem_singleton.mp hb,← hab]
      exact ha)⟩
  · rw [matched_concat,foldl_append,← h.items]
    unfold Scan.examine
    split_ifs with h1 h2 h2
    · rfl
    · exact absurd h1 h2
    · exact absurd h2 h1
    · rfl
  · simp [Scan.examine,h.seen id,or_comm]

def Visits (c : CollectionRecords) (q : QuerySpec) (run : Scan → Except QueryError Scan) (rs : List StoredDocument) : Prop :=
  (∀ r ∈ rs, r ∈ c.records) ∧
    ∀ L st, Scanned c q L st → ∃ st', run st = .ok st' ∧ Scanned c q (rs.foldl addRecord L) st'

end

/-! ### Steps of the storage executors -/

section
variable {c : StoredCollection} {q : QuerySpec}

theorem decodeQueryStorageCandidate_ok (hr : r ∈ c.records) :
    decodeQueryStorageCandidate r = .ok r.candidate := by
  obtain ⟨hpos,hid⟩ := c.placed r hr
  unfold decodeQueryStorageCandidate
  rw [if_neg]
  simp [hid,hpos.ne',c.identified r hr]

theorem admitEntry_visits
    (h : EntryOf c definition e r) : Visits c.toCollectionRecords q (fun st => admitEntry c q definition st e) [r] := by
  obtain ⟨hpos,hid⟩ := c.placed r h.stored
  refine ⟨forall_mem_singleton.mpr h.stored,fun L st hst => ?_⟩
  dsimp only
  unfold admitEntry
  rw [h.id,h.position,if_neg (by simp [hid,hpos.ne']),foldl_cons,foldl_nil,addRecord]
  by_cases hseen : r.id ∈ st.seen
  · rw [if_pos hseen,if_pos ((hst.seen _).mp hseen)]
    exact ⟨st,rfl,hst⟩
  rw [if_neg hseen,if_neg (fun hm => hseen ((hst.seen _).mpr hm)),c.findRecord_mem h.stored]
  refine ⟨_,?_,hst.examine h.stored hseen⟩
  dsimp only
  rw [decodeQueryStorageCandidate_ok h.stored,ok_bind,if_neg]
  rintro (hbad | hbad | hbad)
  · exact hbad (c.identified r h.stored)
  · exact hbad rfl
  · exact hbad h.key

end

/-! ### Plans -/

def IndexScanSpan.fits (span : IndexScanSpan) : Prop :=
  span.start.length ≤ Logical.maxSecondaryScalarKeyBytes ∧ span.stop.length ≤ Logical.maxSecondaryScalarKeyBytes

/-- No interval of an index source has an end longer than an index key. -/
def QueryAccessPlan.fits (access : QueryAccessPlan) : Prop :=
  ∀ source ∈ access.sources, source.primary = false → ∀ span ∈ source.spans, span.fits

theorem openIndexIterator_fits {c : StoredCollection} {span : IndexScanSpan}
    (h : openIndexIterator c name span.start span.stop = .ok entries) : span.fits := by
  unfold openIndexIterator at h
  split_ifs at h with hlong
  simp only [not_or,not_lt] at hlong
  exact ⟨hlong.1,hlong.2.1⟩

section
variable {c : StoredCollection} {q : QuerySpec}

def entryRecords (c : StoredCollection) (entries : List IndexEntry) : List StoredDocument :=
  entries.filterMap (fun e => findRecord c.records e.id)
def spanRecords (c : StoredCollection) (definition : IndexDefinition) (span : IndexScanSpan) : List StoredDocument :=
  match openIndexIterator c definition.name span.start span.stop with
  | .ok entries => entryRecords c entries
  | .error _ => []
def sourceRecords (c : StoredCollection) (source : QueryPlanSource) : List StoredDocument :=
  if source.primary then source.ids.flatMap (fun id => (findRecord c.records id).toList)
  else source.spans.flatMap (spanRecords c source.definition)

theorem EntryOf.record (h : EntryOf c definition e r) : findRecord c.records e.id = some r := by
  rw [h.id]
  exact c.findRecord_mem h.stored

section
variable {index : StoredIndex} (hin : index ∈ c.indexes) {span : IndexScanSpan} (hspan : SpanOk index.definition span)
  (hfit : span.fits)
include hin hspan hfit

theorem mem_spanRecords (hr : r ∈ c.records)
    (hkey : indexDocumentKey index.definition r.document = .ok (some key)) (hcov : span.covers key) :
    r ∈ spanRecords c index.definition span := by
  obtain ⟨entries,hentries,hfrom,-⟩ := openIndexIterator_ok hin hspan hfit.1 hfit.2
  unfold spanRecords
  rw [hentries]
  exact mem_filterMap.mpr ⟨⟨key,r.position,r.id⟩,(hfrom _).mpr ⟨⟨r,hr,rfl,rfl,hkey⟩,hcov⟩,c.findRecord_mem hr⟩

end

theorem SourceOk.index (hdefs : definitions = c.indexes.map StoredIndex.definition)
    (hok : SourceOk definitions source) (hp : source.primary = false) :
    ∃ index ∈ c.indexes, index.definition = source.definition := mem_map.mp (hdefs ▸ hok.known hp)

theorem mem_sourceRecords (hdefs : definitions = c.indexes.map StoredIndex.definition)
    (hok : SourceOk definitions source) (hfit : source.primary = false → ∀ span ∈ source.spans, span.fits)
    (hr : r ∈ c.records) (hcov : source.covers r.document r.id) : r ∈ sourceRecords c source := by
  unfold sourceRecords
  unfold QueryPlanSource.covers at hcov
  cases hp : source.primary with
  | true =>
    rw [hp,if_pos rfl] at hcov
    rw [if_pos rfl]
    exact mem_flatMap.mpr ⟨r.id,hcov,by rw [c.findRecord_mem hr]; simp⟩
  | false =>
    rw [hp,if_neg Bool.false_ne_true] at hcov
    rw [if_neg Bool.false_ne_true]
    obtain ⟨key,hkey,span,hspan,hcov⟩ := hcov
    obtain ⟨index,hin,hdef⟩ := hok.index hdefs hp
    have hspans := hok.spans hp span hspan
    rw [← hdef] at hspans hkey ⊢
    exact mem_flatMap.mpr ⟨span,hspan,mem_spanRecords hin hspans (hfit hp span hspan) hr hkey hcov⟩

end

/-! ### The storage executors -/

variable {q : QuerySpec}

section
variable {c : StoredCollection} {q : QuerySpec} {access : QueryAccessPlan} {definitions : List IndexDefinition}
  (hdefs : definitions = c.indexes.map StoredIndex.definition) (hok : PlanOk definitions access) (hfit : access.fits)
  (hcov : ∀ r ∈ c.records, q.matches r.document = true → access.covers r.document r.id) (hlaw : q.Lawful c.records)
include hdefs hok hfit hcov

theorem mem_planRecords (hr : r ∈ c.records) (hm : q.matches r.document = true) :
    r ∈ access.sources.flatMap (sourceRecords c) := by
  obtain ⟨source,hsource,hcov⟩ := hcov r hr hm
  exact mem_flatMap.mpr ⟨source,hsource,
    mem_sourceRecords hdefs (hok.sources source hsource) (hfit source hsource) hr hcov⟩

include hlaw in
theorem Scanned.answer (hst : Scanned c.toCollectionRecords q
      ((access.sources.flatMap (sourceRecords c)).foldl addRecord []) st)
    (hrecords : ∀ r ∈ access.sources.flatMap (sourceRecords c), r ∈ c.records) :
    q.executeMatched st.items = q.answer c.records := by
  refine hst.toExamined.complete hlaw (fun r hr hm => ?_)
  rw [mem_foldl_addRecord (c := c.toCollectionRecords) _ (by simp) hrecords]
  exact .inr (mem_planRecords hdefs hok hfit hcov hr hm)

end

end Meldbase.Database
