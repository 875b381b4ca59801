import Meldbase.Database.ExecutorEquivalence

/-! # Ordered merges and the storage executors

Iterators over single keys list documents in insertion order, so that taking the
least current entry examines the documents of several keys in insertion order.
-/
namespace Meldbase.Database
open List Outcome

/-! ### Ordered merges -/

section
variable {c : StoredCollection} {q : QuerySpec} {s : OrderedStorageScan} {scans : List OrderedStorageScan}
  {e : IndexEntry} {s' : OrderedStorageScan} {L : List StoredDocument} {r : StoredDocument}

/-- The rest of an iterator over one key. -/
structure ScanOk (c : StoredCollection) (s : OrderedStorageScan) : Prop where
  entries : ∀ e ∈ s.entries, ∃ r, EntryOf c s.definition e r
  keys : ∀ e ∈ s.entries, e.key = s.expectedKey
  ascending : s.entries.Pairwise (fun a b => a.position < b.position)

structure Merging (c : StoredCollection) (q : QuerySpec) (scans : List OrderedStorageScan) (L : List StoredDocument)
    (st : Scan) : Prop extends Scanned c.toCollectionRecords q L st where
  listed : ∀ s ∈ scans, ScanOk c s
  ascending : L.Pairwise (fun a b => a.position < b.position)
  before : ∀ x ∈ L, ∀ s ∈ scans, ∀ e ∈ s.entries, x.position ≤ e.position

theorem mem_addRecord (hL : ∀ r ∈ L, r ∈ c.records) (hr : r ∈ c.records) :
    x ∈ addRecord L r ↔ x ∈ L ∨ x = r := by
  have h := mem_foldl_addRecord (c := c.toCollectionRecords) [r] hL (forall_mem_singleton.mpr hr) (r := x)
  simpa using h

theorem addRecord_ascending (hL : ∀ r ∈ L, r ∈ c.records)
    (hasc : L.Pairwise (fun a b => a.position < b.position)) (hr : r ∈ c.records)
    (hle : ∀ x ∈ L, x.position ≤ r.position) : (addRecord L r).Pairwise (fun a b => a.position < b.position) := by
  unfold addRecord
  split_ifs with hseen
  · exact hasc
  refine pairwise_append.mpr ⟨hasc,pairwise_singleton _ _,fun x hx y hy => ?_⟩
  obtain rfl := mem_singleton.mp hy
  refine lt_of_le_of_ne (hle x hx) (fun heq => hseen ?_)
  rw [← c.eq_of_position (hL x hx) hr heq]
  exact mem_map.mpr ⟨x,hx,rfl⟩

theorem ScanOk.tail (h : ScanOk c s) (hs : s.entries = e::s'.entries)
    (hs' : s' = { s with entries := s'.entries }) : ScanOk c s' := by
  have hdef : s'.definition = s.definition := by rw [hs']
  have hkey : s'.expectedKey = s.expectedKey := by rw [hs']
  have hsub : ∀ e' ∈ s'.entries, e' ∈ s.entries := fun e' he' => by
    rw [hs]
    exact mem_cons_of_mem e he'
  refine ⟨fun e' he' => hdef ▸ h.entries e' (hsub e' he'),fun e' he' => hkey ▸ h.keys e' (hsub e' he'),?_⟩
  have hasc := h.ascending
  rw [hs] at hasc
  exact (pairwise_cons.mp hasc).2

theorem least_le (hscans : ∀ s ∈ scans, ScanOk c s)
    (hfirst : ∀ t ∈ scans, ∀ e' ∈ t.entries.head?, e.position ≤ e'.position) :
    ∀ t ∈ scans, ∀ e' ∈ t.entries, e.position ≤ e'.position := by
  intro t ht e' he'
  have hhead := hfirst t ht
  have hasc := (hscans t ht).ascending
  cases ht' : t.entries with
  | nil =>
    rw [ht'] at he'
    cases he'
  | cons first rest =>
    rw [ht'] at he' hhead hasc
    have hfirst := hhead first rfl
    rcases mem_cons.mp he' with rfl | he'
    · exact hfirst
    · exact hfirst.trans ((pairwise_cons.mp hasc).1 e' he').le

theorem Merging.step (h : Merging c q (pre ++ s::post) L st) (hs : s.entries = e::s'.entries)
    (hs' : s' = { s with entries := s'.entries })
    (hfirst : ∀ t ∈ pre ++ s::post, ∀ e' ∈ t.entries.head?, e.position ≤ e'.position) :
    ∃ r st', EntryOf c s.definition e r ∧ admitEntry c q s.definition st e = .ok st' ∧
      Merging c q (pre ++ s'::post) (addRecord L r) st' ∧ ∀ x ∈ addRecord L r, x.position ≤ e.position := by
  have hin : s ∈ pre ++ s::post := by simp
  have hsok := h.listed s hin
  obtain ⟨r,hr⟩ := hsok.entries e (by rw [hs]; simp)
  obtain ⟨st',hst',hscan⟩ := (admitEntry_visits (q := q) hr).2 L st h.toScanned
  have hleL : ∀ x ∈ L, x.position ≤ e.position := fun x hx => h.before x hx s hin e (by rw [hs]; simp)
  have hle : ∀ x ∈ addRecord L r, x.position ≤ e.position := by
    intro x hx
    rcases (mem_addRecord h.stored hr.stored).mp hx with hx | rfl
    · exact hleL x hx
    · exact hr.position.ge
  have hrest := least_le h.listed hfirst
  refine ⟨r,st',hr,hst',⟨by simpa using hscan,fun t ht => ?_,?_,fun x hx t ht e' he' => (hle x hx).trans ?_⟩,hle⟩
  · rcases mem_append.mp ht with ht | ht
    · exact h.listed t (mem_append_left _ ht)
    rcases mem_cons.mp ht with rfl | ht
    · exact hsok.tail hs hs'
    · exact h.listed t (mem_append_right _ (mem_cons_of_mem _ ht))
  · exact addRecord_ascending h.stored h.ascending hr.stored (fun x hx => hr.position ▸ hleL x hx)
  rcases mem_append.mp ht with ht | ht
  · exact hrest t (mem_append_left _ ht) e' he'
  rcases mem_cons.mp ht with rfl | ht
  · exact hrest s hin e' (by rw [hs]; exact mem_cons_of_mem e he')
  · exact hrest t (mem_append_right _ (mem_cons_of_mem _ ht)) e' he'

def Pending (scans : List OrderedStorageScan) (L : List StoredDocument) (r : StoredDocument) : Prop :=
  r ∈ L ∨ ∃ s ∈ scans, ∃ e ∈ s.entries, e.id = r.id

theorem Pending.step (hL : ∀ x ∈ L, x ∈ c.records) (hs : s.entries = e::s'.entries)
    (hr0 : EntryOf c s.definition e r0) (hr : r ∈ c.records) (h : Pending (pre ++ s::post) L r) :
    Pending (pre ++ s'::post) (addRecord L r0) r := by
  rcases h with h | ⟨t,ht,e',he',hid⟩
  · exact .inl ((mem_addRecord hL hr0.stored).mpr (.inl h))
  rcases mem_append.mp ht with ht | ht
  · exact .inr ⟨t,mem_append_left _ ht,e',he',hid⟩
  rcases mem_cons.mp ht with rfl | ht
  · rw [hs] at he'
    rcases mem_cons.mp he' with rfl | he'
    · exact .inl ((mem_addRecord hL hr0.stored).mpr (.inr (c.eq_of_id hr hr0.stored (hid.symm.trans hr0.id))))
    · exact .inr ⟨s',by simp,e',he',hid⟩
  · exact .inr ⟨t,mem_append_right _ (mem_cons_of_mem _ ht),e',he',hid⟩

end

/-! ### Executing a plan -/

section
variable {c : StoredCollection} {q : QuerySpec} {access : QueryAccessPlan} {definitions : List IndexDefinition}
  (hdefs : definitions = c.indexes.map StoredIndex.definition) (hok : PlanOk definitions access) (hfit : access.fits)
include hdefs hok hfit

variable (hcov : ∀ r ∈ c.records, q.matches r.document = true → access.covers r.document r.id)
include hcov

end

/-! ### Refused intervals -/

section
variable {α : Type} {step : Scan → α → Except QueryError Scan}

end

section
variable {c : StoredCollection} {q : QuerySpec} {access : QueryAccessPlan}

variable {definitions : List IndexDefinition} (hdefs : definitions = c.indexes.map StoredIndex.definition)
  (hok : PlanOk definitions access)
  (hcov : ∀ r ∈ c.records, q.matches r.document = true → access.covers r.document r.id) (hlaw : q.Lawful c.records)
include hdefs hok hcov hlaw

end
end Meldbase.Database
