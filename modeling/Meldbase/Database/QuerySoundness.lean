import Meldbase.Database.ExecutorEquivalence

/-! # Returned documents match

Whatever plan an executor follows, and however values compare, it returns only
documents of the collection that match the query.
-/
namespace Meldbase.Database
open Comparison List
open Outcome (bind_eq_ok)

def Matching (records : List StoredDocument) (q : QuerySpec) (items : List QueryCandidate) : Prop :=
  ∀ x ∈ items, ∃ r ∈ records, r.candidate = x ∧ q.matches r.document = true

section
variable {records : List StoredDocument} {q : QuerySpec} {items : List QueryCandidate}

theorem matching_nil : Matching records q [] := by simp [Matching]

theorem Matching.subset (h : Matching records q items) (hsub : ∀ x ∈ items', x ∈ items) :
    Matching records q items' := fun x hx => h x (hsub x hx)

theorem Matching.add (h : Matching records q items) (hr : r ∈ records) (hm : q.matches r.document = true) :
    Matching records q (q.collect items r.candidate) := by
  have hcons : Matching records q (r.candidate::items) := by
    rintro x (_ | ⟨_,hx⟩)
    · exact ⟨r,hr,rfl,hm⟩
    · exact h x hx
  refine hcons.subset (fun x hx => ?_)
  unfold QuerySpec.collect at hx
  split at hx
  · simpa [or_comm] using hx
  · exact retain_subset hx

theorem page_subset {α : Type*} {l : List α} {x : α} (h : x ∈ q.page l) : x ∈ l := by
  unfold QuerySpec.page at h
  split at h
  · exact mem_of_mem_drop h
  · exact mem_of_mem_drop (mem_of_mem_take h)

theorem orderMatched_subset (h : x ∈ q.orderMatched items) : x ∈ items := by
  unfold QuerySpec.orderMatched at h
  split_ifs at h
  · exact mem_stableSort.mp h
  · exact h
  · exact mem_stableSort.mp h

theorem Matching.documents (h : Matching records q items) (hd : d ∈ q.executeMatched items) :
    ∃ r ∈ records, r.document = d ∧ q.matches d = true := by
  obtain ⟨x,hx,rfl⟩ := mem_map.mp hd
  obtain ⟨r,hr,rfl,hm⟩ := h x (orderMatched_subset (page_subset hx))
  exact ⟨r,hr,rfl,hm⟩

end

/-! ### Storage -/

section
variable {c : StoredCollection} {q : QuerySpec}

theorem decodeQueryStorageCandidate_some (h : decodeQueryStorageCandidate r = .ok candidate) : candidate = r.candidate := by
  unfold decodeQueryStorageCandidate at h
  split_ifs at h
  exact (Except.ok.inj h).symm

def Scan.Sound (c : StoredCollection) (q : QuerySpec) (st : Scan) : Prop := Matching c.records q st.items

theorem Scan.Sound.examine {st : Scan} (h : st.Sound c q) (hr : r ∈ c.records) (id : DocumentID) :
    (st.examine q id r.candidate).Sound c q := by
  unfold Scan.Sound Scan.examine
  dsimp only
  split_ifs with hm
  · exact Matching.add h hr hm
  · exact h

theorem admitID_sound {id : DocumentID} (h : st.Sound c q) (hstep : admitID c q st id = .ok st') : st'.Sound c q := by
  unfold admitID at hstep
  split at hstep
  · cases hstep
    exact h
  split at hstep
  · cases hstep
    exact h
  rename_i r hr
  obtain ⟨candidate,hc,hstep⟩ := bind_eq_ok.mp hstep
  split_ifs at hstep
  cases hstep
  rw [decodeQueryStorageCandidate_some hc]
  exact h.examine (findRecord_some hr).1 id

theorem admitEntry_sound (h : st.Sound c q)
    (hstep : admitEntry c q definition st entry = .ok st') : st'.Sound c q := by
  unfold admitEntry at hstep
  split at hstep
  · cases hstep
  split at hstep
  · cases hstep
    exact h
  split at hstep
  · cases hstep
  rename_i r hr
  obtain ⟨candidate,hc,hstep⟩ := bind_eq_ok.mp hstep
  split at hstep
  · cases hstep
  cases hstep
  rw [decodeQueryStorageCandidate_some hc]
  exact h.examine (findRecord_some hr).1 entry.id

theorem admitRecord_sound (hr : r ∈ c.records) (h : st.Sound c q)
    (hstep : admitRecord q st r = .ok st') : st'.Sound c q := by
  unfold admitRecord at hstep
  obtain ⟨candidate,hc,hstep⟩ := bind_eq_ok.mp hstep
  split_ifs at hstep
  cases hstep
  rw [decodeQueryStorageCandidate_some hc]
  exact h.examine hr r.id

theorem scanUntil_sound {α : Type} {step : Scan → α → Except QueryError Scan} {xs : List α}
    (hstep : ∀ x ∈ xs, ∀ st st', Scan.Sound c q st → step st x = .ok st' → Scan.Sound c q st') :
    ∀ {st st' : Scan}, st.Sound c q → scanUntil step stopAfter xs st = .ok st' → st'.Sound c q := by
  induction xs with
  | nil =>
    intro st st' h hrun
    cases hrun
    exact h
  | cons x xs ih =>
    intro st st' h hrun
    rw [scanUntil] at hrun
    obtain ⟨next,hnext,hrun⟩ := bind_eq_ok.mp hrun
    have hsound := hstep x mem_cons_self st next h hnext
    split_ifs at hrun
    · cases hrun
      exact hsound
    · exact ih (fun y hy => hstep y (mem_cons_of_mem _ hy)) hsound hrun

theorem scanSource_sound (h : st.Sound c q)
    (hrun : scanSource c q stopAfter st source = .ok st') : st'.Sound c q := by
  unfold scanSource at hrun
  split_ifs at hrun
  · exact scanUntil_sound (fun _ _ _ _ h hs => admitID_sound h hs) h hrun
  refine scanUntil_sound (fun span _ st st' h hs => ?_) h hrun
  obtain ⟨entries,-,hs⟩ := bind_eq_ok.mp hs
  exact scanUntil_sound (fun _ _ _ _ h hs => admitEntry_sound h hs) h hs

theorem mergeScans_sound : ∀ {scans : List OrderedStorageScan} {st st' : Scan}, st.Sound c q →
    mergeScans c q window fuel scans st = .ok st' → st'.Sound c q := by
  induction fuel with
  | zero =>
    intro scans st st' h hrun
    cases hrun
    exact h
  | succ fuel ih =>
    intro scans st st' h hrun
    rw [mergeScans] at hrun
    split at hrun
    · cases hrun
      exact h
    obtain ⟨next,hnext,hrun⟩ := bind_eq_ok.mp hrun
    have hsound := admitEntry_sound h hnext
    split at hrun
    · cases hrun
      exact hsound
    · obtain ⟨scan,-,hrun⟩ := bind_eq_ok.mp hrun
      exact ih hsound hrun

theorem sound_nil : (⟨[],[]⟩ : Scan).Sound c q := matching_nil

theorem executeStorageAccessPlan_sound (h : executeStorageAccessPlan c access q = .ok docs) (hd : d ∈ docs) :
    ∃ r ∈ c.records, r.document = d ∧ q.matches d = true := by
  unfold executeStorageAccessPlan at h
  split at h
  · cases h
    cases hd
  split at h
  · obtain ⟨scans,-,h⟩ := bind_eq_ok.mp h
    obtain ⟨st,hst,h⟩ := bind_eq_ok.mp h
    cases h
    exact (mergeScans_sound sound_nil hst).documents hd
  obtain ⟨st,hst,h⟩ := bind_eq_ok.mp h
  cases h
  exact (scanUntil_sound (fun _ _ _ _ h hs => scanSource_sound h hs) sound_nil hst).documents hd

theorem scanStorageCollection_sound (h : scanStorageCollection c q = .ok docs)
    (hd : d ∈ docs) : ∃ r ∈ c.records, r.document = d ∧ q.matches d = true := by
  unfold scanStorageCollection at h
  split at h
  · cases h
    cases hd
  obtain ⟨st,hst,h⟩ := bind_eq_ok.mp h
  cases h
  exact (scanUntil_sound (fun _ hr _ _ h hs => admitRecord_sound hr h hs) sound_nil hst).documents hd

theorem planStorageLocked_sound (h : planStorageLocked c q = .ok docs) (hd : d ∈ docs) :
    ∃ r ∈ c.records, r.document = d ∧ q.matches d = true := by
  unfold planStorageLocked at h
  dsimp only at h
  split at h
  · exact executeStorageAccessPlan_sound h hd
  · exact scanStorageCollection_sound h hd

end

/-! ### Memory -/

section
variable {m : MemoryCollection} {q : QuerySpec}

theorem examineUntil_matching (hrs : ∀ r ∈ rs, r ∈ records) :
    ∀ {items : List QueryCandidate}, Matching records q items → Matching records q (examineUntil q stopAfter rs items) := by
  induction rs with
  | nil => exact fun h => h
  | cons r rs ih =>
    intro items h
    rw [forall_mem_cons] at hrs
    rw [examineUntil]
    dsimp only
    split_ifs with hm
    · exact h.add hrs.1 hm
    · exact ih hrs.2 (h.add hrs.1 hm)
    · exact ih hrs.2 h

theorem found_mem {ids : List DocumentID} (h : r ∈ ids.filterMap (findRecord m.records)) : r ∈ m.records := by
  obtain ⟨id,-,hr⟩ := mem_filterMap.mp h
  exact (findRecord_some hr).1

theorem executeMemoryAccessPlan_sound (h : executeMemoryAccessPlan m access q = .ok docs) (hd : d ∈ docs) :
    ∃ r ∈ m.records, r.document = d ∧ q.matches d = true := by
  unfold executeMemoryAccessPlan at h
  split at h
  · cases h
    cases hd
  obtain ⟨ids,-,h⟩ := bind_eq_ok.mp h
  split at h
  · cases h
    refine (examineUntil_matching (fun r hr => ?_) matching_nil).documents hd
    exact found_mem (mem_stableSort.mp hr)
  · cases h
    exact (examineUntil_matching (fun r hr => found_mem hr) matching_nil).documents hd

theorem planWithBudget_sound (h : planWithBudget m q = .ok docs) (hd : d ∈ docs) :
    ∃ r ∈ m.records, r.document = d ∧ q.matches d = true := by
  unfold planWithBudget at h
  dsimp only at h
  split at h
  · exact executeMemoryAccessPlan_sound h hd
  cases h
  unfold scanMemoryCollection at hd
  split_ifs at hd
  · cases hd
  all_goals exact (examineUntil_matching (fun r hr => hr) matching_nil).documents hd

end
end Meldbase.Database
