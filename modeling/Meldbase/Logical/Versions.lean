import Meldbase.Logical.Moves
import Meldbase.Logical.IndexContents

/-! # Versions of collections

A commit either leaves a collection record as it was or stores one that carries
the commit's own sequence, so the sequence in a record names its version.
-/
namespace Meldbase.Logical
open SortedMap Outcome List Prod

/-! ### The records a transaction stores -/

structure Finished (sequence : ℕ) (state : CollectionWriteState) (header : CollectionMeta) : Prop where
  header_eq : header = { state.header with
    indexCatalogRoot := header.indexCatalogRoot
    primaryRoot := some state.tree
    orderRoot := some state.order
    updatedSequence := sequence }
  valid : validCollectionMeta header = true
  indexes : ∃ indexCatalog, storeChangedIndexes sequence state.indexCatalog
    (state.indexes.entries.filter (fun e => e.2.changed)) = .ok indexCatalog ∧
    header.indexCatalogRoot = if (state.indexes.entries.filter (fun e => e.2.changed)).isEmpty
      then state.header.indexCatalogRoot else some indexCatalog
  size : state.tree.size = state.header.documentCount

theorem encodeCollectionMeta_ok (h : encodeCollectionMeta m = .ok stored) :
    stored = m ∧ validCollectionMeta m = true := by
  unfold encodeCollectionMeta at h
  split_ifs at h with hvalid
  cases h
  exact ⟨rfl,hvalid⟩

theorem finishCollection_ok {sequence : ℕ}
    (h : finishCollection sequence state = .ok header) : Finished sequence state header := by
  unfold finishCollection at h
  dsimp only at h
  obtain ⟨indexCatalog,hstore,h⟩ := bind_eq_ok.mp h
  obtain ⟨hsize,h⟩ := guard_eq_ok.mp h
  simp only [Bool.or_eq_true,decide_eq_true_eq,not_or,not_not] at hsize
  obtain ⟨rfl,hvalid⟩ := encodeCollectionMeta_ok h
  exact ⟨rfl,hvalid,⟨indexCatalog,hstore,rfl⟩,hsize.1⟩

structure Published (sequence : ℕ) (entries : List (Bytes × CollectionWriteState)) (catalog catalog' : Catalog) :
    Prop where
  stored : ∀ e ∈ entries, ∃ header, finishCollection sequence e.2 = .ok header ∧
    catalog'.collections.find e.1 = some header
  others : ∀ c, c ∉ entries.map fst → catalog'.collections.find c = catalog.collections.find c

theorem publish_entries {sequence : ℕ} {entries : List (Bytes × CollectionWriteState)}
    (hnodup : (entries.map fst).Nodup)
    (h : entries.foldlM (publishCollection sequence) (catalog,[]) = .ok r) :
    Published sequence entries catalog r.1 ∧ ∀ change ∈ r.2, change.operation = .catalog := by
  have hinvariant : (entries.map fst).Nodup →
      Published sequence entries catalog r.1 ∧ ∀ change ∈ r.2, change.operation = .catalog := by
    refine foldlM_from_start (I := fun done (acc : Catalog × List CommitChange) =>
      (done.map fst).Nodup → Published sequence done catalog acc.1 ∧ ∀ change ∈ acc.2, change.operation = .catalog)
      ?_ ?_ h
    · intro done acc e acc' hacc hs hnodup
      rw [map_append,nodup_append] at hnodup
      obtain ⟨hdone,-,hnew⟩ := hnodup
      obtain ⟨⟨hstored,hothers⟩,hchanges⟩ := hacc hdone
      unfold publishCollection at hs
      obtain ⟨header,hheader,hs⟩ := bind_eq_ok.mp hs
      cases hs
      refine ⟨⟨?_,?_⟩,?_⟩
      · intro e' he'
        rcases mem_append.mp he' with he' | he'
        · obtain ⟨header',hheader',hfind⟩ := hstored e' he'
          refine ⟨header',hheader',?_⟩
          have hne : e'.1 ≠ e.1 := hnew e'.1 (mem_map_of_mem he') e.1 (by simp)
          dsimp only
          rw [find_insert,if_neg hne]
          exact hfind
        rw [mem_singleton] at he'
        subst he'
        refine ⟨header,hheader,?_⟩
        dsimp only
        rw [find_insert,if_pos rfl]
      · intro c hc
        simp only [map_append,mem_append,not_or,map_singleton,mem_singleton] at hc
        dsimp only
        rw [find_insert,if_neg hc.2]
        exact hothers c hc.1
      dsimp only
      split_ifs
      · intro change hchange
        rcases mem_append.mp hchange with hchange | hchange
        · exact hchanges change hchange
        · rw [mem_singleton.mp hchange]
          rfl
      · exact hchanges
    · intro _
      exact ⟨⟨by simp,fun _ _ => rfl⟩,by simp⟩
  exact hinvariant hnodup

structure DocumentsPublished (sequence : ℕ) (states : WriteStates) (old new : SortedMap Bytes CollectionMeta) : Prop where
  stored : ∀ c state, states.find c = some state → ∃ header, Finished sequence state header ∧ new.find c = some header
  others : ∀ c, states.find c = none → new.find c = old.find c

variable {root : DatabaseRoot}

theorem DocumentsApplied.published [Sha256] {base : DatabaseRoot}
    {published catalog : Catalog}
    (h : DocumentsApplied tx base t records tx' root work states published catalog changes)
    (hnodup : (records.map SystemRecordMutation.key).Nodup) :
    DocumentsPublished tx.sequence states (openCatalog base.catalogRoot).collections catalog.collections ∧
      ∀ change ∈ changes, change.operation = .catalog := by
  have hkeys : (states.entries.map fst).Nodup := Entries.Ordered.keys_nodup states.ordered
  obtain ⟨hpublished,hchanges⟩ := publish_entries hkeys h.publish
  obtain ⟨hsystem,-⟩ := foldlM_systemStep hnodup h.system
  refine ⟨⟨?_,?_⟩,hchanges⟩
  · intro c state hfind
    obtain ⟨header,hheader,hstored⟩ := hpublished.stored (c,state) (mem_entries.mpr hfind)
    exact ⟨header,finishCollection_ok hheader,by rw [hsystem]; exact hstored⟩
  intro c hnone
  rw [hsystem,hpublished.others c]
  intro hmem
  obtain ⟨e,he,rfl⟩ := mem_map.mp hmem
  rw [mem_entries.mp he] at hnone
  cases hnone

/-! ### Versions -/

def Rewrites (sequence : ℕ) (old new : SortedMap Bytes CollectionMeta) : Prop :=
  ∀ name, new.find name = old.find name ∨ ∃ header, new.find name = some header ∧ header.updatedSequence = sequence

theorem Rewrites.insert {sequence : ℕ}
    (h : header.updatedSequence = sequence) : Rewrites sequence old (old.insert name header) := by
  intro c
  rw [find_insert]
  split_ifs
  · exact .inr ⟨header,rfl,h⟩
  · exact .inl rfl

theorem Writes.rewrites [Sha256] (h : Writes base batch root) :
    Rewrites (base.commitSequence+1) (openCatalog base.catalogRoot).collections
      (openCatalog batch.catalogRoot).collections := by
  cases h with
  | documents sequence nodup applied =>
    rename_i tx tx' t records work states published catalog changes
    obtain ⟨hpublished,-⟩ := applied.published nodup
    intro c
    cases hfind : states.find c with
    | none => exact .inl (hpublished.others c hfind)
    | some state =>
      obtain ⟨header,hfinished,hstored⟩ := hpublished.stored c state hfind
      refine .inr ⟨header,hstored,?_⟩
      rw [hfinished.header_eq]
      exact sequence
  | collection new catalog changes count =>
    rw [catalog]
    exact .insert rfl
  | index sequence start normalized applied =>
    refine .insert ?_
    rw [(encodeCollectionMeta_ok applied.header_eq).1]
    exact sequence
  | build sequence start applied =>
    refine .insert ?_
    rw [(encodeCollectionMeta_ok applied.header_eq).1]
    exact sequence
  | quiet collections changes count =>
    rw [collections]
    exact fun name => .inl rfl

theorem Written.updated_le [Sha256] {log : ℕ → CommitBatch} (h : Written root log)
    (hq : q ≤ root.commitSequence)
    (hfind : (collectionsAt log q).find name = some header) : header.updatedSequence ≤ q := by
  induction q with
  | zero => cases hfind
  | succ q ih =>
    obtain ⟨base,root',batch,changes,hwrote⟩ := h.wrote q hq
    have hrewrites := hwrote.writes.rewrites
    rw [hwrote.before,hwrote.base_sequence,← hwrote.after] at hrewrites
    rcases hrewrites name with hsame | ⟨header',hnew,hsequence⟩
    · have := ih (by omega) (hsame ▸ hfind)
      omega
    rw [hfind] at hnew
    cases hnew
    exact hsequence.le

theorem Written.same_version [Sha256] {log : ℕ → CommitBatch} (h : Written root log)
    (hab : a ≤ b) (hb : b ≤ root.commitSequence)
    (hold : (collectionsAt log a).find name = some old) (hnew : (collectionsAt log b).find name = some new)
    (hsequence : new.updatedSequence = old.updatedSequence) : new = old := by
  induction b, hab using Nat.le_induction generalizing new with
  | base =>
    rw [hold] at hnew
    exact (Option.some.inj hnew).symm
  | succ b hab ih =>
    obtain ⟨base,root',batch,changes,hwrote⟩ := h.wrote b hb
    have hrewrites := hwrote.writes.rewrites
    rw [hwrote.before,hwrote.base_sequence,← hwrote.after] at hrewrites
    rcases hrewrites name with hsame | ⟨header,hheader,hrewritten⟩
    · exact ih (by omega) (hsame ▸ hnew) hsequence
    -- a rewritten record is newer than any of commit `a`
    rw [hnew] at hheader
    cases hheader
    have hle := h.updated_le (hab.trans (by omega)) hold
    omega

end Meldbase.Logical
