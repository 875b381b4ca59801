import Meldbase.Server.Policy

/-! # Denied update paths

An accepted mutation edits no denied path and nothing below one.  An edit of an
object above a denied path is not rejected, and replaces what is below it.
-/
namespace Meldbase.Server
open Database
variable {wireBytes : ClientQuery → ℕ} {q accepted : ClientQuery} {m : MutationSpec} {policy : UpdatePolicy}

theorem applyUpdatePolicy_denied (h : applyUpdatePolicy wireBytes q m policy = .ok accepted)
    (hd : denied ∈ policy.deniedUpdatePaths.getD []) (hp : path ∈ m.paths) : covers denied path = false := by
  unfold applyUpdatePolicy at h
  split at h
  · cases h
  rename_i hnone
  have hpath : policyPathDenied path policy.deniedUpdatePaths = false := by
    simp only [List.any_eq_true,not_exists,not_and,Bool.not_eq_true] at hnone
    exact hnone path hp
  unfold policyPathDenied at hpath
  rw [List.any_eq_false] at hpath
  simpa using hpath denied hd

theorem applyUpdatePolicy_not_below (h : applyUpdatePolicy wireBytes q m policy = .ok accepted)
    (hd : denied ∈ policy.deniedUpdatePaths.getD []) (hp : path ∈ m.paths) : ¬ splitPath denied <+: splitPath path := by
  intro hext
  have hbelow := applyUpdatePolicy_denied h hd hp
  rw [covers_iff.mpr hext] at hbelow
  cases hbelow

/-- A denied path keeps its value exactly when an edit above it, if there is one, does not replace it: an object
with that very value is set, nothing is removed, or the edit is an increment or changes an array. -/
theorem denied_path_kept (wireBytes : ClientQuery → ℕ) (q accepted : ClientQuery) (m : MutationSpec) (policy : UpdatePolicy)
    (h : applyUpdatePolicy wireBytes q m policy = .ok accepted) (hcompiled : m.compiled = true)
    (before after : Document) (happly : m.apply before = .ok after)
    (denied : Bytes) (hd : denied ∈ policy.deniedUpdatePaths.getD []) :
    lookupInternal after denied = lookupInternal before denied ↔
      ∀ operation ∈ m.operations, operation.Leaves denied (lookupInternal before denied) := by
  obtain ⟨hpairs,hinc⟩ := m.compiled_apart hcompiled
  exact foldlM_applyUpdateOperation_iff (m.apply_eq happly) hpairs
    (fun operation hm => applyUpdatePolicy_not_below h hd (List.mem_map_of_mem hm)) hinc

theorem top_level_denied_kept (h : applyUpdatePolicy wireBytes q m policy = .ok accepted)
    (happly : m.apply before = .ok after) (hd : denied ∈ policy.deniedUpdatePaths.getD [])
    (htop : 0x2e ∉ denied) : lookupInternal after denied = lookupInternal before denied := by
  refine m.apply_keeps happly (fun path hp => ⟨fun hext => ?_,applyUpdatePolicy_not_below h hd hp⟩)
  rcases splitPath_extends.mp hext with rfl | hext
  · exact applyUpdatePolicy_not_below h hd hp (List.prefix_refl _)
  · exact htop (hext.subset (by simp))

/-! ### An edit above a denied path -/

def denying (denied : List Bytes) : UpdatePolicy where
  policyVersion := [0x76]
  lease := none
  constraint := none
  maxResults := 10
  allowAllQueryPaths := true
  allowedQueryPaths := none
  allowAllFilterPaths := false
  allowedFilterPaths := none
  allowAllFilterOperators := false
  allowedFilterOperators := none
  allowAllSortPaths := false
  allowedSortPaths := none
  allowAllAggregateFields := false
  allowedAggregateFields := none
  allowAllResultFields := true
  allowedResultFields := none
  additionalLease := none
  compositeLeases := false
  allowAllUpdatePaths := true
  allowedUpdatePaths := none
  deniedUpdatePaths := some denied
  maxAffected := 10
def outerPath : Bytes := [0x61]
def innerPath : Bytes := [0x61,0x2e,0x62]
def everything : ClientQuery := ⟨⟨.true,[],0,none⟩,false⟩
def setTo (path : Bytes) (value : Value) : MutationSpec := ⟨[⟨.set,path,value⟩]⟩
def nested : Document := [(outerPath,.object [([0x62],.bool true)])]

/-- Setting `a` is accepted where `a.b` is denied, and removes it. -/
theorem denied_path_overwritten : ∃ accepted after,validateMutationPath outerPath [] = true ∧
    applyUpdatePolicy (fun _ => 0) everything (setTo outerPath .null) (denying [innerPath]) = .ok accepted ∧
    (setTo outerPath .null).apply nested = .ok after ∧
    lookupInternal nested innerPath = some (.bool true) ∧ lookupInternal after innerPath = none :=
  ⟨_,_,by decide,rfl,rfl,rfl,rfl⟩

/-- Replaces `a` with its `b` as it is, and increases `n`. -/
def widened : MutationSpec := ⟨[⟨.set,outerPath,.object [([0x62],.bool true),([0x63],.null)]⟩,⟨.inc,[0x6e],.int 1⟩]⟩

theorem denied_path_kept_widened : ∃ after, widened.apply nested = .ok after ∧ lookupInternal after [0x6e] = some (.int 1) ∧
    lookupInternal after innerPath = some (.bool true) := by
  refine ⟨_,rfl,rfl,(denied_path_kept (fun _ => 0) everything _ widened (denying [innerPath]) rfl (by decide) nested _ rfl
    innerPath (by decide)).mpr ?_⟩
  refine List.forall_mem_cons.mpr ⟨fun rest hrest => ?_,List.forall_mem_singleton.mpr (fun _ _ => ⟨nofun,nofun⟩)⟩
  obtain rfl : rest = [0x62] := (List.cons.inj (List.cons.inj hrest).2).2.symm
  exact ⟨fun _ => rfl,nofun⟩

end Meldbase.Server
