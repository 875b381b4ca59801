import Meldbase.Server.Workspace

/-! # Isolation of workspaces

One invariant carries the result: every stored document of a declared collection
holds the workspace (and owner) of the actor that inserted it.  A row that
satisfies the constraint of a request then was inserted by an actor of the same
workspace (and the same owner).
-/
namespace Meldbase.Server
open List Function KeyedList Outcome
open Database
variable {a : WorkspaceAuthorizer} {wireBytes : ClientQuery → ℕ} {digest : Bytes → Bytes} {s s' : ServerState}
  {actor : Actor} {collection : Bytes} {rule : CollectionAccess} {h : Held} {policy : QueryPolicy} {d : Document}
  {q accepted : ClientQuery}

/-! ### Server-owned fields -/

theorem workspaceIdentifier_top (hname : workspaceIdentifier name = true) : 0x2e ∉ name := by
  cases name with
  | nil => simp
  | cons first rest =>
    simp only [workspaceIdentifier,Bool.and_eq_true,all_eq_true] at hname
    rw [mem_cons,not_or]
    constructor
    · rintro rfl
      exact absurd hname.1.1 (by decide)
    · intro hm
      exact absurd (hname.2 _ hm) (by decide)

theorem workspaceIdentifier_ne_id (hname : workspaceIdentifier name = true) : name ≠ idField := by
  rintro rfl
  exact absurd hname (by decide)

/-- The document holds the values of the actor that inserted it. -/
structure Stamped (a : WorkspaceAuthorizer) (rule : CollectionAccess) (h : Held) : Prop where
  identified : h.document.id = some h.id
  workspace : lookupField h.document a.workspaceField = some (.string h.insertedBy.workspaceID)
  owner : rule.mode = .owner → lookupField h.document rule.ownerField = some (.string h.insertedBy.id)

def Owns (a : WorkspaceAuthorizer) (collection : Bytes) (actor : Actor) (h : Held) : Prop :=
  ∃ rule, find collection a.collections = some rule ∧ h.insertedBy.workspaceID = actor.workspaceID ∧
    (rule.mode = .owner → h.insertedBy.id = actor.id)

/-! ### Policies of the authorizer -/

theorem allow_rule (h : a.allow actor collection = .ok rule) : find collection a.collections = some rule := by
  unfold WorkspaceAuthorizer.allow at h
  split at h
  · cases h
  split at h
  · cases h
  rename_i found hfound
  split at h
  · cases h
  · cases h
    exact hfound

theorem rule_owner (hrule : find collection a.collections = some rule) (howner : rule.mode = .owner) :
    workspaceIdentifier rule.ownerField = true ∧ rule.ownerField ≠ a.workspaceField := by
  refine a.owners (collection,rule) ?_ howner
  have hmem : collection ∈ keys a.collections := by
    by_contra hnone
    rw [find_eq_none.mpr hnone] at hrule
    cases hrule
  obtain ⟨pre,v,post,hsplit,hpre⟩ := exists_cut hmem
  rw [hsplit,find_cut hpre] at hrule
  cases hrule
  rw [hsplit]
  simp

theorem authorizeQuery_constraint (h : a.authorizeQuery wireBytes actor collection = .ok policy) :
    ∃ rule, find collection a.collections = some rule ∧
      ∀ d, rowAllowed policy d = matchExpression (a.constraintExpr actor rule) d := by
  unfold WorkspaceAuthorizer.authorizeQuery at h
  obtain ⟨rule,hrule,h⟩ := bind_eq_ok.mp h
  obtain ⟨constraint,hconstraint,h⟩ := bind_eq_ok.mp h
  refine ⟨rule,allow_rule hrule,fun d => ?_⟩
  unfold WorkspaceAuthorizer.constraint at hconstraint
  dsimp only at hconstraint
  split at hconstraint
  · cases hconstraint
    cases h
    rfl
  · cases hconstraint

theorem stamped_value (htop : 0x2e ∉ field)
    (hd : lookupField d field = some (.string actual)) (hm : matchExpression (.compare .eq field (.string value)) d = true) :
    actual = value := by
  rw [matchExpression,lookupInternal_top htop,hd] at hm
  simpa [matchCompare,fieldEquals,Value.equal] using hm

theorem Stamped.owns (hst : Stamped a rule h) (hrule : find collection a.collections = some rule)
    (hm : matchExpression (a.constraintExpr actor rule) h.document = true) : Owns a collection actor h := by
  have hworkspace : matchExpression (a.workspaceFilter actor) h.document = true → h.insertedBy.workspaceID = actor.workspaceID :=
    stamped_value (workspaceIdentifier_top a.simple) hst.workspace
  unfold WorkspaceAuthorizer.constraintExpr at hm
  refine ⟨rule,hrule,?_⟩
  split at hm
  · rename_i howner
    have hfield := rule_owner hrule howner
    have hboth : matchExpression (a.workspaceFilter actor) h.document = true ∧
        matchExpression (WorkspaceAuthorizer.ownerFilter actor rule) h.document = true := by
      split at hm <;> simp only [matchExpression,matchEvery,Bool.and_true,Bool.and_eq_true] at hm ⊢
      · exact hm
      · exact hm.symm
    exact ⟨hworkspace hboth.1,fun _ => stamped_value (workspaceIdentifier_top hfield.1) (hst.owner howner) hboth.2⟩
  · rename_i howner
    exact ⟨hworkspace hm,fun h => absurd h howner⟩

theorem applyMutationQueryPolicy_accepted
    (h : applyMutationQueryPolicy wireBytes q policy maxAffected = .ok accepted) : accepted = constrained q policy := by
  unfold applyMutationQueryPolicy at h
  split at h
  · cases h
  split at h
  · cases h
  dsimp only at h
  split at h
  · exact (Except.ok.inj h).symm
  · cases h

theorem applyUpdatePolicy_accepted {policy : UpdatePolicy}
    (h : applyUpdatePolicy wireBytes q m policy = .ok accepted) : accepted = constrained q policy.toQueryPolicy := by
  unfold applyUpdatePolicy at h
  split at h
  · cases h
  split at h
  · cases h
  · exact applyMutationQueryPolicy_accepted h

theorem authorizeUpdate_policy {policy : UpdatePolicy} (h : a.authorizeUpdate wireBytes actor collection = .ok policy) :
    a.authorizeQuery wireBytes actor collection = .ok policy.toQueryPolicy ∧
    ∃ rule, find collection a.collections = some rule ∧ policy.deniedUpdatePaths = some (a.deniedFields rule) := by
  unfold WorkspaceAuthorizer.authorizeUpdate at h
  obtain ⟨rule,hrule,h⟩ := bind_eq_ok.mp h
  split at h
  · cases h
  obtain ⟨base,hbase,h⟩ := bind_eq_ok.mp h
  cases h
  exact ⟨hbase,rule,allow_rule hrule,rfl⟩

theorem authorizeDelete_policy {policy : DeletePolicy} (h : a.authorizeDelete wireBytes actor collection = .ok policy) :
    a.authorizeQuery wireBytes actor collection = .ok policy.toQueryPolicy := by
  unfold WorkspaceAuthorizer.authorizeDelete at h
  obtain ⟨rule,hrule,h⟩ := bind_eq_ok.mp h
  split at h
  · cases h
  obtain ⟨base,hbase,h⟩ := bind_eq_ok.mp h
  cases h
  exact hbase

theorem QueryAuthorized.rows (h : QueryAuthorized a wireBytes digest actor collection q policy) :
    ∃ base, a.authorizeQuery wireBytes actor collection = .ok base ∧
      ∀ d, rowAllowed policy d = true → rowAllowed base d = true := by
  cases h with
  | base h => exact ⟨policy,h,fun _ hd => hd⟩
  | combined base additional h _ _ hc =>
    refine ⟨base,h,fun d hd => ?_⟩
    rw [rowAllowed_intersect (intersectQueryPolicies_combined hc).constraint,Bool.and_eq_true] at hd
    exact hd.1

/-! ### Selected and returned rows -/

theorem Selects.matched (hs : Selects seen q one maxAffected docs) (hd : d ∈ docs) : q.matches d = true := by
  cases hs with
  | storage c _ h _ =>
    obtain ⟨r,-,-,hm⟩ := planStorageLocked_sound h hd
    exact hm
  | memory h _ =>
    rw [h] at hd
    split_ifs at hd
    · exact (mem_filter.mp (mem_of_mem_take hd)).2
    · exact (mem_filter.mp hd).2

theorem Holds.held {held : List Held} (hc : Holds c held) (hr : r ∈ c.records) :
    ∃ h ∈ held, h.document = r.document := by
  have hmem : (r.id,r.document) ∈ held.map (fun h => (h.id,h.document)) := by
    rw [← hc]
    exact mem_map.mpr ⟨r,hr,rfl⟩
  obtain ⟨h,hh,he⟩ := mem_map.mp hmem
  exact ⟨h,hh,congrArg Prod.snd he⟩

theorem Answers.matched {q : QuerySpec} (hs : Answers held q docs)
    (hd : d ∈ docs) : ∃ h ∈ held, h.document = d ∧ q.matches d = true := by
  cases hs with
  | storage c hc h =>
    obtain ⟨r,hr,rfl,hm⟩ := planStorageLocked_sound h hd
    obtain ⟨held,hh,he⟩ := hc.held hr
    exact ⟨held,hh,he,hm⟩
  | memory m hc h =>
    obtain ⟨r,hr,rfl,hm⟩ := planWithBudget_sound h hd
    obtain ⟨held,hh,he⟩ := hc.held hr
    exact ⟨held,hh,he,hm⟩

/-! ### Inserted and updated documents -/

theorem lookupField_setFields (actor : Actor) (hrule : find collection a.collections = some rule) (input : Document) :
    lookupField ((a.setFields actor rule).foldl (fun d e => putField d e.1 e.2) input) a.workspaceField =
        some (.string actor.workspaceID) ∧
      (rule.mode = .owner → lookupField ((a.setFields actor rule).foldl (fun d e => putField d e.1 e.2) input) rule.ownerField =
        some (.string actor.id)) := by
  unfold WorkspaceAuthorizer.setFields
  by_cases howner : rule.mode = .owner
  · rw [if_pos howner]
    simp only [foldl_cons,foldl_nil]
    refine ⟨?_,fun _ => lookupField_putField _ _ _⟩
    rw [lookupField_putField_ne (rule_owner hrule howner).2.symm,lookupField_putField]
  · rw [if_neg howner]
    exact ⟨lookupField_putField _ _ _,fun h => absurd h howner⟩

theorem assignID_stored {fresh id : DocumentID} (h : assignID d fresh = .ok (id,stored)) :
    stored.id = some id ∧ ∀ field, field ≠ idField → lookupField stored field = lookupField d field := by
  unfold assignID at h
  split at h
  · cases h
  split at h
  · split_ifs at h
    cases h
    exact ⟨Document.id_eq_some.mpr (lookupField_putField _ _ _),fun field hne => lookupField_putField_ne hne _ _⟩
  · rename_i found hfound
    split_ifs at h
    cases h
    exact ⟨Document.id_eq_some.mpr hfound,fun _ _ => rfl⟩
  · cases h

theorem inserted_stamped {fresh id : DocumentID} {policy : InsertPolicy}
    (hp : a.authorizeInsert actor collection = .ok policy) (hd : insertedDocument policy input = .ok document)
    (hid : assignID document fresh = .ok (id,stored)) (hrule : find collection a.collections = some rule) :
    Stamped a rule ⟨id,stored,actor⟩ := by
  unfold WorkspaceAuthorizer.authorizeInsert at hp
  obtain ⟨found,hfound,hp⟩ := bind_eq_ok.mp hp
  cases hrule.symm.trans (allow_rule hfound)
  split at hp
  · cases hp
  cases hp
  unfold insertedDocument at hd
  split at hd
  · cases hd
  split at hd
  · cases hd
  cases hd
  obtain ⟨hstored,hfields⟩ := assignID_stored hid
  obtain ⟨hworkspace,howner⟩ := lookupField_setFields actor hrule input
  refine ⟨hstored,?_,fun hmode => ?_⟩
  · rw [← hworkspace]
    exact hfields _ (workspaceIdentifier_ne_id a.simple)
  · rw [← howner hmode]
    exact hfields _ (workspaceIdentifier_ne_id (rule_owner hrule hmode).1)

theorem Stamped.updated (hst : Stamped a rule h) {policy : UpdatePolicy} {after : Document}
    (hm : validateMutationPaths [] m.paths = true) (ha : applyUpdatePolicy wireBytes q m policy = .ok accepted)
    (hdenied : policy.deniedUpdatePaths = some (a.deniedFields rule)) (hrule : find collection a.collections = some rule)
    (happly : m.apply h.document = .ok after) : Stamped a rule { h with document := after } := by
  have hkeeps : ∀ field ∈ a.deniedFields rule, 0x2e ∉ field → lookupField after field = lookupField h.document field := by
    intro field hf htop
    have hkept := top_level_denied_kept ha happly (by rw [hdenied]; exact hf) htop
    rwa [lookupInternal_top htop,lookupInternal_top htop] at hkept
  refine ⟨?_,?_,fun hmode => ?_⟩
  · exact (m.apply_id hm happly).trans hst.identified
  · exact (hkeeps _ mem_cons_self (workspaceIdentifier_top a.simple)).trans hst.workspace
  · refine (hkeeps _ ?_ (workspaceIdentifier_top (rule_owner hrule hmode).1)).trans (hst.owner hmode)
    simp [WorkspaceAuthorizer.deniedFields,hmode]

/-! ### The invariant -/

/-- Documents of declared collections are stamped, and IDs are distinct. -/
structure Isolated (a : WorkspaceAuthorizer) (s : ServerState) : Prop where
  stamped : ∀ collection rule, find collection a.collections = some rule → ∀ h ∈ s.collections collection, Stamped a rule h
  distinct : ∀ collection, ((s.collections collection).map Held.id).Nodup

theorem isolated_empty : Isolated a ServerState.empty := by
  constructor
  · intro collection rule _ h hh
    cases hh
  · exact fun _ => nodup_nil

theorem Isolated.eq_of_id (hs : Isolated a s) (hh : h ∈ s.collections collection) (hh' : h' ∈ s.collections collection)
    (hid : h.id = h'.id) : h = h' :=
  inj_on_of_nodup_map (hs.distinct collection) hh hh' hid

theorem Isolated.selected (hs : Isolated a s) (hb : a.authorizeQuery wireBytes actor collection = .ok base)
    (hh : h ∈ s.collections collection) (hrow : rowAllowed base h.document = true) : Owns a collection actor h := by
  obtain ⟨rule,hrule,hrows⟩ := authorizeQuery_constraint hb
  rw [hrows] at hrow
  exact (hs.stamped collection rule hrule h hh).owns hrule hrow

theorem constrained_row (hm : (constrained q policy).matches d = true) : rowAllowed policy d = true := by
  rw [constrained_matches,Bool.and_eq_true] at hm
  exact hm.1

theorem Isolated.targets (hs : Isolated a s)
    (hb : a.authorizeQuery wireBytes actor collection = .ok policy)
    (ha : accepted = constrained q policy) (hsel : Selects seen accepted one maxAffected docs)
    (hcurrent : ∀ d ∈ docs, ∃ h ∈ s.collections collection, h.document = d) :
    ∀ d ∈ docs, ∃ h ∈ s.collections collection, h.document = d ∧ d.id = some h.id ∧ Owns a collection actor h := by
  intro d hd
  obtain ⟨h,hh,rfl⟩ := hcurrent d hd
  have hrow := constrained_row (ha ▸ hsel.matched hd)
  obtain ⟨rule,hrule,-⟩ := authorizeQuery_constraint hb
  exact ⟨h,hh,rfl,(hs.stamped collection rule hrule h hh).identified,hs.selected hb hh hrow⟩

theorem applyChanges_id (changes : List (DocumentID × Document)) (h : Held) :
    (applyChanges changes h).id = h.id ∧ (applyChanges changes h).insertedBy = h.insertedBy := by
  unfold applyChanges
  split <;> exact ⟨rfl,rfl⟩

theorem put_collections (s : ServerState) (collection other : Bytes) (held : List Held) :
    (s.put collection held).collections other = if other = collection then held else s.collections other := by
  simp [ServerState.put,update_apply]

/-- One request keeps the invariant. -/
theorem step_isolated (hs : Isolated a s) (hstep : Step a wireBytes digest s actor event s') : Isolated a s' := by
  cases hstep with
  | insert collection input document stored fresh id policy hp hd hid hnew =>
    constructor
    · intro other rule hrule h hh
      simp only [update_apply] at hh
      split at hh
      · rename_i hother
        subst hother
        rcases mem_append.mp hh with hh | hh
        · exact hs.stamped other rule hrule h hh
        · rw [mem_singleton.mp hh]
          exact inserted_stamped hp hd hid hrule
      · exact hs.stamped other rule hrule h hh
    intro other
    simp only [update_apply]
    split
    · rw [map_append,map_singleton]
      rw [← concat_eq_append]
      exact List.Nodup.concat hnew (hs.distinct collection)
    · exact hs.distinct other
  | readBack => exact ⟨hs.stamped,hs.distinct⟩
  | update collection q accepted m policy one seen docs changes _ hm hp ha hsel hcurrent hu =>
    obtain ⟨hb,rule,hrule,hdenied⟩ := authorizeUpdate_policy hp
    have htargets := hs.targets hb (applyUpdatePolicy_accepted ha) hsel hcurrent
    constructor
    · intro other found hfound h hh
      rw [put_collections] at hh
      split at hh
      · rename_i hother
        subst hother
        cases hrule.symm.trans hfound
        obtain ⟨h,hmem,rfl⟩ := mem_map.mp hh
        have hst := hs.stamped other rule hrule h hmem
        unfold applyChanges
        split
        · exact hst
        rename_i after hafter
        obtain ⟨d,hd,hdid,happly⟩ := prepareDocumentUpdates_mem hu (mem_of_find hafter)
        obtain ⟨h',hh',rfl,hid',-⟩ := htargets d hd
        -- the edited document is the stored one with this ID
        obtain rfl : h' = h := hs.eq_of_id hh' hmem (Option.some.inj (hid'.symm.trans hdid))
        exact hst.updated hm ha hdenied hrule happly
      · exact hs.stamped other found hfound h hh
    intro other
    rw [put_collections]
    split
    · have hids : ((s.collections collection).map (applyChanges changes)).map Held.id =
        (s.collections collection).map Held.id := by
        rw [map_map]
        exact map_congr_left (fun h _ => (applyChanges_id changes h).1)
      rw [hids]
      exact hs.distinct collection
    · exact hs.distinct other
  | delete collection q accepted policy one seen docs _ hp ha hsel hcurrent =>
    constructor
    · intro other rule hrule h hh
      rw [put_collections] at hh
      split at hh
      · rename_i hother
        exact hs.stamped other rule hrule h (hother ▸ (mem_filter.mp hh).1)
      · exact hs.stamped other rule hrule h hh
    intro other
    rw [put_collections]
    split
    · exact (hs.distinct collection).sublist (filter_sublist.map _)
    · exact hs.distinct other
  | query => exact hs

theorem reachable_isolated (hr : Reachable a wireBytes digest s) : Isolated a s := by
  induction hr with
  | empty => exact isolated_empty
  | step _ hstep ih => exact step_isolated ih hstep

/-! ### What requests reach -/

/-- The documents that a request counts or returns belong to the actor. -/
def Event.Confined (a : WorkspaceAuthorizer) (s : ServerState) (actor : Actor) : Event → Prop
  | .updated collection matched modified =>
    ∀ id ∈ matched ++ modified, ∃ h ∈ s.collections collection, h.id = id ∧ Owns a collection actor h
  | .deleted collection ids => ∀ id ∈ ids, ∃ h ∈ s.collections collection, h.id = id ∧ Owns a collection actor h
  | .returned collection response => ∀ p ∈ response, ∃ h ∈ s.collections collection, Owns a collection actor h ∧
      ∃ all fields, p = projectFields h.document all fields
  | _ => True

theorem step_confined (hs : Isolated a s) (hstep : Step a wireBytes digest s actor event s') :
    event.Confined a s actor := by
  cases hstep with
  | insert => trivial
  | readBack => trivial
  | update collection q accepted m policy one seen docs changes _ hm hp ha hsel hcurrent hu =>
    have htargets := hs.targets (authorizeUpdate_policy hp).1 (applyUpdatePolicy_accepted ha) hsel hcurrent
    have hone : ∀ d ∈ docs, ∀ id, d.id = some id → ∃ h ∈ s.collections collection, h.id = id ∧ Owns a collection actor h := by
      intro d hd id hid
      obtain ⟨h,hh,-,hdid,howns⟩ := htargets d hd
      exact ⟨h,hh,Option.some.inj (hdid.symm.trans hid),howns⟩
    intro id hid
    rcases mem_append.mp hid with hid | hid
    · obtain ⟨d,hd,hdid⟩ := mem_filterMap.mp hid
      exact hone d hd id hdid
    obtain ⟨change,hchange,rfl⟩ := mem_map.mp hid
    obtain ⟨d,hd,hdid,-⟩ := prepareDocumentUpdates_mem hu hchange
    exact hone d hd change.1 hdid
  | delete collection q accepted policy one seen docs _ hp ha hsel hcurrent =>
    have htargets := hs.targets (authorizeDelete_policy hp) (applyMutationQueryPolicy_accepted ha) hsel hcurrent
    intro id hid
    obtain ⟨d,hd,hdid⟩ := mem_filterMap.mp hid
    obtain ⟨h,hh,-,hid',howns⟩ := htargets d hd
    exact ⟨h,hh,Option.some.inj (hid'.symm.trans hdid),howns⟩
  | query collection q accepted policy docs response hp ha hsel hr =>
    obtain ⟨base,hb,hrows⟩ := hp.rows
    obtain ⟨-,haccepted⟩ := applyPolicy_accepted ha
    intro p hp
    obtain ⟨i,hi,rfl⟩ := mem_iff_getElem.mp hp
    obtain ⟨hlength,hget⟩ := forall₂_iff_get.mp hr
    obtain ⟨order,-,hproject⟩ := hget i (by rw [hlength]; exact hi) hi
    have hd := get_mem docs ⟨i,by rw [hlength]; exact hi⟩
    obtain ⟨h,hh,hdoc,hm⟩ := hsel.matched hd
    rw [haccepted,← hdoc] at hm
    rw [← hdoc] at hproject
    exact ⟨h,hh,hs.selected hb hh (hrows _ (constrained_row hm)),_,_,hproject⟩

/-- A document that a request replaces or removes belongs to the actor. -/
theorem step_changes_own (hs : Isolated a s) (hstep : Step a wireBytes digest s actor event s')
    (hh : h ∈ s.collections collection) (hgone : h ∉ s'.collections collection) : Owns a collection actor h := by
  cases hstep with
  | insert other =>
    refine absurd ?_ hgone
    simp only [update_apply]
    split
    · rename_i hother
      subst hother
      exact mem_append_left _ hh
    · exact hh
  | readBack => exact absurd hh hgone
  | update other q accepted m policy one seen docs changes _ hm hp ha hsel hcurrent hu =>
    have htargets := hs.targets (authorizeUpdate_policy hp).1 (applyUpdatePolicy_accepted ha) hsel hcurrent
    rw [put_collections] at hgone
    split at hgone
    · rename_i hother
      subst hother
      -- a document without a change is kept as it is
      have hchanged : ∃ after, find h.id changes = some after := by
        by_contra hnone
        refine hgone (mem_map.mpr ⟨h,hh,?_⟩)
        unfold applyChanges
        split
        · rfl
        · rename_i after hafter
          exact absurd ⟨after,hafter⟩ hnone
      obtain ⟨after,hafter⟩ := hchanged
      obtain ⟨d,hd,hdid,-⟩ := prepareDocumentUpdates_mem hu (mem_of_find hafter)
      obtain ⟨h',hh',-,hid',howns⟩ := htargets d hd
      obtain rfl : h' = h := hs.eq_of_id hh' hh (Option.some.inj (hid'.symm.trans hdid))
      exact howns
    · exact absurd hh hgone
  | delete other q accepted policy one seen docs _ hp ha hsel hcurrent =>
    have htargets := hs.targets (authorizeDelete_policy hp) (applyMutationQueryPolicy_accepted ha) hsel hcurrent
    rw [put_collections] at hgone
    split at hgone
    · rename_i hother
      subst hother
      have hdeleted : h.id ∈ docs.filterMap Document.id := by
        by_contra hkept
        exact hgone (mem_filter.mpr ⟨hh,decide_eq_true hkept⟩)
      obtain ⟨d,hd,hdid⟩ := mem_filterMap.mp hdeleted
      obtain ⟨h',hh',-,hid',howns⟩ := htargets d hd
      obtain rfl : h' = h := hs.eq_of_id hh' hh (Option.some.inj (hid'.symm.trans hdid))
      exact howns
    · exact absurd hh hgone
  | query => exact absurd hh hgone

theorem step_insertedBy (hs : Isolated a s) (hstep : Step a wireBytes digest s actor event s')
    (hh : h ∈ s.collections collection) (hh' : h' ∈ s'.collections collection) (hid : h.id = h'.id) :
    h'.insertedBy = h.insertedBy := by
  have hsame : h' ∈ s.collections collection → h'.insertedBy = h.insertedBy := fun hm => by rw [hs.eq_of_id hh hm hid]
  cases hstep with
  | insert other input document stored fresh id policy hp hd hassign hnew =>
    simp only [update_apply] at hh'
    split at hh'
    · rename_i hother
      subst hother
      rcases mem_append.mp hh' with hh' | hh'
      · exact hsame hh'
      · rw [mem_singleton.mp hh'] at hid
        exact absurd (mem_map.mpr ⟨h,hh,hid⟩) hnew
    · exact hsame hh'
  | readBack => exact hsame hh'
  | update other q accepted m policy one seen docs changes =>
    rw [put_collections] at hh'
    split at hh'
    · rename_i hother
      subst hother
      obtain ⟨before,hbefore,rfl⟩ := mem_map.mp hh'
      obtain ⟨hbid,hbby⟩ := applyChanges_id changes before
      rw [hbid] at hid
      rw [hbby,hs.eq_of_id hh hbefore hid]
    · exact hsame hh'
  | delete other =>
    rw [put_collections] at hh'
    split at hh'
    · rename_i hother
      subst hother
      exact hsame (mem_filter.mp hh').1
    · exact hsame hh'
  | query => exact hsame hh'

/-- In every run, documents keep the workspace (and owner) of the actor that
inserted them; a request replaces, removes, counts and returns only documents of
its actor's workspace (and of its actor, where documents have owners). -/
theorem workspace_isolation (a : WorkspaceAuthorizer) (wireBytes : ClientQuery → ℕ) (digest : Bytes → Bytes) (s : ServerState)
    (hr : Reachable a wireBytes digest s) :
    (∀ collection rule, find collection a.collections = some rule → ∀ h ∈ s.collections collection,
      lookupField h.document a.workspaceField = some (.string h.insertedBy.workspaceID) ∧
      (rule.mode = .owner → lookupField h.document rule.ownerField = some (.string h.insertedBy.id))) ∧
    (∀ actor event s', Step a wireBytes digest s actor event s' →
      (∀ collection, ∀ h ∈ s.collections collection, ∀ h' ∈ s'.collections collection, h.id = h'.id →
        h'.insertedBy = h.insertedBy) ∧
      (∀ collection, ∀ h ∈ s.collections collection, h ∉ s'.collections collection → Owns a collection actor h) ∧
      event.Confined a s actor) := by
  have hs := reachable_isolated hr
  constructor
  · intro collection rule hrule h hh
    have hst := hs.stamped collection rule hrule h hh
    exact ⟨hst.workspace,hst.owner⟩
  intro actor event s' hstep
  exact ⟨fun _ _ hh _ hh' hid => step_insertedBy hs hstep hh hh' hid,fun _ _ hh hgone => step_changes_own hs hstep hh hgone,
    step_confined hs hstep⟩

/-! ### A run -/

def sharedAuthorizer : WorkspaceAuthorizer where
  collections := [([0x63],⟨.collaborative,[],none,[0x76]⟩)]
  workspaceField := [0x77]
  maxResults := 10
  maxAffected := 10
  simple := by decide
  owners := by
    intro entry hentry howner
    rw [mem_singleton.mp hentry] at howner
    cases howner
def firstActor : Actor := ⟨[0x61],[0x31]⟩
def secondActor : Actor := ⟨[0x62],[0x32]⟩
def sharedID : DocumentID := .ending 1
def insertedBy (actor : Actor) : Held :=
  ⟨sharedID,[([0x77],.string actor.workspaceID),(idField,.id sharedID)],actor⟩
def afterInsert (actor : Actor) : ServerState :=
  ⟨update (fun _ => []) [0x63] [insertedBy actor],[(actor,[0x63],sharedID)]⟩

theorem afterInsert_reachable : Reachable sharedAuthorizer (fun _ => 0) id (afterInsert firstActor) := by
  have hinsert : Step sharedAuthorizer (fun _ => 0) id .empty firstActor (.inserted [0x63] sharedID) (afterInsert firstActor) :=
    Step.insert [0x63] [] _ _ sharedID _ _ rfl rfl rfl (by decide)
  exact .step .empty hinsert

/-- The document of the first actor is held, and out of the reach of the second. -/
theorem workspace_isolation_shared : insertedBy firstActor ∈ (afterInsert firstActor).collections [0x63] ∧ ∀ event s',
    Step sharedAuthorizer (fun _ => 0) id (afterInsert firstActor) secondActor event s' →
      insertedBy firstActor ∈ s'.collections [0x63] := by
  have hheld : insertedBy firstActor ∈ (afterInsert firstActor).collections [0x63] := mem_singleton.mpr rfl
  refine ⟨hheld,?_⟩
  intro event s' hstep
  obtain ⟨-,hsteps⟩ := workspace_isolation sharedAuthorizer (fun _ => 0) id (afterInsert firstActor) afterInsert_reachable
  by_contra hgone
  obtain ⟨rule,-,hworkspace,-⟩ := (hsteps secondActor event s' hstep).2.1 [0x63] _ hheld hgone
  exact absurd hworkspace (by decide)

end Meldbase.Server
