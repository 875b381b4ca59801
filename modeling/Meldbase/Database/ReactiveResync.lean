import Meldbase.Database.ChangeDelivery

/-! # Views after an overflow

Batches are dropped by the dispatcher or by the hub.  From then on every view that
is behind a dropped batch waits for a rebuild: the overflow is still to be handled,
its collection is marked, or the worker is rebuilding it.  Batches that the worker
applies meanwhile are older than the dropped one.
-/
namespace Meldbase.Database
open List Outcome Prod
open KeyedList

/-! ### How the hub's operations change views -/

def ReactiveHub.Live (hub : ReactiveHub) (v : ℕ) (view : SharedReactiveView) : Prop :=
  hub.views[v]? = some view ∧ view.registered = true

section
variable {cfg : HubConfig} {hub hub' hub'' : ReactiveHub} {v : ℕ} {view view' : SharedReactiveView}
  {next : ReactiveViewState}

theorem mem_group : v ∈ hub.group cfg c ↔ ∃ view, hub.Live v view ∧ view.collection cfg = c := by
  unfold ReactiveHub.group
  rw [mem_filter,mem_range]
  constructor
  · rintro ⟨hlt,h⟩
    rw [List.getElem?_eq_getElem hlt] at h
    simp only [Option.map_some,Option.getD_some,Bool.and_eq_true,decide_eq_true_eq] at h
    exact ⟨_,⟨List.getElem?_eq_getElem hlt,h.1⟩,h.2⟩
  · rintro ⟨view,⟨hv,hr⟩,hc⟩
    exact ⟨(List.getElem?_eq_some_iff.mp hv).1,by simp [hv,hr,hc]⟩

theorem nodup_group (hub : ReactiveHub) (c : Bytes) : (hub.group cfg c).Nodup := List.Nodup.filter _ nodup_range

theorem ReactiveHub.Live.lt (h : hub.Live v view) : v < hub.views.length :=
  (List.getElem?_eq_some_iff.mp h.1).1

theorem group_lt (h : v ∈ hub.group cfg c) : v < hub.views.length := by
  obtain ⟨view,hv,-⟩ := mem_group.mp h
  exact hv.lt

theorem ReactiveHub.Live.collection_mem (h : hub.Live v view) : view.collection cfg ∈ hub.collections cfg :=
  mem_map_of_mem (mem_filter.mpr ⟨mem_of_getElem? h.1,h.2⟩)

/-- Views only advance or are removed; a marked collection stays marked while it has views. -/
structure Evolves (cfg : HubConfig) (hub hub' : ReactiveHub) : Prop where
  views : ∀ {v view'}, hub'.Live v view' → ∃ view, hub.Live v view ∧ view'.key = view.key ∧
    view.state.token ≤ view'.state.token
  length : hub'.views.length = hub.views.length
  queue : hub'.queue = hub.queue
  work : hub'.work = hub.work
  dropped : hub'.dropped = hub.dropped
  closed : hub'.closed = hub.closed
  resync : ∀ {v view'}, hub'.Live v view' → view'.collection cfg ∈ hub.resync →
    view'.collection cfg ∈ hub'.resync

theorem evolves_of_views (hv : hub'.views = hub.views) (hq : hub'.queue = hub.queue) (hw : hub'.work = hub.work)
    (hd : hub'.dropped = hub.dropped) (hc : hub'.closed = hub.closed) (hr : hub'.resync = hub.resync) : Evolves cfg hub hub' where
  views := fun {_ view'} h => ⟨view',⟨hv ▸ h.1,h.2⟩,rfl,le_refl _⟩
  length := by rw [hv]
  queue := hq
  work := hw
  dropped := hd
  closed := hc
  resync := fun _ h => hr ▸ h

theorem Evolves.refl (hub : ReactiveHub) : Evolves cfg hub hub := evolves_of_views rfl rfl rfl rfl rfl rfl

theorem collection_of_key (cfg : HubConfig) (h : view'.key = view.key) :
    view'.collection cfg = view.collection cfg := by
  rw [SharedReactiveView.collection,h]
  rfl

theorem Evolves.trans (h : Evolves cfg hub hub') (h' : Evolves cfg hub' hub'') : Evolves cfg hub hub'' where
  views := fun hv => by
    obtain ⟨view',hv',hkey',hle'⟩ := h'.views hv
    obtain ⟨view,hv,hkey,hle⟩ := h.views hv'
    exact ⟨view,hv,hkey'.trans hkey,hle.trans hle'⟩
  length := h'.length.trans h.length
  queue := h'.queue.trans h.queue
  work := h'.work.trans h.work
  dropped := h'.dropped.trans h.dropped
  closed := h'.closed.trans h.closed
  resync := fun hv hmem => by
    obtain ⟨view',hv',hkey',-⟩ := h'.views hv
    refine h'.resync hv ?_
    rw [collection_of_key cfg hkey'] at hmem ⊢
    exact h.resync hv' hmem

theorem deleteView_evolves (hub : ReactiveHub) (v : ℕ) : Evolves cfg hub (hub.deleteView cfg v) := by
  unfold ReactiveHub.deleteView
  split
  · exact Evolves.refl hub
  rename_i view hv
  split_ifs with hreg
  · exact Evolves.refl hub
  have hviews : ∀ {w view'}, (hub.views.set v { view with registered := false })[w]? = some view' →
      view'.registered = true → hub.Live w view' := by
    intro w view' hw hr
    by_cases hvw : v = w
    · subst hvw
      rw [List.getElem?_set_self (List.getElem?_eq_some_iff.mp hv).1] at hw
      cases hw
      cases hr
    · rw [List.getElem?_set_ne hvw] at hw
      exact ⟨hw,hr⟩
  dsimp only
  split_ifs with hempty
  · refine ⟨fun {_ view'} hl => ⟨view',hviews hl.1 hl.2,rfl,le_refl _⟩,by simp,rfl,rfl,rfl,rfl,fun {w view'} hl hmem => ?_⟩
    refine mem_filter.mpr ⟨hmem,?_⟩
    rw [decide_eq_true_eq]
    intro heq
    rw [List.isEmpty_iff,List.eq_nil_iff_forall_not_mem] at hempty
    exact hempty w (mem_group.mpr ⟨view',hl,heq⟩)
  · exact ⟨fun {_ view'} hl => ⟨view',hviews hl.1 hl.2,rfl,le_refl _⟩,by simp,rfl,rfl,rfl,rfl,fun _ h => h⟩

theorem deleteView_dead (hub : ReactiveHub) (v : ℕ) (view' : SharedReactiveView) : ¬ (hub.deleteView cfg v).Live v view' := by
  intro hl
  obtain ⟨view,⟨hv,hreg⟩,-,-⟩ := (deleteView_evolves hub v).views hl
  have hset : (hub.views.set v { view with registered := false })[v]? ≠ some view' := by
    rw [List.getElem?_set_self (List.getElem?_eq_some_iff.mp hv).1]
    rintro heq
    have hr := hl.2
    rw [← Option.some.inj heq] at hr
    cases hr
  have hviews : (hub.deleteView cfg v).views = hub.views.set v { view with registered := false } := by
    simp only [ReactiveHub.deleteView,hv,hreg]
    split_ifs <;> simp_all
  exact hset (hviews ▸ hl.1)

theorem failView_evolves (hub : ReactiveHub) (v : ℕ) (e : ReactiveError) : Evolves cfg hub (hub.failView cfg v e) := by
  unfold ReactiveHub.failView
  split_ifs
  · exact (deleteView_evolves hub v).trans (evolves_of_views rfl rfl rfl rfl rfl rfl)
  · exact Evolves.refl hub

theorem failView_dead (hub : ReactiveHub) (v : ℕ) (e : ReactiveError) (view' : SharedReactiveView) :
    ¬ (hub.failView cfg v e).Live v view' := by
  unfold ReactiveHub.failView
  split_ifs with hreg
  · exact fun hl => deleteView_dead hub v view' hl
  · rintro ⟨hv,hr⟩
    simp [hv,hr] at hreg

theorem getElem?_setState : (hub.setState v next).views[w]? =
    if v = w then hub.views[w]?.map (fun view => { view with state := next }) else hub.views[w]? := by
  simp only [ReactiveHub.setState,List.getElem?_modify]
  split_ifs <;> simp

section
variable (hv : hub.views[v]? = some view)
include hv

theorem setState_evolves (hle : view.state.token ≤ next.token) : Evolves cfg hub (hub.setState v next) where
  views := fun {w view'} hl => by
    obtain ⟨hw,hr⟩ := hl
    rw [getElem?_setState] at hw
    split_ifs at hw with hvw
    · subst hvw
      rw [hv] at hw
      cases hw
      exact ⟨view,⟨hv,hr⟩,rfl,hle⟩
    · exact ⟨view',⟨hw,hr⟩,rfl,le_refl _⟩
  length := by simp [ReactiveHub.setState]
  queue := rfl
  work := rfl
  dropped := rfl
  closed := rfl
  resync := fun _ h => h

theorem install_evolves (hle : view.state.token ≤ next.token) : Evolves cfg hub (hub.install cfg v view.state next) := by
  unfold ReactiveHub.install
  dsimp only
  split_ifs
  · exact setState_evolves hv hle
  split
  · exact (setState_evolves hv hle).trans (failView_evolves _ v _)
  · exact setState_evolves hv hle

theorem install_token (h : (hub.install cfg v view.state next).Live v view') :
    view'.state.token = next.token := by
  have hset : ∀ view', (hub.setState v next).Live v view' → view'.state.token = next.token := by
    rintro view' ⟨h,-⟩
    rw [getElem?_setState,if_pos rfl,hv] at h
    exact (Option.some.inj h) ▸ rfl
  unfold ReactiveHub.install at h
  dsimp only at h
  split_ifs at h
  · exact hset view' h
  split at h
  · exact absurd h (failView_dead _ v _ view')
  · exact hset view' h

end

theorem publishNewer_evolves (hub : ReactiveHub) (v : ℕ) (next : ReactiveViewState) :
    Evolves cfg hub (hub.publishNewerViewState cfg v next) := by
  unfold ReactiveHub.publishNewerViewState
  split
  · exact Evolves.refl hub
  rename_i view hv
  split_ifs with hle
  · exact Evolves.refl hub
  · exact install_evolves hv (by omega)

theorem publishNewer_token (h : (hub.publishNewerViewState cfg v next).Live v view') : next.token ≤ view'.state.token := by
  unfold ReactiveHub.publishNewerViewState at h
  split at h
  · rename_i hv
    rw [ReactiveHub.Live,hv] at h
    cases h.1
  rename_i view hv
  split_ifs at h with hle
  · obtain rfl := Option.some.inj (hv.symm.trans h.1)
    exact hle
  · exact (install_token hv h).ge

theorem ensureOrder_evolves (hub : ReactiveHub) (c : Bytes) : Evolves cfg hub (hub.ensureOrder c).1 := by
  unfold ReactiveHub.ensureOrder
  split
  · exact Evolves.refl hub
  · exact evolves_of_views rfl rfl rfl rfl rfl rfl

theorem setTable_evolves (hub : ReactiveHub) (table : ℕ) (order : ReactiveCollectionOrder) :
    Evolves cfg hub (hub.setTable table order) := evolves_of_views rfl rfl rfl rfl rfl rfl

theorem transition_token {priority : DocumentID → ℕ}
    (h : transitionReactiveViewState priority limits q order token changes current = .ok (some next))
    (hnew : ¬ token ≤ current.token) : next.token = token := by
  unfold transitionReactiveViewState at h
  rw [if_neg hnew] at h
  obtain ⟨edited,-,h⟩ := bind_eq_ok.mp h
  obtain ⟨e,-,rfl⟩ := Option.map_eq_some_iff.mp (Except.ok.inj h)
  rfl

theorem applyViewBatch_evolves (h : hub.applyViewBatch cfg v table token changes = some hub') : Evolves cfg hub hub' := by
  unfold ReactiveHub.applyViewBatch at h
  split at h
  · exact Option.some.inj h ▸ Evolves.refl hub
  rename_i view hv
  split at h
  · exact Option.some.inj h ▸ failView_evolves hub v _
  · cases h
  rename_i next htrans
  cases h
  split_ifs with hold
  · exact Evolves.refl hub
  · exact install_evolves hv (by rw [transition_token htrans hold]; omega)

end

/-! ### Built states -/

theorem scan_examine_length {scan scan' : StorageScan}
    (h : scan.examine limits r = .ok scan') : scan'.builds.length = scan.builds.length := by
  unfold StorageScan.examine at h
  split at h
  · cases h
  split at h
  · cases h
  obtain ⟨builds,hbuilds,h⟩ := bind_eq_ok.mp h
  obtain rfl := Except.ok.inj h
  exact length_mapM hbuilds

variable {token : ℕ} {cfg : HubConfig}

theorem buildStorage_states {priority : DocumentID → ℕ} {sequence : ℕ}
    (h : buildStorageReactiveViewStates priority limits sequence records token queries = .ok (states,order)) :
    states.length = queries.length ∧ ∀ s ∈ states, s.token = token := by
  unfold buildStorageReactiveViewStates at h
  split_ifs at h
  obtain ⟨scan,hscan,h⟩ := bind_eq_ok.mp h
  obtain ⟨rfl,-⟩ := mk.inj (Except.ok.inj h)
  have hlength : scan.builds.length = queries.length := by
    refine foldlM_invariant (I := fun st : StorageScan => st.builds.length = queries.length)
      (fun st r _ st' hst hr => (scan_examine_length hr).trans hst) (by simp) hscan
  refine ⟨by simp [hlength],fun s hs => ?_⟩
  obtain ⟨b,-,rfl⟩ := mem_map.mp hs
  rfl

theorem buildReactive_token {priority : DocumentID → ℕ}
    (h : buildReactiveViewState priority limits records order token q = .ok state) : state.token = token := by
  unfold buildReactiveViewState at h
  obtain ⟨build,-,h⟩ := bind_eq_ok.mp h
  exact (Except.ok.inj h) ▸ rfl

theorem length_queriesOf {hub : ReactiveHub} {views : List ℕ} (h : ∀ v ∈ views, v < hub.views.length) :
    (hub.queriesOf cfg views).length = views.length := by
  unfold ReactiveHub.queriesOf
  induction views with
  | nil => rfl
  | cons v views ih =>
    rw [filterMap_cons,List.getElem?_eq_getElem (h v mem_cons_self)]
    simp [ih (fun w hw => h w (mem_cons_of_mem v hw))]

/-! ### Where batches are -/

def DispatchPhase.toNotify : DispatchPhase → List ChangeBatch
  | .dispatching batches => batches
  | .delivering _ rest => rest
  | _ => []

@[simp] theorem toNotify_dispatchRest (rest : List ChangeBatch) : (dispatchRest rest).toNotify = rest := by
  cases rest <;> rfl

def ChangeDispatcher.lossPending (d : ChangeDispatcher) : Prop :=
  d.overflow = true ∨ d.phase = .failingWatchers ∨ d.phase = .resyncing
def Work.tokens (w : Work) : List ℕ := w.token :: w.batches.map ChangeBatch.token
def ReactiveHub.workTokens (hub : ReactiveHub) : List ℕ := (hub.work.map Work.tokens).getD []
def DB.waiting (db : DB) : List ChangeBatch := db.hub.queue ++ (db.dispatcher.phase.toNotify ++ db.dispatcher.queue)
def DB.inFlight (db : DB) : List ℕ := db.hub.workTokens ++ db.waiting.map ChangeBatch.token
def DB.dropped (db : DB) : List ChangeBatch := db.dispatcher.dropped ++ db.hub.dropped

structure InFlight (db : DB) : Prop where
  ascending : db.inFlight.Pairwise (· < ·)
  bounded : ∀ t ∈ db.inFlight, t ≤ db.token
  positive : ∀ b ∈ db.waiting, 0 < b.token

theorem InFlight.shrink (h : InFlight db) (hwork : db'.hub.workTokens.Sublist db.hub.workTokens)
    (hwait : db'.waiting.Sublist db.waiting) (htoken : db.token ≤ db'.token) : InFlight db' := by
  have hsub : db'.inFlight.Sublist db.inFlight := hwork.append (hwait.map _)
  exact ⟨h.ascending.sublist hsub,fun t ht => (h.bounded t (hsub.subset ht)).trans htoken,
    fun b hb => h.positive b (hwait.subset hb)⟩

/-! ### Views that wait for a rebuild -/

/-- The worker is about to give the view a state at the current token, or to end it. -/
def Task.Renews (v : ℕ) (c : Bytes) : Task → Prop
  | .rebuilding collection => collection = c
  | .attempting collection _ _ => collection = c
  | .opening collection _ _ _ => collection = c
  | .installing collection _ _ _ _ _ => collection = c
  | .locking collection => collection = c
  | .building collection views _ => collection = c ∧ v ∈ views
  | .publishing left => v ∈ left.map fst
  | .failing left _ => v ∈ left
  | _ => False

/-- Targets exist, built states have the token they were built for, and batches are
applied only after the rebuilds. -/
def Task.Ok (views token : ℕ) (resync : List Bytes) : Task → Prop
  | .ordered _ _ _ => resync = []
  | .viewing _ _ _ _ => resync = []
  | .attempting _ targets _ => targets.Nodup ∧ ∀ v ∈ targets, v < views
  | .opening _ targets _ _ => targets.Nodup ∧ ∀ v ∈ targets, v < views
  | .installing _ targets _ built states _ =>
    targets.Nodup ∧ (∀ v ∈ targets, v < views) ∧ states.length = targets.length ∧ ∀ s ∈ states, s.token = built
  | .building _ targets _ => ∀ v ∈ targets, v < views
  | .publishing left => ∀ p ∈ left, p.2.token = token
  | _ => True
def SubscribePhase.Ok (token : ℕ) : SubscribePhase → Prop
  | .registering _ state => state.token = token
  | .installing _ built _ state => state.token = built
  | _ => True

/-- The view will be rebuilt before a batch newer than the token is applied. -/
def DB.Awaits (db : DB) (v : ℕ) (c : Bytes) (token : ℕ) : Prop :=
  (db.dispatcher.lossPending ∧ (∀ t ∈ db.hub.workTokens, t < token) ∧
    ∀ b ∈ db.hub.queue ++ db.dispatcher.phase.toNotify, b.token < token) ∨
  (c ∈ db.hub.resync ∧ ∀ t ∈ db.hub.workTokens, t < token) ∨
  (∃ w, db.hub.work = some w ∧ (c ∈ w.resync ∨ w.task.Renews v c))

structure Resynced (cfg : HubConfig) (db : DB) : Prop where
  flight : InFlight db
  locked : db.readLocked = true → db.staged = []
  dropped : ∀ d ∈ db.dropped, 0 < d.token ∧ d.token ≤ db.token
  covered : ∀ {v view}, db.hub.Live v view → ∀ d ∈ db.dropped,
    d.token ≤ view.state.token ∨ db.Awaits v (view.collection cfg) d.token
  task : ∀ {w : Work}, db.hub.work = some w → w.task.Ok db.hub.views.length db.token w.resync
  subscriptions : ∀ s ∈ db.subscriptions, s.phase.Ok db.token
  closed : db.hub.closed = true → ∀ v view, ¬ db.hub.Live v view

theorem resynced_opened (cfg : HubConfig) (token : ℕ) (contents : Contents) : Resynced cfg (DB.opened token contents) where
  flight := ⟨List.Pairwise.nil,fun t ht => by simp [DB.opened,DB.inFlight,ReactiveHub.workTokens,DB.waiting,
    DispatchPhase.toNotify] at ht,fun b hb => by simp [DB.opened,DB.waiting,DispatchPhase.toNotify] at hb⟩
  locked _ := rfl
  dropped d hd := by simp [DB.opened,DB.dropped] at hd
  covered := fun _ d hd => by simp [DB.opened,DB.dropped] at hd
  task := fun h => by simp [DB.opened] at h
  subscriptions s hs := by simp [DB.opened] at hs
  closed h := by simp [DB.opened] at h

theorem Task.Ok.mono {resync : List Bytes} {task : Task} (h : task.Ok views token resync)
    (hle : views ≤ views') : task.Ok views' token resync := by
  cases task with
  | attempting c targets n => exact ⟨h.1,fun v hv => (h.2 v hv).trans_le hle⟩
  | opening c targets n t => exact ⟨h.1,fun v hv => (h.2 v hv).trans_le hle⟩
  | installing c targets n t states table => exact ⟨h.1,fun v hv => (h.2.1 v hv).trans_le hle,h.2.2⟩
  | building c targets table => exact fun v hv => (h v hv).trans_le hle
  | _ => exact h

theorem Task.Ok.commit {resync : List Bytes} {task : Task} (h : task.Ok views token resync)
    (hunlocked : task.readLocked = false) : task.Ok views token' resync := by
  cases task with
  | publishing left => cases hunlocked
  | _ => exact h

theorem SubscribePhase.Ok.commit {phase : SubscribePhase} (h : phase.Ok token)
    (hunlocked : phase.readLocked = false) : phase.Ok token' := by
  cases phase with
  | registering table state => cases hunlocked
  | _ => exact h

/-! ### Preservation outside of the worker -/

section
variable {cfg : HubConfig} {db db' : DB} {hub : ReactiveHub} {state : ReactiveViewState} {w : Work} {old task : Task}
  {c : Bytes}

structure Advances (cfg : HubConfig) (token : ℕ) (hub hub' : ReactiveHub) : Prop where
  views : ∀ {v view'}, hub'.Live v view' → token ≤ view'.state.token ∨
    ∃ view, hub.Live v view ∧ view'.key = view.key ∧ view.state.token ≤ view'.state.token ∧
      (view'.collection cfg ∈ hub.resync → view'.collection cfg ∈ hub'.resync)
  length : hub.views.length ≤ hub'.views.length
  queue : hub'.queue = hub.queue
  work : hub'.work = hub.work
  dropped : hub'.dropped = hub.dropped
  sealed : hub'.closed = true → hub.closed = true ∧ ∀ v view', hub'.Live v view' → ∃ view, hub.Live v view

theorem Evolves.advances (h : Evolves cfg hub hub') (token : ℕ) : Advances cfg token hub hub' where
  views := fun hl => by
    obtain ⟨view,hv,hkey,hle⟩ := h.views hl
    exact .inr ⟨view,hv,hkey,hle,h.resync hl⟩
  length := h.length.ge
  queue := h.queue
  work := h.work
  dropped := h.dropped
  sealed hc := ⟨h.closed ▸ hc,fun v view' hl => by
    obtain ⟨view,hv,-⟩ := h.views hl
    exact ⟨view,hv⟩⟩

/-- A step that changes views and subscriptions only. -/
theorem Resynced.advance (h : Resynced cfg db) (ha : Advances cfg db.token db.hub hub)
    {subscriptions : List Subscription} (hs : ∀ s ∈ subscriptions, s.phase.Ok db.token)
    (hlock : (subscriptions.any fun s => s.phase.readLocked) = true → db.staged = []) :
    Resynced cfg { db with hub, subscriptions } where
  flight := h.flight.shrink (by simp [ReactiveHub.workTokens,ha.work]) (by simp [DB.waiting,ha.queue]) (le_refl _)
  locked hr := by
    simp only [DB.readLocked,ha.work,Bool.or_eq_true] at hr
    rcases hr with hr | hr
    · exact h.locked (by simp [DB.readLocked,hr])
    · exact hlock hr
  dropped := by
    simp only [DB.dropped,ha.dropped]
    exact h.dropped
  covered := fun {v view'} hl d hd => by
    simp only [DB.dropped,ha.dropped] at hd
    rcases ha.views hl with hfresh | ⟨view,hv,hkey,hle,hresync⟩
    · exact .inl ((h.dropped d hd).2.trans hfresh)
    rcases h.covered hv d hd with hold | hold
    · exact .inl (hold.trans hle)
    refine .inr ?_
    rw [← collection_of_key cfg hkey] at hold
    simpa only [DB.Awaits,ReactiveHub.workTokens,ha.work,ha.queue] using
      hold.imp_right (Or.imp_left (fun hb => ⟨hresync hb.1,hb.2⟩))
  task := fun hw => (h.task (ha.work ▸ hw)).mono ha.length
  subscriptions := hs
  closed hc v view' hl := by
    obtain ⟨hclosed,hsealed⟩ := ha.sealed hc
    obtain ⟨view,hv⟩ := hsealed v view' hl
    exact h.closed hclosed v view hv

theorem register_advances (hopen : hub.closed = false) (key : ℕ)
    (ht : state.token = token) : Advances cfg token hub (hub.register key state) where
  views := fun {v view'} hl => by
    obtain ⟨hv,hr⟩ := hl
    simp only [ReactiveHub.register] at hv
    rcases Nat.lt_or_ge v hub.views.length with hlt | hge
    · rw [List.getElem?_append_left hlt] at hv
      exact .inr ⟨view',⟨hv,hr⟩,rfl,le_refl _,fun hc => hc⟩
    rw [List.getElem?_append_right hge] at hv
    have hmem := mem_of_getElem? hv
    obtain rfl := mem_singleton.mp hmem
    exact .inl ht.ge
  length := by simp [ReactiveHub.register]
  queue := rfl
  work := rfl
  dropped := rfl
  sealed hc := by simp [ReactiveHub.register,hopen] at hc

theorem Resynced.store (h : Resynced cfg db) (hs : db.store group = some db') : Resynced cfg db' := by
  obtain ⟨-,hunlocked,-,rfl⟩ := store_some hs
  exact ⟨⟨h.flight.ascending,h.flight.bounded,h.flight.positive⟩,fun hr => by
      change db.readLocked = true at hr
      simp [hunlocked] at hr,
    h.dropped,h.covered,h.task,h.subscriptions,h.closed⟩

theorem enqueue_cases (d : ChangeDispatcher) (b : ChangeBatch) :
    (d.enqueue b).queue.Sublist (d.queue ++ [b]) ∧ (d.overflow = true → (d.enqueue b).overflow = true) ∧
      ∀ c ∈ (d.enqueue b).dropped, c ∈ d.dropped ∨ (d.enqueue b).overflow = true ∧ c ∈ d.queue ++ [b] := by
  unfold ChangeDispatcher.enqueue
  split_ifs with hempty hover hfull
  · exact ⟨sublist_append_left _ _,fun h => h,fun c hc => .inl hc⟩
  · refine ⟨sublist_append_left _ _,fun h => h,fun c hc => ?_⟩
    rcases mem_append.mp hc with hc | hc
    · exact .inl hc
    · exact .inr ⟨hover,mem_append_right _ hc⟩
  · refine ⟨nil_sublist _,fun _ => rfl,fun c hc => ?_⟩
    rcases mem_append.mp hc with hc | hc
    · exact .inl hc
    · exact .inr ⟨rfl,hc⟩
  · exact ⟨List.Sublist.refl _,fun h => h,fun c hc => .inl hc⟩

theorem Resynced.publish (hl : Ledger db) (h : Resynced cfg db) (hp : db.publish = some db') : Resynced cfg db' := by
  obtain ⟨b,rest,hstaged,rfl⟩ := publish_some hp
  have hb : db.token < b.token := hl.ahead b (by simp [hstaged])
  have hunlocked : db.readLocked = false := by
    by_contra hr
    have := h.locked (by simpa using hr)
    simp [hstaged] at this
  simp only [DB.readLocked,Bool.or_eq_false_iff] at hunlocked
  obtain ⟨hsub,hover,hdropped⟩ := enqueue_cases db.dispatcher b
  have hnew : ∀ d ∈ db.dispatcher.queue ++ [b], (0 < d.token ∧ d.token ≤ b.token) ∧
      (∀ t ∈ db.hub.workTokens, t < d.token) ∧ ∀ c ∈ db.hub.queue ++ db.dispatcher.phase.toNotify, c.token < d.token := by
    intro d hd
    rcases mem_append.mp hd with hd | hd
    · have hwait : d ∈ db.waiting := by simp [DB.waiting,hd]
      have htoken : d.token ∈ db.inFlight := mem_append_right _ (mem_map_of_mem hwait)
      have hasc := h.flight.ascending
      simp only [DB.inFlight,DB.waiting,map_append] at hasc
      obtain ⟨-,hqueues,hwork⟩ := pairwise_append.mp hasc
      obtain ⟨-,hrest,hhub⟩ := pairwise_append.mp hqueues
      obtain ⟨-,-,hnotify⟩ := pairwise_append.mp hrest
      refine ⟨⟨h.flight.positive d hwait,(h.flight.bounded _ htoken).trans hb.le⟩,fun t ht => ?_,fun c hc => ?_⟩
      · exact hwork t ht _ (by simp [mem_map_of_mem hd])
      rcases mem_append.mp hc with hc | hc
      · exact hhub _ (mem_map_of_mem hc) _ (by simp [mem_map_of_mem hd])
      · exact hnotify _ (mem_map_of_mem hc) _ (mem_map_of_mem hd)
    obtain rfl := mem_singleton.mp hd
    refine ⟨⟨by omega,le_refl _⟩,fun t ht => ?_,fun c hc => ?_⟩
    · exact (h.flight.bounded t (mem_append_left _ ht)).trans_lt hb
    have hwait : c ∈ db.waiting := by
      rw [DB.waiting,← append_assoc]
      exact mem_append_left _ hc
    exact (h.flight.bounded _ (mem_append_right _ (mem_map_of_mem hwait))).trans_lt hb
  refine ⟨⟨?_,?_,?_⟩,?_,?_,?_,?_,?_,?_⟩
  · have hflight : ((db.inFlight) ++ [b.token]).Pairwise (· < ·) :=
      pairwise_append.mpr ⟨h.flight.ascending,pairwise_singleton _ _,fun t ht u hu => by
        rw [mem_singleton.mp hu]
        exact (h.flight.bounded t ht).trans_lt hb⟩
    refine hflight.sublist ?_
    simp only [DB.inFlight,DB.waiting,enqueue_phase,append_assoc,map_append]
    refine (List.Sublist.refl _).append ((List.Sublist.refl _).append ((List.Sublist.refl _).append ?_))
    simpa using hsub.map ChangeBatch.token
  · intro t ht
    simp only [DB.inFlight,DB.waiting,enqueue_phase,map_append,mem_append] at ht
    have hknown : t ∈ db.inFlight → t ≤ b.token := fun ht => (h.flight.bounded t ht).trans hb.le
    rcases ht with ht | ht | ht | ht
    · exact hknown (mem_append_left _ ht)
    · exact hknown (by simp [DB.inFlight,DB.waiting,ht])
    · exact hknown (by simp [DB.inFlight,DB.waiting,ht])
    · obtain ⟨c,hc,rfl⟩ := mem_map.mp ht
      exact (hnew c (hsub.subset hc)).1.2
  · intro c hc
    simp only [DB.waiting,enqueue_phase,mem_append] at hc
    rcases hc with hc | hc | hc
    · exact h.flight.positive c (by simp [DB.waiting,hc])
    · exact h.flight.positive c (by simp [DB.waiting,hc])
    · exact (hnew c (hsub.subset hc)).1.1
  · intro hr
    simp only [DB.readLocked,hunlocked] at hr
    cases hr
  · intro d hd
    rcases mem_append.mp hd with hd | hd
    · rcases hdropped d hd with hd | ⟨-,hd⟩
      · have := h.dropped d (mem_append_left _ hd)
        exact ⟨this.1,this.2.trans hb.le⟩
      · exact (hnew d hd).1
    · have := h.dropped d (mem_append_right _ hd)
      exact ⟨this.1,this.2.trans hb.le⟩
  · intro v view hlive d hd
    have hold : d ∈ db.dropped → d.token ≤ view.state.token ∨
        DB.Awaits { db with dispatcher := db.dispatcher.enqueue b } v (view.collection cfg) d.token := by
      intro hd
      refine (h.covered hlive d hd).imp_right (Or.imp_left (fun ha => ⟨?_,ha.2.1,?_⟩))
      · simp only [ChangeDispatcher.lossPending,enqueue_phase]
        exact ha.1.imp_left hover
      · simpa using ha.2.2
    rcases mem_append.mp hd with hd | hd
    · rcases hdropped d hd with hd | ⟨hflag,hd⟩
      · exact hold (mem_append_left _ hd)
      · exact .inr (.inl ⟨.inl hflag,(hnew d hd).2.1,by simpa using (hnew d hd).2.2⟩)
    · exact hold (mem_append_right _ hd)
  · intro w hw
    refine (h.task hw).commit ?_
    have := hunlocked.1
    simpa [show db.hub.work = some w from hw] using this
  · intro s hs
    refine (h.subscriptions s hs).commit ?_
    by_contra hr
    have hany := hunlocked.2
    rw [any_eq_false] at hany
    exact hr (by simpa using hany s hs)
  · exact h.closed

theorem notify_cases (cfg : HubConfig) (hub : ReactiveHub) (b : ChangeBatch) :
    (hub.notify cfg b).views = hub.views ∧ (hub.notify cfg b).work = hub.work ∧ (hub.notify cfg b).closed = hub.closed ∧
      (hub.notify cfg b).queue.Sublist (hub.queue ++ [b]) ∧ (∀ c ∈ hub.resync, c ∈ (hub.notify cfg b).resync) ∧
      ∀ d ∈ (hub.notify cfg b).dropped, d ∈ hub.dropped ∨
        d ∈ hub.queue ++ [b] ∧ ∀ c ∈ hub.collections cfg, c ∈ (hub.notify cfg b).resync := by
  unfold ReactiveHub.notify
  split_ifs
  · exact ⟨rfl,rfl,rfl,sublist_append_left _ _,fun _ h => h,fun d hd => .inl hd⟩
  · refine ⟨rfl,rfl,rfl,nil_sublist _,fun c hc => mem_append_left _ hc,fun d hd => ?_⟩
    rcases mem_append.mp hd with hd | hd
    · exact .inl hd
    · exact .inr ⟨hd,fun c hc => mem_append_right _ hc⟩
  · exact ⟨rfl,rfl,rfl,List.Sublist.refl _,fun _ h => h,fun d hd => .inl hd⟩

theorem Resynced.notify (h : Resynced cfg db)
    (hphase : db.dispatcher.phase = .dispatching (b::rest)) :
    Resynced cfg { db with hub := db.hub.notify cfg b, dispatcher := { db.dispatcher with phase := .delivering b rest } } := by
  obtain ⟨hviews,hwork,hclosed,hqueue,hresync,hdropped⟩ := notify_cases cfg db.hub b
  have hlive : ∀ {v view}, (db.hub.notify cfg b).Live v view → db.hub.Live v view := fun hl => ⟨hviews ▸ hl.1,hl.2⟩
  have hwaiting : db.waiting = db.hub.queue ++ [b] ++ (rest ++ db.dispatcher.queue) := by
    simp [DB.waiting,hphase,DispatchPhase.toNotify]
  have hasc := h.flight.ascending
  simp only [DB.inFlight,hwaiting,map_append] at hasc
  have hnew : ∀ d ∈ db.hub.queue ++ [b], d ∈ db.waiting ∧ ∀ t ∈ db.hub.workTokens, t < d.token := by
    intro d hd
    refine ⟨by rw [hwaiting]; exact mem_append_left _ hd,fun t ht => ?_⟩
    refine (pairwise_append.mp hasc).2.2 t ht _ ?_
    rw [← map_append,← map_append,← map_append]
    exact mem_map_of_mem (mem_append_left _ hd)
  refine ⟨h.flight.shrink ?_ ?_ (le_refl _),?_,?_,?_,?_,h.subscriptions,?_⟩
  · simp [ReactiveHub.workTokens,hwork]
  · rw [hwaiting]
    exact hqueue.append (List.Sublist.refl _)
  · intro hr
    simp only [DB.readLocked,hwork] at hr
    exact h.locked hr
  · intro d hd
    rcases mem_append.mp hd with hd | hd
    · exact h.dropped d (mem_append_left _ hd)
    rcases hdropped d hd with hd | ⟨hd,-⟩
    · exact h.dropped d (mem_append_right _ hd)
    · have hwait := (hnew d hd).1
      exact ⟨h.flight.positive d hwait,h.flight.bounded _ (mem_append_right _ (mem_map_of_mem hwait))⟩
  · intro v view hl d hd
    have hold : d ∈ db.dropped → d.token ≤ view.state.token ∨ DB.Awaits
        { db with hub := db.hub.notify cfg b, dispatcher := { db.dispatcher with phase := .delivering b rest } }
          v (view.collection cfg) d.token := by
      intro hd
      refine (h.covered (hlive hl) d hd).imp_right ?_
      rintro (⟨hloss,ht,hq⟩ | ⟨hc,ht⟩ | hw)
      · refine .inl ⟨?_,by simpa [ReactiveHub.workTokens,hwork] using ht,fun c hc => hq c ?_⟩
        · simpa [ChangeDispatcher.lossPending,hphase] using hloss
        simp only [hphase,DispatchPhase.toNotify] at hc ⊢
        rcases mem_append.mp hc with hc | hc
        · have := hqueue.subset hc
          simp only [mem_append,mem_singleton] at this
          rcases this with hc | rfl
          · exact mem_append_left _ hc
          · exact mem_append_right _ mem_cons_self
        · exact mem_append_right _ (mem_cons_of_mem b hc)
      · exact .inr (.inl ⟨hresync _ hc,by simpa [ReactiveHub.workTokens,hwork] using ht⟩)
      · exact .inr (.inr (by simpa [hwork] using hw))
    rcases mem_append.mp hd with hd | hd
    · exact hold (mem_append_left _ hd)
    rcases hdropped d hd with hd | ⟨hd,hall⟩
    · exact hold (mem_append_right _ hd)
    · refine .inr (.inr (.inl ⟨hall _ (hlive hl).collection_mem,?_⟩))
      simpa [ReactiveHub.workTokens,hwork] using (hnew d hd).2
  · intro w hw
    have hw' : db.hub.work = some w := hwork ▸ hw
    simpa [hviews] using h.task hw'
  · intro hc v view hl
    exact h.closed (hclosed ▸ hc) v view (hlive hl)

/-- A step of the dispatcher and the watchers that leaves the hub alone. -/
theorem Resynced.dispatcher (h : Resynced cfg db) {dispatcher : ChangeDispatcher} (feed : ChangeFeed)
    (hwait : (dispatcher.phase.toNotify ++ dispatcher.queue) = db.dispatcher.phase.toNotify ++ db.dispatcher.queue)
    (hdropped : dispatcher.dropped = db.dispatcher.dropped)
    (hloss : db.dispatcher.lossPending → dispatcher.lossPending ∧ dispatcher.phase.toNotify = db.dispatcher.phase.toNotify) :
    Resynced cfg { db with dispatcher, feed } where
  flight := h.flight.shrink (List.Sublist.refl _) (by simp [DB.waiting,hwait]) (le_refl _)
  locked := h.locked
  dropped := by
    simp only [DB.dropped,hdropped]
    exact h.dropped
  covered := fun hl d hd => by
    simp only [DB.dropped,hdropped] at hd
    refine (h.covered hl d hd).imp_right (Or.imp_left (fun ha => ?_))
    obtain ⟨hpending,hnotify⟩ := hloss ha.1
    exact ⟨hpending,ha.2.1,by simpa [hnotify] using ha.2.2⟩
  task := h.task
  subscriptions := h.subscriptions
  closed := h.closed

theorem Resynced.resyncAll (h : Resynced cfg db) (hphase : db.dispatcher.phase = .resyncing) :
    Resynced cfg { db with hub := db.hub.resyncAll cfg, dispatcher := { db.dispatcher with phase := .waiting } } := by
  have hsame : (db.hub.resyncAll cfg).views = db.hub.views ∧ (db.hub.resyncAll cfg).work = db.hub.work ∧
      (db.hub.resyncAll cfg).queue = db.hub.queue ∧ (db.hub.resyncAll cfg).dropped = db.hub.dropped ∧
      (db.hub.resyncAll cfg).closed = db.hub.closed := by
    unfold ReactiveHub.resyncAll
    split_ifs <;> exact ⟨rfl,rfl,rfl,rfl,rfl⟩
  obtain ⟨hviews,hwork,hqueue,hdropped,hclosed⟩ := hsame
  have hlive : ∀ {v view}, (db.hub.resyncAll cfg).Live v view → db.hub.Live v view := fun hl => ⟨hviews ▸ hl.1,hl.2⟩
  have hmarked : ∀ {v view}, db.hub.Live v view → view.collection cfg ∈ (db.hub.resyncAll cfg).resync := by
    intro v view hl
    have hopen : db.hub.closed = false := by
      by_contra hc
      exact h.closed (by simpa using hc) v view hl
    simp only [ReactiveHub.resyncAll,hopen]
    exact mem_append_right _ hl.collection_mem
  refine ⟨h.flight.shrink ?_ ?_ (le_refl _),?_,?_,?_,?_,h.subscriptions,?_⟩
  · simp [ReactiveHub.workTokens,hwork]
  · simp [DB.waiting,hqueue,hphase,DispatchPhase.toNotify]
  · intro hr
    simp only [DB.readLocked,hwork] at hr
    exact h.locked hr
  · simp only [DB.dropped,hdropped]
    exact h.dropped
  · intro v view hl d hd
    simp only [DB.dropped,hdropped] at hd
    refine (h.covered (hlive hl) d hd).imp_right ?_
    rintro (⟨-,ht,-⟩ | ⟨-,ht⟩ | hw)
    · exact .inr (.inl ⟨hmarked (hlive hl),by simpa [ReactiveHub.workTokens,hwork] using ht⟩)
    · exact .inr (.inl ⟨hmarked (hlive hl),by simpa [ReactiveHub.workTokens,hwork] using ht⟩)
    · exact .inr (.inr (by simpa [hwork] using hw))
  · intro w hw
    have hw' : db.hub.work = some w := hwork ▸ hw
    simpa [hviews] using h.task hw'
  · intro hc v view hl
    exact h.closed (hclosed ▸ hc) v view (hlive hl)

theorem Resynced.dispatch (h : Resynced cfg db) (hd : db.dispatch cfg order = some db') : Resynced cfg db' := by
  rcases dispatch_cases hd with ⟨d,hnext,rfl⟩ | ⟨b,rest,hphase,rfl⟩ | ⟨b,rest,feed,hphase,-,rfl⟩ | ⟨hphase,rfl⟩ | ⟨hphase,rfl⟩
  · obtain ⟨hphase,-,⟨hover,rfl⟩ | ⟨hover,rfl⟩⟩ := next_cases hnext
    · refine h.dispatcher db.feed ?_ rfl (fun _ => ⟨.inr (.inl rfl),?_⟩)
      · simp [hphase,DispatchPhase.toNotify]
      · simp [hphase,DispatchPhase.toNotify]
    refine h.dispatcher db.feed ?_ rfl (fun hloss => ?_)
    · simp [hphase,DispatchPhase.toNotify]
    · simp [ChangeDispatcher.lossPending,hover,hphase] at hloss
  · exact h.notify hphase
  · have hrest : (dispatchRest rest).toNotify = db.dispatcher.phase.toNotify := by
      rw [toNotify_dispatchRest,hphase]
      rfl
    refine h.dispatcher _ ?_ rfl (fun hloss => ⟨.inl ?_,hrest⟩)
    · rw [hrest]
    · simpa [ChangeDispatcher.lossPending,hphase] using hloss
  · refine h.dispatcher _ ?_ rfl (fun _ => ⟨.inr (.inr rfl),?_⟩)
    · simp [hphase,DispatchPhase.toNotify]
    · simp [hphase,DispatchPhase.toNotify]
  · exact h.resyncAll hphase

theorem processPending_some (h : hub.processPending resync = some hub') :
    hub.work = none ∧ resync.Perm hub.resync.dedup ∧
      hub' = { hub with queue := [], pendingChanges := 0, pendingBytes := 0, resync := [],
                        work := some ⟨resync,hub.queue,0,[],.select⟩ } := by
  unfold ReactiveHub.processPending at h
  split at h
  · cases h
  rename_i hwork
  split_ifs at h with hguard
  simp only [Bool.or_eq_true,not_or,Bool.not_eq_true',Bool.not_eq_false,isPerm_iff] at hguard
  exact ⟨hwork,hguard.2,(Option.some.inj h).symm⟩

theorem Resynced.processPending (h : Resynced cfg db)
    (hp : db.hub.processPending resync = some hub) : Resynced cfg { db with hub } := by
  obtain ⟨hwork,hperm,rfl⟩ := processPending_some hp
  have hempty : db.hub.workTokens = [] := by simp [ReactiveHub.workTokens,hwork]
  have hflight : ∀ t ∈ db.inFlight, 0 < t := by
    intro t ht
    simp only [DB.inFlight,hempty,nil_append] at ht
    obtain ⟨b,hb,rfl⟩ := mem_map.mp ht
    exact h.flight.positive b hb
  refine ⟨⟨?_,?_,?_⟩,?_,h.dropped,?_,?_,h.subscriptions,h.closed⟩
  · have hasc : (0::db.inFlight).Pairwise (· < ·) := pairwise_cons.mpr ⟨hflight,h.flight.ascending⟩
    simpa [DB.inFlight,ReactiveHub.workTokens,hwork,Work.tokens,DB.waiting] using hasc
  · intro t ht
    have ht' : t = 0 ∨ t ∈ db.inFlight := by
      simpa [DB.inFlight,ReactiveHub.workTokens,hwork,Work.tokens,DB.waiting,or_assoc] using ht
    rcases ht' with rfl | ht'
    · exact Nat.zero_le _
    · exact h.flight.bounded t ht'
  · intro b hb
    refine h.flight.positive b ?_
    simp only [DB.waiting,nil_append] at hb ⊢
    exact mem_append_right _ hb
  · intro hr
    refine h.locked ?_
    simpa [DB.readLocked,hwork,Task.readLocked] using hr
  · intro v view hl d hd
    have hpos := (h.dropped d hd).1
    refine (h.covered hl d hd).imp_right ?_
    rintro (⟨hloss,-,hq⟩ | ⟨hc,-⟩ | ⟨w,hw,-⟩)
    · refine .inl ⟨hloss,fun t ht => ?_,fun b hb => hq b (mem_append_right _ (by simpa using hb))⟩
      rcases mem_cons.mp ht with rfl | ht
      · exact hpos
      · obtain ⟨b,hb,rfl⟩ := mem_map.mp ht
        exact hq b (mem_append_left _ hb)
    · exact .inr (.inr ⟨_,rfl,.inl (hperm.mem_iff.mpr (mem_dedup.mpr hc))⟩)
    · simp [hwork] at hw
  intro w hw
  cases hw
  trivial

/-! ### Preservation by the worker -/

/-- A step of the worker: views that waited for it still do, or have caught up. -/
theorem Resynced.withTask (h : Resynced cfg db) (hwork : db.hub.work = some w) (htask : w.task = old)
    (he : Evolves cfg db.hub hub) (htokens : n.tokens.Sublist w.tokens)
    (hrenew : ∀ {v view}, hub.Live v view →
      (view.collection cfg ∈ w.resync ∨ old.Renews v (view.collection cfg)) →
        (∀ d ∈ db.dropped, d.token ≤ view.state.token) ∨ view.collection cfg ∈ n.resync ∨ task.Renews v (view.collection cfg))
    (hok : task.Ok hub.views.length db.token n.resync) (hlock : task.readLocked = true → db.staged = []) :
    Resynced cfg (DB.withTask { db with hub } n task) := by
  have htok : ({ hub with work := some { n with task } } : ReactiveHub).workTokens.Sublist db.hub.workTokens := by
    simpa [ReactiveHub.workTokens,hwork,Work.tokens] using htokens
  refine ⟨h.flight.shrink htok ?_ (le_refl _),?_,?_,?_,?_,h.subscriptions,?_⟩
  · simp [DB.waiting,DB.withTask,he.queue]
  · intro hr
    simp only [DB.readLocked,DB.withTask,Option.map_some,Option.getD_some,Bool.or_eq_true] at hr
    rcases hr with hr | hr
    · exact hlock hr
    · exact h.locked (by simp [DB.readLocked,hr])
  · simp only [DB.dropped,DB.withTask,he.dropped]
    exact h.dropped
  · intro v view' hl d hd
    have hl' : hub.Live v view' := hl
    obtain ⟨view,hv,hkey,hle⟩ := he.views hl'
    simp only [DB.dropped,DB.withTask,he.dropped] at hd
    have hcoll := collection_of_key cfg hkey
    rcases h.covered hv d hd with hold | hold
    · exact .inl (hold.trans hle)
    rw [← hcoll] at hold
    rcases hold with ⟨hloss,ht,hq⟩ | ⟨hc,ht⟩ | ⟨u,hu,hwait⟩
    · exact .inr (.inl ⟨hloss,fun t ht' => ht t (htok.subset ht'),by simpa [DB.withTask,he.queue] using hq⟩)
    · exact .inr (.inr (.inl ⟨he.resync hl' hc,fun t ht' => ht t (htok.subset ht')⟩))
    obtain rfl := Option.some.inj (hwork.symm.trans hu)
    rw [htask] at hwait
    rcases hrenew hl' hwait with hdone | hwait
    · exact .inl (hdone d hd)
    · exact .inr (.inr (.inr ⟨_,rfl,hwait⟩))
  · intro u hu
    cases hu
    exact hok
  intro hc v view' hl
  obtain ⟨view,hv,-⟩ := he.views (show hub.Live v view' from hl)
  exact h.closed (he.closed ▸ hc) v view hv

theorem Resynced.sameTask (h : Resynced cfg db) (hwork : db.hub.work = some w) (htask : w.task = old)
    (hrenew : ∀ {v view}, db.hub.Live v view → old.Renews v (view.collection cfg) →
      task.Renews v (view.collection cfg)) (hok : task.Ok db.hub.views.length db.token w.resync)
    (hlock : task.readLocked = true → db.staged = []) : Resynced cfg (db.withTask w task) :=
  h.withTask hwork htask (Evolves.refl db.hub) (List.Sublist.refl _)
    (fun hl hwait => .inr (hwait.imp_right (hrenew hl))) hok hlock

theorem Resynced.failCollection (h : Resynced cfg db) (hwork : db.hub.work = some w) (htask : w.task = old)
    (hc : ∀ {v d}, old.Renews v d → c = d) (e : ReactiveError) : Resynced cfg (db.failCollection cfg w c e) :=
  h.sameTask hwork htask (fun hl hr => mem_group.mpr ⟨_,hl,(hc hr).symm⟩) trivial nofun

theorem mem_zip_fst {α β : Type*} {as : List α} {bs : List β} (h : bs.length = as.length) {a : α} (ha : a ∈ as) :
    a ∈ (as.zip bs).map fst := by
  rw [map_fst_zip h.ge]
  exact ha

theorem Resynced.nextAttempt (h : Resynced cfg db) (hwork : db.hub.work = some w) (htask : w.task = old)
    (hc : ∀ {v d}, old.Renews v d → c = d) (ht : targets.Nodup ∧ ∀ v ∈ targets, v < db.hub.views.length) :
    Resynced cfg (db.nextAttempt w c targets attempt) := by
  unfold DB.nextAttempt
  split_ifs
  · exact h.sameTask hwork htask (fun _ hr => hc hr) ht nofun
  · exact h.sameTask hwork htask (fun _ hr => hc hr) trivial nofun

theorem Resynced.handOver (h : Resynced cfg db) (hwork : db.hub.work = some w) {targets : List ℕ}
    {attempt token : ℕ}
    (htask : w.task = .installing c targets attempt token states table) (hstaged : db.staged = []) :
    Resynced cfg (db.handOver cfg w c targets attempt token states table) := by
  have hok := h.task hwork
  rw [htask] at hok
  obtain ⟨hnodup,hlt,hlength,htoken⟩ := hok
  have hlocking : Resynced cfg (db.withTask w (.locking c)) := h.sameTask hwork htask (fun _ hr => hr) trivial nofun
  unfold DB.handOver
  split_ifs with hclosed hcurrent
  · exact h.failCollection hwork htask (fun hr => hr) _
  · exact h.nextAttempt hwork htask (fun hr => hr) ⟨hnodup,hlt⟩
  split
  · exact hlocking
  rename_i ref _
  dsimp only
  split_ifs with hstable
  · simp only [Bool.and_eq_true,decide_eq_true_eq,all_eq_true,contains_iff_mem] at hstable
    -- Distinct targets that are all registered, as many as there are: these are the registered views.
    have hall : db.hub.group cfg c ⊆ targets := by
      have hsub : List.Subperm targets (db.hub.group cfg c) := hnodup.subperm hstable.2
      exact (hsub.perm_of_length_le hstable.1.2.le).symm.subset
    refine h.withTask hwork htask (setTable_evolves db.hub ref table) (List.Sublist.refl _)
      (fun hl hwait => .inr (hwait.imp_right (fun hr => ?_))) ?_ (fun _ => hstaged)
    · exact mem_zip_fst hlength (hall (mem_group.mpr ⟨_,hl,hr.symm⟩))
    intro p hp
    have hmem : p.2 ∈ states := (of_mem_zip hp).2
    rw [htoken p.2 hmem]
    exact (not_not.mp hcurrent).symm
  · exact hlocking

theorem Resynced.buildLocked (h : Resynced cfg db) (hwork : db.hub.work = some w)
    {table : ℕ} (htask : w.task = .building c views table) : Resynced cfg (db.buildLocked cfg w c views table) := by
  have hlt := h.task hwork
  rw [htask] at hlt
  have hstaged : db.staged = [] := h.locked (by simp [DB.readLocked,hwork,htask,Task.readLocked])
  have hfail : ∀ order e, Resynced cfg (DB.failCollection cfg { db with hub := db.hub.setTable table order } w c e) :=
    fun order e => h.withTask hwork htask (setTable_evolves db.hub table order) (List.Sublist.refl _)
      (fun hl hwait => .inr (hwait.imp_right (fun hr => mem_group.mpr ⟨_,hl,hr.1.symm⟩))) trivial nofun
  have hpublish : ∀ order states, states.length = (db.hub.queriesOf cfg views).length → (∀ s ∈ states, s.token = db.token) →
      Resynced cfg (DB.withTask { db with hub := db.hub.setTable table order } w (.publishing (views.zip states))) := by
    intro order states hlength htoken
    rw [length_queriesOf hlt] at hlength
    exact h.withTask hwork htask (setTable_evolves db.hub table order) (List.Sublist.refl _)
      (fun hl hwait => .inr (hwait.imp_right (fun hr => mem_zip_fst hlength hr.2))) (fun p hp => htoken p.2 (of_mem_zip hp).2)
      (fun _ => hstaged)
  unfold DB.buildLocked
  dsimp only
  split_ifs
  · split
    · exact h.failCollection hwork htask (fun hr => hr.1) _
    rename_i states order hbuild
    obtain ⟨hlength,htoken⟩ := buildStorage_states hbuild
    exact hpublish order states hlength htoken
  split
  · exact h.failCollection hwork htask (fun hr => hr.1) _
  rename_i order _
  split
  · exact hfail order _
  rename_i states hbuild
  refine hpublish order states (length_mapM hbuild) (fun s hs => ?_)
  obtain ⟨q,-,hq⟩ := mapM_mem hbuild s hs
  exact buildReactive_token hq

theorem Resynced.selectWork (h : Resynced cfg db) (hwork : db.hub.work = some w) (htask : w.task = .select)
    (hs : db.selectWork cfg w names = some db') : Resynced cfg db' := by
  unfold DB.selectWork at hs
  split at hs
  · rename_i c rest hresync
    cases hs
    refine h.withTask hwork htask (n := { w with resync := rest }) (Evolves.refl db.hub) (List.Sublist.refl _)
      (fun hl hwait => .inr ?_) trivial nofun
    rcases hwait with hwait | hwait
    · rw [hresync] at hwait
      rcases mem_cons.mp hwait with heq | hmem
      · exact .inr heq.symm
      · exact .inl hmem
    · exact hwait.elim
  · rename_i c changes rest hresync hgroups
    cases hs
    refine h.withTask hwork htask (n := { w with groups := rest })
      ((ensureOrder_evolves db.hub c).trans (setTable_evolves _ _ _)) (List.Sublist.refl _)
      (fun hl hwait => .inr (.inl ?_)) ?_ (fun hr => ?_)
    · exact hwait.resolve_right id
    · split_ifs
      · exact hresync
      · trivial
    · split_ifs at hr <;> cases hr
  · rename_i b rest hresync hgroups hbatches
    obtain ⟨groups,-,rfl⟩ := Option.map_eq_some_iff.mp hs
    refine h.withTask hwork htask (n := { w with batches := rest, token := b.token, groups }) (Evolves.refl db.hub) ?_
      (fun hl hwait => .inr (.inl (hwait.resolve_right id))) trivial nofun
    simp only [Work.tokens,hbatches,map_cons]
    exact sublist_cons_self _ _
  rename_i hresync hgroups hbatches
  cases hs
  -- Nothing waits for a worker that has run out of work.
  refine ⟨h.flight.shrink (nil_sublist _) (List.Sublist.refl _) (le_refl _),?_,h.dropped,?_,
    nofun,h.subscriptions,h.closed⟩
  · intro hr
    refine h.locked ?_
    simp only [DB.readLocked,Option.map_none,Option.getD_none,Bool.false_or] at hr ⊢
    simp [hr]
  intro v view hl d hd
  refine (h.covered hl d hd).imp_right ?_
  rintro (⟨hloss,-,hq⟩ | ⟨hc,-⟩ | ⟨u,hu,hwait⟩)
  · exact .inl ⟨hloss,fun t ht => by simp [ReactiveHub.workTokens] at ht,hq⟩
  · exact .inr (.inl ⟨hc,fun t ht => by simp [ReactiveHub.workTokens] at ht⟩)
  · obtain rfl := Option.some.inj (hwork.symm.trans hu)
    simp [hresync,htask,Task.Renews] at hwait

theorem Resynced.workStep (h : Resynced cfg db) {order : List ℕ}
    (hs : db.workStep cfg names order = some db') : Resynced cfg db' := by
  unfold DB.workStep at hs
  split at hs
  · cases hs
  rename_i w hwork
  have hok := h.task hwork
  split at hs
  · rename_i htask
    exact h.selectWork hwork htask hs
  · rename_i c changes table htask
    split_ifs at hs
    cases hs
    rw [htask] at hok
    exact h.sameTask hwork htask (fun _ hr => hr) hok nofun
  · rename_i c changes table htask
    cases hs
    exact h.sameTask hwork htask (fun _ hr => hr) trivial nofun
  · rename_i c changes table v rest htask
    rw [htask] at hok
    split at hs
    · cases hs
      exact h.sameTask hwork htask (fun _ hr => hr.elim) trivial nofun
    rename_i hub hview
    cases hs
    exact h.withTask hwork htask (applyViewBatch_evolves hview) (List.Sublist.refl _) (fun _ hwait => .inr hwait) hok nofun
  · rename_i c htask
    dsimp only at hs
    split_ifs at hs with hmemory hnone
    · cases hs
      exact h.sameTask hwork htask (fun _ hr => hr) trivial nofun
    · cases hs
      refine h.sameTask hwork htask (fun {v view} hl hr => ?_) trivial nofun
      -- Either the hub is closed or the collection has no view.
      rcases Bool.or_eq_true _ _ ▸ hnone with hclosed | hempty
      · exact absurd hl (h.closed hclosed v view)
      · rw [List.isEmpty_iff,List.eq_nil_iff_forall_not_mem] at hempty
        exact absurd (mem_group.mpr ⟨view,hl,hr.symm⟩) (hempty v)
    · cases hs
      exact h.sameTask hwork htask (fun _ hr => hr) ⟨nodup_group db.hub c,fun v hv => group_lt hv⟩ nofun
  · rename_i c targets attempt htask
    rw [htask] at hok
    split_ifs at hs
    · cases hs
      exact h.failCollection hwork htask (fun hr => hr) _
    · cases hs
      exact h.sameTask hwork htask (fun _ hr => hr) hok nofun
  · rename_i c targets attempt token htask
    rw [htask] at hok
    split at hs
    · cases hs
      exact h.failCollection hwork htask (fun hr => hr) _
    rename_i states table hbuild
    cases hs
    obtain ⟨hlength,htoken⟩ := buildStorage_states hbuild
    rw [length_queriesOf hok.2] at hlength
    exact h.sameTask hwork htask (fun _ hr => hr) ⟨hok.1,hok.2,hlength,htoken⟩ nofun
  · rename_i c targets attempt token states table htask
    split_ifs at hs with hstaged
    cases hs
    exact h.handOver hwork htask (by simpa using hstaged)
  · rename_i c htask
    split_ifs at hs with hstaged
    · cases hs
      exact h.failCollection hwork htask (fun hr => hr) _
    cases hs
    exact h.withTask hwork htask (ensureOrder_evolves db.hub c) (List.Sublist.refl _)
      (fun hl hwait => .inr (hwait.imp_right (fun hr => ⟨hr,mem_group.mpr ⟨_,hl,hr.symm⟩⟩)))
      (fun v hv => group_lt hv) (fun _ => by simpa using hstaged)
  · rename_i c views table htask
    cases hs
    exact h.buildLocked hwork htask
  · rename_i htask
    cases hs
    exact h.sameTask hwork htask (fun _ hr => by simp [Task.Renews] at hr) trivial nofun
  · rename_i v state rest htask
    cases hs
    have hstaged : db.staged = [] := h.locked (by simp [DB.readLocked,hwork,htask,Task.readLocked])
    rw [htask] at hok
    refine h.withTask hwork htask (publishNewer_evolves db.hub v state) (List.Sublist.refl _) (fun {u view} hl hwait => ?_)
      (fun p hp => hok p (mem_cons_of_mem _ hp)) (fun _ => hstaged)
    rcases hwait with hwait | hwait
    · exact .inr (.inl hwait)
    rcases mem_cons.mp hwait with heq | hrest
    · subst heq
      have hcurrent : db.token ≤ view.state.token := hok (_,state) mem_cons_self ▸ publishNewer_token hl
      exact .inl (fun d hd => (h.dropped d hd).2.trans hcurrent)
    · exact .inr (.inr hrest)
  · rename_i htask
    cases hs
    exact h.sameTask hwork htask (fun _ hr => by simp [Task.Renews] at hr) trivial nofun
  rename_i v rest e htask
  cases hs
  refine h.withTask hwork htask (failView_evolves db.hub v e) (List.Sublist.refl _) (fun {u view} hl hwait => .inr ?_) trivial
    nofun
  refine hwait.imp_right (fun hr => ?_)
  rcases mem_cons.mp hr with heq | hrest
  · subst heq
    exact absurd hl (failView_dead db.hub u e view)
  · exact hrest

/-! ### Preservation by subscriptions -/

theorem Resynced.setSubscription (h : Resynced cfg db) (i : ℕ) (s : Subscription)
    (ha : Advances cfg db.token db.hub hub) {phase : SubscribePhase} (hok : phase.Ok db.token)
    (hlock : phase.readLocked = true → db.staged = []) : Resynced cfg (DB.setSubscription { db with hub } i s phase) := by
  refine h.advance ha (fun u hu => ?_) (fun hr => ?_)
  · rcases mem_or_eq_of_mem_set hu with hu | rfl
    · exact h.subscriptions u hu
    · exact hok
  obtain ⟨u,hu,hr⟩ := any_eq_true.mp hr
  rcases mem_or_eq_of_mem_set hu with hu | rfl
  · refine h.locked ?_
    simp only [DB.readLocked,Bool.or_eq_true]
    exact .inr (any_eq_true.mpr ⟨u,hu,hr⟩)
  · exact hlock hr

theorem advances_self (cfg : HubConfig) (token : ℕ) (hub : ReactiveHub) : Advances cfg token hub hub :=
  (Evolves.refl hub).advances token

theorem Resynced.failSubscription (h : Resynced cfg db) (i : ℕ) (s : Subscription)
    (he : Evolves cfg db.hub hub) (e : ReactiveError) : Resynced cfg (DB.failSubscription { db with hub } i s e) := by
  have hfail : Evolves cfg hub { hub with failures := hub.failures ++ [e] } := evolves_of_views rfl rfl rfl rfl rfl rfl
  exact h.setSubscription i s ((he.trans hfail).advances db.token) trivial nofun

theorem Resynced.buildSubscription (h : Resynced cfg db) (i : ℕ) (s : Subscription) (hstaged : db.staged = []) :
    Resynced cfg (db.buildSubscription cfg i s) := by
  have he : Evolves cfg db.hub (db.hub.ensureOrder (cfg.queries s.key).1).1 := ensureOrder_evolves _ _
  have hregister : ∀ order state, state.token = db.token → Resynced cfg (DB.setSubscription
      { db with hub := (db.hub.ensureOrder (cfg.queries s.key).1).1.setTable (db.hub.ensureOrder (cfg.queries s.key).1).2 order }
        i s (.registering (db.hub.ensureOrder (cfg.queries s.key).1).2 state)) := fun order state ht =>
    h.setSubscription i s ((he.trans (setTable_evolves _ _ order)).advances db.token) ht (fun _ => hstaged)
  unfold DB.buildSubscription
  dsimp only
  split_ifs
  · split
    · exact h.failSubscription i s he _
    rename_i states order hbuild
    obtain ⟨-,htoken⟩ := buildStorage_states hbuild
    split
    · exact h.failSubscription i s he _
    · rename_i state _
      exact hregister order state (htoken state mem_cons_self)
  split
  · exact h.failSubscription i s he _
  rename_i order _
  split
  · exact h.failSubscription i s (he.trans (setTable_evolves _ _ order)) _
  · rename_i state hbuild
    exact hregister order state (buildReactive_token hbuild)

theorem Resynced.registerSubscription (h : Resynced cfg db) (i : ℕ) (s : Subscription)
    (ht : state.token = db.token) : Resynced cfg (db.registerSubscription cfg i s state) := by
  unfold DB.registerSubscription
  split_ifs with hclosed
  · exact h.failSubscription i s (Evolves.refl db.hub) _
  split
  · exact h.setSubscription i s (register_advances (by simpa using hclosed) s.key ht) trivial (by rintro ⟨⟩)
  · exact h.setSubscription i s ((publishNewer_evolves db.hub _ state).advances db.token) trivial (by rintro ⟨⟩)

theorem Resynced.installSubscription (h : Resynced cfg db) (i : ℕ) (s : Subscription)
    (ht : state.token = token) :
    Resynced cfg (db.installSubscription cfg i s attempt token table state) := by
  have hself := advances_self cfg db.token db.hub
  unfold DB.installSubscription
  dsimp only
  split_ifs with hclosed hcurrent hhub hview hgroup
  · exact h.failSubscription i s (Evolves.refl db.hub) _
  · unfold DB.retrySubscription
    split_ifs
    · exact h.setSubscription i s hself trivial nofun
    · exact h.setSubscription i s hself trivial nofun
  · exact h.failSubscription i s (Evolves.refl db.hub) _
  · exact h.setSubscription i s hself trivial nofun
  · exact h.setSubscription i s hself trivial nofun
  have hreg : Advances cfg db.token db.hub (db.hub.register s.key state) :=
    register_advances (by simpa using hhub) s.key (ht.trans (not_not.mp hcurrent).symm)
  have hok : SubscribePhase.Ok db.token (.returned none) := trivial
  refine h.setSubscription i s ?_ hok nofun
  exact ⟨hreg.views,hreg.length,hreg.queue,hreg.work,hreg.dropped,hreg.sealed⟩

theorem Resynced.subscribeStep (h : Resynced cfg db) (hs : db.subscribeStep cfg i = some db') : Resynced cfg db' := by
  have hself := advances_self cfg db.token db.hub
  unfold DB.subscribeStep at hs
  split at hs
  · cases hs
  rename_i s hi
  have hmem := mem_of_getElem? hi
  have hok := h.subscriptions s hmem
  have hlocked : s.phase.readLocked = true → db.staged = [] := fun hr => h.locked (by
    simp only [DB.readLocked,Bool.or_eq_true]
    exact .inr (any_eq_true.mpr ⟨s,hmem,hr⟩))
  split at hs
  · split_ifs at hs with hstaged
    cases hs
    unfold DB.enterSubscription
    split_ifs
    · exact h.failSubscription i s (Evolves.refl db.hub) _
    · exact h.setSubscription i s hself trivial nofun
    · exact h.setSubscription i s hself trivial nofun
    · exact h.setSubscription i s hself trivial (fun _ => by simpa using hstaged)
  · rename_i hphase
    cases hs
    exact h.buildSubscription i s (hlocked (by simp [hphase,SubscribePhase.readLocked]))
  · rename_i table state hphase
    cases hs
    rw [hphase] at hok
    exact h.registerSubscription i s hok
  · split_ifs at hs
    · cases hs
      exact h.failSubscription i s (Evolves.refl db.hub) _
    · cases hs
      exact h.setSubscription i s hself trivial nofun
  · split at hs
    · cases hs
      exact h.failSubscription i s (Evolves.refl db.hub) _
    rename_i states table hbuild
    obtain ⟨-,htoken⟩ := buildStorage_states hbuild
    split at hs
    · cases hs
      exact h.failSubscription i s (Evolves.refl db.hub) _
    rename_i state _
    cases hs
    exact h.setSubscription i s hself (htoken state mem_cons_self) nofun
  · rename_i attempt token table state hphase
    split_ifs at hs
    cases hs
    rw [hphase] at hok
    exact h.installSubscription i s hok
  · cases hs

/-! ### Runs -/

theorem Resynced.close (h : Resynced cfg db) : Resynced cfg { db with hub := db.hub.close } := by
  have hdead : ∀ v view, ¬ db.hub.close.Live v view := by
    rintro v view ⟨hv,hr⟩
    obtain ⟨old,-,rfl⟩ := mem_map.mp (mem_of_getElem? hv)
    cases hr
  refine ⟨h.flight.shrink (List.Sublist.refl _) ?_ (le_refl _),h.locked,h.dropped,fun hl => absurd hl (hdead _ _),
    fun hw => ?_,h.subscriptions,fun _ => hdead⟩
  · simp [DB.waiting,ReactiveHub.close]
  · simpa [ReactiveHub.close] using h.task hw

theorem Resynced.step (hl : Ledger db) (h : Resynced cfg db) {a : Action} (hs : db.step cfg a = some db') : Resynced cfg db' := by
  cases a with
  | store group => exact h.store hs
  | publish => exact h.publish hl hs
  | dispatch order => exact h.dispatch hs
  | watch collection buffer =>
    simp only [DB.step,DB.watch] at hs
    split_ifs at hs
    cases hs
    exact h.dispatcher _ rfl rfl (fun hloss => ⟨hloss,rfl⟩)
  | watcher i step =>
    obtain ⟨feed,-,rfl⟩ := Option.map_eq_some_iff.mp hs
    exact h.dispatcher feed rfl rfl (fun hloss => ⟨hloss,rfl⟩)
  | cancel i =>
    cases hs
    exact h.dispatcher _ rfl rfl (fun hloss => ⟨hloss,rfl⟩)
  | subscribe key =>
    cases hs
    refine h.advance (advances_self cfg db.token db.hub) (fun s hmem => ?_) (fun hr => h.locked ?_)
    · rcases mem_append.mp hmem with hmem | hmem
      · exact h.subscriptions s hmem
      · obtain rfl := mem_singleton.mp hmem
        trivial
    · simp only [DB.readLocked,Bool.or_eq_true]
      exact .inr (by simpa [SubscribePhase.readLocked] using hr)
  | subscription i => exact h.subscribeStep hs
  | detach v =>
    cases hs
    refine h.advance ((deleteView_evolves db.hub v).advances db.token) h.subscriptions (fun hr => h.locked ?_)
    simp only [DB.readLocked,Bool.or_eq_true]
    exact .inr hr
  | processPending resync =>
    obtain ⟨hub,hhub,rfl⟩ := Option.map_eq_some_iff.mp hs
    exact h.processPending hhub
  | work names order => exact h.workStep hs
  | close =>
    simp only [DB.step] at hs
    split_ifs at hs
    cases hs
    exact ⟨⟨h.flight.ascending,h.flight.bounded,h.flight.positive⟩,h.locked,h.dropped,h.covered,h.task,h.subscriptions,h.closed⟩
  | closeDispatcher =>
    simp only [DB.step] at hs
    split_ifs at hs
    cases hs
    exact h.dispatcher db.feed rfl rfl (fun hloss => ⟨hloss,rfl⟩)
  | closeHub =>
    simp only [DB.step] at hs
    split at hs
    · split_ifs at hs
      cases hs
      exact h.close
    · cases hs
  | closeWatchers =>
    simp only [DB.step] at hs
    split at hs
    · split_ifs at hs
      cases hs
      exact h.dispatcher _ rfl rfl (fun hloss => ⟨hloss,rfl⟩)
    · cases hs

end

theorem resynced_run (h : (DB.opened token contents).run cfg actions = some db) : Resynced cfg db := by
  have hstep : ∀ db a db', (Ledger db ∧ Resynced cfg db) → db.step cfg a = some db' → Ledger db' ∧ Resynced cfg db' :=
    fun _ _ _ hi hs => ⟨hi.1.step hs,hi.2.step hi.1 hs⟩
  exact (run_invariant hstep ⟨ledger_opened token contents,resynced_opened cfg token contents⟩ h).2

theorem Resynced.applied (h : Resynced cfg db) (hwork : db.hub.work = some w)
    (htask : w.task = .viewing c changes table views)
    (hl : db.hub.Live v view) (hd : d ∈ db.dropped)
    (hlater : d.token < w.token) : d.token ≤ view.state.token := by
  have hresync := h.task hwork
  rw [htask] at hresync
  have hcurrent : w.token ∈ db.hub.workTokens := by simp [ReactiveHub.workTokens,hwork,Work.tokens]
  rcases h.covered hl d hd with hdone | ⟨-,ht,-⟩ | ⟨-,ht⟩ | ⟨u,hu,hwait⟩
  · exact hdone
  · exact absurd (ht _ hcurrent) (not_lt.mpr hlater.le)
  · exact absurd (ht _ hcurrent) (not_lt.mpr hlater.le)
  obtain rfl := Option.some.inj (hwork.symm.trans hu)
  rw [htask,show w.resync = [] from hresync] at hwait
  simp [Task.Renews] at hwait

/-- A database in memory whose only query asks for everything in one collection. -/
def letterConfig : HubConfig where
  durable := false
  limits := ⟨1000,1000000,1000,fun _ _ => 1⟩
  priority := fun _ => 0
  queries := fun _ => ([0x61],⟨.true,[],0,none⟩)
def letterChange : Change :=
  { collection := [0x61], operation := .insert, documentID := .ending 1, before := none,
    after := some [(idField,.id (.ending 1))] }

def letterUpdate : Change :=
  { collection := [0x61], operation := .update, documentID := .ending 1, before := some [(idField,.id (.ending 1))],
    after := some [(idField,.id (.ending 1)),([0x62],.bool true)] }

/-- One commit that travels to a watcher and to a view. -/
def letterActions : List Action :=
  [.watch [0x61] 1,.subscribe 0,.subscription 0,.subscription 0,.subscription 0,.store [[letterChange]],.publish,
    .dispatch [],.dispatch [],.dispatch [0],.watcher 0 .take,.watcher 0 .send,.processPending [],.work [[0x61]] [],
    .work [] [],.work [] [0],.work [] [],.work [] [],.work [] []]
def letterDB : DB := ((DB.opened 0 []).run letterConfig letterActions).getD {}

/-- One change more than the dispatcher takes. -/
def longBatch : ChangeBatch := ⟨letterDB.token+1,replicate 8193 letterUpdate⟩
def DB.committed (db : DB) (b : ChangeBatch) (contents : Contents) : DB :=
  { db with token := b.token, contents, sequence := db.sequence+1, stored := db.stored.applyBatch b, staged := [],
            history := db.history ++ [b], dispatcher := db.dispatcher.enqueue b }
def updatedDB : DB := letterDB.committed longBatch (letterDB.contents.applyChange letterUpdate)

theorem applyBatch_replicate {contents : Contents} (h : (contents.applyChange c).applyChange c = contents.applyChange c)
    (token n : ℕ) :
    contents.applyBatch ⟨token,replicate (n+1) c⟩ = contents.applyChange c := by
  have hstays : (replicate n c).foldl Contents.applyChange (contents.applyChange c) = contents.applyChange c := by
    induction n with
    | zero => rfl
    | succ n ih => rw [replicate_succ,foldl_cons,h,ih]
  exact hstays

theorem DB.run_trans {db next last : DB} (hfirst : db.run cfg first = some next) (hsecond : next.run cfg second = some last) :
    db.run cfg (first ++ second) = some last := by
  induction first generalizing db with
  | nil =>
    cases hfirst
    exact hsecond
  | cons a first ih =>
    obtain ⟨middle,hmiddle,hrest⟩ := Option.bind_eq_some_iff.mp hfirst
    exact Option.bind_eq_some_iff.mpr ⟨middle,hmiddle,ih hrest⟩

theorem DB.run_commit {db : DB} (hready : (db.closed || db.readLocked || !db.staged.isEmpty) = false) (changes : List Change) :
    db.run cfg [.store [changes],.publish] =
      some (db.committed ⟨db.token+1,changes⟩ (db.contents.applyBatch ⟨db.token+1,changes⟩)) := by
  change (db.store [changes]).bind (fun next => next.publish.bind some) = _
  rw [DB.store,hready]
  rfl

theorem updatedDB_run :
    (DB.opened 0 []).run letterConfig (letterActions ++ [.store [longBatch.changes],.publish]) = some updatedDB := by
  have hletters : (DB.opened 0 []).run letterConfig letterActions = some letterDB := by
    have hsome : ((DB.opened 0 []).run letterConfig letterActions).isSome = true := by decide +kernel
    obtain ⟨db,hdb⟩ := Option.isSome_iff_exists.mp hsome
    rw [letterDB,hdb]
    rfl
  have hcontents : letterDB.contents.applyBatch longBatch = letterDB.contents.applyChange letterUpdate :=
    applyBatch_replicate rfl _ 8192
  rw [DB.run_trans hletters (DB.run_commit (by decide +kernel) longBatch.changes)]
  exact congrArg (fun contents => some (letterDB.committed longBatch contents)) hcontents

/-- The overflow closes the watcher and makes the worker rebuild the view. -/
def resyncActions : List Action :=
  [.dispatch [],.dispatch [],.dispatch [],.processPending [[0x61]],.work [] [],.work [] [],.work [] [],.work [] [],.work [] [],
    .work [] [],.work [] []]

/-- Once nothing waits, no view lacks a batch that a full queue dropped. -/
theorem drained_views_current {contents : Contents} {actions : List Action} {db : DB}
    (h : (DB.opened token contents).run cfg actions = some db) :
    db.inFlight.Pairwise (· < ·) ∧
    (db.hub.work = none → db.hub.resync = [] → ¬ db.dispatcher.lossPending →
      ∀ v view, db.hub.Live v view → ∀ d ∈ db.dropped, d.token ≤ view.state.token) := by
  have hresynced := resynced_run h
  refine ⟨hresynced.flight.ascending,fun hwork hresync hloss v view hl d hd => ?_⟩
  rcases hresynced.covered hl d hd with hseen | ⟨hpending,-⟩ | ⟨hpending,-⟩ | ⟨w,hw,-⟩
  · exact hseen
  · exact absurd hpending hloss
  · rw [hresync] at hpending
    cases hpending
  · rw [hwork] at hw
    cases hw

theorem drained_views_current_resynced : ∃ db, (DB.opened 0 []).run letterConfig
      (letterActions ++ [.store [longBatch.changes],.publish] ++ resyncActions) = some db ∧
    db.dropped.map ChangeBatch.token = [2] ∧ db.hub.views.map (fun v => (v.registered,v.state.token)) = [(true,2)] ∧
    ∀ v view, db.hub.Live v view → ∀ d ∈ db.dropped, d.token ≤ view.state.token := by
  have hrun : ((updatedDB.run letterConfig resyncActions).map fun db => (db.dropped.map ChangeBatch.token,
      db.hub.views.map (fun v => (v.registered,v.state.token)),
      [db.hub.work.isNone,db.hub.resync.isEmpty,!db.dispatcher.overflow,db.dispatcher.phase.ctorIdx = 0])) =
      some ([2],[(true,2)],[true,true,true,true]) := by decide +kernel
  obtain ⟨db,hdb,hobserved⟩ := Option.map_eq_some_iff.mp hrun
  simp only [mk.injEq,cons.injEq,Option.isNone_iff_eq_none,List.isEmpty_iff,Bool.not_eq_true_eq_eq_false,and_true] at hobserved
  obtain ⟨hdropped,hviews,hwork,hresync,hoverflow,hphase⟩ := hobserved
  have hall : (DB.opened 0 []).run letterConfig (letterActions ++ [.store [longBatch.changes],.publish] ++ resyncActions) =
      some db := DB.run_trans updatedDB_run hdb
  have hloss : ¬ db.dispatcher.lossPending := by
    rintro (hlost | hlost | hlost)
    · rw [hoverflow] at hlost
      cases hlost
    all_goals
      rw [hlost] at hphase
      cases hphase
  exact ⟨db,hall,hdropped,hviews,(drained_views_current hall).2 hwork hresync hloss⟩

end Meldbase.Database
