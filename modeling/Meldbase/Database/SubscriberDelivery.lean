import Meldbase.Database.QueryDelta
import Meldbase.Library.ListSurgery

/-! # Delivery of view states to subscribers

One shared view, from its registration on.  Publishing a state of the view and
handing its delta to each subscriber are separate steps, taken by the hub worker
(`applyViewBatch`, the rebuilds) and by subscribing goroutines (`subscribeMode`).
A delivery in flight belongs to whoever published; any of them may take the next
step.  The consumer's own reading only empties its channel.
-/
namespace Meldbase.Database
open List

structure ViewSnapshot where
  token : ℕ
  documents : List Document
  valid : ValidResult documents

/-- A delta in a subscriber's channel, with the result it was computed from. -/
structure SentDelta where
  delta : QueryDelta
  base : List Document

structure Subscriber where
  id : ℕ
  initial : QuerySnapshot
  sent : List SentDelta := []
  waiting : ℕ := 0
  (buffer lastToken : ℕ)
  attached : Bool := true
  closed : Bool := false

/-- A delta on its way: to nobody yet (`deliverView` has not copied the
subscribers), or to those still to be served. -/
structure PendingDelivery where
  (previous next : ViewSnapshot)
  delta : SharedQueryDelta
  targets : Option (List ℕ)

variable (p : PendingDelivery)

/-- `deliverView` copies the subscribers once. -/
def PendingDelivery.copy (subscribers : List ℕ) : PendingDelivery :=
  { p with targets := p.targets.or (some subscribers) }
def PendingDelivery.serve (subscriber : ℕ) : PendingDelivery :=
  { p with targets := p.targets.map (List.filter (· ≠ subscriber)) }

structure LiveView where
  state : ViewSnapshot
  subscribers : List Subscriber := []
  pending : List PendingDelivery := []
  published : List ViewSnapshot
  nextID : ℕ := 0

def LiveView.registered (state : ViewSnapshot) : LiveView := { state, published := [state] }

variable (v : LiveView)

def LiveView.subscribersOf : List ℕ := (v.subscribers.filter (·.attached)).map Subscriber.id

variable (s : Subscriber)

def Subscriber.finish : Subscriber := { s with closed := true }
def Subscriber.detach : Subscriber := { s with attached := false }
def LiveView.modify (id : ℕ) (f : Subscriber → Subscriber) : LiveView :=
  { v with subscribers := v.subscribers.map fun s => if s.id = id then f s else s }
def LiveView.failView : LiveView :=
  { v with subscribers := v.subscribers.map fun s => s.detach.finish }

/-- Installs a newer state; a state with another result is delivered. -/
def LiveView.publish (next : ViewSnapshot) (targets : Option (List ℕ)) : LiveView :=
  if next.token ≤ v.state.token then v
  else
    let v' := { v with state := next, published := next::v.published }
    if documentSlicesEqual v.state.documents next.documents then v'
    else match buildSharedQueryDelta v.state.documents next.documents next.token with
      | .error _ => v'.failView
      | .ok delta => { v' with pending := v.pending ++ [{ previous := v.state, next, delta, targets }] }
def Subscriber.deliver (p : PendingDelivery) : Subscriber :=
  if s.closed ∨ p.next.token ≤ s.lastToken then s
  else if p.delta.token ≠ p.next.token then s.detach.finish
  else if s.waiting < s.buffer then
    { s with
      sent := s.sent ++ [{ delta := cloneSharedQueryDelta p.delta s.lastToken, base := p.previous.documents }]
      waiting := s.waiting+1
      lastToken := p.next.token }
  else s.detach.finish

inductive DeliveryStep where
  /-- The worker installs a state; `deliverView` follows. -/
  | publish (next : ViewSnapshot)
  /-- A subscribing goroutine installs a state and copies the subscribers under the hub lock. -/
  | subscribePublish (next : ViewSnapshot)
  /-- A subscriber is added with the current snapshot. -/
  | subscribe (buffer : ℕ)
  /-- `deliverView` copies the subscribers of a delivery. -/
  | copySubscribers (index : ℕ)
  | deliver (index : ℕ) (subscriber : ℕ)
  | receive (subscriber : ℕ)
  | detach (subscriber : ℕ)
  | finish (subscriber : ℕ)

def LiveView.step : DeliveryStep → LiveView
  | .publish next => v.publish next none
  | .subscribePublish next => v.publish next (some v.subscribersOf)
  | .subscribe buffer =>
    { v with
      nextID := v.nextID+1
      subscribers := v.subscribers ++ [{
        id := v.nextID+1, initial := ⟨v.state.token,v.state.documents⟩, buffer, lastToken := v.state.token }] }
  | .copySubscribers index =>
    { v with pending := v.pending.modify index (·.copy v.subscribersOf) }
  | .deliver index subscriber =>
    match v.pending[index]? with
    | none => v
    | some p =>
      if (p.targets.getD []).contains subscriber then
        { v with pending := v.pending.modify index (·.serve subscriber) }.modify subscriber (·.deliver p)
      else v
  | .receive subscriber => v.modify subscriber fun s => { s with waiting := s.waiting - 1 }
  | .detach subscriber => v.modify subscriber Subscriber.detach
  | .finish subscriber => v.modify subscriber Subscriber.finish
def LiveView.run (steps : List DeliveryStep) : LiveView := steps.foldl LiveView.step v

/-- The snapshot a client holds after applying deltas in delivery order, each on
the result it was computed from. -/
inductive Replays (initial : QuerySnapshot) : List SentDelta → QuerySnapshot → Prop
  | initial : Replays initial [] initial
  | delta {sent : List SentDelta} {held next : QuerySnapshot} {e : SentDelta} (h : Replays initial sent held)
      (hbase : Forall₂ Alike held.documents e.base) (happly : applyQueryDelta held e.delta = .ok next) :
      Replays initial (sent ++ [e]) next

/-- Nobody is waiting for a delivery. -/
def LiveView.Quiet : Prop := ∀ p ∈ v.pending, p.targets = some []

instance (v : LiveView) : Decidable v.Quiet := inferInstanceAs (Decidable (∀ p ∈ v.pending, p.targets = some []))

def LiveView.Orderly : DeliveryStep → Prop
  | .publish _ => v.Quiet
  | .subscribePublish _ => v.Quiet
  | _ => True
def LiveView.OrderlyRun (v : LiveView) : List DeliveryStep → Prop
  | [] => True
  | a::steps => v.Orderly a ∧ (v.step a).OrderlyRun steps

instance LiveView.decidableOrderly (v : LiveView) : (a : DeliveryStep) → Decidable (v.Orderly a)
  | .publish _ => inferInstanceAs (Decidable v.Quiet)
  | .subscribePublish _ => inferInstanceAs (Decidable v.Quiet)
  | .subscribe _ => .isTrue trivial
  | .copySubscribers _ => .isTrue trivial
  | .deliver _ _ => .isTrue trivial
  | .receive _ => .isTrue trivial
  | .detach _ => .isTrue trivial
  | .finish _ => .isTrue trivial

instance LiveView.decidableOrderlyRun : (v : LiveView) → (steps : List DeliveryStep) → Decidable (v.OrderlyRun steps)
  | _,[] => .isTrue trivial
  | v,a::steps => @instDecidableAnd _ _ (v.decidableOrderly a) (decidableOrderlyRun (v.step a) steps)

/-! ### What a subscriber holds -/

def PendingDelivery.Addressed : Prop :=
  match p.targets with
  | none => s.attached
  | some targets => s.id ∈ targets

/-- What `held`, the result of applying everything sent, has to do with the view. -/
structure Holds (v : LiveView) (s : Subscriber) (held : QuerySnapshot) : Prop where
  replays : Replays s.initial s.sent held
  token : held.token = s.lastToken
  result : ∃ p ∈ v.published, p.token = s.lastToken ∧ Forall₂ Alike held.documents p.documents
  /-- A delta that is still to come was computed from what the subscriber holds. -/
  base : s.closed = false → ∀ p ∈ v.pending, p.Addressed s → s.lastToken < p.next.token →
    Forall₂ Alike held.documents p.previous.documents
  /-- The subscriber holds the current result, or the delta that leads to it is still to come. -/
  current : s.closed = false → s.attached = true →
    Forall₂ Alike held.documents v.state.documents ∨ ∃ p ∈ v.pending, p.Addressed s ∧ s.lastToken < p.next.token

structure LiveView.Ok (v : LiveView) : Prop where
  holds : ∀ s ∈ v.subscribers, ∃ held, Holds v s held
  ids : (v.subscribers.map Subscriber.id).Nodup
  issued : ∀ s ∈ v.subscribers, s.id ≤ v.nextID
  state : v.state ∈ v.published
  newest : ∀ p ∈ v.published, p.token ≤ v.state.token
  increasing : v.published.Pairwise fun p q => q.token < p.token
  /-- A delivery in flight carries the current state. -/
  carries : ∀ p ∈ v.pending, p.targets ≠ some [] → p.next = v.state
  delta : ∀ p ∈ v.pending, documentSlicesEqual p.previous.documents p.next.documents = false ∧
    buildSharedQueryDelta p.previous.documents p.next.documents p.next.token = .ok p.delta
  targets : ∀ p ∈ v.pending, ∀ targets, p.targets = some targets → ∀ t ∈ targets, t ≤ v.nextID

variable {p : PendingDelivery} {s : Subscriber} {v : LiveView}

theorem PendingDelivery.addressed_iff : p.Addressed s ↔
    (p.targets = none ∧ s.attached = true) ∨ ∃ targets, p.targets = some targets ∧ s.id ∈ targets := by
  unfold PendingDelivery.Addressed
  cases p.targets with
  | none => simp
  | some targets => simp

theorem PendingDelivery.Addressed.unfinished (h : p.Addressed s) : p.targets ≠ some [] := by
  intro hnone
  rcases PendingDelivery.addressed_iff.mp h with ⟨ht,-⟩ | ⟨targets,ht,hmem⟩
  · rw [hnone] at ht
    cases ht
  · obtain rfl : [] = targets := Option.some.inj (hnone.symm.trans ht)
    cases hmem

theorem Holds.lastToken_le (hv : v.Ok) (h : Holds v s held) : s.lastToken ≤ v.state.token := by
  obtain ⟨p,hp,htoken,-⟩ := h.result
  exact htoken ▸ hv.newest p hp

theorem LiveView.registered_ok (state : ViewSnapshot) : (LiveView.registered state).Ok where
  holds := by simp [LiveView.registered]
  ids := by simp [LiveView.registered]
  issued := by simp [LiveView.registered]
  state := by simp [LiveView.registered]
  newest := by simp [LiveView.registered]
  increasing := by simp [LiveView.registered]
  carries := by simp [LiveView.registered]
  delta := by simp [LiveView.registered]
  targets := by simp [LiveView.registered]

/-- Changes of one subscriber that keep its stream and address it no further. -/
theorem LiveView.Ok.modify (hv : v.Ok) (id : ℕ) {f : Subscriber → Subscriber}
    (hf : ∀ s, (f s).id = s.id ∧ (f s).initial = s.initial ∧ (f s).sent = s.sent ∧ (f s).lastToken = s.lastToken ∧
      ((f s).closed = false → s.closed = false) ∧ ((f s).attached = true → s.attached = true)) : (v.modify id f).Ok := by
  have hids : (v.modify id f).subscribers.map Subscriber.id = v.subscribers.map Subscriber.id := by
    simp only [LiveView.modify,map_map]
    refine map_congr_left fun s _ => ?_
    by_cases hs : s.id = id <;> simp [hs,(hf s).1]
  have hmem : ∀ s' ∈ (v.modify id f).subscribers, ∃ s ∈ v.subscribers, s' = s ∨ s' = f s := by
    intro s' hs'
    obtain ⟨s,hs,rfl⟩ := mem_map.mp hs'
    refine ⟨s,hs,?_⟩
    by_cases hid : s.id = id
    · exact .inr (if_pos hid)
    · exact .inl (if_neg hid)
  refine ⟨?_,hids ▸ hv.ids,?_,hv.state,hv.newest,hv.increasing,hv.carries,hv.delta,hv.targets⟩
  · intro s' hs'
    obtain ⟨s,hs,rfl | rfl⟩ := hmem s' hs'
    · obtain ⟨held,h⟩ := hv.holds s' hs
      exact ⟨held,h.replays,h.token,h.result,h.base,h.current⟩
    obtain ⟨held,h⟩ := hv.holds s hs
    obtain ⟨hid,hinitial,hsent,hlast,hclosed,hattached⟩ := hf s
    have haddressed : ∀ p : PendingDelivery, p.Addressed (f s) → p.Addressed s := by
      intro p hp
      rw [PendingDelivery.addressed_iff,hid] at hp
      exact PendingDelivery.addressed_iff.mpr (hp.imp_left fun hp => ⟨hp.1,hattached hp.2⟩)
    refine ⟨held,?_,by rw [hlast]; exact h.token,by rw [hlast]; exact h.result,?_,?_⟩
    · rw [hinitial,hsent]
      exact h.replays
    · intro hopen p hp hto hnew
      rw [hlast] at hnew
      exact h.base (hclosed hopen) p hp (haddressed p hto) hnew
    intro hopen hat
    rcases h.current (hclosed hopen) (hattached hat) with hcur | ⟨p,hp,hto,hnew⟩
    · exact .inl hcur
    refine .inr ⟨p,hp,?_,by rw [hlast]; exact hnew⟩
    rw [PendingDelivery.addressed_iff,hid]
    exact (PendingDelivery.addressed_iff.mp hto).imp_left fun hto => ⟨hto.1,hat⟩
  intro s' hs'
  obtain ⟨s,hs,rfl | rfl⟩ := hmem s' hs'
  · exact hv.issued s' hs
  · rw [(hf s).1]
    exact hv.issued s hs

theorem LiveView.mem_subscribersOf (hv : v.Ok) (hs : s ∈ v.subscribers) :
    s.id ∈ v.subscribersOf ↔ s.attached = true := by
  constructor
  · intro h
    obtain ⟨s',hs',hid⟩ := mem_map.mp h
    obtain ⟨hs',hat⟩ := mem_filter.mp hs'
    rwa [inj_on_of_nodup_map hv.ids hs' hs hid] at hat
  · intro h
    exact mem_map.mpr ⟨s,mem_filter.mpr ⟨hs,h⟩,rfl⟩

theorem LiveView.subscribersOf_issued (hv : v.Ok) : ∀ t ∈ v.subscribersOf, t ≤ v.nextID := by
  intro t ht
  obtain ⟨s,hs,rfl⟩ := mem_map.mp ht
  exact hv.issued s (mem_filter.mp hs).1

/-- A result equal to the current one is what its holders hold. -/
theorem alike_slices {next : List Document} (hp : ∀ d ∈ previous, d.validID = some d.key)
    (h : Forall₂ Alike held previous) (heq : documentSlicesEqual previous next = true) :
    Forall₂ Alike held next := by
  induction h generalizing next with
  | nil =>
    cases next with
    | nil => exact Forall₂.nil
    | cons n next => cases heq
  | @cons a p held previous hap _ ih =>
    cases next with
    | nil => cases heq
    | cons n next =>
      obtain ⟨hp,hps⟩ := forall_mem_cons.mp hp
      rw [documentSlicesEqual,Bool.and_eq_true] at heq
      have hid := Document.id_eq_key hp
      exact Forall₂.cons (hap.equal heq.1 (hid.trans (Document.id_of_equal heq.1 hid).symm)) (ih hps heq.2)

theorem LiveView.Ok.publish (hv : v.Ok) (hquiet : v.Quiet) (next : ViewSnapshot)
    {targets : Option (List ℕ)} (htargets : targets = none ∨ targets = some v.subscribersOf) :
    (v.publish next targets).Ok := by
  have hnobody : ∀ p ∈ v.pending, ∀ s, ¬ p.Addressed s := fun p hp s hto => hto.unfinished (hquiet p hp)
  have hheld : ∀ s ∈ v.subscribers, ∃ held, Replays s.initial s.sent held ∧ held.token = s.lastToken ∧
      (∃ p ∈ v.published, p.token = s.lastToken ∧ Forall₂ Alike held.documents p.documents) ∧
      s.lastToken ≤ v.state.token ∧
      (s.closed = false → s.attached = true → Forall₂ Alike held.documents v.state.documents) := by
    intro s hs
    obtain ⟨held,h⟩ := hv.holds s hs
    refine ⟨held,h.replays,h.token,h.result,h.lastToken_le hv,fun hopen hat => ?_⟩
    rcases h.current hopen hat with hcur | ⟨p,hp,hto,-⟩
    · exact hcur
    · exact absurd hto (hnobody p hp s)
  unfold LiveView.publish
  by_cases hold : next.token ≤ v.state.token
  · rwa [if_pos hold]
  rw [if_neg hold]
  dsimp only
  have hnewest : ∀ p ∈ next::v.published, p.token ≤ next.token := by
    intro p hp
    rcases mem_cons.mp hp with rfl | hp
    · exact le_rfl
    · exact (hv.newest p hp).trans (Nat.le_of_not_le hold)
  have hincreasing : (next::v.published).Pairwise fun p q => q.token < p.token :=
    pairwise_cons.mpr ⟨fun p hp => lt_of_le_of_lt (hv.newest p hp) (Nat.lt_of_not_le hold),hv.increasing⟩
  by_cases hsame : documentSlicesEqual v.state.documents next.documents = true
  · rw [if_pos hsame]
    refine ⟨fun s hs => ?_,hv.ids,hv.issued,mem_cons_self,hnewest,hincreasing,?_,hv.delta,hv.targets⟩
    · obtain ⟨held,hreplays,htoken,⟨p,hp,hresult⟩,-,hcur⟩ := hheld s hs
      refine ⟨held,hreplays,htoken,⟨p,mem_cons_of_mem _ hp,hresult⟩,fun _ p hp hto => absurd hto (hnobody p hp s),
        fun hopen hat => .inl (alike_slices v.state.valid.ids (hcur hopen hat) hsame)⟩
    · exact fun p hp hopen => absurd (hquiet p hp) hopen
  rw [if_neg hsame]
  have hself : Forall₂ Alike v.state.documents v.state.documents := forall₂_same.mpr fun d _ => Alike.refl d
  obtain ⟨operations,hbuild,-⟩ := buildSharedQueryDelta_applied v.state.valid next.valid hself next.token
  rw [hbuild]
  dsimp only
  refine ⟨fun s hs => ?_,hv.ids,hv.issued,mem_cons_self,hnewest,hincreasing,?_,?_,?_⟩
  · obtain ⟨held,hreplays,htoken,⟨p,hp,hresult⟩,hle,hcur⟩ := hheld s hs
    have hattached : ∀ p : PendingDelivery, p.targets = targets → p.Addressed s → s.attached = true := by
      intro p hpt hto
      rcases PendingDelivery.addressed_iff.mp hto with ⟨-,hat⟩ | ⟨ts,hts,hmem⟩
      · exact hat
      rw [hpt] at hts
      rcases htargets with hnone | hsome
      · rw [hnone] at hts
        cases hts
      · obtain rfl := Option.some.inj (hsome.symm.trans hts)
        exact (LiveView.mem_subscribersOf hv hs).mp hmem
    refine ⟨held,hreplays,htoken,⟨p,mem_cons_of_mem _ hp,hresult⟩,?_,?_⟩
    · intro hopen p hp hto _
      rcases mem_append.mp hp with hp | hp
      · exact absurd hto (hnobody p hp s)
      · obtain rfl := mem_singleton.mp hp
        exact hcur hopen (hattached _ rfl hto)
    intro hopen hat
    refine .inr ⟨_,mem_append_right _ mem_cons_self,?_,lt_of_le_of_lt hle (Nat.lt_of_not_le hold)⟩
    rcases htargets with rfl | rfl
    · exact hat
    · exact (LiveView.mem_subscribersOf hv hs).mpr hat
  · intro p hp hopen
    rcases mem_append.mp hp with hp | hp
    · exact absurd (hquiet p hp) hopen
    · rw [mem_singleton.mp hp]
  · intro p hp
    rcases mem_append.mp hp with hp | hp
    · exact hv.delta p hp
    · obtain rfl := mem_singleton.mp hp
      exact ⟨by simpa using hsame,hbuild⟩
  intro p hp ts hts t ht
  rcases mem_append.mp hp with hp | hp
  · exact hv.targets p hp ts hts t ht
  obtain rfl := mem_singleton.mp hp
  rcases htargets with rfl | rfl
  · cases hts
  · cases hts
    exact LiveView.subscribersOf_issued hv t ht

theorem LiveView.Ok.subscribe (hv : v.Ok) (buffer : ℕ) : (v.step (.subscribe buffer)).Ok := by
  have hfresh : v.nextID+1 ∉ v.subscribers.map Subscriber.id := by
    intro hmem
    obtain ⟨s,hs,hid⟩ := mem_map.mp hmem
    have := hv.issued s hs
    omega
  refine ⟨?_,?_,?_,hv.state,hv.newest,hv.increasing,hv.carries,hv.delta,
    fun p hp ts hts t ht => (hv.targets p hp ts hts t ht).trans (Nat.le_succ _)⟩
  · intro s hs
    rcases mem_append.mp hs with hs | hs
    · obtain ⟨held,h⟩ := hv.holds s hs
      exact ⟨held,h.replays,h.token,h.result,h.base,h.current⟩
    obtain rfl := mem_singleton.mp hs
    have hself : Forall₂ Alike v.state.documents v.state.documents := forall₂_same.mpr fun d _ => Alike.refl d
    -- the deliveries in flight carry the snapshot the subscriber starts with
    refine ⟨_,Replays.initial,rfl,⟨v.state,hv.state,rfl,hself⟩,fun _ p hp hto hnew => ?_,fun _ _ => .inl hself⟩
    rw [hv.carries p hp hto.unfinished] at hnew
    exact absurd hnew (lt_irrefl _)
  · change (List.map Subscriber.id (v.subscribers ++ [_])).Nodup
    rw [map_append,map_singleton]
    exact nodup_append.mpr ⟨hv.ids,nodup_singleton _,fun a ha b hb hab => by
      rw [hab,mem_singleton.mp hb] at ha
      exact hfresh ha⟩
  intro s hs
  rcases mem_append.mp hs with hs | hs
  · exact (hv.issued s hs).trans (Nat.le_succ _)
  · obtain rfl := mem_singleton.mp hs
    exact le_rfl

theorem LiveView.Ok.copySubscribers (hv : v.Ok) (index : ℕ) : (v.step (.copySubscribers index)).Ok := by
  -- a copied delivery still reaches exactly the subscribers it would have reached
  have haddressed : ∀ p : PendingDelivery, ∀ s ∈ v.subscribers,
      (p.copy v.subscribersOf).Addressed s ↔ p.Addressed s := by
    intro p s hs
    cases htargets : p.targets with
    | none =>
      rw [PendingDelivery.addressed_iff,PendingDelivery.addressed_iff]
      simp [PendingDelivery.copy,htargets,LiveView.mem_subscribersOf hv hs]
    | some targets => simp [PendingDelivery.addressed_iff,PendingDelivery.copy,htargets]
  have hopen : ∀ p : PendingDelivery, (p.copy v.subscribersOf).targets ≠ some [] → p.targets ≠ some [] := by
    intro p hp hnone
    exact hp (by simp [PendingDelivery.copy,hnone])
  have hpending : ∀ p ∈ (v.step (.copySubscribers index)).pending,
      p ∈ v.pending ∨ ∃ q ∈ v.pending, p = q.copy v.subscribersOf := by
    intro p hp
    rcases ListSurgery.mem_modify hp with hp | ⟨q,hq,rfl⟩
    · exact .inl hp
    · exact .inr ⟨q,mem_of_getElem? hq,rfl⟩
  refine ⟨?_,hv.ids,hv.issued,hv.state,hv.newest,hv.increasing,?_,?_,?_⟩
  · intro s hs
    obtain ⟨held,h⟩ := hv.holds s hs
    refine ⟨held,h.replays,h.token,h.result,fun hclosed p hp hto hnew => ?_,fun hclosed hat => ?_⟩
    · rcases hpending p hp with hp | ⟨q,hq,rfl⟩
      · exact h.base hclosed p hp hto hnew
      · exact h.base hclosed q hq ((haddressed q s hs).mp hto) hnew
    rcases h.current hclosed hat with hcur | ⟨p,hp,hto,hnew⟩
    · exact .inl hcur
    rcases ListSurgery.modify_mem (i := index) (f := (·.copy v.subscribersOf)) hp with hp | ⟨-,hp⟩
    · exact .inr ⟨p,hp,hto,hnew⟩
    · exact .inr ⟨_,hp,(haddressed p s hs).mpr hto,hnew⟩
  · intro p hp hne
    rcases hpending p hp with hp | ⟨q,hq,rfl⟩
    · exact hv.carries p hp hne
    · exact hv.carries q hq (hopen q hne)
  · intro p hp
    rcases hpending p hp with hp | ⟨q,hq,rfl⟩
    · exact hv.delta p hp
    · exact hv.delta q hq
  intro p hp targets htargets t ht
  rcases hpending p hp with hp | ⟨q,hq,rfl⟩
  · exact hv.targets p hp targets htargets t ht
  cases hq' : q.targets with
  | none =>
    rw [PendingDelivery.copy,hq'] at htargets
    cases htargets
    exact LiveView.subscribersOf_issued hv t ht
  | some ts =>
    rw [PendingDelivery.copy,hq'] at htargets
    cases htargets
    exact hv.targets q hq _ hq' t ht

theorem Holds.sent (hv : v.Ok) (h : Holds v s held)
    (hp : p ∈ v.pending) (hto : p.Addressed s) (hopen : s.closed = false)
    (hnew : s.lastToken < p.next.token) :
    ∃ next, Replays s.initial (s.sent ++ [⟨cloneSharedQueryDelta p.delta s.lastToken,p.previous.documents⟩]) next ∧
      next.token = p.next.token ∧ Forall₂ Alike next.documents p.next.documents := by
  have hbase := h.base hopen p hp hto hnew
  obtain ⟨hchanged,hdelta⟩ := hv.delta p hp
  obtain ⟨delta,documents,hbuild,-,happly,halike⟩ :=
    applyQueryDelta_built p.previous.valid p.next.valid hbase hchanged hnew
  obtain rfl := Except.ok.inj (hdelta.symm.trans hbuild)
  refine ⟨⟨p.next.token,documents⟩,h.replays.delta hbase ?_,rfl,halike⟩
  rw [← h.token] at happly ⊢
  exact happly

theorem Subscriber.deliver_cases (s : Subscriber) (p : PendingDelivery) :
    (s.deliver p = s ∧ (s.closed = true ∨ p.next.token ≤ s.lastToken)) ∨ s.deliver p = s.detach.finish ∨
    (s.closed = false ∧ s.lastToken < p.next.token ∧ s.deliver p =
      { s with
        sent := s.sent ++ [⟨cloneSharedQueryDelta p.delta s.lastToken,p.previous.documents⟩]
        waiting := s.waiting+1
        lastToken := p.next.token }) := by
  unfold Subscriber.deliver
  split_ifs with hskip hinvalid hroom
  · exact .inl ⟨rfl,hskip⟩
  · exact .inr (.inl rfl)
  · obtain ⟨hclosed,hnew⟩ := not_or.mp hskip
    exact .inr (.inr ⟨by simpa using hclosed,Nat.lt_of_not_le hnew,rfl⟩)
  · exact .inr (.inl rfl)

theorem Subscriber.deliver_id (s : Subscriber) (p : PendingDelivery) : (s.deliver p).id = s.id := by
  rcases s.deliver_cases p with ⟨h,-⟩ | h | ⟨-,-,h⟩
  · rw [h]
  · rw [h]
    rfl
  · rw [h]

theorem PendingDelivery.serve_addressed (hs : s.id ≠ subscriber) : (p.serve subscriber).Addressed s ↔ p.Addressed s := by
  cases htargets : p.targets with
  | none => simp [PendingDelivery.addressed_iff,PendingDelivery.serve,htargets]
  | some targets => simp [PendingDelivery.addressed_iff,PendingDelivery.serve,htargets,hs]

theorem Holds.served (hv : v.Ok) (h : Holds v s held)
    (hp : p ∈ v.pending) (hto : p.Addressed s) (hstate : w.state = v.state)
    (hpublished : w.published = v.published)
    (hcarries : ∀ q ∈ w.pending, q.targets ≠ some [] → q.next = v.state) :
    ∃ held, Holds w (s.deliver p) held := by
  have hnext : p.next = v.state := hv.carries p hp hto.unfinished
  have hdone : ∀ {t : Subscriber} {q : PendingDelivery}, q ∈ w.pending → q.Addressed t →
      v.state.token ≤ t.lastToken → ¬ t.lastToken < q.next.token := by
    intro t q hq hqt hle hlt
    rw [hcarries q hq hqt.unfinished] at hlt
    omega
  rcases s.deliver_cases p with ⟨heq,hskip⟩ | heq | ⟨hopen,hnew,heq⟩
  · rw [heq]
    refine ⟨held,h.replays,h.token,hpublished ▸ h.result,fun hopen q hq hqt hlt => ?_,fun hopen hat => ?_⟩
    · have hle := hskip.resolve_left (by simp [hopen])
      exact absurd hlt (hdone hq hqt (hnext ▸ hle))
    have hle := hskip.resolve_left (by simp [hopen])
    rw [hnext] at hle
    rcases h.current hopen hat with hcur | ⟨q,hq,hqt,hlt⟩
    · exact .inl (hstate ▸ hcur)
    · rw [hv.carries q hq hqt.unfinished] at hlt
      omega
  · rw [heq]
    exact ⟨held,h.replays,h.token,hpublished ▸ h.result,by simp [Subscriber.finish],by simp [Subscriber.finish]⟩
  rw [heq]
  obtain ⟨next,hreplays,htoken,halike⟩ := h.sent hv hp hto hopen hnew
  refine ⟨next,hreplays,htoken,⟨p.next,?_,rfl,halike⟩,fun _ q hq hqt hlt => ?_,fun _ _ => .inl ?_⟩
  · rw [hpublished,hnext]
    exact hv.state
  · exact absurd hlt (hdone hq hqt (by rw [hnext]))
  · rw [hstate,← hnext]
    exact halike

theorem LiveView.Ok.deliver (hv : v.Ok) (index subscriber : ℕ) : (v.step (.deliver index subscriber)).Ok := by
  unfold LiveView.step
  dsimp only
  cases hindex : v.pending[index]? with
  | none => exact hv
  | some p =>
    dsimp only
    split_ifs with htarget
    swap
    · exact hv
    have hp := mem_of_getElem? hindex
    obtain ⟨targets,htargets,hmem⟩ : ∃ targets, p.targets = some targets ∧ subscriber ∈ targets := by
      cases htargets : p.targets with
      | none => simp [htargets] at htarget
      | some targets => exact ⟨targets,rfl,by simpa [htargets] using htarget⟩
    have hpending : ∀ q ∈ v.pending.modify index (·.serve subscriber), q ∈ v.pending ∨ q = p.serve subscriber := by
      intro q hq
      rcases ListSurgery.mem_modify hq with hq | ⟨p',hp',rfl⟩
      · exact .inl hq
      · exact .inr (by rw [Option.some.inj (hindex.symm.trans hp')])
    have hcarries : ∀ q ∈ v.pending.modify index (·.serve subscriber), q.targets ≠ some [] → q.next = v.state := by
      intro q hq hne
      rcases hpending q hq with hq | rfl
      · exact hv.carries q hq hne
      · refine hv.carries p hp fun hnone => hne ?_
        simp [PendingDelivery.serve,hnone]
    refine ⟨?_,?_,?_,hv.state,hv.newest,hv.increasing,hcarries,?_,?_⟩
    · intro s' hs'
      obtain ⟨s,hs,rfl⟩ := mem_map.mp hs'
      obtain ⟨held,h⟩ := hv.holds s hs
      by_cases hid : s.id = subscriber
      · rw [if_pos hid]
        have hto : p.Addressed s := PendingDelivery.addressed_iff.mpr (.inr ⟨targets,htargets,hid ▸ hmem⟩)
        exact h.served hv hp hto rfl rfl hcarries
      rw [if_neg hid]
      refine ⟨held,h.replays,h.token,h.result,fun hopen q hq hto hnew => ?_,fun hopen hat => ?_⟩
      · rcases hpending q hq with hq | rfl
        · exact h.base hopen q hq hto hnew
        · exact h.base hopen p hp ((PendingDelivery.serve_addressed hid).mp hto) hnew
      rcases h.current hopen hat with hcur | ⟨q,hq,hto,hnew⟩
      · exact .inl hcur
      rcases ListSurgery.modify_mem (i := index) (f := (·.serve subscriber)) hq with hq | ⟨-,hq⟩
      · exact .inr ⟨q,hq,hto,hnew⟩
      · exact .inr ⟨_,hq,(PendingDelivery.serve_addressed hid).mpr hto,hnew⟩
    · have hids : (v.subscribers.map fun s => if s.id = subscriber then s.deliver p else s).map Subscriber.id =
          v.subscribers.map Subscriber.id := by
        rw [map_map]
        refine map_congr_left fun s _ => ?_
        by_cases hid : s.id = subscriber <;> simp [hid,Subscriber.deliver_id]
      exact hids ▸ hv.ids
    · intro s' hs'
      obtain ⟨s,hs,rfl⟩ := mem_map.mp hs'
      by_cases hid : s.id = subscriber
      · rw [if_pos hid,Subscriber.deliver_id]
        exact hv.issued s hs
      · rw [if_neg hid]
        exact hv.issued s hs
    · intro q hq
      rcases hpending q hq with hq | rfl
      · exact hv.delta q hq
      · exact hv.delta p hp
    intro q hq ts hts t ht
    rcases hpending q hq with hq | rfl
    · exact hv.targets q hq ts hts t ht
    rw [PendingDelivery.serve,htargets] at hts
    cases hts
    exact hv.targets p hp targets htargets t (mem_filter.mp ht).1

theorem LiveView.Ok.step (hv : v.Ok) (ha : v.Orderly a) : (v.step a).Ok := by
  cases a with
  | publish next => exact hv.publish ha next (.inl rfl)
  | subscribePublish next => exact hv.publish ha next (.inr rfl)
  | subscribe buffer => exact hv.subscribe buffer
  | copySubscribers index => exact hv.copySubscribers index
  | deliver index subscriber => exact hv.deliver index subscriber
  | receive subscriber => exact hv.modify subscriber fun s => ⟨rfl,rfl,rfl,rfl,id,id⟩
  | detach subscriber => exact hv.modify subscriber fun s => ⟨rfl,rfl,rfl,rfl,id,fun h => nomatch h⟩
  | finish subscriber => exact hv.modify subscriber fun s => ⟨rfl,rfl,rfl,rfl,(fun h => nomatch h),id⟩

theorem LiveView.Ok.run (hv : v.Ok) (h : v.OrderlyRun steps) : (v.run steps).Ok := by
  induction steps generalizing v with
  | nil => exact hv
  | cons a steps ih => exact ih (hv.step h.1) h.2

/-- In every run in which a state of the view is installed only after the
deliveries of the states before it, each subscriber's deltas apply to the results
they were computed from and lead to the view's result at its last token; once the
deliveries are over, that is the current result. -/
theorem orderly_delta_streams (first : ViewSnapshot) (steps : List DeliveryStep)
    (h : (LiveView.registered first).OrderlyRun steps) :
    ∀ s ∈ ((LiveView.registered first).run steps).subscribers, ∃ held, Replays s.initial s.sent held ∧
      held.token = s.lastToken ∧
      (∃ p ∈ ((LiveView.registered first).run steps).published, p.token = s.lastToken) ∧
      (∀ p ∈ ((LiveView.registered first).run steps).published, p.token = s.lastToken →
        Forall₂ Alike held.documents p.documents) ∧
      (((LiveView.registered first).run steps).Quiet → s.closed = false → s.attached = true →
        Forall₂ Alike held.documents ((LiveView.registered first).run steps).state.documents) := by
  have hv := (LiveView.registered_ok first).run h
  intro s hs
  obtain ⟨held,hheld⟩ := hv.holds s hs
  obtain ⟨p,hp,htoken,halike⟩ := hheld.result
  refine ⟨held,hheld.replays,hheld.token,⟨p,hp,htoken⟩,fun q hq hqtoken => ?_,fun hquiet hopen hat => ?_⟩
  · have hnodup : (((LiveView.registered first).run steps).published.map ViewSnapshot.token).Nodup :=
      pairwise_map.mpr (hv.increasing.imp fun hlt => (ne_of_lt hlt).symm)
    rw [inj_on_of_nodup_map hnodup hq hp (hqtoken.trans htoken.symm)]
    exact halike
  rcases hheld.current hopen hat with hcur | ⟨q,hq,hto,-⟩
  · exact hcur
  · exact absurd (hquiet q hq) hto.unfinished

/-! ### Two publishers of one view -/

def firstResults : List ViewSnapshot :=
  [⟨0,[],by decide,by decide,by decide⟩,⟨1,[documentNumbered 1],by decide,by decide,by decide⟩,
    ⟨2,[documentNumbered 1,documentNumbered 2],by decide,by decide,by decide⟩]

/-- A subscriber waits while the worker installs the second result and, before it
delivers, a subscribing goroutine installs and delivers the third. -/
def crossedSteps : List DeliveryStep :=
  [.subscribe 8,.publish firstResults[1],.subscribePublish firstResults[2],.deliver 1 1,.copySubscribers 0,.deliver 0 1]
def crossedRun : LiveView := (LiveView.registered firstResults[0]).run crossedSteps

/-- The delta of the second result is skipped: nothing is pending any more, and the
open subscriber at the last token holds one document where the view has two. -/
theorem crossed_deliveries_skip_change :
    ∃ s ∈ crossedRun.subscribers, s.closed = false ∧ s.attached = true ∧ crossedRun.Quiet ∧
      s.lastToken = crossedRun.state.token ∧ s.sent.map (fun e => (e.delta.fromToken,e.delta.token)) = [(0,2)] ∧
      ∃ held, (s.sent.map SentDelta.delta).foldlM applyQueryDelta s.initial = .ok held ∧
        held.documents.map Document.key = [(documentNumbered 2).key] ∧
        crossedRun.state.documents.map Document.key = [(documentNumbered 1).key,(documentNumbered 2).key] := by
  exact ⟨_,mem_cons_self,rfl,rfl,by decide,rfl,rfl,_,rfl,rfl,rfl⟩

def orderlySteps : List DeliveryStep :=
  [.subscribe 8,.publish firstResults[1],.copySubscribers 0,.deliver 0 1,.subscribePublish firstResults[2],.deliver 1 1]

theorem orderly_two_publishers : (LiveView.registered firstResults[0]).OrderlyRun orderlySteps ∧
    ∀ s ∈ ((LiveView.registered firstResults[0]).run orderlySteps).subscribers, ∃ held,
      Replays s.initial s.sent held ∧ held.token = s.lastToken :=
  have h : (LiveView.registered firstResults[0]).OrderlyRun orderlySteps := by decide
  ⟨h,fun s hs =>
    let ⟨held,hreplays,htoken,_⟩ := orderly_delta_streams firstResults[0] orderlySteps h s hs
    ⟨held,hreplays,htoken⟩⟩

end Meldbase.Database
