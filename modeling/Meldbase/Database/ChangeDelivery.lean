import Meldbase.Database.ReactiveHub

/-! # What change watchers receive

Batches reach a watcher in commit order: what it has received, what is queued for
it and what the dispatcher still holds add up to the history since its
registration.  Only an overflow of the dispatcher breaks the sum, and the loop
then closes every watcher before it dispatches anything later.
-/
namespace Meldbase.Database
open List Option
variable (token : ℕ)

def DB.opened (contents : Contents) : DB := { token, contents, sequence := token, stored := contents }

/-! ### Frames -/

section
variable {cfg : HubConfig} {db db' : DB}

def OnHub (db db' : DB) : Prop := db' = { db with hub := db'.hub }

theorem nextAttempt_onHub (db : DB) (work : Work) (collection : Bytes) (targets : List ℕ) (attempt : ℕ) :
    OnHub db (db.nextAttempt work collection targets attempt) := by
  unfold DB.nextAttempt
  split_ifs <;> exact Eq.refl _

theorem handOver_onHub (db : DB) (work : Work) (collection : Bytes) (targets : List ℕ) (attempt token : ℕ)
    (states : List ReactiveViewState) (table : ReactiveCollectionOrder) :
    OnHub db (db.handOver cfg work collection targets attempt token states table) := by
  unfold DB.handOver
  split_ifs with hclosed htoken
  · exact Eq.refl _
  · exact nextAttempt_onHub db work collection targets (attempt+1)
  split
  · exact Eq.refl _
  · dsimp only
    split_ifs <;> exact Eq.refl _

theorem buildLocked_onHub (db : DB) (work : Work) (collection : Bytes) (views : List ℕ) (table : ℕ) :
    OnHub db (db.buildLocked cfg work collection views table) := by
  unfold DB.buildLocked
  dsimp only
  split_ifs
  · split <;> exact Eq.refl _
  split
  · exact Eq.refl _
  · split <;> exact Eq.refl _

theorem selectWork_onHub (h : db.selectWork cfg work names = some db') : OnHub db db' := by
  unfold DB.selectWork at h
  split at h
  · cases h
    rfl
  · cases h
    rfl
  · obtain ⟨groups,-,rfl⟩ := map_eq_some_iff.mp h
    exact Eq.refl _
  · cases h
    rfl

theorem workStep_onHub (h : db.workStep cfg names order = some db') : OnHub db db' := by
  unfold DB.workStep at h
  split at h
  · cases h
  rename_i work hwork
  split at h
  · exact selectWork_onHub h
  · split_ifs at h
    cases h
    rfl
  · cases h
    rfl
  · split at h <;> exact some.inj h ▸ Eq.refl _
  · dsimp only at h
    split_ifs at h <;> exact some.inj h ▸ Eq.refl _
  · split_ifs at h <;> exact some.inj h ▸ Eq.refl _
  · split at h <;> exact some.inj h ▸ Eq.refl _
  · split_ifs at h
    exact some.inj h ▸ handOver_onHub db work _ _ _ _ _ _
  · split_ifs at h <;> exact some.inj h ▸ Eq.refl _
  · exact some.inj h ▸ buildLocked_onHub db work _ _ _
  · cases h
    rfl
  · cases h
    rfl
  · cases h
    rfl
  · cases h
    rfl

def OnSubscriptions (db db' : DB) : Prop := db' = { db with hub := db'.hub, subscriptions := db'.subscriptions }

theorem subscribeStep_onSubscriptions (h : db.subscribeStep cfg i = some db') : OnSubscriptions db db' := by
  unfold DB.subscribeStep at h
  split at h
  · cases h
  rename_i s hs
  split at h
  · split_ifs at h
    cases h
    unfold DB.enterSubscription
    split_ifs <;> exact Eq.refl _
  · cases h
    unfold DB.buildSubscription
    dsimp only
    split_ifs
    · split
      · exact Eq.refl _
      · split <;> exact Eq.refl _
    split
    · exact Eq.refl _
    · split <;> exact Eq.refl _
  · cases h
    unfold DB.registerSubscription
    split_ifs
    · exact Eq.refl _
    · split <;> exact Eq.refl _
  · split_ifs at h <;> exact some.inj h ▸ Eq.refl _
  · split at h
    · cases h
      rfl
    · split at h <;> exact some.inj h ▸ Eq.refl _
  · split_ifs at h
    cases h
    unfold DB.installSubscription
    dsimp only
    split_ifs <;> exact Eq.refl _
  · cases h

end

/-! ### Tokens of batches -/

def DispatchPhase.left : DispatchPhase → List ChangeBatch
  | .dispatching batches => batches
  | .delivering batch rest => batch::rest
  | _ => []
def DispatchPhase.failing : DispatchPhase → Bool
  | .failingWatchers => true
  | _ => false

variable (d : ChangeDispatcher)

/-- Batches were dropped and the watchers are still open. -/
def ChangeDispatcher.lossy : Bool := d.overflow || d.phase.failing

@[simp] theorem left_dispatchRest (rest : List ChangeBatch) : (dispatchRest rest).left = rest := by
  cases rest <;> rfl

@[simp] theorem failing_dispatchRest (rest : List ChangeBatch) : (dispatchRest rest).failing = false := by
  cases rest <;> rfl

/-- Commits are numbered upwards, published in order, and none is stored once the
database is closed. -/
structure Ledger (db : DB) : Prop where
  published : ∀ b ∈ db.history, b.token ≤ db.token
  chronological : db.history.Pairwise (fun a b => a.token < b.token)
  ahead : ∀ b ∈ db.staged, db.token < b.token
  ascending : db.staged.Pairwise (fun a b => a.token < b.token)
  known : ∀ b ∈ db.dispatcher.phase.left ++ db.dispatcher.queue, b.token ≤ db.token
  closing : db.dispatcher.closed = true → db.closed = true
  stopped : db.closed = true → db.staged = []

theorem ledger_opened (contents : Contents) : Ledger (DB.opened token contents) where
  published := by simp [DB.opened]
  chronological := by simp [DB.opened]
  ahead := by simp [DB.opened]
  ascending := by simp [DB.opened]
  known := by simp [DB.opened,DispatchPhase.left]
  closing := by simp [DB.opened]
  stopped := by simp [DB.opened]

theorem stageGroup_gt {token : ℕ} : ∀ b ∈ stageGroup token group, token < b.token := by
  induction group generalizing token with
  | nil => simp [stageGroup]
  | cons changes group ih =>
    intro b hb
    rcases mem_cons.mp hb with rfl | hb
    · exact Nat.lt_succ_self token
    · exact lt_trans (Nat.lt_succ_self token) (ih b hb)

theorem stageGroup_ascending (group : List (List Change)) :
    (stageGroup token group).Pairwise (fun a b => a.token < b.token) := by
  induction group generalizing token with
  | nil => exact List.Pairwise.nil
  | cons changes group ih => exact pairwise_cons.mpr ⟨stageGroup_gt,ih (token+1)⟩

theorem mem_enqueue {d : ChangeDispatcher} (h : c ∈ (d.enqueue b).queue) : c ∈ d.queue ∨ c = b := by
  unfold ChangeDispatcher.enqueue at h
  split_ifs at h
  · exact .inl h
  · exact .inl h
  · simp at h
  · simpa using h

@[simp] theorem enqueue_phase (b : ChangeBatch) : (d.enqueue b).phase = d.phase := by
  unfold ChangeDispatcher.enqueue
  split_ifs <;> rfl

@[simp] theorem enqueue_closed (b : ChangeBatch) : (d.enqueue b).closed = d.closed := by
  unfold ChangeDispatcher.enqueue
  split_ifs <;> rfl

theorem next_cases {d d' : ChangeDispatcher} (h : d.next = some d') : d.phase = .waiting ∧ d.closed = false ∧
    (d.overflow = true ∧ d' = { d with overflow := false, phase := .failingWatchers } ∨ d.overflow = false ∧
        d' = { d with queue := [], pendingChanges := 0, pendingBytes := 0, phase := .dispatching d.queue }) := by
  unfold ChangeDispatcher.next at h
  split at h
  · rename_i hphase
    split_ifs at h with hclosed hover hempty
    · exact ⟨hphase,by simpa using hclosed,.inl ⟨hover,(some.inj h).symm⟩⟩
    · exact ⟨hphase,by simpa using hclosed,.inr ⟨by simpa using hover,(some.inj h).symm⟩⟩
  · cases h

variable {cfg : HubConfig} {db db' : DB}

theorem dispatch_cases (h : db.dispatch cfg order = some db') :
    (∃ d, db.dispatcher.next = some d ∧ db' = { db with dispatcher := d }) ∨
    (∃ b rest, db.dispatcher.phase = .dispatching (b::rest) ∧
      db' = { db with hub := db.hub.notify cfg b, dispatcher := { db.dispatcher with phase := .delivering b rest } }) ∨
    (∃ b rest feed, db.dispatcher.phase = .delivering b rest ∧ db.feed.deliver b order = some feed ∧
      db' = { db with feed, dispatcher := { db.dispatcher with phase := dispatchRest rest } }) ∨
    (db.dispatcher.phase = .failingWatchers ∧
      db' = { db with
        feed := db.feed.finishAll (some .slowConsumer), dispatcher := { db.dispatcher with phase := .resyncing } }) ∨
    (db.dispatcher.phase = .resyncing ∧
      db' = { db with hub := db.hub.resyncAll cfg, dispatcher := { db.dispatcher with phase := .waiting } }) := by
  unfold DB.dispatch at h
  split at h
  · obtain ⟨d,hd,rfl⟩ := map_eq_some_iff.mp h
    exact .inl ⟨d,hd,rfl⟩
  · cases h
  · rename_i b rest hphase
    exact .inr (.inl ⟨b,rest,hphase,(some.inj h).symm⟩)
  · rename_i b rest hphase
    obtain ⟨feed,hfeed,rfl⟩ := map_eq_some_iff.mp h
    exact .inr (.inr (.inl ⟨b,rest,feed,hphase,hfeed,rfl⟩))
  · rename_i hphase
    exact .inr (.inr (.inr (.inl ⟨hphase,(some.inj h).symm⟩)))
  · rename_i hphase
    exact .inr (.inr (.inr (.inr ⟨hphase,(some.inj h).symm⟩)))

theorem store_some (h : db.store group = some db') :
    db.closed = false ∧ db.readLocked = false ∧ db.staged = [] ∧
      db' = { db with staged := stageGroup db.token group, sequence := db.sequence+group.length,
                      stored := (stageGroup db.token group).foldl Contents.applyBatch db.stored } := by
  unfold DB.store at h
  split_ifs at h with hguard
  simp only [Bool.or_eq_true,not_or,Bool.not_eq_true,Bool.not_eq_eq_eq_not] at hguard
  exact ⟨hguard.1.1.1,hguard.1.1.2,by simpa using hguard.1.2,(some.inj h).symm⟩

theorem publish_some (h : db.publish = some db') : ∃ b rest, db.staged = b::rest ∧
    db' = { db with staged := rest, token := b.token, contents := db.contents.applyBatch b, history := db.history ++ [b],
                    dispatcher := db.dispatcher.enqueue b } := by
  unfold DB.publish at h
  split at h
  · cases h
  · rename_i b rest hstaged
    exact ⟨b,rest,hstaged,(some.inj h).symm⟩

theorem Ledger.publish (hl : Ledger db) (h : db.publish = some db') : Ledger db' := by
  obtain ⟨b,rest,hstaged,rfl⟩ := publish_some h
  have hb : db.token < b.token := hl.ahead b (by simp [hstaged])
  have hrest := pairwise_cons.mp (hstaged ▸ hl.ascending)
  refine ⟨?_,?_,hrest.1,hrest.2,?_,?_,?_⟩
  · intro c hc
    rcases mem_append.mp hc with hc | hc
    · exact (hl.published c hc).trans hb.le
    · exact (mem_singleton.mp hc) ▸ le_refl _
  · refine pairwise_append.mpr ⟨hl.chronological,pairwise_singleton _ _,fun c hc d hd => ?_⟩
    rw [mem_singleton.mp hd]
    exact (hl.published c hc).trans_lt hb
  · intro c hc
    rw [enqueue_phase] at hc
    rcases mem_append.mp hc with hc | hc
    · exact (hl.known c (mem_append_left _ hc)).trans hb.le
    rcases mem_enqueue hc with hc | rfl
    · exact (hl.known c (mem_append_right _ hc)).trans hb.le
    · exact le_refl _
  · intro hc
    rw [enqueue_closed] at hc
    exact hl.closing hc
  intro hc
  have := hl.stopped hc
  simp [hstaged] at this

theorem Ledger.dispatch (hl : Ledger db) (h : db.dispatch cfg order = some db') : Ledger db' := by
  rcases dispatch_cases h with ⟨d,hd,rfl⟩ | ⟨b,rest,hphase,rfl⟩ | ⟨b,rest,feed,hphase,-,rfl⟩ | ⟨hphase,rfl⟩ | ⟨hphase,rfl⟩
  · obtain ⟨hphase,hopen,⟨-,rfl⟩ | ⟨-,rfl⟩⟩ := next_cases hd
    · exact { hl with known := fun b hb => hl.known b (mem_append_right _ (by simpa [DispatchPhase.left] using hb)) }
    · exact { hl with known := fun b hb => hl.known b (mem_append_right _ (by simpa [DispatchPhase.left] using hb)) }
  · exact { hl with known := by simpa [hphase,DispatchPhase.left] using hl.known }
  · refine { hl with known := fun c hc => hl.known c ?_ }
    simp only [left_dispatchRest] at hc
    rw [hphase]
    exact mem_cons_of_mem b hc
  · exact { hl with known := by simpa [hphase,DispatchPhase.left] using hl.known }
  · exact { hl with known := by simpa [hphase,DispatchPhase.left] using hl.known }

theorem Ledger.step (hl : Ledger db) (h : db.step cfg a = some db') : Ledger db' := by
  cases a with
  | store group =>
    obtain ⟨hopen,-,-,rfl⟩ := store_some h
    exact { hl with ahead := stageGroup_gt, ascending := stageGroup_ascending _ _,
                    stopped := fun hc => by simp [hopen] at hc }
  | publish => exact hl.publish h
  | dispatch order => exact hl.dispatch h
  | watch collection buffer =>
    simp only [DB.step,DB.watch] at h
    split_ifs at h
    exact some.inj h ▸ { hl with }
  | watcher i step =>
    obtain ⟨feed,-,rfl⟩ := map_eq_some_iff.mp h
    exact { hl with }
  | cancel i => exact some.inj h ▸ { hl with }
  | subscribe key => exact some.inj h ▸ { hl with }
  | subscription i =>
    rw [subscribeStep_onSubscriptions h]
    exact { hl with }
  | detach v => exact some.inj h ▸ { hl with }
  | processPending resync =>
    obtain ⟨hub,-,rfl⟩ := map_eq_some_iff.mp h
    exact { hl with }
  | work names order =>
    rw [workStep_onHub h]
    exact { hl with }
  | close =>
    simp only [DB.step] at h
    split_ifs at h with hguard
    simp only [Bool.or_eq_true,not_or,Bool.not_eq_true,Bool.not_eq_eq_eq_not] at hguard
    exact some.inj h ▸ { hl with closing := fun _ => rfl, stopped := fun _ => by simpa using hguard.2 }
  | closeDispatcher =>
    simp only [DB.step] at h
    split_ifs at h with hclosed
    exact some.inj h ▸ { hl with closing := fun _ => hclosed }
  | closeHub =>
    simp only [DB.step] at h
    split at h
    · split_ifs at h
      exact some.inj h ▸ { hl with }
    · cases h
  | closeWatchers =>
    simp only [DB.step] at h
    split at h
    · split_ifs at h
      exact some.inj h ▸ { hl with }
    · cases h

/-! ### One watcher -/

variable (w : ChangeWatcher)

/-- What is queued and has not been sent. -/
def ChangeWatcher.unsent : List ChangeBatch :=
  match w.phase with
  | .sent _ => w.queue.tail.map QueuedChangeBatch.batch
  | _ => w.queue.map QueuedChangeBatch.batch
def ChangeWatcher.inHand : List ChangeBatch :=
  match w.phase with
  | .sending queued => [queued.batch]
  | _ => []

/-- The goroutine works on the head of the queue. -/
def ChangeWatcher.Running : Prop :=
  match w.phase with
  | .waiting => True
  | .sending queued => w.queue.head? = some queued
  | .sent queued => w.queue.head? = some queued
  | .returned => False

structure KeepsUp (history left queue : List ChangeBatch) (lossy : Bool) (w : ChangeWatcher) : Prop where
  running : w.closed = false → w.Running
  front : w.closed = false → w.received ++ w.unsent ++ left.filterMap w.delivery <+: history.filterMap w.delivery
  complete : w.closed = false → lossy = false →
    w.received ++ w.unsent ++ (left ++ queue).filterMap w.delivery = history.filterMap w.delivery
  ended : w.closed = true → w.received ++ w.inHand <+: history.filterMap w.delivery

section
variable {history left queue : List ChangeBatch} {lossy : Bool} {w : ChangeWatcher}

theorem ChangeWatcher.Running.inHand_front (h : w.Running) : w.inHand <+: w.unsent := by
  unfold ChangeWatcher.Running at h
  unfold ChangeWatcher.inHand ChangeWatcher.unsent
  cases hp : w.phase with
  | waiting => exact nil_prefix
  | sent queued => exact nil_prefix
  | returned => exact nil_prefix
  | sending queued =>
    rw [hp] at h
    obtain ⟨rest,hq⟩ := List.head?_eq_some_iff.mp h
    simp [hq]

section
variable (h : KeepsUp history left queue lossy w)
include h

theorem KeepsUp.received_front : w.received <+: history.filterMap w.delivery := by
  cases hc : w.closed with
  | false => exact ((prefix_append _ _).trans (prefix_append _ _)).trans (h.front hc)
  | true => exact (prefix_append _ _).trans (h.ended hc)

theorem KeepsUp.finish (hopen : w.closed = false) (err : Option ReactiveError) :
    KeepsUp history left queue lossy (w.finish err) where
  running hc := by cases hc
  front hc := by cases hc
  complete hc := by cases hc
  ended _ := by
    have hhand : w.received ++ w.inHand <+: w.received ++ w.unsent :=
      (prefix_append_right_inj _).mpr (h.running hopen).inHand_front
    exact (hhand.trans (prefix_append _ _)).trans (h.front hopen)

theorem KeepsUp.of_closed (hc : w.closed = true)
    (hh : history <+: history') : KeepsUp history' left' queue' lossy' w where
  running hc' := by simp [hc] at hc'
  front hc' := by simp [hc] at hc'
  complete hc' := by simp [hc] at hc'
  ended hc := (h.ended hc).trans (hh.filterMap _)

theorem KeepsUp.commit (b : ChangeBatch)
    (hq : lossy' = false → lossy = false ∧ (left ++ queue').filterMap w.delivery =
      (left ++ queue ++ [b]).filterMap w.delivery) : KeepsUp (history ++ [b]) left queue' lossy' w where
  running := h.running
  front hc := (h.front hc).trans ((prefix_append history [b]).filterMap _)
  complete hc hl := by
    obtain ⟨hlossy,hpending⟩ := hq hl
    rw [hpending,filterMap_append,filterMap_append (l := history),← h.complete hc hlossy]
    simp
  ended hc := (h.ended hc).trans ((prefix_append history [b]).filterMap _)

end

theorem unsent_push (hr : w.Running) (queued : QueuedChangeBatch) : (w.push queued).unsent = w.unsent ++ [queued.batch] := by
  unfold ChangeWatcher.Running at hr
  unfold ChangeWatcher.unsent ChangeWatcher.push
  cases hp : w.phase with
  | waiting => simp
  | sending q => simp
  | returned => simp
  | sent q =>
    rw [hp] at hr
    obtain ⟨rest,hq⟩ := List.head?_eq_some_iff.mp hr
    simp [hq]

theorem running_push (hr : w.Running) (queued : QueuedChangeBatch) : (w.push queued).Running := by
  unfold ChangeWatcher.Running at hr ⊢
  have hhead : ∀ q, w.queue.head? = some q → (w.queue ++ [queued]).head? = some q := by
    intro q hq
    obtain ⟨rest,hq⟩ := List.head?_eq_some_iff.mp hq
    simp [hq]
  cases hp : w.phase with
  | waiting => simp [ChangeWatcher.push,hp]
  | returned =>
    rw [hp] at hr
    exact hr.elim
  | sending q =>
    rw [hp] at hr
    simpa [ChangeWatcher.push,hp] using hhead q hr
  | sent q =>
    rw [hp] at hr
    simpa [ChangeWatcher.push,hp] using hhead q hr

def DeliveredTo (b : ChangeBatch) (w w' : ChangeWatcher) : Prop :=
  w.closed = true ∧ w' = w ∨ w.closed = false ∧ (w.delivery b = none ∧ w' = w ∨
      (∃ queued, w.delivery b = some queued.batch ∧ w' = w.push queued) ∨ w' = w.finish (some .slowConsumer))

theorem KeepsUp.delivered (h : KeepsUp history (b::left) queue lossy w)
    (hd : DeliveredTo b w w') : KeepsUp history left queue lossy w' := by
  rcases hd with ⟨hc,rfl⟩ | ⟨hc,⟨hnone,rfl⟩ | ⟨queued,hsome,rfl⟩ | rfl⟩
  · exact h.of_closed hc (prefix_refl _)
  · refine ⟨h.running,fun hc => ?_,fun hc hl => ?_,h.ended⟩
    · simpa [hnone] using h.front hc
    · simpa [hnone] using h.complete hc hl
  · have hunsent := unsent_push (h.running hc) queued
    refine ⟨fun _ => running_push (h.running hc) queued,fun _ => ?_,fun _ hl => ?_,fun hc' => ?_⟩
    · change w.received ++ (w.push queued).unsent ++ left.filterMap w.delivery <+: history.filterMap w.delivery
      rw [hunsent]
      simpa [hsome] using h.front hc
    · change w.received ++ (w.push queued).unsent ++ (left ++ queue).filterMap w.delivery = history.filterMap w.delivery
      rw [hunsent]
      simpa [hsome] using h.complete hc hl
    · simp [ChangeWatcher.push,hc] at hc'
  · have hfinish : KeepsUp history (b::left) queue lossy (w.finish (some .slowConsumer)) := h.finish hc _
    exact hfinish.of_closed rfl (prefix_refl _)

theorem KeepsUp.step {next : ChangeWatcher × ℕ} (h : KeepsUp history left queue lossy w)
    (hs : w.step a = some next) : KeepsUp history left queue lossy next.1 ∧ next.1.closed = w.closed ∧
      next.1.terminalErr = w.terminalErr := by
  cases a with
  | take =>
    simp only [ChangeWatcher.step] at hs
    split at hs
    · rename_i queued rest hp hq
      split_ifs at hs with hc
      cases hs
      have hopen : w.closed = false := by simpa using hc
      have hunsent : ({ w with phase := .sending queued } : ChangeWatcher).unsent = w.unsent := by
        simp [ChangeWatcher.unsent,hp]
      refine ⟨⟨fun _ => by simp [ChangeWatcher.Running,hq],fun _ => ?_,fun _ hl => ?_,fun hc' => ?_⟩,rfl,rfl⟩
      · rw [hunsent]
        exact h.front hopen
      · rw [hunsent]
        exact h.complete hopen hl
      · exact absurd hc' hc
    · cases hs
  | send =>
    simp only [ChangeWatcher.step] at hs
    split at hs
    · rename_i queued hp
      cases hs
      have hsum : w.closed = false → w.received ++ [queued.batch] ++
          ({ w with phase := .sent queued, received := w.received ++ [queued.batch] } : ChangeWatcher).unsent =
            w.received ++ w.unsent := by
        intro hc
        have hr := h.running hc
        unfold ChangeWatcher.Running at hr
        rw [hp] at hr
        obtain ⟨rest,hq⟩ := List.head?_eq_some_iff.mp hr
        simp [ChangeWatcher.unsent,hp,hq]
      refine ⟨⟨fun hc => ?_,fun hc => ?_,fun hc hl => ?_,fun hc => ?_⟩,rfl,rfl⟩
      · have hr := h.running hc
        unfold ChangeWatcher.Running at hr ⊢
        rwa [hp] at hr
      · rw [hsum hc]
        exact h.front hc
      · rw [hsum hc]
        exact h.complete hc hl
      have hended := h.ended hc
      rw [ChangeWatcher.inHand,hp] at hended
      change w.received ++ [queued.batch] ++ [] <+: history.filterMap w.delivery
      rwa [append_nil]
    · cases hs
  | acknowledge =>
    simp only [ChangeWatcher.step] at hs
    split at hs
    · rename_i queued hp
      have hhead : w.closed = false → ∃ rest, w.queue = queued::rest := by
        intro hc
        have hr := h.running hc
        unfold ChangeWatcher.Running at hr
        rw [hp] at hr
        exact List.head?_eq_some_iff.mp hr
      split_ifs at hs with hpop
      · cases hs
        have hopen : w.closed = false := by
          simp only [Bool.and_eq_true,Bool.not_eq_true'] at hpop
          exact hpop.1
        have hunsent : ChangeWatcher.unsent
          { w with phase := .waiting, queue := w.queue.tail, pendingBytes := w.pendingBytes - queued.bytes } =
            w.unsent := by
          simp [ChangeWatcher.unsent,hp]
        refine ⟨⟨fun _ => trivial,fun _ => ?_,fun _ hl => ?_,fun hc => ?_⟩,rfl,rfl⟩
        · rw [hunsent]
          exact h.front hopen
        · rw [hunsent]
          exact h.complete hopen hl
        · simp [hopen] at hc
      cases hs
      -- An open watcher always finds the batch it has sent at the head.
      have hclosed : w.closed = true := by
        by_contra hc
        obtain ⟨rest,hq⟩ := hhead (by simpa using hc)
        simp [hc,ChangeWatcher.headIs,hq] at hpop
      refine ⟨⟨fun hc => ?_,fun hc => ?_,fun hc => ?_,fun _ => ?_⟩,rfl,rfl⟩
      · simp [hclosed] at hc
      · simp [hclosed] at hc
      · simp [hclosed] at hc
      have hended := h.ended hclosed
      rw [ChangeWatcher.inHand,hp] at hended
      exact hended
    · cases hs
  | leave =>
    have hleave : w.closed = true → KeepsUp history left queue lossy { w with phase := .returned } := fun hc =>
      ⟨fun hc' => by simp [hc] at hc',fun hc' => by simp [hc] at hc',fun hc' => by simp [hc] at hc',
        fun _ => by
          change w.received ++ [] <+: history.filterMap w.delivery
          rw [append_nil]
          exact h.received_front⟩
    simp only [ChangeWatcher.step] at hs
    split at hs
    · split_ifs at hs with hc
      cases hs
      exact ⟨hleave hc,rfl,rfl⟩
    · split_ifs at hs with hc
      cases hs
      exact ⟨hleave hc,rfl,rfl⟩
    · cases hs

end

/-! ### All watchers -/

section
variable {f f' : ChangeFeed} {R : ChangeWatcher → ChangeWatcher → Prop} {w' : ChangeWatcher}

structure Touches (g : ChangeFeed → ℕ → ChangeFeed) (R : ChangeWatcher → ChangeWatcher → Prop) : Prop where
  other : ∀ f i j, i ≠ j → (g f i).watchers[j]? = f.watchers[j]?
  missing : ∀ f i, f.watchers[i]? = none → (g f i).watchers[i]? = none
  touched : ∀ f i w, f.watchers[i]? = some w → ∃ w', (g f i).watchers[i]? = some w' ∧ R w w'

theorem Touches.foldl_other {g : ChangeFeed → ℕ → ChangeFeed} (hg : Touches g R) {order : List ℕ} (hj : j ∉ order)
    (f : ChangeFeed) : (order.foldl g f).watchers[j]? = f.watchers[j]? := by
  induction order generalizing f with
  | nil => rfl
  | cons i order ih =>
    rw [foldl_cons,ih (fun h => hj (mem_cons_of_mem i h)),hg.other f i j]
    rintro rfl
    exact hj mem_cons_self

theorem Touches.foldl {g : ChangeFeed → ℕ → ChangeFeed} (hg : Touches g R) {order : List ℕ} (hnodup : order.Nodup)
    (f : ChangeFeed) (h : (order.foldl g f).watchers[j]? = some w') :
    ∃ w, f.watchers[j]? = some w ∧ (j ∈ order ∧ R w w' ∨ j ∉ order ∧ w' = w) := by
  induction order generalizing f with
  | nil => exact ⟨w',h,.inr ⟨not_mem_nil,rfl⟩⟩
  | cons i order ih =>
    obtain ⟨hi,hnodup⟩ := nodup_cons.mp hnodup
    by_cases hij : i = j
    · subst hij
      rw [foldl_cons,hg.foldl_other hi] at h
      cases hw : f.watchers[i]? with
      | none => simp [hg.missing f i hw] at h
      | some w =>
        obtain ⟨w'',hw'',hr⟩ := hg.touched f i w hw
        obtain rfl := some.inj (hw''.symm.trans h)
        exact ⟨w,rfl,.inl ⟨mem_cons_self,hr⟩⟩
    rw [foldl_cons] at h
    obtain ⟨w,hw,hcase⟩ := ih hnodup (g f i) h
    rw [hg.other f i j hij] at hw
    refine ⟨w,hw,hcase.imp (fun hc => ⟨mem_cons_of_mem i hc.1,hc.2⟩) (fun hc => ⟨?_,hc.2⟩)⟩
    simp [hc.1,Ne.symm hij]

theorem nodup_open (f : ChangeFeed) : f.open.Nodup := List.Nodup.filter _ nodup_range

theorem closed_of_not_open {w : ChangeWatcher} (hw : f.watchers[i]? = some w) (hi : i ∉ f.open) : w.closed = true := by
  by_contra hc
  refine hi (mem_filter.mpr ⟨mem_range.mpr (List.getElem?_eq_some_iff.mp hw).1,?_⟩)
  simpa [hw] using hc

theorem finish_touches (err : Option ReactiveError) : Touches (fun f i => f.finish i err)
    (fun w w' => w.closed = true ∧ w' = w ∨ w.closed = false ∧ w' = w.finish err) where
  other f i j hij := by
    unfold ChangeFeed.finish
    split
    · rfl
    split_ifs
    · rfl
    · exact List.getElem?_set_ne hij
  missing f i hi := by simp [ChangeFeed.finish,hi]
  touched f i w hw := by
    have hlt := (List.getElem?_eq_some_iff.mp hw).1
    simp only [ChangeFeed.finish,hw]
    split_ifs with hc
    · exact ⟨w,hw,.inl ⟨hc,rfl⟩⟩
    · exact ⟨w.finish err,by simp [hlt],.inr ⟨by simpa using hc,rfl⟩⟩

theorem deliverTo_touches (b : ChangeBatch) : Touches (ChangeFeed.deliverTo b) (DeliveredTo b) where
  other f i j hij := by
    unfold ChangeFeed.deliverTo
    split
    · rfl
    split_ifs
    · rfl
    split
    · rfl
    dsimp only
    split_ifs
    · exact (finish_touches _).other f i j hij
    · exact List.getElem?_set_ne hij
  missing f i hi := by simp [ChangeFeed.deliverTo,hi]
  touched f i w hw := by
    have hlt := (List.getElem?_eq_some_iff.mp hw).1
    simp only [ChangeFeed.deliverTo,hw]
    split_ifs with hc
    · exact ⟨w,hw,.inl ⟨hc,rfl⟩⟩
    have hopen : w.closed = false := by simpa using hc
    split
    · rename_i hnone
      exact ⟨w,hw,.inr ⟨hopen,.inl ⟨hnone,rfl⟩⟩⟩
    rename_i delivery hsome
    split_ifs
    · obtain ⟨w',hw',⟨hc',-⟩ | ⟨-,rfl⟩⟩ := (finish_touches (some .slowConsumer)).touched f i w hw
      · exact absurd hc' hc
      · exact ⟨_,hw',.inr ⟨hopen,.inr (.inr rfl)⟩⟩
    · exact ⟨_,List.getElem?_set_self hlt,.inr ⟨hopen,.inr (.inl ⟨⟨delivery,_⟩,hsome,rfl⟩)⟩⟩

theorem deliver_watchers (h : f.deliver b order = some f')
    (hw' : w' ∈ f'.watchers) : ∃ w ∈ f.watchers, DeliveredTo b w w' := by
  unfold ChangeFeed.deliver at h
  split_ifs at h with hperm
  cases h
  obtain ⟨j,hj⟩ := mem_iff_getElem?.mp hw'
  obtain ⟨w,hw,hcase⟩ := (deliverTo_touches b).foldl (hperm.nodup_iff.mpr (nodup_open f)) f hj
  refine ⟨w,mem_of_getElem? hw,?_⟩
  rcases hcase with ⟨-,hd⟩ | ⟨hnot,rfl⟩
  · exact hd
  · exact .inl ⟨closed_of_not_open hw (fun hi => hnot (hperm.mem_iff.mpr hi)),rfl⟩

theorem finishAll_watchers (hw' : w' ∈ (f.finishAll err).watchers) :
    ∃ w ∈ f.watchers, w.closed = true ∧ w' = w ∨ w.closed = false ∧ w' = w.finish err := by
  obtain ⟨j,hj⟩ := mem_iff_getElem?.mp hw'
  obtain ⟨w,hw,hcase⟩ := (finish_touches err).foldl (nodup_open f) f hj
  refine ⟨w,mem_of_getElem? hw,?_⟩
  rcases hcase with ⟨-,hd⟩ | ⟨hnot,rfl⟩
  · exact hd
  · exact .inl ⟨closed_of_not_open hw hnot,rfl⟩

theorem finish_watchers (hw' : w' ∈ (f.finish i err).watchers) :
    w' ∈ f.watchers ∨ ∃ w ∈ f.watchers, w.closed = false ∧ w' = w.finish err := by
  obtain ⟨j,hj⟩ := mem_iff_getElem?.mp hw'
  obtain ⟨w,hw,hcase⟩ := (finish_touches err).foldl (nodup_singleton i) f hj
  rcases hcase with ⟨-,⟨-,rfl⟩ | hd⟩ | ⟨-,rfl⟩
  · exact .inl (mem_of_getElem? hw)
  · exact .inr ⟨w,mem_of_getElem? hw,hd⟩
  · exact .inl (mem_of_getElem? hw)

end

/-- A watcher keeps up and ends with an error while the database is open. -/
structure Watched (db : DB) (w : ChangeWatcher) : Prop where
  keeps : KeepsUp db.history db.dispatcher.phase.left db.dispatcher.queue db.dispatcher.lossy w
  terminal : w.closed = true → w.terminalErr.isSome = true ∨ db.closed = true

theorem delivery_none_of_known {w : ChangeWatcher} {batches : List ChangeBatch}
    (h : ∀ b ∈ batches, b.token ≤ w.afterToken) : batches.filterMap w.delivery = [] := by
  rw [filterMap_eq_nil_iff]
  intro b hb
  rw [ChangeWatcher.delivery,if_pos (h b hb)]

theorem delivery_empty (w : ChangeWatcher) (h : b.changes.isEmpty = true) : w.delivery b = none := by
  have hnil : b.changes = [] := by simpa using h
  simp [ChangeWatcher.delivery,hnil]

theorem Ledger.watched_new (hl : Ledger db) (collection : Bytes) (buffer : ℕ) :
    Watched db { collection, afterToken := db.token, maxBatches := buffer } := by
  refine ⟨⟨fun _ => trivial,fun _ => ?_,fun _ _ => ?_,fun hc => by cases hc⟩,fun hc => by cases hc⟩
  · rw [delivery_none_of_known (fun b hb => hl.known b (mem_append_left _ hb))]
    exact nil_prefix
  · rw [delivery_none_of_known hl.known,delivery_none_of_known hl.published]
    rfl

theorem Watched.publish (hl : Ledger db) {w : ChangeWatcher} (hw : Watched db w) (h : db.publish = some db') :
    Watched db' w := by
  obtain ⟨b,rest,hstaged,rfl⟩ := publish_some h
  have hopen : db.dispatcher.closed = false := by
    by_contra hc
    have := hl.stopped (hl.closing (by simpa using hc))
    simp [hstaged] at this
  refine ⟨?_,hw.terminal⟩
  dsimp only
  rw [enqueue_phase]
  refine hw.keeps.commit b (fun hlossy => ?_)
  simp only [ChangeDispatcher.lossy,enqueue_phase,Bool.or_eq_false_iff] at hlossy ⊢
  unfold ChangeDispatcher.enqueue at hlossy ⊢
  rw [hopen,Bool.or_false] at *
  split_ifs with hempty hover hfull
  · rw [if_pos hempty] at hlossy
    refine ⟨hlossy,?_⟩
    rw [filterMap_append (l := _ ++ _)]
    simp [delivery_empty w hempty]
  · rw [if_neg hempty,if_pos hover] at hlossy
    simp [hover] at hlossy
  · rw [if_neg hempty,if_neg hover,if_pos hfull] at hlossy
    simp at hlossy
  · rw [if_neg hempty,if_neg hover,if_neg hfull] at hlossy
    exact ⟨hlossy,by simp⟩

theorem Watched.dispatch (hw : ∀ w ∈ db.feed.watchers, Watched db w)
    (h : db.dispatch cfg order = some db') : ∀ w ∈ db'.feed.watchers, Watched db' w := by
  rcases dispatch_cases h with ⟨d,hd,rfl⟩ | ⟨b,rest,hphase,rfl⟩ | ⟨b,rest,feed,hphase,hfeed,rfl⟩ | ⟨hphase,rfl⟩ | ⟨hphase,rfl⟩
  · intro w hmem
    obtain ⟨hkeeps,hterm⟩ := hw w hmem
    obtain ⟨hphase,-,⟨hover,rfl⟩ | ⟨hover,rfl⟩⟩ := next_cases hd
    · rw [hphase] at hkeeps
      exact ⟨⟨hkeeps.running,hkeeps.front,fun _ hlossy => by simp [ChangeDispatcher.lossy,DispatchPhase.failing] at hlossy,
        hkeeps.ended⟩,hterm⟩
    have hlossy : db.dispatcher.lossy = false := by simp [ChangeDispatcher.lossy,hover,hphase,DispatchPhase.failing]
    rw [hphase] at hkeeps
    refine ⟨⟨hkeeps.running,fun hc => ?_,fun hc _ => ?_,hkeeps.ended⟩,hterm⟩
    · exact (hkeeps.complete hc hlossy) ▸ prefix_refl _
    · simpa [DispatchPhase.left] using hkeeps.complete hc hlossy
  · intro w hmem
    obtain ⟨hkeeps,hterm⟩ := hw w hmem
    simp only [ChangeDispatcher.lossy,hphase] at hkeeps
    exact ⟨hkeeps,hterm⟩
  · intro w' hmem
    obtain ⟨w,hwmem,hd⟩ := deliver_watchers hfeed hmem
    obtain ⟨hkeeps,hterm⟩ := hw w hwmem
    simp only [ChangeDispatcher.lossy,hphase] at hkeeps
    refine ⟨?_,?_⟩
    · rw [ChangeDispatcher.lossy,left_dispatchRest,failing_dispatchRest]
      exact hkeeps.delivered hd
    rcases hd with ⟨-,rfl⟩ | ⟨-,⟨-,rfl⟩ | ⟨queued,-,rfl⟩ | rfl⟩
    · exact hterm
    · exact hterm
    · exact hterm
    · exact fun _ => .inl rfl
  · intro w' hmem
    obtain ⟨w,hwmem,⟨hc,rfl⟩ | ⟨hc,rfl⟩⟩ := finishAll_watchers hmem
    · exact ⟨(hw w' hwmem).keeps.of_closed hc (prefix_refl _),(hw w' hwmem).terminal⟩
    · exact ⟨((hw w hwmem).keeps.finish hc _).of_closed rfl (prefix_refl _),fun _ => .inl rfl⟩
  intro w hmem
  obtain ⟨hkeeps,hterm⟩ := hw w hmem
  simp only [ChangeDispatcher.lossy,hphase] at hkeeps
  exact ⟨hkeeps,hterm⟩

theorem Watched.step (hl : Ledger db) (hw : ∀ w ∈ db.feed.watchers, Watched db w)
    (h : db.step cfg a = some db') : ∀ w ∈ db'.feed.watchers, Watched db' w := by
  cases a with
  | store group =>
    obtain ⟨-,-,-,rfl⟩ := store_some h
    exact fun w hmem => ⟨(hw w hmem).keeps,(hw w hmem).terminal⟩
  | publish =>
    obtain ⟨b,rest,-,heq⟩ := publish_some h
    have hfeed : db'.feed = db.feed := by rw [heq]
    exact fun w hmem => (hw w (hfeed ▸ hmem)).publish hl h
  | dispatch order => exact Watched.dispatch hw h
  | watch collection buffer =>
    simp only [DB.step,DB.watch] at h
    split_ifs at h
    cases h
    intro w hmem
    rcases mem_append.mp hmem with hmem | hmem
    · exact ⟨(hw w hmem).keeps,(hw w hmem).terminal⟩
    obtain rfl := mem_singleton.mp hmem
    have hnew := hl.watched_new collection buffer
    exact ⟨hnew.keeps,hnew.terminal⟩
  | watcher i step =>
    obtain ⟨feed,hfeed,rfl⟩ := map_eq_some_iff.mp h
    unfold ChangeFeed.step at hfeed
    split at hfeed
    · cases hfeed
    rename_i w hi
    obtain ⟨next,hnext,rfl⟩ := map_eq_some_iff.mp hfeed
    obtain ⟨hkeeps,hclosed,hterm⟩ := (hw w (mem_of_getElem? hi)).keeps.step hnext
    intro w' hmem
    rcases mem_or_eq_of_mem_set hmem with hmem | rfl
    · exact ⟨(hw w' hmem).keeps,(hw w' hmem).terminal⟩
    refine ⟨hkeeps,fun hc => ?_⟩
    rw [hterm]
    exact (hw w (mem_of_getElem? hi)).terminal (hclosed ▸ hc)
  | cancel i =>
    cases h
    intro w' hmem
    rcases finish_watchers hmem with hold | ⟨w,hold,hc,rfl⟩
    · exact ⟨(hw w' hold).keeps,(hw w' hold).terminal⟩
    · exact ⟨(hw w hold).keeps.finish hc _,fun _ => .inl rfl⟩
  | subscribe key => exact some.inj h ▸ fun w hmem => ⟨(hw w hmem).keeps,(hw w hmem).terminal⟩
  | subscription i =>
    rw [subscribeStep_onSubscriptions h]
    exact fun w hmem => ⟨(hw w hmem).keeps,(hw w hmem).terminal⟩
  | detach v => exact some.inj h ▸ fun w hmem => ⟨(hw w hmem).keeps,(hw w hmem).terminal⟩
  | processPending resync =>
    obtain ⟨hub,-,rfl⟩ := map_eq_some_iff.mp h
    exact fun w hmem => ⟨(hw w hmem).keeps,(hw w hmem).terminal⟩
  | work names order =>
    rw [workStep_onHub h]
    exact fun w hmem => ⟨(hw w hmem).keeps,(hw w hmem).terminal⟩
  | close =>
    simp only [DB.step] at h
    split_ifs at h
    exact some.inj h ▸ fun w hmem => ⟨(hw w hmem).keeps,fun _ => .inr rfl⟩
  | closeDispatcher =>
    simp only [DB.step] at h
    split_ifs at h
    exact some.inj h ▸ fun w hmem => ⟨(hw w hmem).keeps,(hw w hmem).terminal⟩
  | closeHub =>
    simp only [DB.step] at h
    split at h
    · split_ifs at h
      exact some.inj h ▸ fun w hmem => ⟨(hw w hmem).keeps,(hw w hmem).terminal⟩
    · cases h
  | closeWatchers =>
    simp only [DB.step] at h
    split at h
    · split_ifs at h with hclosed
      cases h
      intro w' hmem
      obtain ⟨w,hwmem,⟨hc,rfl⟩ | ⟨hc,rfl⟩⟩ := finishAll_watchers hmem
      · exact ⟨(hw w' hwmem).keeps,(hw w' hwmem).terminal⟩
      · exact ⟨(hw w hwmem).keeps.finish hc _,fun _ => .inr (hl.closing hclosed)⟩
    · cases h

theorem run_invariant {I : DB → Prop} (hstep : ∀ db a db', I db → db.step cfg a = some db' → I db')
    (hdb : I db) (h : db.run cfg actions = some db') : I db' := by
  induction actions generalizing db with
  | nil => exact some.inj h ▸ hdb
  | cons a actions ih =>
    obtain ⟨next,hnext,hrest⟩ := bind_eq_some_iff.mp h
    exact ih (hstep db a next hdb hnext) hrest

end Meldbase.Database
