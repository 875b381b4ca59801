import Meldbase.Database.ReactiveView

/-! # The change feed and the reactive hub

A commit becomes visible in storage, then its token is published and its batch
enters the dispatcher, both under the write lock.  The dispatcher hands batches
to the hub and to the change watchers; the hub's worker rebuilds views or
advances them batch by batch.  Subscriptions build views under the read lock or,
for the first stored view of a collection, outside of it.

Each step is a section that the source runs under one lock.  What was dropped and
which errors ended a view or a subscription is recorded on the side.
-/
namespace Meldbase.Database
open KeyedList

/-! ### Contents -/

/-- The documents of a collection in insertion order, and the last position given out. -/
structure CollectionData where
  records : List StoredDocument
  counter : ℕ

abbrev Contents := List (Bytes × CollectionData)
def Contents.collection (contents : Contents) (name : Bytes) : CollectionData := (find name contents).getD ⟨[],0⟩
def Contents.put (contents : Contents) (name : Bytes) (data : CollectionData) : Contents :=
  if (find name contents).isSome then replace name data contents else contents ++ [(name,data)]
def CollectionData.applyChange (data : CollectionData) (c : Change) : CollectionData :=
  match c.operation,c.after with
  | .insert,some d => ⟨data.records ++ [⟨c.documentID,data.counter+1,d⟩],data.counter+1⟩
  | .update,some d =>
    { data with records := data.records.map fun r => if r.id = c.documentID then { r with document := d } else r }
  | .delete,_ => { data with records := data.records.filter fun r => r.id ≠ c.documentID }
  | _,_ => data
def Contents.applyChange (contents : Contents) (c : Change) : Contents :=
  contents.put c.collection ((contents.collection c.collection).applyChange c)
def Contents.applyBatch (contents : Contents) (b : ChangeBatch) : Contents := b.changes.foldl Contents.applyChange contents

/-! ### The dispatcher -/

def maxPendingChangeDispatchBatches : ℕ := 1024
def maxPendingChangeDispatchChanges : ℕ := 8*1024
def maxPendingChangeDispatchBytes : ℕ := 64 * 2 ^ 20

/-- Where the delivery loop stands. -/
inductive DispatchPhase where
  | waiting
  | dispatching (batches : List ChangeBatch)
  /-- The hub has been notified of the batch, the watchers have not. -/
  | delivering (batch : ChangeBatch) (rest : List ChangeBatch)
  | failingWatchers
  | resyncing

structure ChangeDispatcher where
  queue : List ChangeBatch := []
  pendingChanges : ℕ := 0
  pendingBytes : ℕ := 0
  overflow : Bool := false
  closed : Bool := false
  phase : DispatchPhase := .waiting
  dropped : List ChangeBatch := []

def exceedsPending (maxBatches maxChanges maxBytes : ℕ) (queue : List ChangeBatch) (pendingChanges pendingBytes : ℕ)
    (b : ChangeBatch) : Bool :=
  maxBatches ≤ queue.length || maxChanges < b.changes.length || maxChanges - b.changes.length < pendingChanges ||
    maxBytes < changeBatchDispatchBytes b || maxBytes - changeBatchDispatchBytes b < pendingBytes

/-- Takes a committed batch; without room, everything queued is dropped and the
loop is told. -/
def ChangeDispatcher.enqueue (d : ChangeDispatcher) (b : ChangeBatch) : ChangeDispatcher :=
  if b.changes.isEmpty || d.closed then d
  else if d.overflow then { d with dropped := d.dropped ++ [b] }
  else if exceedsPending maxPendingChangeDispatchBatches maxPendingChangeDispatchChanges maxPendingChangeDispatchBytes
      d.queue d.pendingChanges d.pendingBytes b then
    { d with queue := [], pendingChanges := 0, pendingBytes := 0, overflow := true, dropped := d.dropped ++ (d.queue ++ [b]) }
  else
    { d with queue := d.queue ++ [b], pendingChanges := d.pendingChanges+b.changes.length,
             pendingBytes := d.pendingBytes+changeBatchDispatchBytes b }

/-- The loop picks up an overflow before anything queued. -/
def ChangeDispatcher.next (d : ChangeDispatcher) : Option ChangeDispatcher :=
  match d.phase with
  | .waiting =>
    if d.closed then none
    else if d.overflow then some { d with overflow := false, phase := .failingWatchers }
    else if d.queue.isEmpty then none
    else some { d with queue := [], pendingChanges := 0, pendingBytes := 0, phase := .dispatching d.queue }
  | _ => none
def dispatchRest (rest : List ChangeBatch) : DispatchPhase := if rest.isEmpty then .waiting else .dispatching rest

/-! ### Change watchers -/

def maxPendingChangeWatcherBytes : ℕ := 64 * 2 ^ 20
def maxPendingChangeWatchersBytes : ℕ := 128 * 2 ^ 20

structure QueuedChangeBatch where
  batch : ChangeBatch
  bytes : ℕ

/-- Where the goroutine that feeds a watcher's channel stands. -/
inductive WatcherPhase where
  | waiting
  | sending (queued : QueuedChangeBatch)
  | sent (queued : QueuedChangeBatch)
  | returned

structure ChangeWatcher where
  collection : Bytes
  (afterToken maxBatches : ℕ)
  maxBytes : ℕ := maxPendingChangeWatcherBytes
  queue : List QueuedChangeBatch := []
  pendingBytes : ℕ := 0
  closed : Bool := false
  terminalErr : Option ReactiveError := none
  phase : WatcherPhase := .waiting
  received : List ChangeBatch := []

variable (w : ChangeWatcher)

def ChangeWatcher.delivery (b : ChangeBatch) : Option ChangeBatch :=
  if b.token ≤ w.afterToken then none
  else
    let filtered := b.changes.filter fun c => w.collection = c.collection
    if filtered.isEmpty then none else some ⟨b.token,filtered⟩

/-- All watchers; those in the source's map are the ones not closed. -/
structure ChangeFeed where
  watchers : List ChangeWatcher := []
  pendingBytes : ℕ := 0

def ChangeWatcher.finish (err : Option ReactiveError) : ChangeWatcher :=
  { w with closed := true, terminalErr := err, queue := [], pendingBytes := 0 }

/-- Stops a watcher and releases its charges. -/
def ChangeFeed.finish (f : ChangeFeed) (i : ℕ) (err : Option ReactiveError) : ChangeFeed :=
  match f.watchers[i]? with
  | none => f
  | some w => if w.closed then f else ⟨f.watchers.set i (w.finish err),f.pendingBytes - w.pendingBytes⟩
def ChangeWatcher.full (aggregate bytes : ℕ) : Bool :=
  w.maxBatches ≤ w.queue.length || w.maxBytes < bytes || w.maxBytes - bytes < w.pendingBytes ||
    maxPendingChangeWatchersBytes < bytes || maxPendingChangeWatchersBytes - bytes < aggregate
def ChangeWatcher.push (queued : QueuedChangeBatch) : ChangeWatcher :=
  { w with queue := w.queue ++ [queued], pendingBytes := w.pendingBytes+queued.bytes }
def ChangeFeed.deliverTo (b : ChangeBatch) (f : ChangeFeed) (i : ℕ) : ChangeFeed :=
  match f.watchers[i]? with
  | none => f
  | some w =>
    if w.closed then f
    else match w.delivery b with
      | none => f
      | some delivery =>
        let bytes := changeBatchDispatchBytes delivery
        if w.full f.pendingBytes bytes then f.finish i (some .slowConsumer)
        else ⟨f.watchers.set i (w.push ⟨delivery,bytes⟩),f.pendingBytes+bytes⟩
def ChangeFeed.open (f : ChangeFeed) : List ℕ :=
  (List.range f.watchers.length).filter fun i => (f.watchers[i]?.map fun w => !w.closed).getD false
def ChangeFeed.deliver (f : ChangeFeed) (b : ChangeBatch) (order : List ℕ) : Option ChangeFeed :=
  if order.Perm f.open then some (order.foldl (ChangeFeed.deliverTo b) f) else none
def ChangeFeed.finishAll (f : ChangeFeed) (err : Option ReactiveError) : ChangeFeed :=
  f.open.foldl (fun f i => f.finish i err) f

inductive WatcherStep where
  | take
  | send
  | acknowledge
  | leave

def ChangeWatcher.headIs (queued : QueuedChangeBatch) : Bool :=
  match w.queue with
  | [] => false
  | current::_ => current.batch.token = queued.batch.token && current.bytes = queued.bytes
def ChangeWatcher.step : WatcherStep → Option (ChangeWatcher × ℕ)
  | .take =>
    match w.phase,w.queue with
    | .waiting,queued::_ => if w.closed then none else some ({ w with phase := .sending queued },0)
    | _,_ => none
  | .send =>
    match w.phase with
    | .sending queued => some ({ w with phase := .sent queued, received := w.received ++ [queued.batch] },0)
    | _ => none
  | .acknowledge =>
    match w.phase with
    | .sent queued =>
      if !w.closed && w.headIs queued then
        some ({ w with phase := .waiting, queue := w.queue.tail, pendingBytes := w.pendingBytes - queued.bytes },queued.bytes)
      else some ({ w with phase := .waiting },0)
    | _ => none
  | .leave =>
    match w.phase with
    | .waiting => if w.closed then some ({ w with phase := .returned },0) else none
    | .sending _ => if w.closed then some ({ w with phase := .returned },0) else none
    | _ => none
def ChangeFeed.step (f : ChangeFeed) (i : ℕ) (a : WatcherStep) : Option ChangeFeed :=
  match f.watchers[i]? with
  | none => none
  | some w => (w.step a).map fun next => ⟨f.watchers.set i next.1,f.pendingBytes - next.2⟩

/-! ### The hub -/

/-- Fixed data of a database: whether it is stored, its limits, tree priorities,
and the collection and query that each canonical key stands for. -/
structure HubConfig where
  durable : Bool
  limits : ResourceLimits
  priority : DocumentID → ℕ
  queries : ℕ → Bytes × QuerySpec

/-- A view with its current state; it stays registered while it has subscribers. -/
structure SharedReactiveView where
  key : ℕ
  state : ReactiveViewState
  registered : Bool := true

/-- What the worker is doing within a batch or a rebuild. -/
inductive Task where
  | select
  /-- The order table covers the batch; the views are collected next. -/
  | ordered (collection : Bytes) (changes : List Change) (table : ℕ)
  | viewing (collection : Bytes) (changes : List Change) (table : ℕ) (views : List ℕ)
  | rebuilding (collection : Bytes)
  /-- A rebuild outside of the database lock is about to read the token. -/
  | attempting (collection : Bytes) (targets : List ℕ) (attempt : ℕ)
  /-- The token has been read and the snapshot is opened next. -/
  | opening (collection : Bytes) (targets : List ℕ) (attempt token : ℕ)
  | installing (collection : Bytes) (targets : List ℕ) (attempt token : ℕ) (states : List ReactiveViewState)
      (table : ReactiveCollectionOrder)
  /-- The lock-held rebuild is about to take the read lock. -/
  | locking (collection : Bytes)
  /-- The read lock is held and the views are collected. -/
  | building (collection : Bytes) (views : List ℕ) (table : ℕ)
  /-- The read lock is held and the built states are published one by one. -/
  | publishing (left : List (ℕ × ReactiveViewState))
  | failing (left : List ℕ) (error : ReactiveError)

structure Work where
  resync : List Bytes
  batches : List ChangeBatch
  token : ℕ
  groups : List (Bytes × List Change)
  task : Task

structure ReactiveHub where
  views : List SharedReactiveView := []
  tables : List ReactiveCollectionOrder := []
  orders : List (Bytes × ℕ) := []
  queue : List ChangeBatch := []
  pendingChanges : ℕ := 0
  pendingBytes : ℕ := 0
  resync : List Bytes := []
  work : Option Work := none
  closed : Bool := false
  dropped : List ChangeBatch := []
  failures : List ReactiveError := []

def maxPendingReactiveBatches : ℕ := 1024
def maxPendingReactiveChanges : ℕ := 64*1024
def maxPendingReactiveBytes : ℕ := 64 * 2 ^ 20

section
variable (cfg : HubConfig)

def SharedReactiveView.collection (v : SharedReactiveView) : Bytes := (cfg.queries v.key).1
def SharedReactiveView.query (v : SharedReactiveView) : QuerySpec := (cfg.queries v.key).2

variable (hub : ReactiveHub)

def ReactiveHub.group (collection : Bytes) : List ℕ :=
  (List.range hub.views.length).filter fun v =>
    (hub.views[v]?.map fun view => view.registered && view.collection cfg = collection).getD false
def ReactiveHub.viewWithKey (key : ℕ) : Option ℕ :=
  (List.range hub.views.length).find? fun v =>
    (hub.views[v]?.map fun view => view.registered && view.key = key).getD false
def ReactiveHub.collections : List Bytes :=
  (hub.views.filter SharedReactiveView.registered).map (SharedReactiveView.collection cfg)
def ReactiveHub.relevant (b : ChangeBatch) : Bool :=
  b.changes.any fun c => hub.views.any fun v =>
    v.registered && v.collection cfg = c.collection && v.state.token < b.token
def ReactiveHub.overflows (b : ChangeBatch) : Bool :=
  maxPendingReactiveBatches ≤ hub.queue.length || maxPendingReactiveChanges < hub.pendingChanges ||
    maxPendingReactiveChanges - hub.pendingChanges < b.changes.length ||
    maxPendingReactiveBytes < changeBatchDispatchBytes b ||
    maxPendingReactiveBytes - changeBatchDispatchBytes b < hub.pendingBytes
def ReactiveHub.requestResync : ReactiveHub :=
  { hub with resync := hub.resync ++ hub.collections cfg }

/-- Queues a relevant batch, or drops the queue and asks for rebuilds. -/
def ReactiveHub.notify (b : ChangeBatch) : ReactiveHub :=
  if b.changes.isEmpty || hub.closed || !hub.relevant cfg b then hub
  else if hub.overflows b then
    { hub.requestResync cfg with queue := [], pendingChanges := 0, pendingBytes := 0,
                                 dropped := hub.dropped ++ (hub.queue ++ [b]) }
  else
    { hub with queue := hub.queue ++ [b], pendingChanges := hub.pendingChanges+b.changes.length,
               pendingBytes := hub.pendingBytes+changeBatchDispatchBytes b }
def ReactiveHub.resyncAll : ReactiveHub := if hub.closed then hub else hub.requestResync cfg

/-- The worker takes everything pending, the collections in any order. -/
def ReactiveHub.processPending (resync : List Bytes) : Option ReactiveHub :=
  match hub.work with
  | some _ => none
  | none =>
    if hub.closed || hub.queue.isEmpty && hub.resync.isEmpty || !resync.isPerm hub.resync.dedup then none
    else some { hub with queue := [], pendingChanges := 0, pendingBytes := 0, resync := [],
                         work := some ⟨resync,hub.queue,0,[],.select⟩ }

/-- Removes a view; the last one of a collection takes the collection's state with it. -/
def ReactiveHub.deleteView (v : ℕ) : ReactiveHub :=
  match hub.views[v]? with
  | none => hub
  | some view =>
    if !view.registered then hub
    else
      let hub' := { hub with views := hub.views.set v { view with registered := false } }
      if (hub'.group cfg (view.collection cfg)).isEmpty then
        { hub' with orders := remove (view.collection cfg) hub'.orders,
                    resync := hub'.resync.filter fun c => c ≠ view.collection cfg }
      else hub'
def ReactiveHub.failView (v : ℕ) (e : ReactiveError) : ReactiveHub :=
  if (hub.views[v]?.map SharedReactiveView.registered).getD false then
    { hub.deleteView cfg v with failures := hub.failures ++ [e] }
  else hub
def ReactiveHub.setState (v : ℕ) (next : ReactiveViewState) : ReactiveHub :=
  { hub with views := hub.views.modify v fun view => { view with state := next } }

/-- Stores a state and builds the delta for the subscribers when the result changed. -/
def ReactiveHub.install (v : ℕ) (current next : ReactiveViewState) : ReactiveHub :=
  let installed := hub.setState v next
  if documentSlicesEqual current.snapshot.documents next.snapshot.documents then installed
  else match buildSharedQueryDelta current.snapshot.documents next.snapshot.documents next.token with
    | .error _ => installed.failView cfg v .invalidDelta
    | .ok _ => installed
def ReactiveHub.publishNewerViewState (v : ℕ) (next : ReactiveViewState) : ReactiveHub :=
  match hub.views[v]? with
  | none => hub
  | some view => if next.token ≤ view.state.token then hub else hub.install cfg v view.state next
def ReactiveHub.ensureOrder (collection : Bytes) : ReactiveHub × ℕ :=
  match find collection hub.orders with
  | some table => (hub,table)
  | none => ({ hub with tables := hub.tables ++ [{}], orders := hub.orders ++ [(collection,hub.tables.length)] },
      hub.tables.length)
def ReactiveHub.table (hub : ReactiveHub) (table : ℕ) : ReactiveCollectionOrder := hub.tables[table]?.getD {}
def ReactiveHub.setTable (table : ℕ) (order : ReactiveCollectionOrder) : ReactiveHub :=
  { hub with tables := hub.tables.set table order }
def ReactiveHub.register (key : ℕ) (state : ReactiveViewState) : ReactiveHub :=
  { hub with views := hub.views ++ [⟨key,state,true⟩] }

/-- Applies a batch to one view: `none` asks for a rebuild of the collection. -/
def ReactiveHub.applyViewBatch (v table token : ℕ) (changes : List Change) : Option ReactiveHub :=
  match hub.views[v]? with
  | none => some hub
  | some view =>
    match transitionReactiveViewState cfg.priority cfg.limits (view.query cfg) (hub.table table) token changes view.state with
    | .error e => some (hub.failView cfg v e)
    | .ok none => none
    | .ok (some next) => some (if token ≤ view.state.token then hub else hub.install cfg v view.state next)
def ReactiveHub.close : ReactiveHub :=
  { hub with closed := true, views := hub.views.map fun view => { view with registered := false },
             orders := [], queue := [], resync := [],
             failures := hub.failures ++ (hub.views.filter SharedReactiveView.registered).map fun _ => .closed }

end

/-! ### The database -/

inductive SubscribePhase where
  | entering (allowCold : Bool)
  /-- The read lock is held and the view has to be built. -/
  | locked
  /-- The read lock is held and the state is built. -/
  | registering (table : ℕ) (state : ReactiveViewState)
  | attempting (attempt : ℕ)
  /-- The token has been read, the lock released, and the snapshot is opened next. -/
  | opening (attempt token : ℕ)
  | installing (attempt token : ℕ) (table : ReactiveCollectionOrder) (state : ReactiveViewState)
  | returned (error : Option ReactiveError)

structure Subscription where
  key : ℕ
  phase : SubscribePhase

structure DB where
  token : ℕ := 0
  contents : Contents := []
  sequence : ℕ := 0
  stored : Contents := []
  /-- Commits that are stored but not published; the write lock is held while there are any. -/
  staged : List ChangeBatch := []
  closed : Bool := false
  history : List ChangeBatch := []
  dispatcher : ChangeDispatcher := {}
  feed : ChangeFeed := {}
  hub : ReactiveHub := {}
  subscriptions : List Subscription := []

def Task.readLocked : Task → Bool
  | .building .. => true
  | .publishing _ => true
  | _ => false
def SubscribePhase.readLocked : SubscribePhase → Bool
  | .locked => true
  | .registering .. => true
  | _ => false
def DB.readLocked (db : DB) : Bool :=
  (db.hub.work.map fun w => w.task.readLocked).getD false || db.subscriptions.any fun s => s.phase.readLocked
def stageGroup : ℕ → List (List Change) → List ChangeBatch
  | _,[] => []
  | token,changes::rest => ⟨token+1,changes⟩ :: stageGroup (token+1) rest
def DB.store (db : DB) (group : List (List Change)) : Option DB :=
  if db.closed || db.readLocked || !db.staged.isEmpty || group.isEmpty then none
  else
    let staged := stageGroup db.token group
    some { db with staged, sequence := db.sequence+group.length, stored := staged.foldl Contents.applyBatch db.stored }

/-- The token of the next stored commit is published with its batch. -/
def DB.publish (db : DB) : Option DB :=
  match db.staged with
  | [] => none
  | b::rest =>
    some { db with staged := rest, token := b.token, contents := db.contents.applyBatch b, history := db.history ++ [b],
                   dispatcher := db.dispatcher.enqueue b }
def maxColdReactiveSubscriptionAttempts : ℕ := 3

section
variable (cfg : HubConfig)
variable (db : DB)

def DB.dispatch (order : List ℕ) : Option DB :=
  match db.dispatcher.phase with
  | .waiting => db.dispatcher.next.map fun d => { db with dispatcher := d }
  | .dispatching [] => none
  | .dispatching (b::rest) =>
    some { db with hub := db.hub.notify cfg b, dispatcher := { db.dispatcher with phase := .delivering b rest } }
  | .delivering b rest =>
    (db.feed.deliver b order).map fun feed =>
      { db with feed, dispatcher := { db.dispatcher with phase := dispatchRest rest } }
  | .failingWatchers =>
    some { db with feed := db.feed.finishAll (some .slowConsumer), dispatcher := { db.dispatcher with phase := .resyncing } }
  | .resyncing =>
    some { db with hub := db.hub.resyncAll cfg, dispatcher := { db.dispatcher with phase := .waiting } }
def DB.watch (collection : Bytes) (buffer : ℕ) : Option DB :=
  if db.closed || !db.staged.isEmpty || buffer = 0 || 4096 < buffer then none
  else some { db with feed := { db.feed with watchers := db.feed.watchers ++
    [{ collection, afterToken := db.token, maxBatches := buffer }] } }
def DB.memoryRecords (collection : Bytes) : List StoredDocument :=
  if cfg.durable then [] else (db.contents.collection collection).records

variable (work : Work)

def DB.withTask (task : Task) : DB :=
  { db with hub := { db.hub with work := some { work with task } } }
def DB.failCollection (collection : Bytes) (e : ReactiveError) : DB :=
  db.withTask work (.failing (db.hub.group cfg collection) e)
def DB.nextAttempt (collection : Bytes) (targets : List ℕ) (attempt : ℕ) : DB :=
  if attempt < maxColdReactiveSubscriptionAttempts then db.withTask work (.attempting collection targets attempt)
  else db.withTask work (.locking collection)
def ReactiveHub.queriesOf (hub : ReactiveHub) (views : List ℕ) : List QuerySpec :=
  views.filterMap fun v => hub.views[v]?.map (SharedReactiveView.query cfg)
def ReactiveHub.groups (hub : ReactiveHub) (b : ChangeBatch) (names : List Bytes) : Option (List (Bytes × List Change)) :=
  let changed := ((b.changes.map Change.collection).filter fun c => !(hub.group cfg c).isEmpty).dedup
  if names.isPerm changed then some (names.map fun name => (name,b.changes.filter fun c => c.collection = name)) else none

/-- The worker goes on to the next collection to rebuild, the next collection of
the batch, or the next batch. -/
def DB.selectWork (names : List Bytes) : Option DB :=
  match work.resync,work.groups,work.batches with
  | collection::rest,_,_ => some (db.withTask { work with resync := rest } (.rebuilding collection))
  | [],(collection,changes) :: rest,_ =>
    let ensured := db.hub.ensureOrder collection
    let applied := (ensured.1.table ensured.2).apply work.token changes
    let db' := { db with hub := ensured.1.setTable ensured.2 applied.2 }
    some (db'.withTask { work with groups := rest }
      (if applied.1 then .ordered collection changes ensured.2 else .rebuilding collection))
  | [],[],b::rest =>
    (db.hub.groups cfg b names).map fun groups => db.withTask { work with batches := rest, token := b.token, groups } .select
  | [],[],[] => some { db with hub := { db.hub with work := none } }
def DB.handOver (collection : Bytes) (targets : List ℕ) (attempt token : ℕ)
    (states : List ReactiveViewState) (table : ReactiveCollectionOrder) : DB :=
  if db.closed then db.failCollection cfg work collection .closed
  else if db.token ≠ token then db.nextAttempt work collection targets (attempt+1)
  else
    let current := db.hub.group cfg collection
    match find collection db.hub.orders with
    | none => db.withTask work (.locking collection)
    | some ref =>
      if !db.hub.closed && current.length = targets.length && targets.all (fun v => current.contains v) then
        DB.withTask { db with hub := db.hub.setTable ref table } work (.publishing (targets.zip states))
      else db.withTask work (.locking collection)
def DB.buildLocked (collection : Bytes) (views : List ℕ) (table : ℕ) : DB :=
  let queries := db.hub.queriesOf cfg views
  if cfg.durable && !views.isEmpty then
    match buildStorageReactiveViewStates cfg.priority cfg.limits db.sequence (db.stored.collection collection).records
        db.token queries with
    | .error e => db.failCollection cfg work collection e
    | .ok (states,order) => DB.withTask { db with hub := db.hub.setTable table order } work (.publishing (views.zip states))
  else
    let records := db.memoryRecords cfg collection
    match (db.hub.table table).rebuild records db.token with
    | .error e => db.failCollection cfg work collection e
    | .ok order =>
      let db' := { db with hub := db.hub.setTable table order }
      match queries.mapM (buildReactiveViewState cfg.priority cfg.limits records order db.token) with
      | .error e => db'.failCollection cfg work collection e
      | .ok states => db'.withTask work (.publishing (views.zip states))
def DB.workStep (names : List Bytes) (order : List ℕ) : Option DB :=
  match db.hub.work with
  | none => none
  | some work =>
    match work.task with
    | .select => db.selectWork cfg work names
    | .ordered collection changes table =>
      if order.isPerm (db.hub.group cfg collection) then some (db.withTask work (.viewing collection changes table order))
      else none
    | .viewing _ _ _ [] => some (db.withTask work .select)
    | .viewing collection changes table (v::rest) =>
      match db.hub.applyViewBatch cfg v table work.token changes with
      | none => some (db.withTask work (.rebuilding collection))
      | some hub => some (DB.withTask { db with hub } work (.viewing collection changes table rest))
    | .rebuilding collection =>
      let group := db.hub.group cfg collection
      if !cfg.durable then some (db.withTask work (.locking collection))
      else if db.hub.closed || group.isEmpty then some (db.withTask work .select)
      else some (db.withTask work (.attempting collection group 0))
    | .attempting collection targets attempt =>
      if !db.staged.isEmpty then none
      else if db.closed then some (db.failCollection cfg work collection .closed)
      else some (db.withTask work (.opening collection targets attempt db.token))
    | .opening collection targets attempt token =>
      match buildStorageReactiveViewStates cfg.priority cfg.limits db.sequence (db.stored.collection collection).records
          token (db.hub.queriesOf cfg targets) with
      | .error e => some (db.failCollection cfg work collection e)
      | .ok (states,table) => some (db.withTask work (.installing collection targets attempt token states table))
    | .installing collection targets attempt token states table =>
      if !db.staged.isEmpty then none else some (db.handOver cfg work collection targets attempt token states table)
    | .locking collection =>
      if !db.staged.isEmpty then none
      else if db.closed then some (db.failCollection cfg work collection .closed)
      else
        let ensured := db.hub.ensureOrder collection
        some (DB.withTask { db with hub := ensured.1 } work (.building collection (ensured.1.group cfg collection) ensured.2))
    | .building collection views table => some (db.buildLocked cfg work collection views table)
    | .publishing [] => some (db.withTask work .select)
    | .publishing ((v,state) :: rest) =>
      some (DB.withTask { db with hub := db.hub.publishNewerViewState cfg v state } work (.publishing rest))
    | .failing [] _ => some (db.withTask work .select)
    | .failing (v::rest) e => some (DB.withTask { db with hub := db.hub.failView cfg v e } work (.failing rest e))

variable (i : ℕ) (s : Subscription)

def DB.setSubscription (phase : SubscribePhase) : DB :=
  { db with subscriptions := db.subscriptions.set i { s with phase } }
def DB.failSubscription (e : ReactiveError) : DB :=
  { db.setSubscription i s (.returned (some e)) with hub := { db.hub with failures := db.hub.failures ++ [e] } }
def ReactiveHub.currentView (hub : ReactiveHub) (key token : ℕ) : Bool :=
  ((hub.viewWithKey key).bind fun v => hub.views[v]?.map fun view => decide (view.state.token = token)).getD false

/-- Takes the read lock and looks for a view at the current token. -/
def DB.enterSubscription (allowCold : Bool) : DB :=
  if db.closed then db.failSubscription i s .closed
  else if db.hub.currentView s.key db.token then db.setSubscription i s (.returned none)
  else if allowCold && cfg.durable && (db.hub.group cfg (cfg.queries s.key).1).isEmpty then
    db.setSubscription i s (.attempting 0)
  else db.setSubscription i s .locked
def DB.buildSubscription : DB :=
  let collection := (cfg.queries s.key).1
  let query := (cfg.queries s.key).2
  let ensured := db.hub.ensureOrder collection
  let db := { db with hub := ensured.1 }
  if cfg.durable then
    match buildStorageReactiveViewStates cfg.priority cfg.limits db.sequence (db.stored.collection collection).records
        db.token [query] with
    | .error e => db.failSubscription i s e
    | .ok (states,order) =>
      match states with
      | [] => db.failSubscription i s .corrupt
      | state::_ =>
        DB.setSubscription { db with hub := ensured.1.setTable ensured.2 order } i s (.registering ensured.2 state)
  else
    let records := db.memoryRecords cfg collection
    match (ensured.1.table ensured.2).rebuild records db.token with
    | .error e => db.failSubscription i s e
    | .ok order =>
      let db' := { db with hub := ensured.1.setTable ensured.2 order }
      match buildReactiveViewState cfg.priority cfg.limits records order db.token query with
      | .error e => db'.failSubscription i s e
      | .ok state => db'.setSubscription i s (.registering ensured.2 state)
def DB.registerSubscription (state : ReactiveViewState) : DB :=
  if db.hub.closed then db.failSubscription i s .closed
  else match db.hub.viewWithKey s.key with
    | none => DB.setSubscription { db with hub := db.hub.register s.key state } i s (.returned none)
    | some v =>
      DB.setSubscription { db with hub := db.hub.publishNewerViewState cfg v state } i s (.returned none)
def DB.retrySubscription (attempt : ℕ) : DB :=
  db.setSubscription i s (if attempt < maxColdReactiveSubscriptionAttempts then .attempting attempt else .entering false)
def DB.installSubscription (attempt token : ℕ) (table : ReactiveCollectionOrder)
    (state : ReactiveViewState) : DB :=
  let collection := (cfg.queries s.key).1
  if db.closed then db.failSubscription i s .closed
  else if db.token ≠ token then db.retrySubscription i s (attempt+1)
  else if db.hub.closed then db.failSubscription i s .closed
  else if db.hub.currentView s.key token then db.setSubscription i s (.returned none)
  else if !(db.hub.group cfg collection).isEmpty then db.setSubscription i s (.entering false)
  else
    let hub := { db.hub.register s.key state with tables := db.hub.tables ++ [table],
                                                  orders := remove collection db.hub.orders ++
                                                    [(collection,db.hub.tables.length)] }
    DB.setSubscription { db with hub } i s (.returned none)
def DB.subscribeStep : Option DB :=
  match db.subscriptions[i]? with
  | none => none
  | some s =>
    match s.phase with
    | .entering allowCold => if db.staged.isEmpty then some (db.enterSubscription cfg i s allowCold) else none
    | .locked => some (db.buildSubscription cfg i s)
    | .registering _ state => some (db.registerSubscription cfg i s state)
    | .attempting attempt =>
      if !db.staged.isEmpty then none
      else if db.closed then some (db.failSubscription i s .closed)
      else some (db.setSubscription i s (.opening attempt db.token))
    | .opening attempt token =>
      match buildStorageReactiveViewStates cfg.priority cfg.limits db.sequence
          (db.stored.collection (cfg.queries s.key).1).records token [(cfg.queries s.key).2] with
      | .error e => some (db.failSubscription i s e)
      | .ok (states,table) =>
        match states with
        | [] => some (db.failSubscription i s .corrupt)
        | state::_ => some (db.setSubscription i s (.installing attempt token table state))
    | .installing attempt token table state =>
      if !db.staged.isEmpty then none else some (db.installSubscription cfg i s attempt token table state)
    | .returned _ => none

/-- The steps of the writers, the dispatcher, the watchers, the subscribers, the
hub's worker and `Close`. -/
inductive Action where
  | store (group : List (List Change))
  | publish
  | dispatch (order : List ℕ)
  | watch (collection : Bytes) (buffer : ℕ)
  | watcher (i : ℕ) (step : WatcherStep)
  /-- The context of a watcher ends. -/
  | cancel (i : ℕ)
  | subscribe (key : ℕ)
  | subscription (i : ℕ)
  /-- The last subscriber of a view leaves or is dropped. -/
  | detach (v : ℕ)
  | processPending (resync : List Bytes)
  | work (names : List Bytes) (order : List ℕ)
  | close
  | closeDispatcher
  | closeHub
  | closeWatchers

def DB.step (db : DB) : Action → Option DB
  | .store group => db.store group
  | .publish => db.publish
  | .dispatch order => db.dispatch cfg order
  | .watch collection buffer => db.watch collection buffer
  | .watcher i step => (db.feed.step i step).map fun feed => { db with feed }
  | .cancel i => some { db with feed := db.feed.finish i (some .canceled) }
  | .subscribe key => some { db with subscriptions := db.subscriptions ++ [⟨key,.entering true⟩] }
  | .subscription i => db.subscribeStep cfg i
  | .detach v => some { db with hub := db.hub.deleteView cfg v }
  | .processPending resync => (db.hub.processPending resync).map fun hub => { db with hub }
  | .work names order => db.workStep cfg names order
  | .close => if db.readLocked || !db.staged.isEmpty then none else some { db with closed := true }
  | .closeDispatcher => if db.closed then some { db with dispatcher := { db.dispatcher with closed := true } } else none
  | .closeHub =>
    match db.dispatcher.phase with
    | .waiting => if db.dispatcher.closed then some { db with hub := db.hub.close } else none
    | _ => none
  | .closeWatchers =>
    match db.dispatcher.phase with
    | .waiting => if db.dispatcher.closed then some { db with feed := db.feed.finishAll none } else none
    | _ => none
def DB.run (db : DB) : List Action → Option DB
  | [] => some db
  | a::rest => (db.step cfg a).bind fun next => next.run rest

end
end Meldbase.Database
