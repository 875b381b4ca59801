import Meldbase.Library.ByteText
import Meldbase.Server.Policy

/-! # Read policies of workers

Workers register read policies with a hub.  The generation of a policy is read before
the hub is locked, and a new generation is stored by a transaction whose hooks run
after the commit, before the database takes the next one.  A hook acts only while the
worker that staged it owns the policy.
-/
namespace Meldbase.Server
open List Function KeyedList
open Database
open Logical (Identifier zeroIdentifier)

/-! ### The hub -/

structure ReadPolicyDeclaration where
  (collection declarationDigest : Bytes)
  maxResults : ℕ
  allowAllQueryPaths : Bool
  allowedQueryPaths : Option (List Bytes)
  allowAllResultFields : Bool
  allowedResultFields : Option (List Bytes)
  deriving DecidableEq

structure WorkerReadPolicy extends ReadPolicyDeclaration where
  policyVersion : Bytes
  generation : Identifier
  lease : QueryPolicyLease
  deriving DecidableEq

/-- A connection that has loaded the generations of a part of its policies. -/
structure Registering where
  methods : List (Bytes × Bytes)
  remaining : List ReadPolicyDeclaration
  loaded : List WorkerReadPolicy

structure WorkerConnection where
  methods : List (Bytes × Bytes)
  readPolicies : List WorkerReadPolicy
  registering : Option Registering

/-- The callback of a staged generation. -/
structure PolicyHook where
  worker : ℕ
  collection : Bytes
  generation : Identifier
  deriving DecidableEq

structure WorkerHub where
  (reserved managedReadPolicies : List Bytes)
  /-- Connection and mode of each method. -/
  owners : Bytes → Option (ℕ × Bytes)
  readPolicies : Bytes → Option (ℕ × WorkerReadPolicy)
  workers : ℕ → WorkerConnection
  revoked : List ℕ
  /-- Leases created so far. -/
  leases : ℕ
  /-- The generation records of the database; zero without a record. -/
  stored : Bytes → Identifier
  staged : ℕ → List PolicyHook
  /-- Hooks of the commit that still holds the database lock. -/
  hooks : List PolicyHook
  /-- Hooks that have run, the latest first. -/
  called : List PolicyHook
  /-- Every policy that the hub has offered. -/
  offered : List WorkerReadPolicy

section Hub
variable (sha256 : Bytes → Bytes)

def readPolicyText : Bytes := [0x72,0x65,0x61,0x64,0x2d,0x70,0x6f,0x6c,0x69,0x63,0x79,0x2d]
def readPolicyVersion (declarationDigest : Bytes) (generation : Identifier) : Bytes :=
  readPolicyText ++ (ByteText.hexEncode (sha256 (declarationDigest ++ generation.val))).map (fun c => Fin.ofNat 256 c.toNat)
def activateWorkerReadPolicy (declared : ReadPolicyDeclaration) (generation : Identifier) (identity : ℕ) :
    Option WorkerReadPolicy :=
  let policyVersion := readPolicyVersion sha256 declared.declarationDigest generation
  if validPolicyVersion policyVersion then
    some { declared with policyVersion,generation,lease := ⟨identity,policyVersion⟩ }
  else none

/-- `[A-Za-z][A-Za-z0-9_-]{0,127}` -/
def workerCollectionName : Bytes → Bool
  | [] => false
  | first::rest =>
    let letter (b : Byte) : Bool := 65 ≤ b.val && b.val ≤ 90 || 97 ≤ b.val && b.val ≤ 122
    letter first && rest.length ≤ 127 && rest.all (fun b => letter b || 48 ≤ b.val && b.val ≤ 57 || b.val = 95 || b.val = 45)

variable (hub : WorkerHub)

def resolveQueryPolicy (collection : Bytes) (answer : Except PolicyError (Option ClientQuery)) :
    Option (Except PolicyError QueryPolicy) :=
  if !workerCollectionName collection || collection ∉ hub.managedReadPolicies then none
  else
    match hub.readPolicies collection with
    | none => some (.error .forbidden)
    | some (_,p) => some (answer.map fun constraint => {
        policyVersion := p.policyVersion,lease := some p.lease,constraint,maxResults := p.maxResults
        allowAllQueryPaths := p.allowAllQueryPaths,allowedQueryPaths := p.allowedQueryPaths
        allowAllFilterPaths := false,allowedFilterPaths := none,allowAllFilterOperators := false,allowedFilterOperators := none
        allowAllSortPaths := false,allowedSortPaths := none,allowAllAggregateFields := false,allowedAggregateFields := none
        allowAllResultFields := p.allowAllResultFields,allowedResultFields := p.allowedResultFields
        additionalLease := none,compositeLeases := false })

variable (worker : ℕ)

def WorkerHub.setWorker (connection : WorkerConnection) : WorkerHub :=
  { hub with workers := update hub.workers worker connection }
def beginRegister (methods : List (Bytes × Bytes)) (declared : List ReadPolicyDeclaration) (hub : WorkerHub) : WorkerHub :=
  if (hub.workers worker).readPolicies = [] ∧ (declared.map ReadPolicyDeclaration.collection).Nodup then
    hub.setWorker worker { hub.workers worker with registering := some ⟨methods,declared,[]⟩ }
  else hub
def loadPolicyGeneration (hub : WorkerHub) : WorkerHub :=
  match (hub.workers worker).registering with
  | some ⟨methods,declared::remaining,loaded⟩ =>
    let registering := (activateWorkerReadPolicy sha256 declared (hub.stored declared.collection) hub.leases).map
      fun p => ⟨methods,remaining,loaded ++ [p]⟩
    { hub.setWorker worker { hub.workers worker with registering } with leases := hub.leases+1 }
  | _ => hub
def byCollection (policies : List WorkerReadPolicy) : List (Bytes × WorkerReadPolicy) := policies.map fun p => (p.collection,p)

/-- Validates ownership and publishes methods and read policies together. -/
def register (hub : WorkerHub) : WorkerHub :=
  match (hub.workers worker).registering with
  | some ⟨methods,[],loaded⟩ =>
    if methods.any (fun m => m.1 ∈ hub.reserved || (hub.owners m.1).isSome) ||
        loaded.any (fun p => p.collection ∉ hub.managedReadPolicies || (hub.readPolicies p.collection).isSome) then
      hub.setWorker worker { hub.workers worker with registering := none }
    else
      { hub.setWorker worker ⟨methods,loaded,none⟩ with
        owners := fun name => ((find name methods).map fun mode => (worker,mode)).or (hub.owners name)
        readPolicies := fun c => ((find c (byCollection loaded)).map fun p => (worker,p)).or (hub.readPolicies c)
        offered := loaded ++ hub.offered }
  | _ => hub

/-- Removes a worker's registrations and revokes its policy leases. -/
def unregister (hub : WorkerHub) : WorkerHub :=
  let connection := hub.workers worker
  { hub with
    owners := fun name =>
      if name ∈ connection.methods.map Prod.fst ∧ (hub.owners name).any (·.1 = worker) then none else hub.owners name
    readPolicies := fun c =>
      if c ∈ connection.readPolicies.map (·.collection) ∧ (hub.readPolicies c).any (·.1 = worker) then none
      else hub.readPolicies c
    revoked := connection.readPolicies.map (·.lease.identity) ++ hub.revoked }

variable (hook : PolicyHook)

def stagePolicyInvalidation (transaction : ℕ) (hub : WorkerHub) : WorkerHub :=
  if workerCollectionName hook.collection && (hub.readPolicies hook.collection).any (·.1 = hook.worker) &&
      hook.generation ≠ zeroIdentifier && (hub.staged transaction).all (·.collection ≠ hook.collection) then
    { hub with staged := update hub.staged transaction (hub.staged transaction ++ [hook]) }
  else hub
def generations (hooks : List PolicyHook) : List (Bytes × Identifier) := hooks.map fun h => (h.collection,h.generation)

/-- Stores the staged generations; the database stays locked until the hooks have run. -/
def commitTransaction (transaction : ℕ) (hub : WorkerHub) : WorkerHub :=
  if hub.hooks = [] then
    { hub with
      stored := fun c => (find c (generations (hub.staged transaction))).getD (hub.stored c)
      hooks := hub.staged transaction
      staged := update hub.staged transaction [] }
  else hub
def replaceReadPolicy (next : WorkerReadPolicy) : List WorkerReadPolicy → List WorkerReadPolicy
  | [] => []
  | p::rest => if p.collection = next.collection then next :: rest else p :: replaceReadPolicy next rest
def commitPolicyInvalidation (hub : WorkerHub) : WorkerHub :=
  if hook.generation = zeroIdentifier then hub
  else
    match hub.readPolicies hook.collection with
    | none => hub
    | some (owner,previous) =>
      if owner ≠ hook.worker then hub
      else
        match activateWorkerReadPolicy sha256 previous.toReadPolicyDeclaration hook.generation hub.leases with
        | none =>
          { hub with
            readPolicies := update hub.readPolicies hook.collection none
            revoked := previous.lease.identity::hub.revoked }
        | some next =>
          let connection := hub.workers owner
          { hub.setWorker owner { connection with readPolicies := replaceReadPolicy next connection.readPolicies } with
            readPolicies := update hub.readPolicies hook.collection (some (owner,next))
            revoked := previous.lease.identity::hub.revoked
            leases := hub.leases+1
            offered := next::hub.offered }

inductive HubEvent where
  | connect (worker : ℕ) (methods : List (Bytes × Bytes)) (declared : List ReadPolicyDeclaration)
  | load (worker : ℕ)
  | register (worker : ℕ)
  | unregister (worker : ℕ)
  | stage (hook : PolicyHook) (transaction : ℕ)
  | commit (transaction : ℕ)
  | callback

def hubStep : HubEvent → WorkerHub
  | .connect worker methods declared => beginRegister worker methods declared hub
  | .load worker => loadPolicyGeneration sha256 worker hub
  | .register worker => register worker hub
  | .unregister worker => unregister worker hub
  | .stage hook transaction => stagePolicyInvalidation hook transaction hub
  | .commit transaction => commitTransaction transaction hub
  | .callback =>
    match hub.hooks with
    | [] => hub
    | hook::rest => { commitPolicyInvalidation sha256 hook hub with hooks := rest,called := hook::hub.called }
def newWorkerHub (reserved managed : List Bytes) (stored : Bytes → Identifier) : WorkerHub where
  reserved := reserved
  managedReadPolicies := managed
  owners := fun _ => none
  readPolicies := fun _ => none
  workers := fun _ => ⟨[],[],none⟩
  revoked := []
  leases := 0
  stored := stored
  staged := fun _ => []
  hooks := []
  called := []
  offered := []

/-! ### Leases -/

structure ValidRegistering (connection : WorkerConnection) (r : Registering) : Prop where
  idle : connection.readPolicies = []
  distinct : (r.loaded.map (·.collection) ++ r.remaining.map (·.collection)).Nodup
  versions : ∀ p ∈ r.loaded, p.policyVersion = readPolicyVersion sha256 p.declarationDigest p.generation

/-- What every run keeps: the hub offers policies that its connections hold, and every
lease it has handed out is revoked or of a policy it offers. -/
structure HubInvariant (hub : WorkerHub) : Prop where
  registering : ∀ w r, (hub.workers w).registering = some r → ValidRegistering sha256 (hub.workers w) r
  versions : ∀ p ∈ hub.offered, p.policyVersion = readPolicyVersion sha256 p.declarationDigest p.generation
  owned : ∀ c w p, hub.readPolicies c = some (w,p) → p.collection = c ∧ p ∈ (hub.workers w).readPolicies ∧ p ∈ hub.offered
  leased : ∀ p ∈ hub.offered, p.lease.identity ∈ hub.revoked ∨ ∃ w, hub.readPolicies p.collection = some (w,p)

variable {sha256} {hub : WorkerHub} {p : WorkerReadPolicy} {policies : List WorkerReadPolicy}
  {first : Bytes → Identifier}

theorem activateWorkerReadPolicy_some
    (h : activateWorkerReadPolicy sha256 d g n = some p) : p.collection = d.collection ∧ p.generation = g ∧
      p.policyVersion = readPolicyVersion sha256 p.declarationDigest p.generation := by
  unfold activateWorkerReadPolicy at h
  dsimp only at h
  split_ifs at h
  cases h
  exact ⟨rfl,rfl,rfl⟩

theorem mem_replaceReadPolicy {next : WorkerReadPolicy} (hp : p ∈ policies)
    (hne : p.collection ≠ next.collection) : p ∈ replaceReadPolicy next policies := by
  induction policies with
  | nil => exact hp
  | cons q rest ih =>
    rw [replaceReadPolicy]
    rcases mem_cons.mp hp with rfl | hp
    · rw [if_neg hne]
      exact mem_cons_self
    split_ifs
    · exact mem_cons_of_mem _ hp
    · exact mem_cons_of_mem _ (ih hp)

theorem replaceReadPolicy_mem {next : WorkerReadPolicy} (hp : p ∈ policies)
    (heq : p.collection = next.collection) : next ∈ replaceReadPolicy next policies := by
  induction policies with
  | nil => cases hp
  | cons q rest ih =>
    rw [replaceReadPolicy]
    rcases mem_cons.mp hp with rfl | hp
    · rw [if_pos heq]
      exact mem_cons_self
    split_ifs
    · exact mem_cons_self
    · exact mem_cons_of_mem _ (ih hp)

theorem find_byCollection (h : find c (byCollection policies) = some p) : p ∈ policies ∧ p.collection = c := by
  obtain ⟨q,hq,heq⟩ := mem_map.mp (mem_of_find h)
  cases heq
  exact ⟨hq,rfl⟩

theorem find_byCollection_mem (hn : (policies.map (·.collection)).Nodup)
    (hp : p ∈ policies) : find p.collection (byCollection policies) = some p := by
  refine find_of_mem ?_ (mem_map_of_mem hp)
  rw [KeyedList.keys,byCollection,map_map]
  exact hn

@[simp] theorem setWorker_self (w : ℕ) (connection : WorkerConnection) : (hub.setWorker w connection).workers w = connection :=
  update_self ..

theorem setWorker_of_ne (h : v ≠ w) (connection : WorkerConnection) : (hub.setWorker w connection).workers v = hub.workers v :=
  update_of_ne h ..

section
variable (h : HubInvariant sha256 hub)
include h

/-- A connection may change its registration in progress. -/
theorem HubInvariant.setWorker (w : ℕ)
    (hpolicies : connection.readPolicies = (hub.workers w).readPolicies)
    (hr : ∀ r, connection.registering = some r → ValidRegistering sha256 connection r) :
    HubInvariant sha256 (hub.setWorker w connection) := by
  refine ⟨fun v r hv => ?_,h.versions,fun c v p hp => ?_,h.leased⟩ <;> by_cases hvw : v = w
  · rw [hvw,setWorker_self] at hv ⊢
    exact hr r hv
  · rw [setWorker_of_ne hvw] at hv ⊢
    exact h.registering v r hv
  · rw [hvw,setWorker_self,hpolicies,← hvw]
    exact h.owned c v p hp
  · rw [setWorker_of_ne hvw]
    exact h.owned c v p hp

theorem HubInvariant.connect (w : ℕ) (methods : List (Bytes × Bytes)) (declared : List ReadPolicyDeclaration) :
    HubInvariant sha256 (beginRegister w methods declared hub) := by
  unfold beginRegister
  split_ifs with hnew
  · refine h.setWorker w rfl fun r hr => ?_
    cases hr
    exact ⟨hnew.1,hnew.2,nofun⟩
  · exact h

theorem HubInvariant.load (w : ℕ) : HubInvariant sha256 (loadPolicyGeneration sha256 w hub) := by
  unfold loadPolicyGeneration
  split
  case h_2 => exact h
  case h_1 methods declared remaining loaded heq =>
    obtain ⟨hidle,hnodup,hversions⟩ := h.registering w _ heq
    have hset : HubInvariant sha256 (hub.setWorker w { hub.workers w with
        registering := (activateWorkerReadPolicy sha256 declared (hub.stored declared.collection) hub.leases).map
          fun p => ⟨methods,remaining,loaded ++ [p]⟩ }) := by
      refine h.setWorker w rfl fun r hr => ?_
      obtain ⟨p,hp,rfl⟩ := Option.map_eq_some_iff.mp hr
      obtain ⟨hc,-,hversion⟩ := activateWorkerReadPolicy_some hp
      refine ⟨hidle,by simpa [hc] using hnodup,fun q hq => ?_⟩
      rcases mem_append.mp hq with hq | hq
      · exact hversions q hq
      · rw [mem_singleton.mp hq]
        exact hversion
    exact ⟨hset.registering,hset.versions,hset.owned,hset.leased⟩

end

theorem HubInvariant.register (h : HubInvariant sha256 hub) (w : ℕ) : HubInvariant sha256 (register w hub) := by
  unfold Server.register
  split
  case h_2 => exact h
  case h_1 methods loaded heq =>
    obtain ⟨hempty,hnodup,hversions⟩ := h.registering w _ heq
    rw [map_nil,append_nil] at hnodup
    split_ifs with hrefused
    · exact h.setWorker w rfl (by rintro r ⟨⟩)
    have hfree : ∀ p ∈ loaded, hub.readPolicies p.collection = none := by
      simp only [Bool.or_eq_true,not_or,any_eq_true,not_exists,not_and] at hrefused
      intro p hp
      simpa using (hrefused.2 p hp).2
    -- a policy that was owned before belongs to another connection
    have hother {c v p} (hold : hub.readPolicies c = some (v,p)) : v ≠ w := by
      rintro rfl
      have hmem := (h.owned c v p hold).2.1
      rw [hempty] at hmem
      cases hmem
    refine ⟨fun v r hv => ?_,fun p hp => ?_,fun c v p hp => ?_,fun p hp => ?_⟩
    · by_cases hvw : v = w
      · rw [hvw,setWorker_self] at hv
        cases hv
      · rw [setWorker_of_ne hvw] at hv ⊢
        exact h.registering v r hv
    · exact (mem_append.mp hp).elim (hversions p) (h.versions p)
    · rcases Option.or_eq_some_iff.mp hp with hnew | ⟨-,hold⟩
      · obtain ⟨q,hq,heq⟩ := Option.map_eq_some_iff.mp hnew
        cases heq
        obtain ⟨hmem,hc⟩ := find_byCollection hq
        refine ⟨hc,?_,mem_append_left _ hmem⟩
        rw [setWorker_self]
        exact hmem
      obtain ⟨hc,hmem,hoffered⟩ := h.owned c v p hold
      refine ⟨hc,?_,mem_append_right _ hoffered⟩
      rw [setWorker_of_ne (hother hold)]
      exact hmem
    rcases mem_append.mp hp with hnew | hold
    · refine .inr ⟨w,?_⟩
      change ((find p.collection (byCollection loaded)).map _).or _ = _
      rw [find_byCollection_mem hnodup hnew]
      rfl
    refine (h.leased p hold).imp id (Exists.imp fun v hv => ?_)
    change ((find p.collection (byCollection loaded)).map _).or _ = _
    cases hfind : find p.collection (byCollection loaded) with
    | none => exact hv
    | some q =>
      obtain ⟨hq,hc⟩ := find_byCollection hfind
      rw [← hc,hfree q hq] at hv
      cases hv

theorem HubInvariant.unregister (h : HubInvariant sha256 hub) (w : ℕ) : HubInvariant sha256 (unregister w hub) := by
  refine ⟨h.registering,h.versions,fun c v p hp => ?_,fun p hp => ?_⟩
  · change (if _ then none else hub.readPolicies c) = _ at hp
    split_ifs at hp
    exact h.owned c v p hp
  rcases h.leased p hp with hrevoked | ⟨v,hv⟩
  · exact .inl (mem_append_right _ hrevoked)
  by_cases hvw : v = w
  · subst hvw
    exact .inl (mem_append_left _ (mem_map_of_mem (h.owned _ v p hv).2.1))
  refine .inr ⟨v,(if_neg ?_).trans hv⟩
  rintro ⟨-,hany⟩
  rw [hv] at hany
  exact hvw (of_decide_eq_true hany)

theorem HubInvariant.invalidate (h : HubInvariant sha256 hub) (hook : PolicyHook) :
    HubInvariant sha256 (commitPolicyInvalidation sha256 hook hub) := by
  unfold commitPolicyInvalidation
  split_ifs
  · exact h
  split
  · exact h
  case h_2 owner previous howner =>
    obtain ⟨hc,hmem,-⟩ := h.owned _ _ _ howner
    split_ifs
    · exact h
    have hleased (x : Option (ℕ × WorkerReadPolicy)) : ∀ p ∈ hub.offered,
      p.lease.identity ∈ previous.lease.identity::hub.revoked ∨
        ∃ v, update hub.readPolicies hook.collection x p.collection = some (v,p) := by
      intro p hp
      rcases h.leased p hp with hrevoked | ⟨v,hv⟩
      · exact .inl (mem_cons_of_mem _ hrevoked)
      by_cases hpc : p.collection = hook.collection
      · rw [hpc,howner] at hv
        cases hv
        exact .inl mem_cons_self
      · exact .inr ⟨v,by rw [update_of_ne hpc,hv]⟩
    split
    · refine ⟨h.registering,h.versions,fun c v p hp => ?_,hleased none⟩
      change update _ _ _ c = _ at hp
      by_cases hch : c = hook.collection
      · rw [hch,update_self] at hp
        cases hp
      · rw [update_of_ne hch] at hp
        exact h.owned c v p hp
    case h_2 next hnext =>
      obtain ⟨hcollection,-,hversion⟩ := activateWorkerReadPolicy_some hnext
      refine ⟨fun v r hv => ?_,fun p hp => ?_,fun c v p hp => ?_,fun p hp => ?_⟩
      · by_cases hvo : v = owner
        · rw [hvo,setWorker_self] at hv
          rw [(h.registering owner r hv).idle] at hmem
          cases hmem
        · rw [setWorker_of_ne hvo] at hv ⊢
          exact h.registering v r hv
      · rcases mem_cons.mp hp with rfl | hp
        · exact hversion
        · exact h.versions p hp
      · change update _ _ _ c = _ at hp
        by_cases hch : c = hook.collection
        · rw [hch,update_self] at hp
          cases hp
          rw [setWorker_self]
          exact ⟨(hcollection.trans hc).trans hch.symm,replaceReadPolicy_mem hmem hcollection.symm,mem_cons_self⟩
        rw [update_of_ne hch] at hp
        obtain ⟨hpc,hpmem,hpoffered⟩ := h.owned c v p hp
        refine ⟨hpc,?_,mem_cons_of_mem _ hpoffered⟩
        by_cases hvo : v = owner
        · rw [hvo,setWorker_self]
          refine mem_replaceReadPolicy (hvo ▸ hpmem) ?_
          rw [hpc,hcollection,hc]
          exact hch
        · rw [setWorker_of_ne hvo]
          exact hpmem
      rcases mem_cons.mp hp with rfl | hp
      · refine .inr ⟨owner,?_⟩
        change update _ _ _ _ = _
        rw [hcollection,hc,update_self]
      · exact hleased _ p hp

theorem HubInvariant.step (h : HubInvariant sha256 hub) (e : HubEvent) : HubInvariant sha256 (hubStep sha256 hub e) := by
  cases e with
  | connect w methods declared => exact h.connect w methods declared
  | load w => exact h.load w
  | register w => exact h.register w
  | unregister w => exact h.unregister w
  | stage hook transaction =>
    simp only [hubStep,stagePolicyInvalidation]
    split_ifs
    · exact ⟨h.registering,h.versions,h.owned,h.leased⟩
    · exact h
  | commit transaction =>
    simp only [hubStep,commitTransaction]
    split_ifs
    · exact ⟨h.registering,h.versions,h.owned,h.leased⟩
    · exact h
  | callback =>
    simp only [hubStep]
    split
    · exact h
    next hook rest _ =>
    have hdone := h.invalidate hook
    exact ⟨hdone.registering,hdone.versions,hdone.owned,hdone.leased⟩

/-! ### Generations -/

structure ValidHooks (hooks : List PolicyHook) : Prop where
  distinct : (keys (generations hooks)).Nodup
  nonzero : ∀ hook ∈ hooks, hook.generation ≠ zeroIdentifier

def latestGeneration (first : Bytes → Identifier) (called : List PolicyHook) (c : Bytes) : Identifier :=
  (find c (generations called)).getD (first c)

/-- Registrations publish generations that are still stored, and a generation is
committed while no worker but its own has the policy. -/
def carefulEvent (hub : WorkerHub) : HubEvent → Bool
  | .register worker => (hub.workers worker).registering.all fun r => r.loaded.all fun p => p.generation = hub.stored p.collection
  | .commit transaction =>
    (hub.staged transaction).all fun hook => (hub.readPolicies hook.collection).all fun owner => owner.1 = hook.worker
  | _ => true

/-- The stored generations are those of the hooks, and an offered policy is behind them
only while the hook of its worker has not run. -/
structure HubCurrent (first : Bytes → Identifier) (hub : WorkerHub) : Prop where
  staged : ∀ t, ValidHooks (hub.staged t)
  hooks : ValidHooks hub.hooks
  stored : ∀ c, hub.stored c = (find c (generations hub.hooks)).getD (latestGeneration first hub.called c)
  current : ∀ c w p, hub.readPolicies c = some (w,p) → p.generation = hub.stored c ∨
    p.generation = latestGeneration first hub.called c ∧ ∃ hook ∈ hub.hooks, hook.collection = c ∧ hook.worker = w

theorem mem_generations (h : find c (generations hooks) = some g) :
    ∃ hook ∈ hooks, hook.collection = c ∧ hook.generation = g := by
  obtain ⟨hook,hhook,heq⟩ := mem_map.mp (mem_of_find h)
  cases heq
  exact ⟨hook,hhook,rfl,rfl⟩

theorem commitPolicyInvalidation_owner {hook : PolicyHook} (hzero : hook.generation ≠ zeroIdentifier)
    (h : (commitPolicyInvalidation sha256 hook hub).readPolicies c = some (w,p)) :
    (c = hook.collection ∧ p.generation = hook.generation) ∨
      (hub.readPolicies c = some (w,p) ∧ (c = hook.collection → w ≠ hook.worker)) := by
  unfold commitPolicyInvalidation at h
  rw [if_neg hzero] at h
  split at h
  · next hnone => exact .inr ⟨h,by rintro rfl; rw [hnone] at h; cases h⟩
  next owner previous howner =>
  split_ifs at h with hworker
  · refine .inr ⟨h,?_⟩
    rintro rfl
    rw [howner] at h
    cases h
    exact hworker
  split at h
  · change update _ _ _ c = _ at h
    by_cases hc : c = hook.collection
    · rw [hc,update_self] at h
      cases h
    · rw [update_of_ne hc] at h
      exact .inr ⟨h,fun heq => absurd heq hc⟩
  next next hnext =>
  change update _ _ _ c = _ at h
  by_cases hc : c = hook.collection
  · rw [hc,update_self] at h
    cases h
    exact .inl ⟨hc,(activateWorkerReadPolicy_some hnext).2.1⟩
  · rw [update_of_ne hc] at h
    exact .inr ⟨h,fun heq => absurd heq hc⟩

theorem commitPolicyInvalidation_frame : (commitPolicyInvalidation sha256 hook hub).staged = hub.staged ∧
    (commitPolicyInvalidation sha256 hook hub).stored = hub.stored := by
  unfold commitPolicyInvalidation
  split_ifs
  · exact ⟨rfl,rfl⟩
  split
  · exact ⟨rfl,rfl⟩
  split_ifs
  · exact ⟨rfl,rfl⟩
  split <;> exact ⟨rfl,rfl⟩

/-- Steps that offer no new policy and touch no generation. -/
theorem HubCurrent.frame (h : HubCurrent first hub) (hstaged : hub'.staged = hub.staged) (hhooks : hub'.hooks = hub.hooks)
    (hstored : hub'.stored = hub.stored) (hcalled : hub'.called = hub.called)
    (hoffers : ∀ c w p, hub'.readPolicies c = some (w,p) → hub.readPolicies c = some (w,p) ∨ p.generation = hub.stored c) :
    HubCurrent first hub' := by
  refine ⟨hstaged ▸ h.staged,hhooks ▸ h.hooks,by rw [hstored,hhooks,hcalled]; exact h.stored,fun c w p hp => ?_⟩
  rw [hstored,hhooks,hcalled]
  exact (hoffers c w p hp).elim (h.current c w p) .inl

theorem HubCurrent.register (h : HubCurrent first hub) (hcareful : carefulEvent hub (.register w)) :
    HubCurrent first (register w hub) := by
  unfold Server.register
  split
  · next methods loaded heq =>
    have hloaded : ∀ p ∈ loaded, p.generation = hub.stored p.collection := by simpa [carefulEvent,heq] using hcareful
    split_ifs
    · exact h.frame rfl rfl rfl rfl fun c v p hp => .inl hp
    refine h.frame rfl rfl rfl rfl fun c v p hp => ?_
    rcases Option.or_eq_some_iff.mp hp with hnew | ⟨-,hold⟩
    · obtain ⟨q,hq,heq⟩ := Option.map_eq_some_iff.mp hnew
      cases heq
      obtain ⟨hmem,rfl⟩ := find_byCollection hq
      exact .inr (hloaded _ hmem)
    · exact .inl hold
  · exact h

section
variable (h : HubCurrent first hub)
include h

theorem HubCurrent.stage (hook : PolicyHook) (t : ℕ) : HubCurrent first (stagePolicyInvalidation hook t hub) := by
  unfold stagePolicyInvalidation
  split_ifs with haccepted
  · obtain ⟨⟨-,hzero⟩,hnew⟩ : (_ ∧ hook.generation ≠ zeroIdentifier) ∧ ∀ x ∈ hub.staged t, x.collection ≠ hook.collection := by
      simpa using haccepted
    have hvalid : ValidHooks (hub.staged t ++ [hook]) := by
      obtain ⟨hdistinct,hnonzero⟩ := h.staged t
      refine ⟨?_,fun x hx => ?_⟩
      · have hkey : hook.collection ∉ keys (generations (hub.staged t)) := by
          intro hmem
          obtain ⟨g,hg⟩ := mem_keys.mp hmem
          obtain ⟨x,hx,heq⟩ := mem_map.mp hg
          exact hnew x hx (Prod.ext_iff.mp heq).1
        rw [generations,map_append,KeyedList.keys_append]
        exact concat_eq_append ▸ hdistinct.concat hkey
      rcases mem_append.mp hx with hx | hx
      · exact hnonzero x hx
      · rw [mem_singleton.mp hx]
        exact hzero
    exact ⟨(Function.forall_update_iff _ fun _ => ValidHooks).mpr ⟨hvalid,fun u _ => h.staged u⟩,h.hooks,h.stored,h.current⟩
  · exact h

theorem HubCurrent.commit (hcareful : carefulEvent hub (.commit t)) :
    HubCurrent first (commitTransaction t hub) := by
  unfold commitTransaction
  split_ifs with hidle
  · have hlatest : ∀ c, hub.stored c = latestGeneration first hub.called c := by
      intro c
      rw [h.stored,hidle]
      rfl
    have howner : ∀ hook ∈ hub.staged t, ∀ w p, hub.readPolicies hook.collection = some (w,p) → w = hook.worker := by
      intro hook hhook w p hp
      have hall := all_eq_true.mp hcareful hook hhook
      rw [hp] at hall
      exact of_decide_eq_true hall
    refine ⟨?_,h.staged t,fun c => by rw [← hlatest],fun c w p hp => ?_⟩
    · exact (Function.forall_update_iff _ fun _ => ValidHooks).mpr ⟨⟨nodup_nil,forall_mem_nil _⟩,fun u _ => h.staged u⟩
    have hp' : p.generation = hub.stored c := by
      rcases h.current c w p hp with hcurrent | ⟨-,hook,hmem,-⟩
      · exact hcurrent
      · rw [hidle] at hmem
        cases hmem
    change p.generation = (find c (generations (hub.staged t))).getD (hub.stored c) ∨ _
    cases hfind : find c (generations (hub.staged t)) with
    | none => exact .inl hp'
    | some g =>
      obtain ⟨hook,hmem,rfl,-⟩ := mem_generations hfind
      exact .inr ⟨hp'.trans (hlatest _),hook,hmem,rfl,(howner hook hmem w p hp).symm⟩
  · exact h

theorem HubCurrent.callback : HubCurrent first (hubStep sha256 hub .callback) := by
  simp only [hubStep]
  split
  · exact h
  next hook rest hhooks =>
  have hvalid := h.hooks
  have hstored := h.stored
  have hcurrent := h.current
  rw [hhooks] at hvalid hstored hcurrent
  obtain ⟨hfresh,hdistinct⟩ : hook.collection ∉ keys (generations rest) ∧ (keys (generations rest)).Nodup :=
    nodup_cons.mp hvalid.distinct
  obtain ⟨hstaged,hsame⟩ := commitPolicyInvalidation_frame hook
  -- the generation of the hook moves from the stored to the called ones
  have hfirst : hub.stored hook.collection = hook.generation := by
    rw [hstored]
    simp [generations,find]
  have hlatest (c : Bytes) : latestGeneration first (hook::hub.called) c =
      if hook.collection = c then hook.generation else latestGeneration first hub.called c := by
    unfold latestGeneration generations
    rw [map_cons,find]
    split_ifs <;> rfl
  refine ⟨by rw [hstaged]; exact h.staged,⟨hdistinct,fun x hx => hvalid.nonzero x (mem_cons_of_mem _ hx)⟩,
    fun c => ?_,fun c w p hp => ?_⟩
  · rw [hsame,hlatest]
    split_ifs with hc
    · subst hc
      change _ = (find hook.collection (generations rest)).getD _
      rw [hfirst,find_eq_none.mpr hfresh]
      rfl
    · rw [hstored,generations,map_cons,find,if_neg hc]
      rfl
  rw [hsame,hlatest]
  rcases commitPolicyInvalidation_owner (hvalid.nonzero hook mem_cons_self) hp with ⟨rfl,hg⟩ | ⟨hold,hworker⟩
  · exact .inl (hg.trans hfirst.symm)
  rcases hcurrent c w p hold with hsame | ⟨hg,x,hx,hxc,hxw⟩
  · exact .inl hsame
  rcases mem_cons.mp hx with rfl | hx
  · exact absurd hxw.symm (hworker hxc.symm)
  refine .inr ⟨?_,x,hx,hxc,hxw⟩
  rw [if_neg,hg]
  rintro rfl
  exact hfresh (mem_keys.mpr ⟨x.generation,mem_map.mpr ⟨x,hx,by rw [hxc]⟩⟩)

theorem HubCurrent.step (hcareful : carefulEvent hub e) : HubCurrent first (hubStep sha256 hub e) := by
  cases e with
  | connect w methods declared =>
    simp only [hubStep,beginRegister]
    split_ifs
    · exact h.frame rfl rfl rfl rfl fun c v p hp => .inl hp
    · exact h
  | load w =>
    simp only [hubStep,loadPolicyGeneration]
    split
    · exact h.frame rfl rfl rfl rfl fun c v p hp => .inl hp
    · exact h
  | register w => exact h.register hcareful
  | unregister w =>
    refine h.frame rfl rfl rfl rfl fun c v p hp => .inl ?_
    simp only [hubStep,unregister] at hp
    split_ifs at hp
    exact hp
  | stage hook t => exact h.stage hook t
  | commit t => exact h.commit hcareful
  | callback => exact h.callback

end

/-! ### Runs -/

def hubRun (sha256 : Bytes → Bytes) (hub : WorkerHub) (events : List HubEvent) : WorkerHub := events.foldl (hubStep sha256) hub
def carefulRun (sha256 : Bytes → Bytes) (hub : WorkerHub) : List HubEvent → Bool
  | [] => true
  | e::rest => carefulEvent hub e && carefulRun sha256 (hubStep sha256 hub e) rest

theorem hubRun_invariant (h : HubInvariant sha256 hub) (events : List HubEvent) :
    HubInvariant sha256 (hubRun sha256 hub events) := by
  induction events generalizing hub with
  | nil => exact h
  | cons e rest ih => exact ih (h.step e)

theorem hubRun_current (h : HubCurrent first hub) (hcareful : carefulRun sha256 hub events) :
    HubCurrent first (hubRun sha256 hub events) := by
  induction events generalizing hub with
  | nil => exact h
  | cons e rest ih =>
    obtain ⟨he,hrest⟩ := Bool.and_eq_true_iff.mp hcareful
    exact ih (h.step he) hrest

theorem newWorkerHub_invariant (reserved managed : List Bytes) : HubInvariant sha256 (newWorkerHub reserved managed first) :=
  ⟨nofun,nofun,nofun,nofun⟩

theorem newWorkerHub_current (reserved managed : List Bytes) : HubCurrent first (newWorkerHub reserved managed first) :=
  ⟨fun _ => ⟨nodup_nil,nofun⟩,⟨nodup_nil,nofun⟩,fun _ => rfl,nofun⟩

def generationsSince (hub : WorkerHub) (newer : List PolicyHook) (hook : PolicyHook) : List Identifier :=
  hook.generation :: ((hub.hooks ++ newer).filter (·.collection = hook.collection)).map PolicyHook.generation

theorem find_generations_since (newer older : List PolicyHook) (hook : PolicyHook) : ∃ x, (x = hook ∨ x ∈ newer) ∧
    x.collection = hook.collection ∧ find hook.collection (generations (newer ++ hook::older)) = some x.generation := by
  induction newer with
  | nil => exact ⟨hook,.inl rfl,rfl,if_pos rfl⟩
  | cons y newer ih =>
    by_cases hy : y.collection = hook.collection
    · exact ⟨y,.inr mem_cons_self,hy,if_pos hy⟩
    · obtain ⟨x,hx,hc,hfind⟩ := ih
      exact ⟨x,hx.imp id (mem_cons_of_mem y),hc,(if_neg hy).trans hfind⟩

theorem HubCurrent.since (h : HubCurrent first hub) {hook : PolicyHook}
    (hcalled : hub.called = newer ++ hook::older) (hp : hub.readPolicies hook.collection = some (w,p)) :
    p.generation ∈ generationsSince hub newer hook := by
  have hmem {x : PolicyHook} (hx : x ∈ hub.hooks ++ newer) (hc : x.collection = hook.collection) :
      x.generation ∈ generationsSince hub newer hook :=
    mem_cons_of_mem _ (mem_map_of_mem (mem_filter.mpr ⟨hx,decide_eq_true hc⟩))
  have hlatest : latestGeneration first hub.called hook.collection ∈ generationsSince hub newer hook := by
    obtain ⟨x,hx,hc,hfind⟩ := find_generations_since newer older hook
    rw [latestGeneration,hcalled,hfind]
    rcases hx with rfl | hx
    · exact mem_cons_self
    · exact hmem (mem_append_right _ hx) hc
  have hstored : hub.stored hook.collection ∈ generationsSince hub newer hook := by
    rw [h.stored]
    cases hfind : find hook.collection (generations hub.hooks) with
    | none => exact hlatest
    | some g =>
      obtain ⟨x,hx,hc,rfl⟩ := mem_generations hfind
      exact hmem (mem_append_left _ hx) hc
  rcases h.current _ w p hp with hg | ⟨hg,-⟩
  · exact hg ▸ hstored
  · exact hg ▸ hlatest

/-- After a generation and its hook, every policy that is resolved for the collection has
a version of that generation or a later one, and all earlier leases are revoked. -/
theorem policy_invalidations_kept {reserved managed : List Bytes} {events : List HubEvent} {newer older : List PolicyHook}
    {hook : PolicyHook}
    (hcareful : carefulRun sha256 (newWorkerHub reserved managed first) events)
    (hcalled : (hubRun sha256 (newWorkerHub reserved managed first) events).called = newer ++ hook::older) :
    let hub := hubRun sha256 (newWorkerHub reserved managed first) events
    (∀ answer policy, resolveQueryPolicy hub hook.collection answer = some (.ok policy) →
      ∃ digest, ∃ g ∈ generationsSince hub newer hook, policy.policyVersion = readPolicyVersion sha256 digest g) ∧
    ∀ p ∈ hub.offered, p.collection = hook.collection → p.generation ∉ generationsSince hub newer hook →
      p.lease.identity ∈ hub.revoked := by
  intro hub
  have hinvariant : HubInvariant sha256 hub := hubRun_invariant (newWorkerHub_invariant reserved managed) events
  have hcurrent : HubCurrent first hub := hubRun_current (newWorkerHub_current reserved managed) hcareful
  refine ⟨fun answer policy hpolicy => ?_,fun p hp hc hearlier => ?_⟩
  · unfold resolveQueryPolicy at hpolicy
    split_ifs at hpolicy
    split at hpolicy
    · cases hpolicy
    next w p hp =>
    cases answer with
    | error e => cases hpolicy
    | ok constraint =>
      cases hpolicy
      exact ⟨p.declarationDigest,p.generation,hcurrent.since hcalled hp,hinvariant.versions p (hinvariant.owned _ w p hp).2.2⟩
  rcases hinvariant.leased p hp with hrevoked | ⟨w,hw⟩
  · exact hrevoked
  · rw [hc] at hw
    exact absurd (hcurrent.since hcalled hw) hearlier

end Hub

section Traces

def paddedDigest (b : Bytes) : Bytes := (b ++ List.replicate 32 0).take 32
def ordersName : Bytes := [0x6f,0x72,0x64,0x65,0x72,0x73]
def ordersPolicy : ReadPolicyDeclaration := ⟨ordersName,[],100,true,none,true,none⟩

/-- The next generation, staged by the first worker. -/
def ordersHook : PolicyHook := ⟨1,ordersName,.filled 7⟩
def registration (worker : ℕ) : List HubEvent := [.connect worker [] [ordersPolicy],.load worker,.register worker]
def ordersHub : WorkerHub := newWorkerHub [] [ordersName] fun _ => zeroIdentifier

/-- A worker stages a generation and disconnects, and another takes over before the commit:
the hook does nothing and the policy of the replaced generation stays in force. -/
theorem policy_invalidation_lost :
    let hub := hubRun paddedDigest ordersHub
      (registration 1 ++ [.stage ordersHook 0,.unregister 1] ++ registration 2 ++ [.commit 0,.callback])
    hub.called = [ordersHook] ∧ hub.hooks = [] ∧ hub.stored ordersName = ordersHook.generation ∧
      (resolveQueryPolicy hub ordersName (.ok none)).map (fun result => result.toOption.map QueryPolicy.policyVersion) =
        some (some (readPolicyVersion paddedDigest [] zeroIdentifier)) ∧
      readPolicyVersion paddedDigest [] zeroIdentifier ≠ readPolicyVersion paddedDigest [] ordersHook.generation ∧
      (hub.readPolicies ordersName).all (fun owner => owner.2.lease.identity ∉ hub.revoked) := by
  decide +kernel

/-- The worker that staged the generation keeps the policy until the hook has run. -/
theorem policy_invalidations_kept_orders :
    let hub := hubRun paddedDigest ordersHub (registration 1 ++ [.stage ordersHook 0,.commit 0,.callback])
    (∀ answer policy, resolveQueryPolicy hub ordersName answer = some (.ok policy) →
      ∃ digest, ∃ g ∈ generationsSince hub [] ordersHook, policy.policyVersion = readPolicyVersion paddedDigest digest g) ∧
    ∀ p ∈ hub.offered, p.collection = ordersName → p.generation ∉ generationsSince hub [] ordersHook →
      p.lease.identity ∈ hub.revoked :=
  policy_invalidations_kept (by decide +kernel) (show _ = [] ++ ordersHook :: [] by decide +kernel)

end Traces
end Meldbase.Server
