import Meldbase.Server.Idempotency

/-! # At most one execution per request

What any step can do to a record is said once, as the guarantee of the store's
programs: a record appears or replaces an expired outcome only when its own claim
writes it, a pending record turns into an outcome of the same claim, and only
expired outcomes are removed.  The rest is about runs.
-/
namespace Meldbase.Server
open Logical (Catalog SystemRecordMutation applySystemRecordMutation applySystemRecordMutation_applied
  applySystemRecordMutation_expected getSystemRecord Sha256 CollisionFree sha256)
open Program
variable {W : Type} {task : StoreTask W} {s s' : SystemState W} {rest : StoreM W StoreOutcome} {c : Claim}
  {m : SystemRecordMutation} {catalog : Catalog}

def Expired (latest : ℤ) (b : Bytes) : Prop := ∃ r, decodeRecord b = some r ∧ r.state ≠ .pending ∧ r.expiresAt ≤ latest
def Owned (s : SystemState W) (c : Claim) : Prop :=
  ∃ b, encodeRecord (pendingRecord c) = some b ∧ s.record (storageKey c) = some b
def StoreTask.owner : StoreTask W → Option Claim
  | .complete x => some x.claim
  | .markUnknown c => some c
  | .write x _ _ => some x.claim
  | _ => none

/-! ### What a step can do -/

inductive Change (task : StoreTask W) (rest : StoreM W StoreOutcome) (latest : ℤ) (key : Bytes) :
    Option Bytes → Option Bytes → Prop
  | claimed {c : Claim} {b : Bytes} {old : Option Bytes} (htask : task = .claim c) (hkey : key = storageKey c)
      (hb : encodeRecord (pendingRecord c) = some b) (hrest : ∃ a, rest = .done a) (hold : ∀ o, old = some o → Expired latest o) :
      Change task rest latest key old (some b)
  | finished {b b' : Bytes} (hb : stateByte b = some [RecordState.pending.code])
      (hb' : stateByte b' ≠ some [RecordState.pending.code])
      (hclaim : claimBytes b' = claimBytes b) : Change task rest latest key (some b) (some b')
  | removed {b : Bytes} (h : Expired latest b) : Change task rest latest key (some b) none

structure Guarantee (task : StoreTask W) (s s' : SystemState W) (rest : StoreM W StoreOutcome) : Prop where
  latest : s.latest ≤ s'.latest
  records : ∀ key, rpcIdempotencyKeyPrefix <+: key →
    s'.record key = s.record key ∨ Change task rest s.latest key (s.record key) (s'.record key)
  executes : rest = .done (.decided .execute) →
    ∃ c, task = .claim c ∧ Owned s' c ∧ ∀ o, s.record (storageKey c) = some o → Expired s.latest o
  owned : ∀ c, task.owner = some c → ¬ Owned s c → s'.catalog = s.catalog ∧ s'.business = s.business
  committed : s'.business ≠ s.business → ∃ c, task.owner = some c ∧ Owned s c ∧ ¬ Owned s' c

def Later (s s' : SystemState W) : Prop := s.latest ≤ s'.latest

theorem Guarantee.later (h : Guarantee task s s' rest) : Later s s' := h.latest

theorem stable_latest (t : ℤ) : Stable (Later (W := W)) (fun s => t ≤ s.latest) := fun _ _ => le_trans

theorem guarantee_kept (hcatalog : s'.catalog = s.catalog) (hlatest : s.latest ≤ s'.latest) (hbusiness : s'.business = s.business)
    (hrest : rest ≠ .done (.decided .execute)) : Guarantee task s s' rest where
  latest := hlatest
  records key _ := .inl (by rw [SystemState.record,SystemState.record,hcatalog])
  executes h := absurd h hrest
  owned _ _ _ := ⟨hcatalog,hbusiness⟩
  committed h := absurd hbusiness h

theorem completionRecord_claim (h : completionRecord x = some record) :
    record.state ≠ .pending ∧ record.claimID = x.claim.claimID := by
  unfold completionRecord at h
  dsimp only at h
  split_ifs at h <;> cases h <;> exact ⟨nofun,rfl⟩

theorem generationMutation_key (p : Bytes × Token 16) (h : rpcIdempotencyKeyPrefix <+: key) :
    key ≠ (generationMutation p.1 p.2).key := by
  rintro rfl
  obtain ⟨tail,htail⟩ := h
  cases htail

theorem storageKey_reserved (c : Claim) : rpcIdempotencyKeyPrefix <+: storageKey c := List.prefix_append _ _

/-! ### The programs -/

section
variable [Sha256]

theorem applyMutations_policies {policies : List (Bytes × Token 16)}
    (h : applyMutations catalog (policies.map (fun p => generationMutation p.1 p.2)) = .ok (some catalog'))
    (hkey : rpcIdempotencyKeyPrefix <+: key) : getSystemRecord (some catalog') key = getSystemRecord (some catalog) key := by
  induction policies generalizing catalog with
  | nil => cases h; rfl
  | cons p rest ih =>
    rw [List.map_cons,applyMutations] at h
    split at h
    · cases h
    · cases h
    · rename_i next happlied
      rw [ih h,(applySystemRecordMutation_applied happlied).2,if_neg (generationMutation_key p hkey)]

theorem atomicCompletion_eq (h : atomicCompletion x = some m) :
    ∃ pending record terminal, encodeRecord (pendingRecord x.claim) = some pending ∧ completionRecord x = some record ∧
      encodeRecord record = some terminal ∧ m = replaceRecord (storageKey x.claim) pending terminal := by
  obtain ⟨pending,hpending,h⟩ := Option.bind_eq_some_iff.mp h
  obtain ⟨record,hrecord,h⟩ := Option.bind_eq_some_iff.mp h
  obtain ⟨terminal,hterminal,h⟩ := Option.bind_eq_some_iff.mp h
  exact ⟨pending,record,terminal,hpending,hrecord,hterminal,(Option.some.inj h).symm⟩

theorem claimAttempts_undecided (c : Claim) (pending : Bytes) (n : ℕ) (b : Bytes) :
    claimAttempts (W := W) c pending n b ≠ .done (.decided .execute) := by
  cases n with
  | zero => exact nofun
  | succ n =>
    rw [claimAttempts]
    split <;> exact nofun

abbrev Keeps (task : StoreTask W) (program : StoreM W StoreOutcome) (known : SystemState W → Prop) : Prop :=
  program.Obeys Performs Later (Guarantee task) known

theorem compareAndSwap_keeps {failed : IdempotencyError → StoreOutcome}
    {mismatch : Bytes → StoreM W StoreOutcome} {known : SystemState W → Prop} (hstable : Stable Later known)
    (happlied : Keeps task applied known) (hmismatch : ∀ b, Keeps task (mismatch b) known)
    (hfailed : ∀ e, failed e ≠ .decided .execute) (hundecided : ∀ b, mismatch b ≠ .done (.decided .execute))
    (hswapped : ∀ s catalog, known s → applySystemRecordMutation s.catalog m = .ok (.applied catalog) →
      ∀ rest, rest = applied ∨ (∃ e, rest = .done (failed e)) → Guarantee task s { s with catalog := catalog } rest) :
    Keeps task (compareAndSwap m failed applied mismatch) known := by
  have hlater : ∀ (s s' : SystemState W) rest, Guarantee task s s' rest → Later s s' := fun _ _ _ h => h.later
  have hfail : ∀ e, (Program.done (failed e) : StoreM W StoreOutcome) ≠ .done (.decided .execute) :=
    fun e h => hfailed e (Program.done.inj h)
  refine obeys_request hstable hlater (fun s ok s' _ hstep => ?_)
  cases hstep
  cases ok with
  | false => exact ⟨guarantee_kept rfl le_rfl rfl (hfail _),trivial⟩
  | true =>
    refine ⟨guarantee_kept rfl le_rfl rfl nofun,obeys_request hstable hlater (fun s r s' hs hstep => ?_)⟩
    cases hstep with
    | swapFailed _ e => exact ⟨guarantee_kept rfl le_rfl rfl (hfail e),trivial⟩
    | swapMismatch h => exact ⟨guarantee_kept rfl le_rfl rfl (hundecided _),hmismatch _⟩
    | swapApplied h r hr =>
      rcases r with e | (_ | found)
      · exact ⟨hswapped _ _ hs h _ (.inr ⟨e,rfl⟩),trivial⟩
      · exact ⟨hswapped _ _ hs h _ (.inl rfl),happlied⟩
      · exact absurd rfl (hr found)

section
variable [CollisionFree]

theorem guarantee_swapped (expected : Option Bytes)
    (h : applySystemRecordMutation s.catalog ⟨key,expected.isSome,expected.bind sha256,value,delete,false⟩ =
      .ok (.applied catalog))
    (hchange : Change task rest s.latest key expected (if delete then none else some value))
    (hexecutes : rest = .done (.decided .execute) → ∃ c, task = .claim c ∧ key = storageKey c ∧ delete = false ∧
      encodeRecord (pendingRecord c) = some value ∧ ∀ o, expected = some o → Expired s.latest o)
    (howned : ∀ c, task.owner = some c → Owned s c) : Guarantee task s { s with catalog := catalog } rest := by
  have hbefore : s.record key = expected := applySystemRecordMutation_expected expected h
  have hafter := (applySystemRecordMutation_applied h).2
  refine ⟨le_rfl,fun k _ => ?_,fun hrest => ?_,fun c hc hno => absurd (howned c hc) hno,fun hne => absurd rfl hne⟩
  · by_cases hk : k = key
    · subst hk
      right
      rw [hbefore,show SystemState.record { s with catalog := catalog } k = _ from (hafter k).trans (if_pos rfl)]
      exact hchange
    · exact .inl ((hafter k).trans (if_neg hk))
  obtain ⟨c,htask,hkey,hdelete,hnew,hold⟩ := hexecutes hrest
  refine ⟨c,htask,⟨value,hnew,?_⟩,?_⟩
  · rw [← hkey]
    exact (hafter key).trans (by rw [if_pos rfl,hdelete]; rfl)
  · rw [← hkey,hbefore]
    exact hold

theorem guarantee_claimed (expected : Option Bytes) (hpending : encodeRecord (pendingRecord c) = some pending)
    (h : applySystemRecordMutation s.catalog ⟨storageKey c,expected.isSome,expected.bind sha256,pending,false,false⟩ =
      .ok (.applied catalog))
    (hexpired : ∀ o, expected = some o → Expired s.latest o) (hrest : ∃ a, rest = .done a) :
    Guarantee (.claim c) s { s with catalog := catalog } rest :=
  guarantee_swapped expected h (.claimed rfl rfl hpending hrest hexpired) (fun _ => ⟨c,rfl,rfl,rfl,hpending,hexpired⟩) nofun

theorem guarantee_finished {state : RecordState} (hold : stateByte old = some [RecordState.pending.code])
    (hnew : stateByte new = some [state.code]) (hstate : state ≠ .pending) (hclaim : claimBytes new = claimBytes old)
    (h : applySystemRecordMutation s.catalog (replaceRecord key old new) = .ok (.applied catalog))
    (hrest : rest ≠ .done (.decided .execute)) (howned : ∀ c, task.owner = some c → Owned s c) :
    Guarantee task s { s with catalog := catalog } rest := by
  refine guarantee_swapped (some old) h (.finished hold ?_ hclaim) (fun h => absurd h hrest) howned
  rw [hnew]
  revert hstate
  cases state <;> decide

theorem decideExisting_keeps {current : IdempotencyRecord} {again : Bytes → StoreM W StoreOutcome}
    (hpending : encodeRecord (pendingRecord c) = some pending) (hdecode : decodeRecord b = some current)
    (hagain : ∀ b, Keeps (.claim c) (again b) (fun s => now ≤ s.latest)) (hundecided : ∀ b, again b ≠ .done (.decided .execute)) :
    decideExisting c pending b current now again ≠ .done (.decided .execute) ∧
      Keeps (.claim c) (decideExisting c pending b current now again) (fun s => now ≤ s.latest) := by
  unfold decideExisting
  split
  · rename_i hexpired
    simp only [ne_eq,Bool.and_eq_true,decide_eq_true_eq,Bool.not_eq_true',decide_eq_false_iff_not,not_lt] at hexpired
    refine ⟨nofun,compareAndSwap_keeps (stable_latest now) trivial hagain nofun hundecided
      (fun s catalog hs h rest hrest => guarantee_claimed (some b) hpending h (fun o ho => ?_) ?_)⟩
    · cases ho
      exact ⟨current,hdecode,hexpired.1,hexpired.2.trans hs⟩
    · rcases hrest with rfl | ⟨e,rfl⟩ <;> exact ⟨_,rfl⟩
  split
  · exact ⟨nofun,trivial⟩
  split
  case h_1 hstate =>
    split
    · exact ⟨nofun,trivial⟩
    split
    · exact ⟨nofun,trivial⟩
    rename_i unknown hunknown
    have hold := decodeRecord_bytes hdecode
    have hnew := encodeRecord_bytes hunknown
    refine ⟨nofun,compareAndSwap_keeps (stable_latest now) trivial hagain nofun hundecided (fun s catalog hs h rest hrest => ?_)⟩
    refine guarantee_finished (hold.1.trans (by rw [hstate])) hnew.1 nofun (hnew.2.trans hold.2.symm) h ?_ nofun
    rcases hrest with rfl | ⟨e,rfl⟩ <;> exact nofun
  all_goals exact ⟨nofun,trivial⟩

theorem claimAttempts_keeps (hpending : encodeRecord (pendingRecord c) = some pending) (n : ℕ) (b : Bytes)
    {known : SystemState W → Prop} (hstable : Stable Later known) : Keeps (.claim c) (claimAttempts c pending n b) known := by
  induction n generalizing b known with
  | zero => trivial
  | succ n ih =>
    rw [claimAttempts]
    split
    · trivial
    rename_i current hdecode
    intro s now s' _ hstep
    cases hstep
    -- what the clock has shown is all that the swaps need to know
    obtain ⟨hundecided,hkeeps⟩ := decideExisting_keeps hpending hdecode (fun b => ih b (stable_latest now))
      (claimAttempts_undecided c pending n)
    exact ⟨guarantee_kept rfl (le_max_left _ _) rfl hundecided,_,stable_latest now,le_max_right _ _,hkeeps⟩

theorem claim_keeps (c : Claim) : Keeps (W := W) (.claim c) (claim c) (fun _ => True) := by
  have hstable : Stable (Later (W := W)) (fun _ => True) := fun _ _ _ _ => trivial
  unfold claim
  split_ifs
  · trivial
  split
  · trivial
  rename_i pending hpending
  refine compareAndSwap_keeps hstable trivial (fun b => claimAttempts_keeps hpending _ b hstable) nofun
    (claimAttempts_undecided _ _ _) (fun s catalog _ h rest hrest => ?_)
  refine guarantee_claimed none hpending h nofun ?_
  rcases hrest with rfl | ⟨e,rfl⟩ <;> exact ⟨_,rfl⟩

theorem transition_keeps (howner : task.owner = some c) (hnext : next.state ≠ .pending)
    (hclaim : next.claimID = c.claimID) : Keeps task (transition c next) (fun _ => True) := by
  unfold transition
  split
  · rename_i pending encoded hpending hencoded
    refine compareAndSwap_keeps (fun _ _ _ _ => trivial) trivial (fun _ => trivial) (by rintro _ ⟨⟩) (by rintro _ ⟨⟩)
      (fun s catalog _ h rest hrest => ?_)
    have hold := encodeRecord_bytes hpending
    have hnew := encodeRecord_bytes hencoded
    refine guarantee_finished hold.1 hnew.1 hnext (by rw [hnew.2,hold.2,hclaim]; rfl) h ?_ (fun c' hc' => ?_)
    · rcases hrest with rfl | ⟨e,rfl⟩ <;> rintro ⟨⟩
    · cases howner.symm.trans hc'
      exact ⟨pending,hpending,applySystemRecordMutation_expected (some pending) h⟩
  · trivial

theorem complete_keeps (x : Completion) : Keeps (W := W) (.complete x) (complete x) (fun _ => True) := by
  unfold complete
  split
  · trivial
  rename_i record hrecord
  obtain ⟨hstate,hclaim⟩ := completionRecord_claim hrecord
  exact transition_keeps rfl hstate hclaim

theorem systemWrite_keeps (x : Completion) (policies : List (Bytes × Token 16)) (changes : W) :
    Keeps (.write x policies changes) (systemWrite x policies changes) (fun _ => True) := by
  unfold systemWrite
  split
  · trivial
  rename_i m hm
  obtain ⟨pending,record,terminal,hpending,hrecord,hterminal,rfl⟩ := atomicCompletion_eq hm
  obtain ⟨hstate,hclaim⟩ := completionRecord_claim hrecord
  refine obeys_request (fun _ _ _ _ => trivial) (fun _ _ _ h => h.later) (fun s r s' _ hstep => ⟨?_,trivial⟩)
  cases hstep with
  | writeKept _ _ _ r hr => exact guarantee_kept rfl le_rfl rfl nofun
  | @writeApplied _ _ _ collections catalog h r hr =>
    rw [applyMutations] at h
    split at h
    · cases h
    · cases h
    rename_i next happlied
    have hbefore : s.record (storageKey x.claim) = some pending :=
      (applySystemRecordMutation_expected (some pending) happlied :)
    have hafter : ∀ key, rpcIdempotencyKeyPrefix <+: key → getSystemRecord (some catalog) key =
        if key = storageKey x.claim then some terminal else s.record key := fun key hkey => by
      rw [applyMutations_policies h hkey,(applySystemRecordMutation_applied happlied).2]
      rfl
    have hold := encodeRecord_bytes hpending
    have hnew := encodeRecord_bytes hterminal
    have hne : stateByte terminal ≠ some [RecordState.pending.code] := by
      rw [hnew.1]
      revert hstate
      cases record.state <;> decide
    have howned : Owned s x.claim := ⟨pending,hpending,hbefore⟩
    have hnow : SystemState.record { s with catalog := catalog, business := s.business ++ [changes] } (storageKey x.claim) =
      some terminal :=
      (hafter _ (storageKey_reserved _)).trans (if_pos rfl)
    refine ⟨le_rfl,fun key hkey => ?_,nofun,fun c hc hno => ?_,fun _ => ⟨x.claim,rfl,howned,?_⟩⟩
    · by_cases heq : key = storageKey x.claim
      · subst heq
        right
        rw [hbefore,hnow]
        exact .finished hold.1 hne (by rw [hnew.2,hold.2,hclaim]; rfl)
      · exact .inl ((hafter key hkey).trans (if_neg heq))
    · cases hc
      exact absurd howned hno
    rintro ⟨b,hb,hfound⟩
    cases hpending.symm.trans hb
    cases hnow.symm.trans hfound
    exact hne hold.1

variable (pruneStart : Bytes)

theorem pruneRecords_keeps {next : Bytes → ℕ → ℕ → StoreM W StoreOutcome}
    (hnext : ∀ start pruned examined, next start pruned examined ≠ .done (.decided .execute) ∧
      Keeps (.prune pruneStart limit) (next start pruned examined) (fun s => now ≤ s.latest)) (records : List (Bytes × Bytes))
    (start : Bytes)
    (pruned examined : ℕ) : pruneRecords limit now next records start pruned examined ≠ .done (.decided .execute) ∧
      Keeps (.prune pruneStart limit) (pruneRecords limit now next records start pruned examined) (fun s => now ≤ s.latest) := by
  induction records generalizing start pruned examined with
  | nil => exact hnext start pruned examined
  | cons item rest ih =>
    obtain ⟨key,value⟩ := item
    rw [pruneRecords]
    split
    · exact ⟨by rintro ⟨⟩,trivial⟩
    rename_i record hdecode
    split
    · exact ih _ _ _
    rename_i hexpired
    simp only [Bool.or_eq_true,decide_eq_true_eq,not_or,not_lt] at hexpired
    refine ⟨by rintro ⟨⟩,compareAndSwap_keeps (stable_latest now) ?_ (fun _ => (ih _ _ _).2) (by rintro _ ⟨⟩)
      (fun _ => (ih _ _ _).1)
      (fun s catalog hs h rest' hrest => ?_)⟩
    · split
      · exact (hnext _ _ _).2
      · exact (ih _ _ _).2
    refine guarantee_swapped (some value) h (.removed ⟨record,hdecode,hexpired.1,hexpired.2.trans hs⟩) (fun h => absurd h ?_)
      (by rintro _ ⟨⟩)
    rcases hrest with rfl | ⟨e,rfl⟩
    · split
      · exact (hnext _ _ _).1
      · exact (ih _ _ _).1
    · rintro ⟨⟩

theorem prunePages_keeps (pages : ℕ) (start : Bytes) (pruned examined : ℕ) :
    prunePages (W := W) limit maxExamined now pages start pruned examined ≠ .done (.decided .execute) ∧
      Keeps (W := W) (.prune pruneStart limit) (prunePages limit maxExamined now pages start pruned examined)
        (fun s => now ≤ s.latest) := by
  induction pages generalizing start pruned examined with
  | zero => exact ⟨nofun,trivial⟩
  | succ pages ih =>
    rw [prunePages]
    split
    · refine ⟨nofun,obeys_request (stable_latest now) (fun _ _ _ h => h.later) (fun s r s' _ hstep => ?_)⟩
      cases hstep with
      | scanFailed => exact ⟨guarantee_kept rfl le_rfl rfl nofun,trivial⟩
      | scan =>
        simp only [Program.bind]
        split
        · exact ⟨guarantee_kept rfl le_rfl rfl nofun,trivial⟩
        refine (pruneRecords_keeps pruneStart (fun start pruned examined' => ?_) _ start pruned examined).imp
          (fun hundecided => guarantee_kept rfl le_rfl rfl hundecided) id
        split
        · exact ⟨nofun,trivial⟩
        · exact ih start pruned examined'
    · exact ⟨nofun,trivial⟩

theorem pruneExpired_keeps (limit : ℕ) :
    Keeps (W := W) (.prune pruneStart limit) (pruneExpired pruneStart limit) (fun _ => True) := by
  unfold pruneExpired
  split
  · trivial
  intro s now s' _ hstep
  cases hstep
  obtain ⟨hundecided,hkeeps⟩ := prunePages_keeps pruneStart _ _ _ _
  exact ⟨guarantee_kept rfl (le_max_left _ _) rfl hundecided,_,stable_latest now,le_max_right _ _,hkeeps⟩

theorem program_keeps (task : StoreTask W) : Keeps task task.program (fun _ => True) := by
  cases task with
  | claim c => exact claim_keeps c
  | complete x => exact complete_keeps x
  | markUnknown c => exact transition_keeps rfl nofun rfl
  | write x policies changes => exact systemWrite_keeps x policies changes
  | prune pruneStart limit => exact pruneExpired_keeps pruneStart limit

/-! ### Runs -/

/-- Any number of sessions over one database; whatever else happens to it leaves
the records of requests alone. -/
def idempotencyStore (W : Type) : Machine (StoreReply (W := W)) StoreOutcome (SystemState W) (StoreTask W) where
  step := Performs
  outside s s' := s.latest ≤ s'.latest ∧ s'.business = s.business ∧ ∀ key, rpcIdempotencyKeyPrefix <+: key →
    s'.record key = s.record key
  program := StoreTask.program
abbrev StorePool (W : Type) := Pool (StoreReply (W := W)) StoreOutcome (SystemState W) (StoreTask W)

variable {run : ℕ → StorePool W}

def Decides (run : ℕ → StorePool W) (k : ℕ) (c : Claim) : Prop :=
  ∃ i, (idempotencyStore W).Acts (run k) i (.claim c) (.done (.decided .execute)) (run (k+1))

structure FreshClaims (run : ℕ → StorePool W) : Prop where
  distinct : ∀ k i j p q c c', (run k).process i = some p → (run k).process j = some q → p.task = .claim c → q.task = .claim c' →
    c.claimID = c'.claimID → i = j
  unused : ∀ k i p c, (run k).process i = some p → p.task = .claim c → ∀ key b, (run 0).state.record key = some b →
    claimBytes b ≠ some c.claimID.val

section Runs
variable (hrun : (idempotencyStore W).Runs run)
include hrun

theorem runs_guarantee
    (hact : (idempotencyStore W).Acts (run k) i task rest (run (k+1))) : Guarantee task (run k).state (run (k+1)).state rest := by
  have hlater : ∀ (task : StoreTask W) s s' rest, Guarantee task s s' rest → Later s s' := fun _ _ _ _ h => h.later
  exact hrun.within hlater (fun _ _ h => h.1) program_keeps hact

theorem runs_record (hkey : rpcIdempotencyKeyPrefix <+: key) (k : ℕ) :
    (run (k+1)).state.record key = (run k).state.record key ∨
      ∃ i task rest, (idempotencyStore W).Acts (run k) i task rest (run (k+1)) ∧
        Change task rest (run k).state.latest key ((run k).state.record key) ((run (k+1)).state.record key) := by
  rcases hrun.change k with hsame | houtside | ⟨i,task,rest,hact⟩
  · exact .inl (by rw [hsame])
  · exact .inl (houtside.2.2 key hkey)
  · exact ((runs_guarantee hrun hact).records key hkey).imp id (fun h => ⟨i,task,rest,hact,h⟩)

theorem claim_retained (hak : a ≤ k) (ha : Owned (run a).state c) :
    (∃ b, (run k).state.record (storageKey c) = some b ∧ claimBytes b = some c.claimID.val) ∨
      ∃ k', a ≤ k' ∧ k' < k ∧ ∃ b, (run k').state.record (storageKey c) = some b ∧ claimBytes b = some c.claimID.val ∧
        Expired (run k').state.latest b := by
  induction k, hak using Nat.le_induction with
  | base =>
    obtain ⟨b,hb,hfound⟩ := ha
    exact .inl ⟨b,hfound,(encodeRecord_bytes hb).2⟩
  | succ k hk ih =>
    rcases ih with ⟨b,hfound,hclaim⟩ | ⟨k',hk',hlt,h⟩
    · rcases runs_record hrun (storageKey_reserved c) k with hsame | ⟨i,task,rest,-,hchange⟩
      · exact .inl ⟨b,hsame.trans hfound,hclaim⟩
      rw [hfound] at hchange
      generalize (run (k+1)).state.record (storageKey c) = new at hchange
      cases hchange with
      | claimed _ _ _ _ hold => exact .inr ⟨k,hk,k.lt_succ_self,b,hfound,hclaim,hold b rfl⟩
      | finished _ _ hsame => exact .inl ⟨_,rfl,hsame.trans hclaim⟩
      | removed hexpired => exact .inr ⟨k,hk,k.lt_succ_self,b,hfound,hclaim,hexpired⟩
    · exact .inr ⟨k',hk',hlt.trans k.lt_succ_self,h⟩

/-- The step that makes a claim pending is taken by that claim, as its last. -/
theorem claim_written (hbefore : ¬ Owned (run k).state c) (hafter : Owned (run (k+1)).state c) :
    ∃ i q c', (run k).process i = some q ∧ q.task = .claim c' ∧ c'.claimID = c.claimID ∧ ¬ q.Finished ∧
      ∃ q', (run (k+1)).process i = some q' ∧ q'.task = .claim c' ∧ q'.Finished := by
  obtain ⟨b,hb,hfound⟩ := hafter
  rcases runs_record hrun (storageKey_reserved c) k with hsame | ⟨i,task,rest,hact,hchange⟩
  · exact absurd ⟨b,hb,hsame.symm.trans hfound⟩ hbefore
  rw [hfound] at hchange
  generalize (run k).state.record (storageKey c) = old at hchange
  cases hchange with
  | @claimed c' _ _ htask _ hb' hrest _ =>
    subst htask
    obtain ⟨a,rfl⟩ := hrest
    obtain ⟨⟨q,hq,htask,hunfinished⟩,hq'⟩ := hact.process
    have hids := (encodeRecord_bytes hb').2.symm.trans (encodeRecord_bytes hb).2
    exact ⟨i,q,c',hq,htask,Subtype.ext (Option.some.inj hids),hunfinished,_,hq',rfl,.inr ⟨a,rfl⟩⟩
  | finished _ hne _ => exact absurd (encodeRecord_bytes hb).1 hne

theorem ownership_lost (hfresh : FreshClaims run) (hat : a ≤ t) (htk : t ≤ k) (ha : Owned (run a).state c)
    (ht : ¬ Owned (run t).state c) : ¬ Owned (run k).state c := by
  intro hk
  obtain ⟨u,htu,-,hnot,hbecomes⟩ := exists_becomes (P := fun k => Owned (run k).state c) htk ht hk
  obtain ⟨i,p,c1,hp,hp1,hid1,hunfinished,-⟩ := claim_written hrun hnot hbecomes
  by_cases h0 : Owned (run 0).state c
  · obtain ⟨b,hb,hfound⟩ := h0
    exact hfresh.unused u i p c1 hp hp1 _ b hfound (by rw [(encodeRecord_bytes hb).2,hid1]; rfl)
  -- it was written before, by a claim that has been finished since
  obtain ⟨v,-,hva,hnot',hbecomes'⟩ := exists_becomes (P := fun k => Owned (run k).state c) (Nat.zero_le a) h0 ha
  obtain ⟨j,-,c2,-,-,hid2,-,q,hq,hq2,hfinished⟩ := claim_written hrun hnot' hbecomes'
  obtain ⟨q',hq',htask,hstays⟩ := hrun.process (show v+1 ≤ u by omega) hq
  obtain rfl := hfresh.distinct u i j p q' c1 c2 hp hq' hp1 (htask.trans hq2) (hid1.trans hid2.symm)
  cases hp.symm.trans hq'
  exact hunfinished (hstays hfinished)

end Runs

/-- RPC calls with an idempotency key execute at most once.  In every interleaving
with stops and reopenings, and without collisions of digests: between two decisions to execute for one key the record
of the first had an outcome whose expiry the clock had shown; no decision to execute
is made while a record is pending; after a claim has lost its record, completing it
changes nothing; and its business writes are committed at most once. -/
theorem at_most_once (hrun : (idempotencyStore W).Runs run) (hfresh : FreshClaims run) :
    (∀ i j c c', i < j → Decides run i c → Decides run j c' → storageKey c = storageKey c' →
      ∃ k, i < k ∧ k ≤ j ∧ ∃ b r, (run k).state.record (storageKey c) = some b ∧ decodeRecord b = some r ∧ r.claimID = c.claimID ∧
        r.state ≠ .pending ∧ r.expiresAt ≤ (run k).state.latest) ∧
    (∀ j c b r, Decides run j c → (run j).state.record (storageKey c) = some b → decodeRecord b = some r → r.state ≠ .pending) ∧
    (∀ i t k c p task rest, Decides run i c → i < t → ¬ Owned (run t).state c → t ≤ k → task.owner = some c →
      (idempotencyStore W).Acts (run k) p task rest (run (k+1)) →
        (run (k+1)).state.catalog = (run k).state.catalog ∧ (run (k+1)).state.business = (run k).state.business) ∧
    ∀ j k c p p' task task' rest rest', task.owner = some c → task'.owner = some c →
      (idempotencyStore W).Acts (run j) p task rest (run (j+1)) → (idempotencyStore W).Acts (run k) p' task' rest' (run (k+1)) →
        (run (j+1)).state.business ≠ (run j).state.business → (run (k+1)).state.business ≠ (run k).state.business → j = k := by
  have hdecides : ∀ {k c}, Decides run k c → Owned (run (k+1)).state c ∧
      ∀ o, (run k).state.record (storageKey c) = some o → Expired (run k).state.latest o := by
    rintro k c ⟨i,hact⟩
    obtain ⟨c',htask,h⟩ := (runs_guarantee hrun hact).executes rfl
    cases htask
    exact h
  refine ⟨fun i j c c' hij hi hj hkey => ?_,fun j c b r hj hb hr => ?_,fun i t k c p task rest hi hit ht htk howner hact => ?_,?_⟩
  · have hrecord : ∀ {k b}, (run k).state.record (storageKey c) = some b → claimBytes b = some c.claimID.val →
        Expired (run k).state.latest b → ∃ b r, (run k).state.record (storageKey c) = some b ∧ decodeRecord b = some r ∧
          r.claimID = c.claimID ∧ r.state ≠ .pending ∧ r.expiresAt ≤ (run k).state.latest := by
      rintro k b hb hclaim ⟨r,hr,hstate,hexpiry⟩
      have hids := (decodeRecord_bytes hr).2.symm.trans hclaim
      exact ⟨b,r,hb,hr,Subtype.ext (Option.some.inj hids),hstate,hexpiry⟩
    rcases claim_retained hrun (show i+1 ≤ j from hij) (hdecides hi).1 with ⟨b,hb,hclaim⟩ | ⟨k,hik,hkj,b,hb,hclaim,hexpired⟩
    · exact ⟨j,hij,le_rfl,hrecord hb hclaim ((hdecides hj).2 b (hkey ▸ hb))⟩
    · exact ⟨k,hik,hkj.le,hrecord hb hclaim hexpired⟩
  · obtain ⟨r',hr',hstate,-⟩ := (hdecides hj).2 b hb
    cases hr.symm.trans hr'
    exact hstate
  · exact (runs_guarantee hrun hact).owned c howner (ownership_lost hrun hfresh hit htk (hdecides hi).1 ht)
  intro j k c p p' task task' rest rest' howner howner' hact hact' hj hk
  obtain ⟨_,h1,hbefore,hafter⟩ := (runs_guarantee hrun hact).committed hj
  obtain ⟨_,h2,hbefore',hafter'⟩ := (runs_guarantee hrun hact').committed hk
  cases howner.symm.trans h1
  cases howner'.symm.trans h2
  rcases lt_trichotomy j k with hlt | heq | hlt
  · exact absurd hbefore' (ownership_lost hrun hfresh j.le_succ hlt hbefore hafter)
  · exact heq
  · exact absurd hbefore (ownership_lost hrun hfresh k.le_succ hlt hbefore' hafter')

end

/-! Two claims of one key. -/

def claimWith (claimID : Byte) : Claim :=
  ⟨.filled 32 1,.filled 32 2,.filled 32 3,.filled 16 4,.filled 16 claimID,1000000⟩

/-- No operation fails, and the clock shows the instant at which the claims expire. -/
def respond (s : SystemState Unit) : (op : StoreOp Unit) → StoreReply op × SystemState Unit
  | .clock => (1000000,{ s with latest := max s.latest 1000000 })
  | .token => (true,s)
  | .swap m =>
    match applySystemRecordMutation s.catalog m with
    | .ok (.applied catalog) => (.ok none,{ s with catalog := catalog })
    | .ok (.mismatch current) => (.ok (some (current.getD [])),s)
    | .error _ => (.error .backend,s)
  | .scan start stop limit =>
    (.ok (((Logical.systemTree s.catalog).entries.filter (fun e => start ≤ e.1 && e.1 < stop)).take limit),s)
  | .write m policies changes =>
    match applyMutations s.catalog (m :: policies.map (fun p => generationMutation p.1 p.2)) with
    | .ok (some catalog) => (.ok .applied,{ s with catalog := catalog, business := s.business ++ [changes] })
    | _ => (.error .backend,s)

theorem respond_performs (s : SystemState Unit) (op : StoreOp Unit) : Performs s op (respond s op).1 (respond s op).2 := by
  cases op with
  | clock => exact .clock 1000000
  | token => exact .token true
  | swap m =>
    unfold respond
    dsimp only
    split
    · next h => exact .swapApplied h _ nofun
    · next h => exact .swapMismatch h
    · exact .swapFailed m .backend
  | scan start stop limit => exact .scan start stop limit
  | write m policies changes =>
    unfold respond
    dsimp only
    split
    · next h => exact @Performs.writeApplied _ _ _ _ _ _ s.catalog.collections _ h _ ⟨nofun,nofun⟩
    · exact .writeKept m policies changes _ nofun

end

open scoped Logical.OwnDigest

/-- The first claim is completed, and its outcome has expired when the second claim reads the clock. -/
def claimTurns : List (Machine.Turn (StoreTask Unit)) :=
  [.start 0 (.claim (claimWith 5)),.act 0,.act 0,.start 1 (.complete { claim := claimWith 5, result := [0x31] }),.act 1,.act 1,
    .start 2 (.claim (claimWith 6)),.act 2,.act 2,.act 2,.act 2,.act 2]
def claimRun : ℕ → StorePool Unit := Machine.scripted (idempotencyStore Unit) respond ⟨Catalog.empty,0,[]⟩ claimTurns

/-- The claim whose next operation makes process `i` decide to execute. -/
def executing (p : StorePool Unit) (i : ℕ) : Option Claim :=
  match p.process i with
  | some ⟨.claim c,some (.request op next)⟩ =>
    match next (respond p.state op).1 with
    | .done (.decided .execute) => some c
    | _ => none
  | _ => none

theorem claimRun_decides (hturn : claimTurns[k]? = some (.act i)) (h : executing (claimRun k) i = some c) :
    Decides claimRun k c := by
  unfold executing at h
  split at h
  · next c' op next hprocess =>
    split at h
    · next hdone =>
      cases h
      have hact := Machine.Acts.mk (M := idempotencyStore Unit) hprocess (respond_performs _ op)
      have hnext : claimRun (k+1) = (idempotencyStore Unit).turned respond (claimRun k) (.act i) := by
        rw [claimRun,Machine.scripted_succ,hturn]
        rfl
      rw [Machine.turned,hprocess] at hnext
      refine ⟨i,?_⟩
      rw [← hdone,hnext]
      exact hact
    · cases h
  · cases h

theorem claimRun_fresh : FreshClaims claimRun where
  distinct k i j p q c c' hp hq hc hc' hid := by
    have hi := Machine.scripted_task hp
    have hj := Machine.scripted_task hq
    rw [hc] at hi
    rw [hc'] at hj
    simp [claimTurns] at hi hj
    rcases hi with ⟨rfl,rfl⟩ | ⟨rfl,rfl⟩ <;> rcases hj with ⟨rfl,rfl⟩ | ⟨rfl,rfl⟩ <;> first | rfl | exact absurd hid (by decide)
  unused k i p c hp _ key b hb := by cases hb

theorem at_most_once_twice : Decides claimRun 2 (claimWith 5) ∧ Decides claimRun 11 (claimWith 6) ∧
    ∃ k, 2 < k ∧ k ≤ 11 ∧ ∃ b r, (claimRun k).state.record (storageKey (claimWith 5)) = some b ∧ decodeRecord b = some r ∧
      r.claimID = (claimWith 5).claimID ∧ r.state ≠ .pending ∧ r.expiresAt ≤ (claimRun k).state.latest := by
  have hfirst : Decides claimRun 2 (claimWith 5) := claimRun_decides (i := 0) rfl (by decide +kernel)
  have hsecond : Decides claimRun 11 (claimWith 6) := claimRun_decides (i := 2) rfl (by decide +kernel)
  exact ⟨hfirst,hsecond,(at_most_once (Machine.runs_scripted respond_performs) claimRun_fresh).1 2 11 _ _ (by decide) hfirst
    hsecond rfl⟩

end Meldbase.Server
