import Meldbase.Integrations.LeaseRecord
import Meldbase.Library.Quorum

/-! # Quorum of lease stores

A record counts as read when a majority of the members holds exactly it, and as
swapped when a majority has swapped.  A swap can reach a minority, be reported as
failed, and reach further members later; what keeps the register consistent is that
no member ever returns to a record it has left.
-/
namespace Meldbase.PrimaryLease
open Logical (Identifier)
open Quorum Relation

/-! ### Members -/

inductive MemberError where
  | fatal
  | endpoint

inductive Request where
  | load (databaseID : Identifier)
  | compareAndSwap (databaseID : Identifier) (previous : Option LeaseRecord) (next : LeaseRecord)

inductive Reply where
  | record (record : Option LeaseRecord)
  | swapped (done : Bool)
  | storeError

def swapReply (records : Records) : Option (Records × Bool) → Records × Reply
  | none => (records,.storeError)
  | some (records',done) => (records',.swapped done)
def serve : Request → Records → Records × Reply
  | .load databaseID,records => (records,.record (records databaseID))
  | .compareAndSwap databaseID previous next,records => swapReply records (compareAndSwapRecord records databaseID previous next)

theorem serve_records (q : Request) (records : Records) (databaseID : Identifier) :
    (serve q records).1 databaseID = records databaseID ∨
      ∃ next, q = .compareAndSwap databaseID (records databaseID) next ∧ (serve q records).1 databaseID = some next := by
  cases q with
  | load id => exact .inl rfl
  | compareAndSwap id previous next =>
    change (swapReply ..).1 _ = _ ∨ ∃ next', _ ∧ (swapReply ..).1 _ = _
    rcases hswap : compareAndSwapRecord records id previous next with _ | ⟨records',_ | _⟩
    · exact .inl rfl
    · exact .inl (by rw [compareAndSwapRecord_false hswap]; rfl)
    obtain ⟨hprevious,rfl⟩ := compareAndSwapRecord_true hswap
    by_cases he : databaseID = id
    · subst he
      exact .inr ⟨next,by rw [hprevious],Function.update_self ..⟩
    · exact .inl (Function.update_of_ne he ..)

variable {databaseID : Identifier} {previous record : Option LeaseRecord} {n : ℕ}

theorem serve_swapped (h : (serve (.compareAndSwap databaseID previous next) records).2 = .swapped true) :
    records databaseID = previous ∧ (serve (.compareAndSwap databaseID previous next) records).1 databaseID = some next := by
  change (swapReply ..).2 = _ at h
  change _ ∧ (swapReply ..).1 _ = _
  rcases hswap : compareAndSwapRecord records databaseID previous next with _ | ⟨records',done⟩
  · rw [hswap] at h
    cases h
  rw [hswap] at h
  cases h
  obtain ⟨hprevious,rfl⟩ := compareAndSwapRecord_true hswap
  exact ⟨hprevious,Function.update_self ..⟩

/-! ### Collecting results -/

inductive QuorumError where
  | member
  | conflict
  | quorum
  deriving DecidableEq

inductive Outcome where
  | loaded (record : Option LeaseRecord)
  | swapped (done : Bool)
  | failed (e : QuorumError)
  deriving DecidableEq

def errorAnswer {A : Type} : MemberError → Answer A QuorumError
  | .fatal => .fatal .member
  | .endpoint => .lost

/-- A member's result of `LoadPrimaryLease`; a record that is not valid ends the call. -/
def loadAnswer (databaseID : Identifier) : Except MemberError Reply → Answer (Option LeaseRecord) QuorumError
  | .error e => errorAnswer e
  | .ok (.record record) => if record.all (validLeaseRecord · databaseID) then .value record else .fatal .conflict
  | .ok _ => .lost
def swapAnswer : Except MemberError Reply → Answer Bool QuorumError
  | .error e => errorAnswer e
  | .ok (.swapped done) => .value done
  | .ok _ => .lost
def majorityLeaseRecord (results : List (Option LeaseRecord)) (quorum : ℕ) : Option (Option LeaseRecord) :=
  if quorum < 1 ∨ results.length < quorum then none
  else results.find? fun candidate => quorum ≤ results.countP fun observed => candidate = observed
def loadOutcome : Verdict (Option LeaseRecord) QuorumError → Outcome
  | .decided record => .loaded record
  | .conflict => .failed .conflict
  | .unavailable => .failed .quorum
  | .fatal e => .failed e
def swapOutcome : Verdict Unit QuorumError → Outcome
  | .decided _ => .swapped true
  | .conflict => .swapped false
  | .unavailable => .failed .quorum
  | .fatal e => .failed e

/-- `QuorumStore.LoadPrimaryLease` and `QuorumStore.CompareAndSwapPrimaryLease`. -/
def leaseService (n : ℕ) : Service Records Request Reply MemberError Outcome where
  admits
    | .load databaseID => !databaseID.isZero
    | .compareAndSwap databaseID previous next =>
      !databaseID.isZero && validLeaseRecord next databaseID && previous.all (validLeaseRecord · databaseID)
  serve := serve
  collect
    | .load databaseID,results =>
      (gather n (majorityLeaseRecord · (quorum n)) 0 [] (results.map (loadAnswer databaseID))).map loadOutcome
    | .compareAndSwap .., results => (tally n 0 0 0 (results.map swapAnswer)).map swapOutcome

theorem majorityLeaseRecord_eq {quorum : ℕ}
    (h : majorityLeaseRecord results quorum = some record) : quorum ≤ results.countP fun observed => record = observed := by
  unfold majorityLeaseRecord at h
  split at h
  · cases h
  · have hfound := List.find?_some h
    exact of_decide_eq_true hfound

theorem load_majority (h : (leaseService n).collect (.load databaseID) results = some (.loaded record)) :
    quorum n ≤ results.countP fun r => (loadAnswer databaseID r).satisfies fun observed => record = observed := by
  obtain ⟨verdict,hverdict,hloaded⟩ := Option.map_eq_some_iff.mp h
  cases verdict <;> cases hloaded
  have hcount := gather_decided (fun _ => majorityLeaseRecord_eq) hverdict
  rwa [List.countP_nil,Nat.zero_add,List.countP_map] at hcount

theorem swap_majority (h : (leaseService n).collect (.compareAndSwap databaseID previous next) results = some (.swapped true)) :
    quorum n ≤ results.countP fun r => (swapAnswer r).satisfies id := by
  obtain ⟨verdict,hverdict,hswapped⟩ := Option.map_eq_some_iff.mp h
  cases verdict <;> cases hswapped
  have hcount := tally_decided hverdict
  rwa [Nat.zero_add,List.countP_map] at hcount

theorem loadAnswer_satisfies
    (h : (loadAnswer databaseID result).satisfies (fun observed => record = observed) = true) :
    result = .ok (.record record) := by
  rcases result with e | reply
  · cases e <;> cases h
  cases reply with
  | record observed =>
    change Answer.satisfies _ (if observed.all (validLeaseRecord · databaseID) then .value observed else _) = true at h
    split at h
    · have he : record = observed := of_decide_eq_true h
      rw [he]
    · cases h
  | swapped done => cases h
  | storeError => cases h

theorem swapAnswer_satisfies (h : (swapAnswer result).satisfies id = true) :
    result = .ok (.swapped true) := by
  rcases result with e | reply
  · cases e <;> cases h
  cases reply with
  | record observed => cases h
  | swapped done => cases done <;> first | rfl | cases h
  | storeError => cases h

/-! ### The register -/

variable {ι : Type} [DecidableEq ι] {s0 s t : State n ι Records Request Reply MemberError}

def Request.Raises : Request → Prop
  | .compareAndSwap _ (some previous) next => previous.epoch < next.epoch
  | _ => True
def Swaps (A : Request → Prop) (databaseID : Identifier) (p r : LeaseRecord) : Prop := A (.compareAndSwap databaseID (some p) r)
def Follows (A : Request → Prop) (databaseID : Identifier) (r : LeaseRecord) (records : Records) : Prop :=
  ∃ v, records databaseID = some v ∧ ReflTransGen (Swaps A databaseID) r v

variable {A : Request → Prop} {r : LeaseRecord}

theorem serve_follows (q : Request) (records : Records) (hq : A q)
    (h : Follows A databaseID r records) : Follows A databaseID r (serve q records).1 := by
  obtain ⟨v,hv,hrv⟩ := h
  rcases serve_records q records databaseID with he | ⟨next,rfl,he⟩
  · exact ⟨v,he.trans hv,hrv⟩
  · rw [hv] at hq
    exact ⟨next,he,hrv.tail hq⟩

theorem epoch_of_swaps (hA : ∀ q, A q → q.Raises)
    (h : ReflTransGen (Swaps A databaseID) r v) : v = r ∨ r.epoch < v.epoch := by
  induction h with
  | refl => exact .inl rfl
  | tail _ hswap ih =>
    have hraise := hA _ hswap
    rcases ih with rfl | hlt
    · exact .inr hraise
    · exact .inr (hlt.trans hraise)

theorem Produces.follows
    (h : Produces (leaseService n) A (.compareAndSwap databaseID previous r) (.swapped true) x y) : Follows A databaseID r y := by
  obtain ⟨z,-,hz,hzy⟩ := h
  exact hzy.keeps serve_follows ⟨r,(serve_swapped hz).2,.refl⟩

theorem not_swapped_again (hA : ∀ q, A q → q.Raises) (hr : Request.Raises (.compareAndSwap databaseID previous r))
    (h : Produces (leaseService n) A (.compareAndSwap databaseID previous r) (.swapped true) x y)
    (hagain : (serve (.compareAndSwap databaseID previous r') y).2 = .swapped true) : False := by
  obtain ⟨v,hv,hrv⟩ := Produces.follows h
  cases (serve_swapped hagain).1.symm.trans hv
  have hraise : v.epoch < r.epoch := hr
  rcases epoch_of_swaps hA hrv with rfl | hlt
  · exact lt_irrefl _ hraise
  · exact lt_irrefl _ (hlt.trans hraise)

theorem swap_unique (hidle : s0.Idle) (hrun : Runs (leaseService n) s0 s) (hraises : ∀ q, s.Requested q → q.Raises)
    (hc : s.calls i = some c) (hd : s.calls j = some d) (hcq : c.request = .compareAndSwap databaseID previous r)
    (hdq : d.request = .compareAndSwap databaseID previous r') (hco : c.outcome (leaseService n) = some (.swapped true))
    (hdo : d.outcome (leaseService n) = some (.swapped true)) : r = r' := by
  by_cases hij : i = j
  · subst hij
    cases hc.symm.trans hd
    cases hcq.symm.trans hdq
    rfl
  exfalso
  have hcs := hrun.sound hidle hc
  have hds := hrun.sound hidle hd
  unfold Call.outcome at hco hdo
  rw [hcq] at hco
  rw [hdq] at hdo
  obtain ⟨m,a,b,hma,ha,hmb,hb⟩ := exists_common hcs.once hds.once (swap_majority hco) (swap_majority hdo)
  cases swapAnswer_satisfies ha
  cases swapAnswer_satisfies hb
  have hcr := hraises _ ⟨i,c,hc,hcq⟩
  have hdr := hraises _ ⟨j,d,hd,hdq⟩
  obtain ⟨x,⟨hfirst,hsecond⟩ | ⟨hfirst,hsecond⟩⟩ :=
    hrun.ordered (fun _ hq => hq) hidle hij hc hd (hcs.given m _ hma) (hds.given m _ hmb)
  · rw [hcq] at hfirst
    rw [hdq] at hsecond
    exact not_swapped_again hraises hcr hfirst hsecond
  rw [hdq] at hfirst
  rw [hcq] at hsecond
  exact not_swapped_again hraises hdr hfirst hsecond

theorem load_follows (hidle : s0.Idle) (hrun : Runs (leaseService n) s0 s)
    (hlater : Runs (leaseService n) s t) (hc : s.calls i = some c) (hcq : c.request = .compareAndSwap databaseID previous r)
    (hco : c.outcome (leaseService n) = some (.swapped true)) (hj : s.calls j = none) (hd : t.calls j = some d)
    (hdq : d.request = .load databaseID) (hdo : d.outcome (leaseService n) = some (.loaded x)) :
    ∃ v, x = some v ∧ ReflTransGen (Swaps t.Requested databaseID) r v := by
  have hcs := hrun.sound hidle hc
  have hds := Runs.sound (hrun.trans hlater) hidle hd
  unfold Call.outcome at hco hdo
  rw [hcq] at hco
  rw [hdq] at hdo
  -- a member of both majorities follows `r` when it is read
  obtain ⟨m,a,b,hma,ha,hmb,hb⟩ := exists_common hcs.once hds.once (swap_majority hco) (load_majority hdo)
  cases swapAnswer_satisfies ha
  cases loadAnswer_satisfies hb
  have hswapped := hrun.produces (fun _ hq => hlater.requested hq) (hidle i) hc (hcs.given m _ hma)
  rw [hcq] at hswapped
  obtain ⟨y,hsy,hy,-⟩ := hlater.produces (fun _ hq => hq) hj hd (hds.given m _ hmb)
  obtain ⟨v,hv,hrv⟩ := Evolves.keeps hsy serve_follows (Produces.follows hswapped)
  rw [hdq] at hy
  cases hy
  exact ⟨v,hv,hrv⟩

/-- If swaps raise the epoch, successful swaps from one record lead to one record, and
a call to load that starts after a successful swap and succeeds returns the swapped
record or one that requested swaps have made of it. -/
theorem quorum_register (hidle : s0.Idle) (hrun : Runs (leaseService n) s0 s) (hlater : Runs (leaseService n) s t)
    (hraises : ∀ q, t.Requested q → q.Raises) (databaseID : Identifier) :
    (∀ i j c d previous r r', s.calls i = some c → s.calls j = some d →
      c.request = .compareAndSwap databaseID previous r → d.request = .compareAndSwap databaseID previous r' →
      c.outcome (leaseService n) = some (.swapped true) → d.outcome (leaseService n) = some (.swapped true) → r = r') ∧
    (∀ i j c d previous r x, s.calls i = some c → c.request = .compareAndSwap databaseID previous r →
      c.outcome (leaseService n) = some (.swapped true) → s.calls j = none → t.calls j = some d →
      d.request = .load databaseID → d.outcome (leaseService n) = some (.loaded x) →
      ∃ v, x = some v ∧ ReflTransGen (Swaps t.Requested databaseID) r v ∧ (v = r ∨ r.epoch < v.epoch)) := by
  constructor
  · intro i j c d previous r r' hc hd hcq hdq hco hdo
    exact swap_unique hidle hrun (fun q hq => hraises q (hlater.requested hq)) hc hd hcq hdq hco hdo
  intro i j c d previous r x hc hcq hco hj hd hdq hdo
  obtain ⟨v,hv,hrv⟩ := load_follows hidle hrun hlater hc hcq hco hj hd hdq hdo
  exact ⟨v,hv,hrv,epoch_of_swaps hraises hrv⟩

def epochRecord (epoch : ℕ) : LeaseRecord := ⟨.ending 1,[0x61],epoch,0,0,false⟩
def firstSwapped : State 3 (Bool × Bool) Records Request Reply MemberError :=
  State.called (leaseService 3) ⟨fun _ _ => none,fun _ => none⟩ (false,false) (.compareAndSwap (.ending 1) none (epochRecord 1))
    [(0,none),(2,some .endpoint),(1,none)]
def secondSwapped : State 3 (Bool × Bool) Records Request Reply MemberError :=
  firstSwapped.called (leaseService 3) (false,true) (.compareAndSwap (.ending 1) (some (epochRecord 1)) (epochRecord 2))
    [(1,none),(2,none),(0,none)]
def thirdSwapped : State 3 (Bool × Bool) Records Request Reply MemberError :=
  secondSwapped.called (leaseService 3) (true,false) (.compareAndSwap (.ending 1) (some (epochRecord 2)) (epochRecord 3))
    [(0,none),(1,none)]
def thirdLoaded : State 3 (Bool × Bool) Records Request Reply MemberError :=
  thirdSwapped.called (leaseService 3) (true,true) (.load (.ending 1)) [(2,none),(1,none),(0,none)]

/-- The third member is out of reach at first and stays behind: it refuses the second swap, and the load finds
nothing there. -/
theorem quorum_register_behind : ∃ v, some (epochRecord 3) = some v ∧
    ReflTransGen (Swaps thirdLoaded.Requested (.ending 1)) (epochRecord 1) v ∧
      (v = epochRecord 1 ∨ (epochRecord 1).epoch < v.epoch) := by
  have hlater : Runs (leaseService 3) firstSwapped thirdLoaded :=
    (Runs.called firstSwapped _ _ _).trans ((Runs.called secondSwapped _ _ _).trans (Runs.called thirdSwapped _ _ _))
  have hraises : ∀ q, thirdLoaded.Requested q → q.Raises := by
    rintro q ⟨i,c,hc,rfl⟩
    obtain ⟨_ | _,_ | _⟩ := i <;> cases hc
    exacts [trivial,(by decide : 1 < 2),(by decide : 2 < 3),trivial]
  exact (quorum_register (fun _ => rfl) (Runs.called _ (false,false) _ _) hlater hraises (.ending 1)).2 (false,false)
    (true,true) _ _ none
    (epochRecord 1) _
    rfl rfl rfl rfl rfl rfl rfl

end Meldbase.PrimaryLease
