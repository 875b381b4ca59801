import Mathlib.Data.List.ReduceOption
import Meldbase.Database.RollbackAnchor
import Meldbase.Library.Quorum

/-! # Quorum of rollback anchors

Every member keeps one anchor in a file and serves it over HTTP.  The client loads an
anchor that is at least the anchors of a quorum, members without an anchor counted
among them, and has advanced once a quorum has accepted the new anchor.
-/
namespace Meldbase.AnchorHTTP
open Database Quorum Option Nat

/-! ### Members -/

inductive MemberError where
  | authentication
  | configuration
  | protocol
  | endpoint
  deriving DecidableEq

def MemberError.fatal : MemberError → Bool
  | .endpoint => false
  | _ => true

inductive Request where
  | load
  | advance (anchor : RollbackAnchor)

inductive Reply where
  | loaded (anchor : Option RollbackAnchor)
  | noContent
  | conflict
  | storageUnavailable

/-- The check of `Handler.advance` before and after it advances the store. -/
def anchorConflict (current : Option RollbackAnchor) (anchor : RollbackAnchor) : Bool :=
  current.any fun c => c.databaseID ≠ anchor.databaseID || anchor.minimumCommitSequence < c.minimumCommitSequence ||
    anchor.minimumGeneration < c.minimumGeneration

/-- `Handler.advance`. -/
def handlerAdvance (anchor : RollbackAnchor) (current : Option RollbackAnchor) : Option RollbackAnchor × Reply :=
  if anchorConflict current anchor then (current,.conflict)
  else match advanceAnchor current anchor with
    | .ok stored => (some stored,.noContent)
    | .error _ => (current,if anchorConflict current anchor then .conflict else .storageUnavailable)
def serve : Request → Option RollbackAnchor → Option RollbackAnchor × Reply
  | .load,current => (current,.loaded current)
  | .advance anchor,current => handlerAdvance anchor current
def Retains (a : RollbackAnchor) (current : Option RollbackAnchor) : Prop :=
  ∃ c, current = some c ∧ anchorBeforeOrEqual a c = true

theorem handlerAdvance_noContent
    (h : (handlerAdvance anchor current).2 = .noContent) : Retains anchor (handlerAdvance anchor current).1 := by
  unfold handlerAdvance at h ⊢
  split at h
  · cases h
  next hconflict =>
  rw [if_neg hconflict]
  cases hstored : advanceAnchor current anchor with
  | ok stored => exact ⟨stored,rfl,(advanceAnchor_ok hstored).1 ▸ anchorBeforeOrEqual_refl _⟩
  | error e =>
    rw [hstored] at h
    cases h

theorem serve_retains (q : Request) (h : Retains a current) : Retains a (serve q current).1 := by
  cases q with
  | load => exact h
  | advance anchor =>
    change Retains a (handlerAdvance anchor current).1
    unfold handlerAdvance
    split
    · exact h
    cases hstored : advanceAnchor current anchor with
    | error e => exact h
    | ok stored =>
      obtain ⟨c,rfl,hac⟩ := h
      obtain ⟨rfl,-,hc⟩ := advanceAnchor_ok hstored
      exact ⟨stored,rfl,anchorBeforeOrEqual_trans hac (hc c rfl)⟩

/-! ### Collecting results -/

inductive QuorumError where
  | member (e : MemberError)
  | conflict
  | quorum
  deriving DecidableEq

inductive Outcome where
  | loaded (anchor : Option RollbackAnchor)
  | advanced
  | failed (e : QuorumError)
  deriving DecidableEq

def selectLoadQuorum (results : List (Option RollbackAnchor)) (quorum : ℕ) : Option (Option RollbackAnchor) :=
  if quorum < 1 ∨ results.length < quorum then none
  else
    let missing := results.countP (·.isNone)
    let qualified := results.reduceOption.filter fun candidate =>
      quorum ≤ missing+results.reduceOption.countP (anchorBeforeOrEqual · candidate)
    match qualified.find? (fun candidate => qualified.all (anchorBeforeOrEqual · candidate)) with
    | some candidate => some (some candidate)
    | none => if quorum ≤ missing then some none else none
def errorAnswer {A : Type} (e : MemberError) : Answer A MemberError := if e.fatal then .fatal e else .lost

/-- `loadOne`. -/
def loadAnswer : Except MemberError Reply → Answer (Option RollbackAnchor) MemberError
  | .error e => errorAnswer e
  | .ok (.loaded anchor) => .value anchor
  | .ok .storageUnavailable => .lost
  | .ok _ => .fatal .protocol

/-- `advanceOne`; a conflict is a refusal. -/
def advanceAnswer : Except MemberError Reply → Answer Bool MemberError
  | .error e => errorAnswer e
  | .ok .noContent => .value true
  | .ok .conflict => .value false
  | .ok _ => .lost
def outcomeOf {B : Type} (success : B → Outcome) : Verdict B MemberError → Outcome
  | .decided b => success b
  | .conflict => .failed .conflict
  | .unavailable => .failed .quorum
  | .fatal e => .failed (.member e)
def load (n : ℕ) (results : List (Except MemberError Reply)) : Option Outcome :=
  (gather n (selectLoadQuorum · (quorum n)) 0 [] (results.map loadAnswer)).map (outcomeOf .loaded)
def advance (n : ℕ) (results : List (Except MemberError Reply)) : Option Outcome :=
  (tally n 0 0 0 (results.map advanceAnswer)).map (outcomeOf fun _ => .advanced)
def anchorService (n : ℕ) : Service (Option RollbackAnchor) Request Reply MemberError Outcome where
  admits
    | .load => true
    | .advance anchor => validRollbackAnchor anchor
  serve := serve
  collect
    | .load,results => load n results
    | .advance _,results => advance n results

/-! ### What a quorum has answered -/

variable {n : ℕ}

/-- The selection is at least the answer, or both are absence. -/
def covers : Option RollbackAnchor → Option RollbackAnchor → Bool
  | none,answer => answer.isNone
  | some _,none => true
  | some selected,some answer => anchorBeforeOrEqual answer selected

theorem countP_covers (selected : RollbackAnchor) (results : List (Option RollbackAnchor)) :
    results.countP (covers (some selected)) =
      results.countP (·.isNone) + results.reduceOption.countP (anchorBeforeOrEqual · selected) := by
  induction results with
  | nil => rfl
  | cons answer rest ih =>
    cases answer with
    | none =>
      simp only [List.countP_cons,List.reduceOption_cons_of_none,ih,covers,isNone_none,if_true]
      exact add_right_comm ..
    | some a =>
      simp only [List.countP_cons,List.reduceOption_cons_of_some,ih,covers,isNone_some]
      exact add_assoc ..

theorem selectLoadQuorum_covers {quorum : ℕ}
    (h : selectLoadQuorum results quorum = some selected) : quorum ≤ results.countP (covers selected) := by
  unfold selectLoadQuorum at h
  split at h
  · cases h
  dsimp only at h
  split at h
  · next candidate hfound =>
    cases h
    have hqualified := (List.mem_filter.mp (List.mem_of_find?_eq_some hfound)).2
    rw [countP_covers]
    exact of_decide_eq_true hqualified
  split_ifs at h with hmissing
  cases h
  exact hmissing

theorem outcomeOf_eq {B : Type} {success : B → Outcome} {v : Option (Verdict B MemberError)}
    (h : v.map (outcomeOf success) = some o) (ho : ∀ e, o ≠ .failed e) : ∃ b, v = some (.decided b) ∧ success b = o := by
  obtain ⟨verdict,rfl,rfl⟩ := map_eq_some_iff.mp h
  cases verdict with
  | decided b => exact ⟨b,rfl,rfl⟩
  | conflict => exact absurd rfl (ho _)
  | unavailable => exact absurd rfl (ho _)
  | fatal e => exact absurd rfl (ho _)

theorem load_covers {results : List (Except MemberError Reply)}
    (h : load n results = some (.loaded selected)) :
    quorum n ≤ results.countP fun r => (loadAnswer r).satisfies (covers selected) := by
  obtain ⟨b,hb,hselected⟩ := outcomeOf_eq h nofun
  cases hselected
  have hcount := gather_decided (fun _ => selectLoadQuorum_covers) hb
  rwa [List.countP_nil,zero_add,List.countP_map] at hcount

theorem advance_accepted {results : List (Except MemberError Reply)} (h : advance n results = some .advanced) :
    quorum n ≤ results.countP fun r => (advanceAnswer r).satisfies id := by
  obtain ⟨_,hb,-⟩ := outcomeOf_eq h nofun
  have hcount := tally_decided hb
  rwa [zero_add,List.countP_map] at hcount

theorem errorAnswer_satisfies {A : Type} (p : A → Bool) (e : MemberError) : (errorAnswer e).satisfies p = false := by
  cases e <;> rfl

theorem advanceAnswer_satisfies (h : (advanceAnswer result).satisfies id = true) :
    result = .ok .noContent := by
  rcases result with e | reply
  · exact absurd h (by rw [advanceAnswer,errorAnswer_satisfies]; decide)
  · cases reply <;> first | rfl | cases h

theorem loadAnswer_satisfies {p : Option RollbackAnchor → Bool}
    (h : (loadAnswer result).satisfies p = true) : ∃ answer, result = .ok (.loaded answer) ∧ p answer = true := by
  rcases result with e | reply
  · exact absurd h (by rw [loadAnswer,errorAnswer_satisfies]; decide)
  cases reply with
  | loaded answer => exact ⟨answer,rfl,h⟩
  | noContent => cases h
  | conflict => cases h
  | storageUnavailable => cases h

/-! ### Acknowledged anchors -/

variable {ι : Type} [DecidableEq ι] {s0 s t : State n ι (Option RollbackAnchor) Request Reply MemberError}

theorem Evolves.retains {A : Request → Prop}
    (h : Evolves (anchorService n) A x y) (hx : Retains a x) : Retains a y :=
  h.keeps (fun q _ _ => serve_retains q) hx

/-- Once an anchor has been acknowledged, a call to load that starts later and
succeeds returns an anchor of the same database that is at least the acknowledged
one. -/
theorem acknowledged_anchor_retained {i j : ι} {c d : Call n Request Reply MemberError} {a : RollbackAnchor}
    {r : Option RollbackAnchor}
    (hidle : s0.Idle) (hrun : Runs (anchorService n) s0 s) (hc : s.calls i = some c) (hadvance : c.request = .advance a)
    (hadvanced : c.outcome (anchorService n) = some .advanced) (hlater : Runs (anchorService n) s t) (hj : s.calls j = none)
    (hd : t.calls j = some d) (hload : d.request = .load) (hloaded : d.outcome (anchorService n) = some (.loaded r)) :
    ∃ b, r = some b ∧ b.databaseID = a.databaseID ∧ a.minimumCommitSequence ≤ b.minimumCommitSequence ∧
      a.minimumGeneration ≤ b.minimumGeneration := by
  have hcs := hrun.sound hidle hc
  have hds := Runs.sound (hrun.trans hlater) hidle hd
  unfold Call.outcome at hadvanced hloaded
  rw [hadvance] at hadvanced
  rw [hload] at hloaded
  -- a member that has accepted the anchor is among those the selection covers
  obtain ⟨m,accepted,answer,hma,haccepted,hmr,hanswer⟩ := exists_common hcs.once hds.once (advance_accepted hadvanced)
    (load_covers hloaded)
  cases advanceAnswer_satisfies haccepted
  obtain ⟨x,rfl,hx⟩ := loadAnswer_satisfies hanswer
  obtain ⟨y,-,hy,hys⟩ := hrun.produces (A := fun _ => True) (fun _ _ => trivial) (hidle i) hc (hcs.given m _ hma)
  rw [hadvance] at hy hys
  have hs : Retains a (s.members m) := Evolves.retains hys (handlerAdvance_noContent hy)
  obtain ⟨z,hsz,hz,-⟩ := hlater.produces (A := fun _ => True) (fun _ _ => trivial) hj hd (hds.given m _ hmr)
  obtain ⟨b,rfl,hab⟩ := Evolves.retains hsz hs
  rw [hload] at hz
  cases hz
  cases r with
  | none => cases hx
  | some selected =>
    obtain ⟨hid,hsequence,hgeneration⟩ := anchorBeforeOrEqual_iff.mp (anchorBeforeOrEqual_trans hab hx)
    exact ⟨selected,rfl,hid.symm,hsequence,hgeneration⟩

def anchorAt (sequence : ℕ) : RollbackAnchor := ⟨.ending 1,sequence,sequence⟩
def advancedTwice : State 3 (Fin 3) (Option RollbackAnchor) Request Reply MemberError :=
  let s := State.called (anchorService 3) ⟨fun _ => none,fun _ => none⟩ 0 (.advance (anchorAt 3))
    [(1,some .endpoint),(2,none),(0,none)]
  s.called (anchorService 3) 1 (.advance (anchorAt 5)) [(0,none),(2,some .endpoint),(1,none)]

/-- The second member misses the first advance and the third the second one; a load from both of them finds an anchor
that is at least the first. -/
theorem acknowledged_anchor_retained_behind : ∃ b, some (anchorAt 5) = some b ∧ b.databaseID = (anchorAt 3).databaseID ∧
    (anchorAt 3).minimumCommitSequence ≤ b.minimumCommitSequence ∧ (anchorAt 3).minimumGeneration ≤ b.minimumGeneration := by
  have hrun : Runs (anchorService 3) ⟨fun _ => none,fun _ => none⟩ advancedTwice :=
    (Runs.called _ 0 _ _).trans (Runs.called _ 1 _ _)
  exact acknowledged_anchor_retained (i := 0) (j := 2) (fun _ => rfl) hrun rfl rfl rfl
    (Runs.called advancedTwice 2 .load [(2,none),(1,none)]) rfl rfl rfl rfl

end Meldbase.AnchorHTTP
