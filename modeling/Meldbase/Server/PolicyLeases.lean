import Mathlib.Algebra.Order.BigOperators.Group.List
import Mathlib.Algebra.Order.Ring.Nat
import Mathlib.Logic.Relation

/-! # Policy leases

An action runs under the one or two leases of its policy, each of which counts its
acquisitions; a revocation refuses new ones and waits until the last is released.  A step
is one critical section of one lease, or a revoker that leaves its wait.  A channel is the
number of times it was closed, and a call that panics takes no further step (an action
that panics still releases what it holds).
-/
namespace Meldbase.Server.PolicyLeases
open Function List

structure Lease where
  active : ℕ := 0
  revoked : Bool := false
  (done drained : ℕ := 0)

abbrev Leases := ℕ → Lease

def Lease.revoke (lease : Lease) : Lease :=
  if lease.revoked then lease
  else { lease with
    revoked := true, done := lease.done+1
    drained := if lease.active = 0 then lease.drained+1 else lease.drained }

/-- A nil lease allows the action. -/
def acquire (leases : Leases) : Option ℕ → Option (Bool × Leases)
  | none => some (true,leases)
  | some l =>
    let lease := leases l
    if lease.revoked then some (false,leases)
    else if (lease.active+1) % 2 ^ 64 = 0 then none
    else some (true,update leases l { lease with active := lease.active+1 })

def Lease.released (lease : Lease) : Lease :=
  let active := lease.active - 1
  { lease with active, drained := if lease.revoked && active = 0 then lease.drained+1 else lease.drained }

def release (leases : Leases) : Option ℕ → Option Leases
  | none => some leases
  | some l => if (leases l).active = 0 then none else some (update leases l (leases l).released)

/-- How far a call of `underQueryPolicy` or of `Revoke` has come. -/
inductive Call where
  | entering (lease additionalLease : Option ℕ)
  | entered (lease additionalLease : Option ℕ)
  | running (lease additionalLease : Option ℕ)
  | leaving (lease : Option ℕ)
  | left
  | revoking (l : ℕ)
  | waiting (l : ℕ)
  | drained (l : ℕ)
  | cancelled (l : ℕ)

inductive Acts (leases : Leases) : Call → Leases → Call → Prop
  | enter (h : acquire leases first = some (true,leases')) : Acts leases (.entering first second) leases' (.entered first second)
  | refuse (h : acquire leases first = some (false,leases')) : Acts leases (.entering first second) leases' .left
  | run (h : acquire leases second = some (true,leases')) : Acts leases (.entered first second) leases' (.running first second)
  | turn (h : acquire leases second = some (false,leases')) : Acts leases (.entered first second) leases' (.leaving first)
  | finish (h : release leases second = some leases') : Acts leases (.running first second) leases' (.leaving first)
  | leave (h : release leases first = some leases') : Acts leases (.leaving first) leases' .left
  | revoke (l : ℕ) : Acts leases (.revoking l) (update leases l (leases l).revoke) (.waiting l)
  | drain (h : 0 < (leases l).drained) : Acts leases (.waiting l) leases (.drained l)
  | cancel (l : ℕ) : Acts leases (.waiting l) leases (.cancelled l)

structure State where
  leases : Leases := fun _ => {}
  calls : List Call := []

inductive Step : State → State → Prop
  | act (h : Acts leases call leases' call') : Step ⟨leases,earlier ++ call :: later⟩ ⟨leases',earlier ++ call' :: later⟩
  | enter (first second : Option ℕ) : Step s { s with calls := .entering first second :: s.calls }
  | revoke (l : ℕ) : Step s { s with calls := .revoking l :: s.calls }

abbrev Reaches := Relation.ReflTransGen Step

/-- The acquisitions of a lease that a call has yet to release: two where both its leases are this one. -/
def Call.held (l : ℕ) : Call → ℕ
  | .entered first _ | .leaving first => if first = some l then 1 else 0
  | .running first second => (if first = some l then 1 else 0) + if second = some l then 1 else 0
  | _ => 0

def State.held (s : State) (l : ℕ) : ℕ := (s.calls.map (Call.held l)).sum

/-! ### One lease and the calls that hold it -/

/-- What a step does to one lease, and to the acquisitions its call holds. -/
inductive Moves (lease : Lease) (held : ℕ) : Lease → ℕ → Prop
  | idle : Moves lease held lease held
  | acquired (h : lease.revoked = false) : Moves lease held { lease with active := lease.active+1 } (held+1)
  | released (h : held = held'+1) : Moves lease held lease.released held'
  | revoked : Moves lease held lease.revoke held

theorem acquire_moves (h : acquire leases target = some (granted,leases')) (l held : ℕ) :
    Moves (leases l) held (leases' l) (held + if granted ∧ target = some l then 1 else 0) := by
  cases target with
  | none =>
    cases h
    simpa using Moves.idle
  | some k =>
    simp only [acquire] at h
    split_ifs at h with hr
    · cases h
      simpa using Moves.idle
    cases h
    by_cases hl : k = l
    · subst hl
      simpa using Moves.acquired (by simpa using hr)
    simpa [hl,Ne.symm hl] using Moves.idle

theorem release_moves (h : release leases target = some leases') (l held : ℕ) :
    Moves (leases l) (held + if target = some l then 1 else 0) (leases' l) held := by
  cases target with
  | none =>
    cases h
    simpa using Moves.idle
  | some k =>
    simp only [release] at h
    split_ifs at h
    cases h
    by_cases hl : k = l
    · subst hl
      simpa using Moves.released rfl
    simpa [hl,Ne.symm hl] using Moves.idle

theorem Acts.moves (h : Acts leases call leases' call') (l : ℕ) :
    Moves (leases l) (call.held l) (leases' l) (call'.held l) := by
  cases h with
  | enter h | refuse h => simpa [Call.held] using acquire_moves h l 0
  | run h | turn h => simpa [Call.held] using acquire_moves h l _
  | finish h => exact release_moves h l _
  | leave h => simpa [Call.held] using release_moves h l 0
  | revoke k =>
    by_cases hk : k = l
    · subst hk
      simpa [Call.held] using Moves.revoked
    simpa [hk,Ne.symm hk,Call.held] using Moves.idle
  | _ => exact .idle

/-- The counter counts the acquisitions held, and each channel is closed once its condition is met. -/
structure Lease.Counted (lease : Lease) (held : ℕ) : Prop where
  active : lease.active = held
  done : lease.done = if lease.revoked then 1 else 0
  drained : lease.drained = if lease.revoked ∧ held = 0 then 1 else 0

theorem Moves.counted (h : Moves lease held lease' held') (hc : lease.Counted (others+held)) :
    lease'.Counted (others+held') := by
  obtain ⟨hactive,hdone,hdrained⟩ := hc
  cases h with
  | idle => exact ⟨hactive,hdone,hdrained⟩
  | acquired hr => exact ⟨by simp only [hactive]; omega,hdone,by simpa [hr] using hdrained⟩
  | released h =>
    -- the acquisition released is still counted, so the channel is open before the step
    subst h
    have hopen : lease.drained = 0 := by simpa using hdrained
    have hleft : lease.active - 1 = others + held' := by omega
    exact ⟨hleft,hdone,by simp [Lease.released,hopen,hleft]⟩
  | revoked =>
    unfold Lease.revoke
    split_ifs with hr hzero <;> constructor <;> simp_all

/-- What no step takes back. -/
def Lease.Kept (lease lease' : Lease) : Prop := (lease.revoked → lease'.revoked) ∧ lease.drained ≤ lease'.drained

theorem Moves.kept (h : Moves lease held lease' held') : lease.Kept lease' := by
  unfold Lease.Kept
  cases h with
  | idle | acquired => exact ⟨id,le_rfl⟩
  | released =>
    refine ⟨id,?_⟩
    unfold Lease.released
    dsimp only
    split_ifs <;> omega
  | revoked =>
    unfold Lease.revoke
    split_ifs
    all_goals exact ⟨by simp,by simp⟩

theorem Step.kept (h : Step s s') (l : ℕ) : (s.leases l).Kept (s'.leases l) := by
  cases h with
  | act h => exact (h.moves l).kept
  | _ => exact ⟨id,le_rfl⟩

theorem Reaches.kept (h : Reaches s s') (l : ℕ) : (s.leases l).Kept (s'.leases l) := by
  induction h with
  | refl => exact ⟨id,le_rfl⟩
  | tail _ h ih => exact ⟨fun hr => (h.kept l).1 (ih.1 hr),ih.2.trans (h.kept l).2⟩

structure State.Sound (s : State) : Prop where
  counted : ∀ l, (s.leases l).Counted (s.held l)
  waiting : ∀ l, .waiting l ∈ s.calls → (s.leases l).revoked
  drained : ∀ l, .drained l ∈ s.calls → 0 < (s.leases l).drained

theorem Lease.revoked_revoke (lease : Lease) : lease.revoke.revoked := by
  unfold revoke
  split_ifs with h
  · exact h
  all_goals rfl

theorem Step.sound (h : Step s s') (hs : s.Sound) : s'.Sound := by
  obtain ⟨hcounted,hwaiting,hdrained⟩ := hs
  cases h with
  | @act _ call _ call' _ _ h =>
    have hkept l := (h.moves l).kept
    refine ⟨fun l => ?_,fun l hl => ?_,fun l hl => ?_⟩
    · have := hcounted l
      simp only [State.held,map_append,map_cons,sum_append,sum_cons,← Nat.add_assoc,
        Nat.add_right_comm _ (Call.held l _)] at this ⊢
      exact (h.moves l).counted this
    · by_cases hcall : call' = .waiting l
      · subst hcall
        cases h
        simp [Lease.revoked_revoke]
      exact (hkept l).1 (hwaiting l (by simp only [mem_append,mem_cons] at hl ⊢; tauto))
    by_cases hcall : call' = .drained l
    · subst hcall
      cases h
      assumption
    exact (hdrained l (by simp only [mem_append,mem_cons] at hl ⊢; tauto)).trans_le (hkept l).2
  | enter | revoke =>
    exact ⟨fun l => by simpa [State.held,Call.held] using hcounted l,fun l hl => hwaiting l (by simpa using hl),
      fun l hl => hdrained l (by simpa using hl)⟩

theorem Reaches.sound (h : Reaches {} s) : s.Sound := by
  induction h with
  | refl => exact ⟨fun _ => ⟨rfl,rfl,rfl⟩,nofun,nofun⟩
  | tail _ h ih => exact h.sound ih

theorem State.held_eq_zero_iff (s : State) (l : ℕ) : s.held l = 0 ↔ ∀ call ∈ s.calls, call.held l = 0 := by
  simp [State.held,List.sum_eq_zero_iff]

/-- A call runs under a lease from its acquisition to its release. -/
theorem revocation_final {s s' : State} (h : Reaches {} s) (h' : Reaches s s') (l : ℕ) :
    (.drained l ∈ s.calls → ∀ call ∈ s'.calls, call.held l = 0) ∧
      ((s.leases l).revoked → (s'.leases l).revoked) ∧
      ((s.leases l).revoked → (∀ call ∈ s.calls, call.held l = 0) → 0 < (s.leases l).drained) ∧
      (.waiting l ∈ s.calls → (s.leases l).revoked) ∧
      (∀ call ∈ s.calls, 0 < call.held l → (release s.leases (some l)).isSome) ∧
      (s.leases l).done ≤ 1 ∧ (s.leases l).drained ≤ 1 := by
  have hs := h.sound
  obtain ⟨hactive,hdone,hdrained⟩ := hs.counted l
  refine ⟨fun hl => ?_,(h'.kept l).1,fun hr hheld => ?_,hs.waiting l,fun call hcall hheld => ?_,?_,?_⟩
  · have hclosed := (hs.drained l hl).trans_le (h'.kept l).2
    rw [((Reaches.sound (h.trans h')).counted l).drained] at hclosed
    rw [← State.held_eq_zero_iff]
    by_contra hheld
    simp [hheld] at hclosed
  · rw [hdrained,if_pos ⟨hr,(s.held_eq_zero_iff l).mpr hheld⟩]
    exact Nat.one_pos
  · have hne : s.held l ≠ 0 := fun hzero => hheld.ne' ((s.held_eq_zero_iff l).mp hzero call hcall)
    simp [release,hactive,hne]
  · rw [hdone]
    split_ifs <;> omega
  · rw [hdrained]
    split_ifs <;> omega

/-- A revocation waits for the action it finds running, and drains once that has left. -/
theorem revocation_final_drained :
    ∃ s t, Reaches {} s ∧ s.calls = [.waiting 0,.running (some 0) none] ∧ Reaches s t ∧ t.calls = [.drained 0,.left] ∧
      ∀ s', Reaches t s' → ∀ call ∈ s'.calls, call.held 0 = 0 := by
  have hrunning : Reaches {} ⟨_,[.running (some 0) none]⟩ :=
    ((Relation.ReflTransGen.single (.enter (some 0) none)).tail (@Step.act _ _ _ _ [] [] (.enter rfl))).tail
      (@Step.act _ _ _ _ [] [] (.run rfl))
  have hwaiting := (hrunning.tail (.revoke 0)).tail (@Step.act _ _ _ _ [] _ (.revoke 0))
  have hdrained : Reaches ⟨update (update (fun _ => {}) 0 ⟨1,false,0,0⟩) 0 (Lease.revoke ⟨1,false,0,0⟩),
      [.waiting 0,.running (some 0) none]⟩ ⟨_,[.drained 0,.left]⟩ :=
    ((Relation.ReflTransGen.single (@Step.act _ _ _ _ [.waiting 0] [] (.finish rfl))).tail
      (@Step.act _ _ _ _ [.waiting 0] [] (.leave rfl))).tail (@Step.act _ _ _ _ [] _ (.drain (by decide)))
  exact ⟨_,_,hwaiting,rfl,hdrained,rfl,fun s' h' => (revocation_final (hwaiting.trans hdrained) h' 0).1 (by simp)⟩

end Meldbase.Server.PolicyLeases
