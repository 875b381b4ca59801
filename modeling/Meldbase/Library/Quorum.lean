import Mathlib.Algebra.GroupWithZero.Nat
import Mathlib.Data.Fintype.Card

/-! # Calls to every member of a group

A caller sends one request to every member and works through the results in the
order in which they arrive, until it can decide.  A member carries out a request any
number of times and at any moment after the call has started, also after the caller
has returned; a result is the reply of such an execution, or an error.  A call that
is given up is one to which nothing arrives any more.
-/
namespace Meldbase.Quorum
open List Function Prod
open Relation

/-- The least number of members that is more than half of all. -/
def quorum (n : ℕ) : ℕ := n / 2 + 1

structure Service (Member Request Reply Error Outcome : Type) where
  admits : Request → Bool
  serve : Request → Member → Member × Reply
  /-- The outcome of a call, once the results that have arrived decide it. -/
  collect : Request → List (Except Error Reply) → Option Outcome

instance memberNeZero : NeZero 3 := ⟨by decide⟩

structure Call (n : ℕ) (Request Reply Error : Type) where
  request : Request
  replies : Fin n → List Reply
  arrived : List (Fin n × Except Error Reply)

structure State (n : ℕ) (ι Member Request Reply Error : Type) where
  members : Fin n → Member
  calls : ι → Option (Call n Request Reply Error)

variable {n : ℕ} {ι Member Request Reply Error Outcome : Type} [DecidableEq ι]
variable (S : Service Member Request Reply Error Outcome)

def Call.outcome (c : Call n Request Reply Error) : Option Outcome := S.collect c.request (c.arrived.map snd)
def Call.replied (c : Call n Request Reply Error) (m : Fin n) (a : Reply) : Call n Request Reply Error :=
  { c with replies := update c.replies m (a :: c.replies m) }

variable {c : Call n Request Reply Error}

theorem Call.mem_replied {m k : Fin n} {a b : Reply} :
    a ∈ (c.replied k b).replies m ↔ m = k ∧ a = b ∨ a ∈ c.replies m := by
  unfold Call.replied
  by_cases hk : m = k
  · subst hk
    simp
  · simp [hk]

inductive Step (S : Service Member Request Reply Error Outcome) :
    State n ι Member Request Reply Error → State n ι Member Request Reply Error → Prop
  | start {s} (i : ι) (q : Request) (free : s.calls i = none) (admitted : S.admits q = true) :
      Step S s { s with calls := update s.calls i (some ⟨q,fun _ => [],[]⟩) }
  | execute {s} (i : ι) (m : Fin n) (c : Call n Request Reply Error) (call : s.calls i = some c) :
      Step S s ⟨update s.members m (S.serve c.request (s.members m)).1,
        update s.calls i (some (c.replied m (S.serve c.request (s.members m)).2))⟩
  | arrive {s} (i : ι) (m : Fin n) (c : Call n Request Reply Error) (result : Except Error Reply) (call : s.calls i = some c)
      (waiting : c.outcome S = none) (first : m ∉ c.arrived.map fst) (reply : ∀ a, result = .ok a → a ∈ c.replies m) :
      Step S s { s with calls := update s.calls i (some { c with arrived := c.arrived ++ [(m,result)] }) }

def Runs : State n ι Member Request Reply Error →
    State n ι Member Request Reply Error → Prop := ReflTransGen (Step S)
def State.Idle (s : State n ι Member Request Reply Error) : Prop := ∀ i, s.calls i = none
def State.Requested (s : State n ι Member Request Reply Error) (q : Request) : Prop :=
  ∃ i c, s.calls i = some c ∧ c.request = q

variable {S : Service Member Request Reply Error Outcome} {s t : State n ι Member Request Reply Error} {A B F : Type}

def Evolves (S : Service Member Request Reply Error Outcome) (A : Request → Prop) : Member → Member → Prop :=
  ReflTransGen fun x y => ∃ q, A q ∧ y = (S.serve q x).1

theorem Evolves.keeps {A : Request → Prop} {P : Member → Prop} {x y : Member} (h : Evolves S A x y)
    (hP : ∀ q x, A q → P x → P (S.serve q x).1) (hx : P x) : P y := by
  induction h with
  | refl => exact hx
  | tail _ hstep ih =>
    obtain ⟨q,hq,rfl⟩ := hstep
    exact hP q _ hq ih

/-! ### What one step does -/

theorem Step.call {i : ι} (h : Step S s t) (hc : s.calls i = some c) :
    ∃ c', t.calls i = some c' ∧ c'.request = c.request := by
  cases h with
  | start j q free admitted =>
    have hne : i ≠ j := fun he => by rw [he,free] at hc; cases hc
    exact ⟨c,(update_of_ne hne ..).trans hc,rfl⟩
  | execute j m d call =>
    by_cases he : i = j
    · subst he
      cases call.symm.trans hc
      exact ⟨_,update_self ..,rfl⟩
    · exact ⟨c,(update_of_ne he ..).trans hc,rfl⟩
  | arrive j m d result call waiting first reply =>
    by_cases he : i = j
    · subst he
      cases call.symm.trans hc
      exact ⟨_,update_self ..,rfl⟩
    · exact ⟨c,(update_of_ne he ..).trans hc,rfl⟩

theorem Step.requested {q : Request} (h : Step S s t) (hq : s.Requested q) : t.Requested q := by
  obtain ⟨i,c,hc,rfl⟩ := hq
  obtain ⟨c',hc',he⟩ := h.call hc
  exact ⟨i,c',hc',he⟩

theorem Step.member (h : Step S s t) (m : Fin n) :
    t.members m = s.members m ∨ ∃ q, t.Requested q ∧ t.members m = (S.serve q (s.members m)).1 := by
  cases h with
  | start i q free admitted => exact .inl rfl
  | arrive i k c result call waiting first reply => exact .inl rfl
  | execute i k c call =>
    by_cases he : m = k
    · subst he
      exact .inr ⟨c.request,⟨i,_,update_self ..,rfl⟩,update_self ..⟩
    · exact .inl (update_of_ne he ..)

theorem Step.reply {i : ι} {m : Fin n} {a : Reply} (h : Step S s t) (hc : t.calls i = some c)
    (ha : a ∈ c.replies m) :
    (∃ d, s.calls i = some d ∧ d.request = c.request ∧ a ∈ d.replies m) ∨
      ((S.serve c.request (s.members m)).2 = a ∧ t.members m = (S.serve c.request (s.members m)).1 ∧
        ∀ j ≠ i, t.calls j = s.calls j) := by
  cases h with
  | start j q free admitted =>
    by_cases he : i = j
    · subst he
      cases (update_self ..).symm.trans hc
      cases ha
    · exact .inl ⟨c,(update_of_ne he ..).symm.trans hc,rfl,ha⟩
  | arrive j k d result call waiting first reply =>
    by_cases he : i = j
    · subst he
      cases (update_self ..).symm.trans hc
      exact .inl ⟨d,call,rfl,ha⟩
    · exact .inl ⟨c,(update_of_ne he ..).symm.trans hc,rfl,ha⟩
  | execute j k d call =>
    by_cases he : i = j
    · subst he
      cases (update_self ..).symm.trans hc
      rcases Call.mem_replied.mp ha with ⟨rfl,rfl⟩ | hold
      · exact .inr ⟨rfl,update_self ..,fun j hj => update_of_ne hj ..⟩
      · exact .inl ⟨d,call,rfl,hold⟩
    · exact .inl ⟨c,(update_of_ne he ..).symm.trans hc,rfl,ha⟩

/-! ### What a run does -/

theorem Runs.requested {q : Request} (h : Runs S s t) (hq : s.Requested q) : t.Requested q := by
  induction h with
  | refl => exact hq
  | tail _ hstep ih => exact hstep.requested ih

theorem Runs.evolves {A : Request → Prop} (h : Runs S s t) (hA : ∀ q, t.Requested q → A q) (m : Fin n) :
    Evolves S A (s.members m) (t.members m) := by
  induction h with
  | refl => exact .refl
  | tail _ hstep ih =>
    have hbefore := ih fun q hq => hA q (hstep.requested hq)
    rcases hstep.member m with he | ⟨q,hq,he⟩
    · exact he ▸ hbefore
    · exact hbefore.tail ⟨q,hA q hq,he⟩

def Produces (S : Service Member Request Reply Error Outcome) (A : Request → Prop) (q : Request) (a : Reply) (x y : Member) :
    Prop :=
  ∃ z, Evolves S A x z ∧ (S.serve q z).2 = a ∧ Evolves S A (S.serve q z).1 y

theorem Produces.extend {A : Request → Prop} {q : Request} {a : Reply} {x y z : Member} (h : Produces S A q a x y)
    (hz : Evolves S A y z) : Produces S A q a x z := by
  obtain ⟨w,hxw,hw,hwy⟩ := h
  exact ⟨w,hxw,hw,hwy.trans hz⟩

theorem Runs.produces {A : Request → Prop} {i : ι} {m : Fin n} {a : Reply} (h : Runs S s t)
    (hA : ∀ q, t.Requested q → A q) (hs : s.calls i = none) (hc : t.calls i = some c) (ha : a ∈ c.replies m) :
    Produces S A c.request a (s.members m) (t.members m) := by
  induction h generalizing c with
  | refl => rw [hs] at hc; cases hc
  | tail hrun hstep ih =>
    have hA' := fun q hq => hA q (hstep.requested hq)
    rcases hstep.reply hc ha with ⟨d,hd,hq,had⟩ | ⟨hreply,hmember,-⟩
    · have hlast : Evolves S A _ _ := Runs.evolves (ReflTransGen.single hstep) hA m
      exact (hq ▸ ih hA' hd had).extend hlast
    · exact ⟨_,Runs.evolves hrun hA' m,hreply,hmember ▸ .refl⟩

/-- Of two calls' replies at one member, one is produced after the other. -/
theorem Runs.ordered {A : Request → Prop} {i j : ι} {d : Call n Request Reply Error} {m : Fin n} {a b : Reply} (h : Runs S s t)
    (hA : ∀ q, t.Requested q → A q) (hs : s.Idle) (hij : i ≠ j) (hc : t.calls i = some c) (hd : t.calls j = some d)
    (ha : a ∈ c.replies m) (hb : b ∈ d.replies m) :
    ∃ x, (Produces S A c.request a (s.members m) x ∧ (S.serve d.request x).2 = b) ∨
      (Produces S A d.request b (s.members m) x ∧ (S.serve c.request x).2 = a) := by
  induction h generalizing c d with
  | refl => rw [hs i] at hc; cases hc
  | tail hrun hstep ih =>
    have hA' := fun q hq => hA q (hstep.requested hq)
    rcases hstep.reply hc ha with ⟨c',hc',hq,ha'⟩ | ⟨hreply,-,hothers⟩
    · rcases hstep.reply hd hb with ⟨d',hd',hq',hb'⟩ | ⟨hreply,-,-⟩
      · rw [← hq,← hq']
        exact ih hA' hc' hd' ha' hb'
      · exact ⟨_,.inl ⟨hq ▸ Runs.produces hrun hA' (hs i) hc' ha',hreply⟩⟩
    · have hd' := (hothers j hij.symm).symm.trans hd
      exact ⟨_,.inr ⟨Runs.produces hrun hA' (hs j) hd' hb,hreply⟩⟩

/-- The member executes the call and its reply arrives, or the error arrives in its place. -/
def State.exchange (S : Service Member Request Reply Error Outcome) (i : ι) (s : State n ι Member Request Reply Error)
    (sender : Fin n × Option Error) : State n ι Member Request Reply Error :=
  match s.calls i with
  | none => s
  | some c =>
    if (c.outcome S).isNone ∧ sender.1 ∉ c.arrived.map fst then
      match sender.2 with
      | some e => { s with calls := update s.calls i (some { c with arrived := c.arrived ++ [(sender.1,.error e)] }) }
      | none =>
        let served := S.serve c.request (s.members sender.1)
        ⟨update s.members sender.1 served.1,update s.calls i
          (some { c.replied sender.1 served.2 with arrived := c.arrived ++ [(sender.1,.ok served.2)] })⟩
    else s
def State.called (S : Service Member Request Reply Error Outcome) (s : State n ι Member Request Reply Error) (i : ι) (q : Request)
    (senders : List (Fin n × Option Error)) : State n ι Member Request Reply Error :=
  if (s.calls i).isNone ∧ S.admits q then
    senders.foldl (State.exchange S i) { s with calls := update s.calls i (some ⟨q,fun _ => [],[]⟩) }
  else s

theorem Runs.exchange (i : ι) (s : State n ι Member Request Reply Error) (sender : Fin n × Option Error) :
    Runs S s (s.exchange S i sender) := by
  unfold State.exchange
  split
  · exact .refl
  next c hc =>
  split_ifs with hready
  · obtain ⟨hwait,hfirst⟩ := hready
    rw [Option.isNone_iff_eq_none] at hwait
    split
    · next e _ => exact .single (Step.arrive i sender.1 c (.error e) hc hwait hfirst nofun)
    · have hexecute : Runs S s _ := .single (Step.execute i sender.1 c hc)
      have harrive := hexecute.tail (Step.arrive i sender.1 _ (.ok (S.serve c.request (s.members sender.1)).2) (update_self ..)
        hwait hfirst (fun a ha => by cases ha; exact Call.mem_replied.mpr (.inl ⟨rfl,rfl⟩)))
      simp only [update_idem] at harrive
      exact harrive
  · exact .refl

theorem Runs.called (s : State n ι Member Request Reply Error) (i : ι) (q : Request) (senders : List (Fin n × Option Error)) :
    Runs S s (s.called S i q senders) := by
  unfold State.called
  split_ifs with hfree
  · refine ReflTransGen.head (Step.start i q (Option.isNone_iff_eq_none.mp hfree.1) hfree.2) ?_
    exact foldlRecOn senders (State.exchange S i) .refl fun _ hrun sender _ => hrun.trans (Runs.exchange i _ sender)
  · exact .refl

/-! ### What has arrived -/

structure Call.Sound (S : Service Member Request Reply Error Outcome) (c : Call n Request Reply Error) : Prop where
  admitted : S.admits c.request = true
  once : (c.arrived.map fst).Nodup
  given : ∀ m a, (m,Except.ok a) ∈ c.arrived → a ∈ c.replies m

theorem Step.sound {i : ι} (h : Step S s t) (hs : ∀ i c, s.calls i = some c → c.Sound S)
    (hc : t.calls i = some c) : c.Sound S := by
  cases h with
  | start j q free admitted =>
    by_cases he : i = j
    · subst he
      cases (update_self ..).symm.trans hc
      exact ⟨admitted,nodup_nil,nofun⟩
    · exact hs i c ((update_of_ne he ..).symm.trans hc)
  | execute j k d call =>
    by_cases he : i = j
    · subst he
      cases (update_self ..).symm.trans hc
      have hd := hs i d call
      exact ⟨hd.admitted,hd.once,fun m a ha => Call.mem_replied.mpr (.inr (hd.given m a ha))⟩
    · exact hs i c ((update_of_ne he ..).symm.trans hc)
  | arrive j k d result call waiting first reply =>
    by_cases he : i = j
    · subst he
      cases (update_self ..).symm.trans hc
      have hd := hs i d call
      refine ⟨hd.admitted,?_,fun m a ha => ?_⟩
      · rw [map_append]
        exact hd.once.append (nodup_singleton _) (by simpa using first)
      rcases mem_append.mp ha with ha | ha
      · exact hd.given m a ha
      · cases mem_singleton.mp ha
        exact reply a rfl
    · exact hs i c ((update_of_ne he ..).symm.trans hc)

theorem Runs.sound {i : ι} (h : Runs S s t) (hs : s.Idle) (hc : t.calls i = some c) : c.Sound S := by
  induction h generalizing i c with
  | refl => rw [hs i] at hc; cases hc
  | tail _ hstep ih => exact hstep.sound (fun _ _ => ih) hc

/-! ### Deciding a call -/

/-- How a caller reads a result; a fatal error ends the call. -/
inductive Answer (A F : Type) where
  | value (a : A)
  | lost
  | fatal (e : F)

inductive Verdict (B F : Type) where
  | decided (b : B)
  | conflict
  | unavailable
  | fatal (e : F)
  deriving DecidableEq

def Answer.satisfies (p : A → Bool) : Answer A F → Bool
  | .value a => p a
  | _ => false

/-- Values are gathered until `select` finds one among them, or until those still
missing cannot complete a quorum. -/
def gather (n : ℕ) (select : List A → Option B) : ℕ → List A → List (Answer A F) → Option (Verdict B F)
  | received,values,[] =>
    if received < n then none else some (if quorum n ≤ values.length then .conflict else .unavailable)
  | _,_,.fatal e::_ => some (.fatal e)
  | received,values,.lost::rest =>
    if values.length + n - received - 1 < quorum n then some .unavailable else gather n select (received+1) values rest
  | received,values,.value a::rest =>
    match select (values ++ [a]) with
    | some b => some (.decided b)
    | none =>
      if (values ++ [a]).length + n - received - 1 < quorum n then some .unavailable
      else gather n select (received+1) (values ++ [a]) rest

/-- Grants are counted until they are a quorum or cannot become one; refusals tell a
conflict from a loss. -/
def tally (n : ℕ) : ℕ → ℕ → ℕ → List (Answer Bool F) → Option (Verdict Unit F)
  | received,_,_,[] => if received < n then none else some .unavailable
  | _,_,_,.fatal e::_ => some (.fatal e)
  | received,granted,refused,.lost::rest =>
    if granted + n - received - 1 < quorum n then some (if 0 < refused then .conflict else .unavailable)
    else tally n (received+1) granted refused rest
  | received,granted,refused,.value false::rest =>
    if granted + n - received - 1 < quorum n then some .conflict
    else tally n (received+1) granted (refused+1) rest
  | received,granted,refused,.value true::rest =>
    if granted+1 = quorum n then some (.decided ())
    else if granted+1 + n - received - 1 < quorum n then some (if 0 < refused then .conflict else .unavailable)
    else tally n (received+1) (granted+1) refused rest

theorem gather_decided {select : List A → Option B} {p : A → Bool} {received : ℕ} {values : List A}
    {answers : List (Answer A F)} {b : B}
    (hselect : ∀ values, select values = some b → quorum n ≤ values.countP p)
    (h : gather n select received values answers = some (.decided b)) :
    quorum n ≤ values.countP p + answers.countP (·.satisfies p) := by
  induction answers generalizing received values with
  | nil =>
    unfold gather at h
    split at h
    · cases h
    · split at h <;> cases h
  | cons answer rest ih =>
    cases answer with
    | fatal e => cases h
    | lost =>
      unfold gather at h
      split at h
      · cases h
      · exact (ih h).trans (Nat.add_le_add_left (sublist_cons_self ..).countP_le _)
    | value a =>
      unfold gather at h
      have hcount : (Answer.value a::rest : List (Answer A F)).countP (·.satisfies p) =
          [a].countP p + rest.countP (·.satisfies p) := by
        simp [countP_cons,Answer.satisfies,Nat.add_comm]
      rw [hcount,← Nat.add_assoc,← countP_append]
      split at h
      · next hfound =>
        cases h
        exact (hselect _ hfound).trans (Nat.le_add_right ..)
      split at h
      · cases h
      · exact ih h

theorem tally_decided {received granted refused : ℕ} {answers : List (Answer Bool F)}
    (h : tally n received granted refused answers = some (.decided ())) :
    quorum n ≤ granted+answers.countP (·.satisfies id) := by
  induction answers generalizing received granted refused with
  | nil =>
    unfold tally at h
    split at h <;> cases h
  | cons answer rest ih =>
    have hmore : rest.countP (·.satisfies id) ≤ (answer::rest).countP (·.satisfies id) :=
      (sublist_cons_self ..).countP_le
    cases answer with
    | fatal e => cases h
    | lost =>
      unfold tally at h
      split at h
      · split at h <;> cases h
      · exact (ih h).trans (Nat.add_le_add_left hmore _)
    | value vote =>
      cases vote with
      | false =>
        unfold tally at h
        split at h
        · cases h
        · exact (ih h).trans (Nat.add_le_add_left hmore _)
      | true =>
        have hcount : (Answer.value true::rest : List (Answer Bool F)).countP (·.satisfies id) =
          rest.countP (·.satisfies id) + 1 :=
          countP_cons_of_pos rfl
        unfold tally at h
        split at h
        · omega
        split at h
        · split at h <;> cases h
        · have := ih h
          omega

/-- Results of two quorums come from a common member. -/
theorem exists_common {R R' : Type} {l : List (Fin n × R)} {l' : List (Fin n × R')} {p : R → Bool} {p' : R' → Bool}
    (hl : (l.map fst).Nodup) (hl' : (l'.map fst).Nodup)
    (hp : quorum n ≤ (l.map snd).countP p) (hp' : quorum n ≤ (l'.map snd).countP p') :
    ∃ m r r', (m,r) ∈ l ∧ p r ∧ (m,r') ∈ l' ∧ p' r' := by
  have hcard {T : Type} {k : List (Fin n × T)} {f : T → Bool} (hk : (k.map fst).Nodup)
      (hf : quorum n ≤ (k.map snd).countP f) : quorum n ≤ ((k.filter (f ∘ snd)).map fst).toFinset.card := by
    rw [toFinset_card_of_nodup (hk.sublist (filter_sublist.map _)),length_map,← countP_eq_length_filter]
    rwa [countP_map] at hf
  have hmem {T : Type} {k : List (Fin n × T)} {f : T → Bool} {m : Fin n}
      (hm : m ∈ ((k.filter (f ∘ snd)).map fst).toFinset) : ∃ r, (m,r) ∈ k ∧ f r := by
    obtain ⟨⟨_,r⟩,hr,rfl⟩ := mem_map.mp (mem_toFinset.mp hm)
    exact ⟨r,(mem_filter.mp hr).1,(mem_filter.mp hr).2⟩
  -- more than `n` members would be needed to keep the two sets apart
  obtain ⟨m,hm⟩ := Finset.inter_nonempty_of_card_lt_card_add_card
    (Finset.subset_univ ((l.filter (p ∘ snd)).map fst).toFinset)
    (Finset.subset_univ ((l'.filter (p' ∘ snd)).map fst).toFinset) (by
      have h := hcard hl hp
      have h' := hcard hl' hp'
      rw [Finset.card_univ,Fintype.card_fin]
      unfold quorum at h h'
      omega)
  obtain ⟨r,hr,hpr⟩ := hmem (Finset.mem_inter.mp hm).1
  obtain ⟨r',hr',hpr'⟩ := hmem (Finset.mem_inter.mp hm).2
  exact ⟨m,r,r',hr,hpr,hr',hpr'⟩

end Meldbase.Quorum
