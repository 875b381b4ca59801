import Mathlib.Order.Basic

/-! # Results of fallible computations

A computation of the program either returns a value or stops with an error.  The
lemmas peel a successful or failing bind apart, so that callers cite the
specification of each step instead of unfolding it.
-/
namespace Meldbase.Outcome
open List

universe u v
variable {ε : Type u} {α β : Type v} {e : ε} {a : α} {b b' : β} {as : List α} {bs : List β} {x : Except ε α}
  {f : α → Except ε β} {step : β → α → Except ε β}

theorem bind_eq_ok : x >>= f = .ok b ↔ ∃ a, x = .ok a ∧ f a = .ok b := by
  cases x with
  | ok a => simp [bind,Except.bind]
  | error e => simp [bind,Except.bind]

theorem bind_eq_error : x >>= f = .error e ↔ x = .error e ∨ ∃ a, x = .ok a ∧ f a = .error e := by
  cases x with
  | ok a => simp [bind,Except.bind]
  | error e' => simp [bind,Except.bind]

theorem map_eq_ok {f : α → β} : x.map f = .ok b ↔ ∃ a, x = .ok a ∧ f a = b := by
  cases x with
  | ok a => simp [Except.map]
  | error e => simp [Except.map]

theorem guard_eq_ok {c : Prop} [Decidable c] :
    (if c then .error e else x) = .ok a ↔ ¬ c ∧ x = .ok a := by
  by_cases hc : c
  · simp [hc]
  · simp [hc]

@[simp] theorem ok_bind (a : α) (f : α → Except ε β) : (Except.ok a >>= f) = f a := rfl

@[simp] theorem error_bind (e : ε) (f : α → Except ε β) : ((Except.error e : Except ε α) >>= f) = .error e := rfl

@[simp] theorem pure_eq_ok (a : α) : (pure a : Except ε α) = .ok a := rfl

/-! ### Errors a computation never returns -/

theorem bind_ne_error (hx : x ≠ .error e)
    (hf : ∀ a, x = .ok a → f a ≠ .error e) : x >>= f ≠ .error e := by
  intro h
  rcases bind_eq_error.mp h with h | ⟨a,ha,h⟩
  · exact hx h
  · exact hf a ha h

theorem guard_ne_error {c : Prop} [Decidable c] {e' : ε} (he : e' ≠ e)
    (hx : ¬ c → x ≠ .error e) : (if c then .error e' else x) ≠ .error e := by
  by_cases hc : c
  · simpa [hc] using he
  · simpa [hc] using hx hc

theorem foldlM_ne_error
    (hstep : ∀ b, ∀ a ∈ as, step b a ≠ .error e) (b : β) : as.foldlM step b ≠ .error e := by
  induction as generalizing b with
  | nil => simp
  | cons a as ih =>
    rw [foldlM_cons]
    exact bind_ne_error (hstep b a mem_cons_self)
      (fun c _ => ih (fun b a ha => hstep b a (mem_cons_of_mem _ ha)) c)

/-! ### Folds -/

theorem foldlM_invariant {I : β → Prop}
    (hstep : ∀ b, ∀ a ∈ as, ∀ b', I b → step b a = .ok b' → I b') (hb : I b)
    (h : as.foldlM step b = .ok b') : I b' := by
  induction as generalizing b with
  | nil =>
    cases h
    exact hb
  | cons a as ih =>
    rw [foldlM_cons] at h
    obtain ⟨c,hc,h⟩ := bind_eq_ok.mp h
    exact ih (fun b a ha => hstep b a (mem_cons_of_mem _ ha)) (hstep b a mem_cons_self c hb hc) h

theorem foldlM_history {I : List α → β → Prop}
    (hstep : ∀ done b a b', I done b → step b a = .ok b' → I (done ++ [a]) b') {done : List α}
    (hb : I done b) (h : as.foldlM step b = .ok b') : I (done ++ as) b' := by
  induction as generalizing done b with
  | nil =>
    cases h
    rwa [append_nil]
  | cons a as ih =>
    rw [foldlM_cons] at h
    obtain ⟨c,hc,h⟩ := bind_eq_ok.mp h
    have := ih (hstep done b a c hb hc) h
    rwa [append_assoc] at this

theorem foldlM_from_start {I : List α → β → Prop}
    (hstep : ∀ done b a b', I done b → step b a = .ok b' → I (done ++ [a]) b')
    (hb : I [] b) (h : as.foldlM step b = .ok b') : I as b' := foldlM_history hstep hb h

theorem foldlM_mem (h : as.foldlM step b = .ok b') : ∀ a ∈ as, ∃ c c', step c a = .ok c' := by
  induction as generalizing b with
  | nil => simp
  | cons a as ih =>
    rw [foldlM_cons] at h
    obtain ⟨c,hc,h⟩ := bind_eq_ok.mp h
    exact forall_mem_cons.mpr ⟨⟨b,c,hc⟩,ih h⟩

/-! ### Traversals -/

theorem mapM_cons_eq_ok :
    (a::as).mapM f = .ok bs ↔ ∃ b rest, f a = .ok b ∧ as.mapM f = .ok rest ∧ bs = b::rest := by
  rw [mapM_cons,bind_eq_ok]
  constructor
  · rintro ⟨b,hb,h⟩
    obtain ⟨rest,hrest,h⟩ := bind_eq_ok.mp h
    cases h
    exact ⟨b,rest,hb,hrest,rfl⟩
  · rintro ⟨b,rest,hb,hrest,rfl⟩
    exact ⟨b,hb,bind_eq_ok.mpr ⟨rest,hrest,rfl⟩⟩

theorem length_mapM (h : as.mapM f = .ok bs) : bs.length = as.length := by
  induction as generalizing bs with
  | nil =>
    cases h
    rfl
  | cons a as ih =>
    obtain ⟨b,rest,-,hrest,rfl⟩ := mapM_cons_eq_ok.mp h
    rw [length_cons,length_cons,ih hrest]

theorem mapM_mem (h : as.mapM f = .ok bs) : ∀ b ∈ bs, ∃ a ∈ as, f a = .ok b := by
  induction as generalizing bs with
  | nil =>
    cases h
    simp
  | cons a as ih =>
    obtain ⟨b,rest,hb,hrest,rfl⟩ := mapM_cons_eq_ok.mp h
    refine forall_mem_cons.mpr ⟨⟨a,mem_cons_self,hb⟩,?_⟩
    intro b' hb'
    obtain ⟨a',ha',hf⟩ := ih hrest b' hb'
    exact ⟨a',mem_cons_of_mem _ ha',hf⟩

theorem mapM_of_mem (h : as.mapM f = .ok bs) : ∀ a ∈ as, ∃ b ∈ bs, f a = .ok b := by
  induction as generalizing bs with
  | nil => simp
  | cons a as ih =>
    obtain ⟨b,rest,hb,hrest,rfl⟩ := mapM_cons_eq_ok.mp h
    refine forall_mem_cons.mpr ⟨⟨b,mem_cons_self,hb⟩,?_⟩
    intro a' ha'
    obtain ⟨b',hb',hf⟩ := ih hrest a' ha'
    exact ⟨b',mem_cons_of_mem _ hb',hf⟩

theorem mapM_ok (h : ∀ a ∈ as, ∃ b, f a = .ok b) : ∃ bs, as.mapM f = .ok bs := by
  induction as with
  | nil => exact ⟨[],rfl⟩
  | cons a as ih =>
    obtain ⟨⟨b,hb⟩,h⟩ := forall_mem_cons.mp h
    obtain ⟨bs,hbs⟩ := ih h
    exact ⟨b::bs,mapM_cons_eq_ok.mpr ⟨b,bs,hb,hbs,rfl⟩⟩

theorem mapM_pairwise {R : α → α → Prop} {S : β → β → Prop}
    (hf : ∀ a b a' b', f a = .ok b → f a' = .ok b' → R a a' → S b b') (h : as.mapM f = .ok bs)
    (hR : as.Pairwise R) : bs.Pairwise S := by
  induction as generalizing bs with
  | nil =>
    cases h
    exact .nil
  | cons a as ih =>
    obtain ⟨b,rest,hb,hrest,rfl⟩ := mapM_cons_eq_ok.mp h
    obtain ⟨ha,hR⟩ := pairwise_cons.mp hR
    refine pairwise_cons.mpr ⟨fun b' hb' => ?_,ih hrest hR⟩
    obtain ⟨a',ha',hf'⟩ := mapM_mem hrest b' hb'
    exact hf a b a' b' hb hf' (ha a' ha')

/-! ### Descending folds -/

/-- Along a successful fold an antitone fact about each element is kept once its
own step has established it. -/
theorem foldlM_descending [Preorder β] {P : α → β → Prop}
    (hstep : ∀ b a b', step b a = .ok b' → b' ≤ b ∧ P a b') (hmono : ∀ a b b', b' ≤ b → P a b → P a b')
    (h : as.foldlM step b = .ok b') : b' ≤ b ∧ ∀ a ∈ as, P a b' := by
  induction as generalizing b with
  | nil =>
    cases h
    exact ⟨le_rfl,by simp⟩
  | cons a as ih =>
    rw [foldlM_cons] at h
    obtain ⟨c,hc,h⟩ := bind_eq_ok.mp h
    obtain ⟨hle,hrest⟩ := ih h
    obtain ⟨hcb,hpa⟩ := hstep b a c hc
    refine ⟨hle.trans hcb,?_⟩
    intro x hx
    rcases mem_cons.mp hx with rfl | hx
    · exact hmono _ _ _ hle hpa
    · exact hrest x hx

end Meldbase.Outcome
