import Mathlib.Algebra.Order.Group.Nat

/-! # Interleaved programs over a shared state

A program asks for atomic operations one after the other.  Any number of processes
run programs over one state in any order, and each may stop at any point.  What a
program knows of the state must survive the steps of others (the rely); if every
operation it takes in a state it may know is within its guarantee, then so is every
step of every run.
-/
namespace Meldbase
open Function Nat

inductive Program {Op : Type} (Reply : Op → Type) (α : Type) where
  | done (a : α)
  | request (op : Op) (next : Reply op → Program Reply α)

namespace Program
variable {Op : Type} {Reply : Op → Type} {α β S : Type}

def bind : Program Reply α → (α → Program Reply β) → Program Reply β
  | .done a,f => f a
  | .request op next,f => .request op (fun r => bind (next r) f)

instance : Monad (Program Reply) where
  pure := .done
  bind := bind

def perform (op : Op) : Program Reply (Reply op) := .request op .done

@[simp] theorem perform_bind (op : Op) (f : Reply op → Program Reply α) : (perform op >>= f) = .request op f := rfl

def Stable (rely : S → S → Prop) (known : S → Prop) : Prop := ∀ s s', known s → rely s s' → known s'
def Obeys (step : S → (op : Op) → Reply op → S → Prop) (rely : S → S → Prop) (guarantee : S → S → Program Reply α → Prop) :
    Program Reply α → (S → Prop) → Prop
  | .done _,_ => True
  | .request op next,known => ∀ s r s', known s → step s op r s' →
      guarantee s s' (next r) ∧ ∃ known', Stable rely known' ∧ known' s' ∧ Obeys step rely guarantee (next r) known'

theorem obeys_request {step : S → (op : Op) → Reply op → S → Prop} {rely : S → S → Prop}
    {guarantee : S → S → Program Reply α → Prop} {op : Op} {next : Reply op → Program Reply α} {known : S → Prop}
    (hstable : Stable rely known) (hrely : ∀ s s' rest, guarantee s s' rest → rely s s')
    (h : ∀ s r s', known s → step s op r s' → guarantee s s' (next r) ∧ (next r).Obeys step rely guarantee known) :
    (request op next).Obeys step rely guarantee known := by
  intro s r s' hs hstep
  obtain ⟨hguarantee,hnext⟩ := h s r s' hs hstep
  exact ⟨hguarantee,known,hstable,hstable s s' hs (hrely _ _ _ hguarantee),hnext⟩

end Program

structure Process {Op : Type} (Reply : Op → Type) (α Task : Type) where
  task : Task
  rest : Option (Program Reply α)

/-- Nothing is left to do. -/
def Process.Finished {Op : Type} {Reply : Op → Type} {α Task : Type} (p : Process Reply α Task) : Prop :=
  p.rest = none ∨ ∃ a, p.rest = some (.done a)

structure Pool {Op : Type} (Reply : Op → Type) (α S Task : Type) where
  state : S
  process : ℕ → Option (Process Reply α Task)

/-- What operations do, what else may happen to the state, and what tasks run. -/
structure Machine {Op : Type} (Reply : Op → Type) (α S Task : Type) where
  step : S → (op : Op) → Reply op → S → Prop
  outside : S → S → Prop
  program : Task → Program Reply α

namespace Machine
variable {Op : Type} {Reply : Op → Type} {α S Task : Type} (M : Machine Reply α S Task)

/-- Process `i` takes its next operation and has `rest` left. -/
inductive Acts (p : Pool Reply α S Task) (i : ℕ) (task : Task) : Program Reply α → Pool Reply α S Task → Prop
  | mk {op : Op} {next : Reply op → Program Reply α} {r : Reply op} {s : S}
      (hprocess : p.process i = some ⟨task,some (.request op next)⟩) (hstep : M.step p.state op r s) :
      Acts p i task (next r) ⟨s,update p.process i (some ⟨task,some (next r)⟩)⟩

inductive Next (p : Pool Reply α S Task) : Pool Reply α S Task → Prop
  | start (i : ℕ) (task : Task) (hfree : p.process i = none) :
      Next p { p with process := update p.process i (some ⟨task,some (M.program task)⟩) }
  | act {i : ℕ} {task : Task} {rest : Program Reply α} {p' : Pool Reply α S Task} (h : M.Acts p i task rest p') : Next p p'
  | stop (dead : ℕ → Bool) :
      Next p { p with process := fun i => if dead i then (p.process i).map (fun q => ⟨q.task,none⟩) else p.process i }
  | outside {s : S} (h : M.outside p.state s) : Next p { p with state := s }

structure Runs (run : ℕ → Pool Reply α S Task) : Prop where
  idle : ∀ i, (run 0).process i = none
  next : ∀ k, run (k+1) = run k ∨ M.Next (run k) (run (k+1))

variable {M} {run : ℕ → Pool Reply α S Task} {p : Pool Reply α S Task}

theorem Acts.process {p' : Pool Reply α S Task} {i : ℕ} {task : Task} {rest : Program Reply α} (h : M.Acts p i task rest p') :
    (∃ q, p.process i = some q ∧ q.task = task ∧ ¬ q.Finished) ∧ p'.process i = some ⟨task,some rest⟩ := by
  obtain ⟨hprocess,hstep⟩ := h
  refine ⟨⟨_,hprocess,rfl,?_⟩,update_self ..⟩
  rintro (h | ⟨_,h⟩) <;> cases h

theorem Next.process {p' : Pool Reply α S Task} (h : M.Next p p') {i : ℕ} {q : Process Reply α Task} (hq : p.process i = some q) :
    ∃ q', p'.process i = some q' ∧ q'.task = q.task ∧ (q.Finished → q'.Finished) := by
  cases h with
  | start j task hfree =>
    have hij : i ≠ j := fun h => by rw [h,hfree] at hq; cases hq
    exact ⟨q,by simpa [update_of_ne hij] using hq,rfl,id⟩
  | @act j task rest p' h =>
    obtain ⟨hprocess,hstep⟩ := h
    by_cases hij : i = j
    · subst hij
      rw [hprocess] at hq
      cases hq
      exact ⟨_,update_self _ _ _,rfl,fun h => by rcases h with h | ⟨a,h⟩ <;> cases h⟩
    · exact ⟨q,by simpa [update_of_ne hij] using hq,rfl,id⟩
  | stop dead =>
    by_cases hdead : dead i = true
    · exact ⟨⟨q.task,none⟩,by simp [hdead,hq],rfl,fun _ => .inl rfl⟩
    · exact ⟨q,by simp [hdead,hq],rfl,id⟩
  | outside h => exact ⟨q,hq,rfl,id⟩

theorem Runs.process (hrun : M.Runs run) {k k' i : ℕ} (hk : k ≤ k') {q : Process Reply α Task} (hq : (run k).process i = some q) :
    ∃ q', (run k').process i = some q' ∧ q'.task = q.task ∧ (q.Finished → q'.Finished) := by
  induction k', hk using le_induction with
  | base => exact ⟨q,hq,rfl,id⟩
  | succ n _ ih =>
    obtain ⟨q',hq',htask,hfinished⟩ := ih
    rcases hrun.next n with hstay | hnext
    · exact ⟨q',by rw [hstay,hq'],htask,hfinished⟩
    · obtain ⟨q'',hq'',htask',hfinished'⟩ := hnext.process hq'
      exact ⟨q'',hq'',htask'.trans htask,hfinished' ∘ hfinished⟩

theorem Runs.change (hrun : M.Runs run) (k : ℕ) : (run (k+1)).state = (run k).state ∨ M.outside (run k).state (run (k+1)).state ∨
    ∃ i task rest, M.Acts (run k) i task rest (run (k+1)) := by
  rcases hrun.next k with hstay | hnext
  · exact .inl (congrArg Pool.state hstay)
  generalize run (k+1) = p' at hnext
  cases hnext with
  | start i task hfree => exact .inl rfl
  | act h => exact .inr (.inr ⟨_,_,_,h⟩)
  | stop dead => exact .inl rfl
  | outside h => exact .inr (.inl h)

section Guarantee
variable {rely : S → S → Prop} {guarantee : Task → S → S → Program Reply α → Prop} {p p' : Pool Reply α S Task}

/-- What every process knows and obeys. -/
def Lawful (M : Machine Reply α S Task) (rely : S → S → Prop) (guarantee : Task → S → S → Program Reply α → Prop)
    (p : Pool Reply α S Task) : Prop :=
  ∀ i task rest, p.process i = some ⟨task,some rest⟩ →
    ∃ known, Program.Stable rely known ∧ known p.state ∧ rest.Obeys M.step rely (guarantee task) known

theorem Acts.within (h : Lawful M rely guarantee p) {i : ℕ} {task : Task} {rest : Program Reply α}
    (hact : M.Acts p i task rest p') : guarantee task p.state p'.state rest := by
  obtain ⟨hprocess,hstep⟩ := hact
  obtain ⟨known,-,hknown,hobeys⟩ := h i task _ hprocess
  exact (hobeys _ _ _ hknown hstep).1

section
variable (hrely : ∀ task s s' rest, guarantee task s s' rest → rely s s')
include hrely

theorem Next.lawful {known : S → Prop}
    (houtside : ∀ s s', M.outside s s' → rely s s') (hknown : Program.Stable rely known)
    (hobeys : ∀ task, (M.program task).Obeys M.step rely (guarantee task) known)
    (h : Lawful M rely guarantee p) (hp : known p.state) (hnext : M.Next p p') : Lawful M rely guarantee p' := by
  cases hnext with
  | start j task hfree =>
    intro i task' rest hi
    by_cases hij : i = j
    · subst hij
      cases (update_self ..).symm.trans hi
      exact ⟨known,hknown,hp,hobeys task⟩
    · exact h i task' rest (by simpa [update_of_ne hij] using hi)
  | @act j task rest p' hact =>
    have hguarantee := hact.within h
    obtain ⟨hprocess,hstep⟩ := hact
    intro i task' rest' hi
    by_cases hij : i = j
    · subst hij
      cases (update_self ..).symm.trans hi
      obtain ⟨known,-,hknown,hrest⟩ := h i task _ hprocess
      exact (hrest _ _ _ hknown hstep).2
    · obtain ⟨known,hstable,hknown,hrest⟩ := h i task' rest' (by simpa [update_of_ne hij] using hi)
      exact ⟨known,hstable,hstable _ _ hknown (hrely _ _ _ _ hguarantee),hrest⟩
  | stop dead =>
    intro i task rest hi
    by_cases hdead : dead i = true
    · simp [hdead] at hi
    · exact h i task rest (by simpa [hdead] using hi)
  | outside hout =>
    intro i task rest hi
    obtain ⟨known,hstable,hknown,hrest⟩ := h i task rest hi
    exact ⟨known,hstable,hstable _ _ hknown (houtside _ _ hout),hrest⟩

end

theorem Runs.within (hrun : M.Runs run) (hrely : ∀ task s s' rest, guarantee task s s' rest → rely s s')
    (houtside : ∀ s s', M.outside s s' → rely s s')
    (hobeys : ∀ task, (M.program task).Obeys M.step rely (guarantee task) (fun _ => True)) {k i : ℕ} {task : Task}
    {rest : Program Reply α} (hact : M.Acts (run k) i task rest (run (k+1))) :
    guarantee task (run k).state (run (k+1)).state rest := by
  have hlawful : ∀ k, Lawful M rely guarantee (run k) := by
    intro k
    induction k with
    | zero => exact fun i _ _ hi => by rw [hrun.idle i] at hi; cases hi
    | succ k ih =>
      rcases hrun.next k with hstay | hnext
      · rw [hstay]
        exact ih
      · exact hnext.lawful hrely houtside (fun _ _ _ _ => trivial) hobeys ih trivial
  exact hact.within (hlawful k)

end Guarantee

/-! ### Scripted runs -/

inductive Turn (Task : Type) where
  | start (i : ℕ) (task : Task)
  | act (i : ℕ)

/-- One turn on an environment that answers in one way; nothing happens out of turn. -/
def turned (M : Machine Reply α S Task) (respond : S → (op : Op) → Reply op × S) (p : Pool Reply α S Task) :
    Turn Task → Pool Reply α S Task
  | .start i task =>
    match p.process i with
    | none => { p with process := update p.process i (some ⟨task,some (M.program task)⟩) }
    | some _ => p
  | .act i =>
    match p.process i with
    | some ⟨task,some (.request op next)⟩ =>
      ⟨(respond p.state op).2,update p.process i (some ⟨task,some (next (respond p.state op).1)⟩)⟩
    | _ => p
def scripted (M : Machine Reply α S Task) (respond : S → (op : Op) → Reply op × S) (s : S) (turns : List (Turn Task)) (k : ℕ) :
    Pool Reply α S Task := (turns.take k).foldl (turned M respond) ⟨s,fun _ => none⟩

variable {respond : S → (op : Op) → Reply op × S}

theorem turn_next (hrespond : ∀ s op, M.step s op (respond s op).1 (respond s op).2) (p : Pool Reply α S Task)
    (turn : Turn Task) :
    M.turned respond p turn = p ∨ M.Next p (M.turned respond p turn) := by
  cases turn with
  | start i task =>
    unfold turned
    dsimp only
    split
    · next hfree => exact .inr (.start i task hfree)
    · exact .inl rfl
  | act i =>
    unfold turned
    dsimp only
    split
    · next hprocess => exact .inr (.act (.mk hprocess (hrespond ..)))
    · exact .inl rfl

theorem turn_task {turn : Turn Task} {i : ℕ} {q : Process Reply α Task} (h : (M.turned respond p turn).process i = some q) :
    (∃ q', p.process i = some q' ∧ q'.task = q.task) ∨ turn = .start i q.task := by
  cases turn with
  | start j task =>
    unfold turned at h
    dsimp only at h
    split at h
    · by_cases hij : i = j
      · subst hij
        cases (update_self ..).symm.trans h
        exact .inr rfl
      · exact .inl ⟨q,(update_of_ne hij ..).symm.trans h,rfl⟩
    · exact .inl ⟨q,h,rfl⟩
  | act j =>
    unfold turned at h
    dsimp only at h
    split at h
    · next hprocess =>
      by_cases hij : i = j
      · subst hij
        cases (update_self ..).symm.trans h
        exact .inl ⟨_,hprocess,rfl⟩
      · exact .inl ⟨q,(update_of_ne hij ..).symm.trans h,rfl⟩
    · exact .inl ⟨q,h,rfl⟩

variable {s : S} {turns : List (Turn Task)}

theorem scripted_succ (k : ℕ) : scripted M respond s turns (k+1) = turns[k]?.elim (scripted M respond s turns k)
    (M.turned respond (scripted M respond s turns k)) := by
  unfold scripted
  cases h : turns[k]? with
  | none =>
    have hk := List.getElem?_eq_none_iff.mp h
    rw [List.take_of_length_le hk,List.take_of_length_le (hk.trans k.le_succ)]
    rfl
  | some turn => rw [List.take_add_one,h,List.foldl_append]; rfl

theorem runs_scripted (hrespond : ∀ s op, M.step s op (respond s op).1 (respond s op).2) :
    M.Runs (scripted M respond s turns) := by
  refine ⟨fun _ => rfl,fun k => ?_⟩
  rw [scripted_succ]
  cases turns[k]? with
  | none => exact .inl rfl
  | some turn => exact turn_next hrespond _ turn

theorem scripted_task {i k : ℕ} {q : Process Reply α Task} (h : (scripted M respond s turns k).process i = some q) :
    .start i q.task ∈ turns := by
  induction k generalizing q with
  | zero => cases h
  | succ k ih =>
    rw [scripted_succ] at h
    cases hturn : turns[k]? with
    | none => rw [hturn] at h; exact ih h
    | some turn =>
      rw [hturn] at h
      rcases turn_task h with ⟨q',hq',htask⟩ | rfl
      · exact htask ▸ ih hq'
      · exact List.mem_of_getElem? hturn

end Machine

theorem exists_becomes {P : ℕ → Prop} {a b : ℕ} (hab : a ≤ b) (ha : ¬ P a) (hb : P b) : ∃ k, a ≤ k ∧ k < b ∧ ¬ P k ∧ P (k+1) := by
  induction b, hab using le_induction with
  | base => exact absurd hb ha
  | succ n hn ih =>
    by_cases hPn : P n
    · obtain ⟨k,hak,hkn,hk⟩ := ih hPn
      exact ⟨k,hak,lt_succ_of_lt hkn,hk⟩
    · exact ⟨n,hn,lt_succ_self n,hPn,hb⟩

end Meldbase
