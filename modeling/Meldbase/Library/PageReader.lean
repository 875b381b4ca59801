import Mathlib.Data.List.Basic
import Mathlib.Logic.Relation

/-! # Computations over a store of numbered pages

A `PageReader` asks for pages one after the other and ends with a result.  The
pages it asks for on a store are its footprint.  A graph is read off the store the
same way, object by object.
-/
namespace Meldbase

/-- Asks for pages; a page that cannot be read comes back as `none`. -/
inductive PageReader (P : Type*) (α : Type) where
  | done (a : α)
  | page (id : ℕ) (next : Option P → PageReader P α)

namespace PageReader
variable {P : Type*} {α β : Type}

def bind : PageReader P α → (α → PageReader P β) → PageReader P β
  | .done a, f => f a
  | .page id next, f => .page id (fun p => bind (next p) f)

instance : Monad (PageReader P) where
  pure := .done
  bind := bind

def run (d : ℕ → Option P) : PageReader P α → α
  | .done a => a
  | .page id next => run d (next (d id))

/-- The pages asked for, in order. -/
def footprint (d : ℕ → Option P) : PageReader P α → List ℕ
  | .done _ => []
  | .page id next => id :: footprint d (next (d id))

end PageReader

/-- Each object is read with a few pages and names further objects. -/
abbrev PageGraph (P : Type*) (O : Type) := O → PageReader P (List O)

namespace PageGraph
variable {P : Type*} {O : Type} (g : PageGraph P O)

def Reaches (d : ℕ → Option P) : O → O → Prop := Relation.ReflTransGen (fun a b => b ∈ (g a).run d)
def Needs (d : ℕ → Option P) (o : O) (p : ℕ) : Prop := ∃ a, g.Reaches d o a ∧ p ∈ (g a).footprint d

end PageGraph
end Meldbase
