import Mathlib.Data.List.Basic

/-! # Persistent treaps

Binary search trees whose shape is chosen by a priority test.  Rotations,
merging and bulk construction follow the priorities.  A search is a function that
tells on which side of an entry the sought place lies.
-/
inductive Treap (α : Type*) where
  | leaf
  | node (left : Treap α) (entry : α) (right : Treap α)

namespace Treap
variable {α : Type*}

def size : Treap α → ℕ
  | leaf => 0
  | node l _ r => 1+l.size+r.size

/-! ### Operations -/

def find (search : α → Ordering) : Treap α → Option α
  | leaf => none
  | node l x r =>
    match search x with
    | .lt => find search l
    | .gt => find search r
    | .eq => some x

/-- The left child becomes the root. -/
def rotateRight : Treap α → Treap α
  | node (node ll y lr) x r => node ll y (node lr x r)
  | t => t

/-- The right child becomes the root. -/
def rotateLeft : Treap α → Treap α
  | node l x (node rl y rr) => node (node l x rl) y rr
  | t => t

/-- Whether the root of a subtree has to rise above its parent. -/
def rises (higher : α → α → Bool) (parent : α) : Treap α → Bool
  | leaf => false
  | node _ y _ => higher y parent

variable (higher : α → α → Bool)

def put (search : α → Ordering) (e : α) : Treap α → Treap α
  | leaf => node leaf e leaf
  | node l x r =>
    match search x with
    | .lt =>
      let l' := put search e l
      if rises higher x l' then rotateRight (node l' x r) else node l' x r
    | .gt =>
      let r' := put search e r
      if rises higher x r' then rotateLeft (node l x r') else node l x r'
    | .eq => node l e r

/-- Merges below a root `x` whose right subtree is merged by `rest`. -/
def mergeBelow (l : Treap α) (x : α) (r : Treap α) (rest : Treap α → Treap α) : Treap α → Treap α
  | leaf => node l x r
  | node rl y rr => if higher x y then node l x (rest (node rl y rr)) else node (mergeBelow l x r rest rl) y rr

/-- Joins two trees, all entries of the first before those of the second. -/
def merge : Treap α → Treap α → Treap α
  | leaf => fun t => t
  | node l x r => mergeBelow higher l x r (merge r)
def delete (search : α → Ordering) : Treap α → Treap α
  | leaf => leaf
  | node l x r =>
    match search x with
    | .lt => node (delete search l) x r
    | .gt => node l x (delete search r)
    | .eq => merge higher l r

/-- Takes the entries of lower priority from the right spine; they become one subtree. -/
def popLower (e : α) : List (Treap α × α) → Treap α → List (Treap α × α) × Treap α
  | [],popped => ([],popped)
  | (l,x) :: stack,popped =>
    if higher e x then popLower e stack (node l x popped) else ((l,x) :: stack,popped)
def pushEntry (stack : List (Treap α × α)) (e : α) : List (Treap α × α) :=
  let popped := popLower higher e stack leaf
  (popped.2,e) :: popped.1
def closeSpine (stack : List (Treap α × α)) (right : Treap α) : Treap α :=
  stack.foldl (fun t entry => node entry.1 entry.2 t) right
def bulk (entries : List α) : Treap α := closeSpine (entries.foldl (pushEntry higher) []) leaf

/-- The entries with places from `start` up to `stop`, the first of the tree at `base`. -/
def collect (start stop : ℕ) : ℕ → Treap α → List α
  | _,leaf => []
  | base,node l x r =>
    if stop ≤ start then []
    else
      let position := base+l.size
      (if start < position then collect start stop base l else []) ++
        (if start ≤ position ∧ position < stop then [x] else []) ++
        (if position+1 < stop then collect start stop (position+1) r else [])

end Treap
