import Meldbase.Storage.TreeSession

/-! # Iterators over stored trees

An iterator keeps the branches above its leaf, each with the child it is in.
What it has still to list is the rest of the leaf and, branch by branch, the
pieces of the children to the right.  `TreeScan` drives the same steps without
the guard of `Next`.
-/
namespace Meldbase.Storage
open List Nat
open Entries ListSurgery Outcome TreeCodec
variable {B K V : Type} [LinearOrder K] (c : TreeCodec B K V)

def maxTreeIteratorDepth : ℕ := 64

/-- The child visited in one ancestor branch. -/
structure TreeIteratorFrame (K V : Type) where
  keys : List K
  children : List (NodeRef K V)
  childIndex : ℕ

/-- The branches above a leaf, innermost first, and the position in the leaf. -/
structure TreePosition (K V : Type) where
  branches : List (TreeIteratorFrame K V) := []
  leaf : List (K × V) := []
  leafIndex : ℕ := 0

structure TreeIterator (K V : Type) where
  rootPage : ℕ
  kind : TreeKind
  (start finish : Option K)
  remaining : ℤ
  done : Bool
  initialized : Bool := false
  err : Option StorageError := none
  position : TreePosition K V := {}
  current : Option (K × V) := none

def newTreeIterator (rootPage : ℕ) (kind : TreeKind) (start finish : Option K) (limit : ℤ) :
    Except StorageError (TreeIterator K V) :=
  if start.any (fun s => finish.any (· < s)) then .error .corrupt
  else .ok ⟨rootPage,kind,start,finish,limit,rootPage = 0 ∨ start.isSome ∧ start = finish,false,none,{},none⟩

/-- Follows branches to a leaf; `room` is what the depth limit leaves. -/
def descend (tx : WriteTxn B) (kind : TreeKind) (seek : Option K) :
    ℕ → List (TreeIteratorFrame K V) → ℕ → Except StorageError (TreePosition K V)
  | 0, _, _ => .error .corrupt
  | room+1, branches, pageID => do
    match ← c.reference tx kind pageID with
    | .leaf entries _ => return ⟨branches,entries,seek.elim 0 (fun s => entries.findIdx (fun e => s ≤ e.1))⟩
    | .branch keys children _ =>
      let childIndex := seek.elim 0 (fun s => keys.findIdx (fun k => s < k))
      match children[childIndex]? with
      | some (.stored page) => descend tx kind seek room (⟨keys,children,childIndex⟩ :: branches) page.pageID
      | _ => .error .corrupt

/-- The next leaf, if there is one. -/
def advanceLeaf (tx : WriteTxn B) (kind : TreeKind) :
    List (TreeIteratorFrame K V) → Except StorageError (Option (TreePosition K V))
  | [] => .ok none
  | frame::rest =>
    if frame.childIndex < frame.keys.length then
      match frame.children[frame.childIndex+1]? with
      | some (.stored page) => do
        let branches := { frame with childIndex := frame.childIndex+1 } :: rest
        let position ← descend c tx kind none (maxTreeIteratorDepth - branches.length) branches page.pageID
        return some position
      | _ => .error .corrupt
    else advanceLeaf tx kind rest

namespace TreeIterator

/-- The loop of `nextUnlocked`, at most `fuel` leaves long. -/
def read (tx : WriteTxn B) : ℕ → TreeIterator K V → Bool × TreeIterator K V
  | 0, it => (false,it)
  | fuel+1, it =>
    match it.position.leaf[it.position.leafIndex]? with
    | some e =>
      let it := { it with position.leafIndex := it.position.leafIndex+1 }
      if it.finish.any (· ≤ e.1) then (false,{ it with done := true })
      else if 0 < it.remaining then
        (true,{ it with current := some e, remaining := it.remaining - 1, done := it.done || it.remaining = 1 })
      else (true,{ it with current := some e })
    | none =>
      match advanceLeaf c tx it.kind it.position.branches with
      | .error e => (false,{ it with err := some e })
      | .ok none => (false,{ it with done := true, position.branches := [] })
      | .ok (some position) => read tx fuel { it with position := position }
def nextUnlocked (tx : WriteTxn B) (fuel : ℕ) (it : TreeIterator K V) : Bool × TreeIterator K V :=
  if it.initialized then it.read c tx fuel
  else match descend c tx it.kind it.start maxTreeIteratorDepth [] it.rootPage with
    | .error e => (false,{ it with initialized := true, err := some e })
    | .ok position => read c tx fuel { it with initialized := true, position := position }

/-- `Next` on an open file and iterator. -/
def next (tx : WriteTxn B) (fuel : ℕ) (it : TreeIterator K V) : Bool × TreeIterator K V :=
  if it.done || it.err.isSome then (false,it) else nextUnlocked c tx fuel { it with current := none }

/-- The entries that a loop over `step` sees in at most `fuel` turns, and how it ended. -/
def collect (step : TreeIterator K V → Bool × TreeIterator K V) : ℕ → TreeIterator K V → List (K × V) × Option StorageError
  | 0, it => ([],it.err)
  | fuel+1, it =>
    match step it with
    | (false,it) => ([],it.err)
    | (true,it) =>
      let (entries,err) := collect step fuel it
      (it.current.toList ++ entries,err)

end TreeIterator

/-- A loop over `step` on a new iterator: the entries and the error it returns. -/
def scanWith (step : TreeIterator K V → Bool × TreeIterator K V) (fuel rootPage : ℕ) (kind : TreeKind) (start finish : Option K)
    (limit : ℤ) : List (K × V) × Option StorageError :=
  match newTreeIterator rootPage kind start finish limit with
  | .error e => ([],some e)
  | .ok it => it.collect step fuel

/-- `TreeScan` holds the lock of the file and drives `nextUnlocked` itself. -/
def treeScan (tx : WriteTxn B) (fuel : ℕ) := scanWith (TreeIterator.nextUnlocked c tx fuel) fuel
def iterate (tx : WriteTxn B) (fuel : ℕ) := scanWith (TreeIterator.next c tx fuel) fuel

/-! ### What is still to be listed -/

variable {c} {tx : WriteTxn B} {kind : TreeKind} {h : ℕ} {es : List (K × V)}

theorem Views.reference (hv : Views c tx kind (.stored page) node) :
    c.reference tx kind page.pageID = .ok node ∧
      ∀ keys children n, node = .branch keys children n → ∀ child ∈ children, ∃ p, child = .stored p := by
  obtain ⟨raw,hraw,hload⟩ := bind_eq_ok.mp hv.loads
  split at hload
  · cases hload
    refine ⟨hraw,fun keys children n heq child hm => ?_⟩
    unfold TreeCodec.reference at hraw
    split at hraw
    · cases hraw
    split at hraw
    · cases hraw
    next decoded _ =>
    split at hraw
    · cases hraw
      cases decoded with
      | leaf => cases heq
      | branch =>
        cases heq
        obtain ⟨p,-,rfl⟩ := mem_map.mp hm
        exact ⟨p,rfl⟩
    · cases hraw
  · cases hload

variable (c tx kind) in
/-- The children to the right along the branches, from height `h` on, hold the entries. -/
inductive Suspended : ℕ → List (TreeIteratorFrame K V) → List (K × V) → Prop
  | root (h : ℕ) : Suspended h [] []
  | push {h : ℕ} {frame : TreeIteratorFrame K V} {rest : List (TreeIteratorFrame K V)} {pieces : List (List (K × V))}
      {later : List (K × V)} (hlen : frame.children.length = frame.keys.length+1)
      (hstored : ∀ child ∈ frame.children, ∃ p, child = .stored p)
      (hpieces : List.Forall₂ (Represents c tx kind h) (frame.children.drop (frame.childIndex+1)) pieces)
      (hne : ∀ p ∈ pieces, p ≠ []) (hrest : Suspended (h+1) rest later) :
      Suspended h (frame::rest) (pieces.flatten ++ later)

/-- What an iterator at a position has still to list. -/
def Lists (c : TreeCodec B K V) (tx : WriteTxn B) (kind : TreeKind) (position : TreePosition K V) (es : List (K × V)) : Prop :=
  ∃ later, Suspended c tx kind 0 position.branches later ∧ position.branches.length < maxTreeIteratorDepth ∧
    position.leaf.drop position.leafIndex ++ later = es

theorem range_all (es : List (K × V)) : range es none none = es := filter_eq_self.mpr (fun _ _ => rfl)

/-- From the piece of the start key on, the entries not before it. -/
theorem Separates.seek {keys : List K} {pieces : List (List (K × V))} (hsep : Separates keys pieces) (ho : Ordered pieces.flatten)
    (seek : Option K) : ∃ pl m pr, pieces = pl ++ m::pr ∧ pl.length = seek.elim 0 (fun s => keys.findIdx (fun k => s < k)) ∧
      range pieces.flatten seek none = range m seek none ++ pr.flatten := by
  cases seek with
  | none =>
    obtain ⟨m,pr,rfl⟩ := exists_cons_of_ne_nil hsep.1
    exact ⟨[],m,pr,rfl,rfl,by rw [range_all,range_all,flatten_cons]⟩
  | some s =>
    obtain ⟨a,b,rfl,hidx,ha,hb⟩ := findIdx_cut (fun k => decide (s < k)) keys
    have hbelow := hsep.below_start ho s
    have hlen := hsep.length_eq
    obtain ⟨pl,m,pr,rfl,hpl⟩ := exists_cut_of_lt (show a.length < pieces.length by simp at hlen; omega)
    refine ⟨pl,m,pr,rfl,by rw [Option.elim_some,hidx,hpl],?_⟩
    rw [hidx,← hpl,take_left] at hbelow
    obtain ⟨kl,kr,hkeys,hkl,-,hback⟩ := separates_cut.mp hsep
    obtain ⟨rfl,rfl⟩ := append_inj hkeys (by omega)
    have hfront : range pl.flatten (some s) none = [] :=
      range_eq_nil (fun e he => by simp [inRange,not_le.mpr (hbelow e he)])
    have hrest : range pr.flatten (some s) none = pr.flatten := by
      refine filter_eq_self.mpr (fun e he => ?_)
      have hor : Ordered pr.flatten := by
        rw [flatten_append,flatten_cons] at ho
        exact (ordered_append.mp (ordered_append.mp ho).2.1).2.1
      cases hback with
      | nil => simp at he
      | cons hk _ =>
        rw [flatten_cons] at he hor
        have hs := of_decide_eq_true (hb _ rfl)
        simp [inRange,(hs.trans_le ((hk.append _).le hor e he)).le]
    rw [flatten_append,flatten_cons,range_append,range_append,hfront,hrest,nil_append]

theorem descend_spec (seek : Option K) {branches : List (TreeIteratorFrame K V)}
    (hr : Represents c tx kind h (.stored page) es) (hs : Suspended c tx kind h branches later)
    (hd : branches.length+h < maxTreeIteratorDepth) :
    ∃ position, descend c tx kind seek (maxTreeIteratorDepth - branches.length) branches page.pageID = .ok position ∧
      Lists c tx kind position (range es seek none ++ later) ∧
      (seek = none → es ≠ [] → position.leaf.drop position.leafIndex ≠ []) := by
  induction h generalizing page branches later es with
  | zero =>
    obtain ⟨room,hroom⟩ := exists_eq_succ_of_ne_zero (show maxTreeIteratorDepth - branches.length ≠ 0 by omega)
    rw [hroom,descend,hr.1.reference.1,ok_bind]
    refine ⟨_,rfl,⟨later,hs,by omega,?_⟩,fun hnone hne => by rwa [hnone]⟩
    cases seek with
    | none => rw [range_all]; rfl
    | some s => exact congrArg (· ++ later) ((range_all _).symm.trans (range_drop_start hr.2.1 s none))
  | succ h ih =>
    obtain ⟨room,hroom⟩ := exists_eq_succ_of_ne_zero (show maxTreeIteratorDepth - branches.length ≠ 0 by omega)
    obtain ⟨keys,children,pieces,hv,hp,rfl,-⟩ := hr.parts
    obtain ⟨hload,hrefs⟩ := hv.reference
    have hstored := hrefs _ _ _ rfl
    have hcount : children.length = keys.length+1 := hp.children.length_eq.trans hp.separates.length_eq
    obtain ⟨pl,m,pr,rfl,hpl,hrange⟩ := hp.separates.seek hp.ordered seek
    obtain ⟨kl,kr,cl,child,cr,rfl,rfl,hctx,-,hchild,hm⟩ := hp.cut
    obtain ⟨childPage,rfl⟩ := hstored child (by simp)
    have hcl : cl.length = seek.elim 0 (fun s => (kl ++ kr).findIdx (fun k => s < k)) := hctx.childrenLength.trans hpl
    rw [hroom,descend,hload,ok_bind]
    dsimp only
    rw [← hcl,getElem?_length_append,head?_cons]
    have hnext : Suspended c tx kind h (⟨kl ++ kr,cl ++ .stored childPage::cr,cl.length⟩ :: branches) (pr.flatten ++ later) :=
      .push hcount hstored (by simpa using hctx.right) hctx.right_nonempty hs
    obtain ⟨position,hdescend,hlists,hfull⟩ := ih hchild hnext (by simp; omega)
    have hleft : maxTreeIteratorDepth - (branches.length+1) = room := by omega
    refine ⟨position,by rwa [length_cons,hleft] at hdescend,?_,fun hnone _ => hfull hnone hm⟩
    rwa [hrange,append_assoc]

theorem advanceLeaf_spec (hs : Suspended c tx kind h branches later) (hd : branches.length+h < maxTreeIteratorDepth) :
    if later = [] then advanceLeaf c tx kind branches = .ok none
    else ∃ position, advanceLeaf c tx kind branches = .ok (some position) ∧ Lists c tx kind position later ∧
      position.leaf.drop position.leafIndex ≠ [] := by
  induction hs with
  | root => rfl
  | @push h frame rest pieces later hlen hstored hpieces hne hrest ih =>
    by_cases hmore : frame.childIndex < frame.keys.length
    · -- The next child is a non-empty piece, and those after it stay suspended.
      have hlt : frame.childIndex+1 < frame.children.length := by omega
      rw [drop_eq_getElem_cons hlt] at hpieces
      obtain ⟨p,pieces,hchild,hright,rfl⟩ := forall₂_cons_left_iff.mp hpieces
      obtain ⟨hp,hne⟩ := forall_mem_cons.mp hne
      obtain ⟨page,hpage⟩ := hstored _ (getElem_mem hlt)
      rw [hpage] at hchild
      have hbumped : Suspended c tx kind h ({ frame with childIndex := frame.childIndex+1 } :: rest) (pieces.flatten ++ later) :=
        .push hlen hstored hright hne hrest
      obtain ⟨position,hdescend,hlists,hfull⟩ := descend_spec none hchild hbumped (by simpa using hd)
      rw [if_neg (by simp [hp])]
      refine ⟨position,?_,by rwa [range_all,← append_assoc,← flatten_cons] at hlists,hfull rfl hp⟩
      rw [advanceLeaf,if_pos hmore,getElem?_eq_getElem hlt,hpage]
      dsimp only
      rw [hdescend]
      rfl
    rw [drop_eq_nil_of_le (by omega)] at hpieces
    cases hpieces
    rw [advanceLeaf,if_neg hmore]
    exact ih (by rw [length_cons] at hd; omega)

variable {it : TreeIterator K V} {fuel : ℕ}

/-- The entries before the end of the range. -/
def before (finish : Option K) (es : List (K × V)) : List (K × V) := es.takeWhile (fun e => !finish.any (· ≤ e.1))

variable (c tx it) in
/-- A turn of the loop lists the next entry, unless there is none before the end. -/
inductive Turn : Bool × TreeIterator K V → List (K × V) → Prop
  | ended {es : List (K × V)} {next : TreeIterator K V} (hnone : before it.finish es = []) (herr : next.err = it.err) :
      Turn (false,next) es
  | listed {e : K × V} {rest : List (K × V)} {next : TreeIterator K V}
      (hbefore : before it.finish (e::rest) = e :: before it.finish rest) (hlists : Lists c tx next.kind next.position rest)
      (hcurrent : next.current = some e)
      (hremaining : next.remaining = if 0 < it.remaining then it.remaining - 1 else it.remaining)
      (hdone : next.done = (it.done || it.remaining = 1)) (hfinish : next.finish = it.finish)
      (hinit : next.initialized = it.initialized) (herr : next.err = it.err) : Turn (true,next) (e::rest)

theorem read_entry (hlists : Lists c tx it.kind it.position es) (hleaf : it.position.leaf.drop it.position.leafIndex ≠ []) :
    Turn c tx it (it.read c tx (fuel+1)) es := by
  obtain ⟨later,hs,hd,rfl⟩ := hlists
  obtain ⟨e,rest,hrest⟩ := exists_cons_of_ne_nil hleaf
  have hget : it.position.leaf[it.position.leafIndex]? = some e := by
    rw [← head?_drop,hrest,head?_cons]
  have htail : it.position.leaf.drop (it.position.leafIndex+1) = rest := by
    rw [← tail_drop,hrest,tail_cons]
  have hnext : Lists c tx it.kind { it.position with leafIndex := it.position.leafIndex+1 } (rest ++ later) :=
    ⟨later,hs,hd,congrArg (· ++ later) htail⟩
  rw [hrest,cons_append,TreeIterator.read,hget]
  dsimp only
  split_ifs with hfinish hpos
  · exact .ended (takeWhile_cons_of_neg (by simp [hfinish])) rfl
  · exact .listed (takeWhile_cons_of_pos (by simpa using hfinish)) hnext rfl (if_pos hpos).symm rfl rfl rfl rfl
  · have hone : decide (it.remaining = 1) = false := by simp; omega
    exact .listed (takeWhile_cons_of_pos (by simpa using hfinish)) hnext rfl (if_neg hpos).symm (by simp [hone]) rfl rfl rfl

theorem read_turn (hlists : Lists c tx it.kind it.position es) : Turn c tx it (it.read c tx (fuel+2)) es := by
  by_cases hleaf : it.position.leaf.drop it.position.leafIndex = []
  · obtain ⟨later,hs,hd,rfl⟩ := hlists
    have hadvance := advanceLeaf_spec hs (by simpa using hd)
    rw [hleaf,nil_append,TreeIterator.read,getElem?_eq_none (drop_eq_nil_iff.mp hleaf)]
    split_ifs at hadvance with hlater
    · dsimp only
      rw [hlater,hadvance]
      exact .ended rfl rfl
    obtain ⟨position,hnext,hlists,hfull⟩ := hadvance
    have hturn : Turn c tx { it with position := position } (TreeIterator.read c tx (fuel+1) _) later :=
      read_entry hlists hfull
    dsimp only
    rw [hnext]
    dsimp only
    generalize TreeIterator.read c tx (fuel+1) _ = result at hturn ⊢
    cases hturn with
    | ended hnone herr => exact .ended hnone herr
    | listed hbefore hrest hcurrent hremaining hdone hfinish hinit herr =>
      exact .listed hbefore hrest hcurrent hremaining hdone hfinish hinit herr
  · exact read_entry hlists hleaf

omit [LinearOrder K] in
theorem limited_cons (limit : ℤ) (e : K × V) (es : List (K × V)) : limited limit (e::es) =
    e :: if limit = 1 then [] else limited (if 0 < limit then limit - 1 else limit) es := by
  unfold limited
  split_ifs
  · simp_all
  · obtain ⟨n,hn⟩ := exists_eq_succ_of_ne_zero (show limit.toNat ≠ 0 by omega)
    rw [hn,take_succ_cons,show (limit - 1).toNat = n by omega]
  · omega
  · omega
  · rfl

/-- Without the guard of `Next` a loop does not stop at the limit. -/
theorem collect_unlocked (hlists : Lists c tx it.kind it.position es) (hinit : it.initialized = true)
    (hturns : es.length < turns) : it.collect (TreeIterator.nextUnlocked c tx (fuel+2)) turns = (before it.finish es,it.err) := by
  induction turns generalizing it es with
  | zero => exact absurd hturns (not_lt_zero _)
  | succ turns ih =>
    have hstep : TreeIterator.nextUnlocked c tx (fuel+2) it = it.read c tx (fuel+2) := if_pos hinit
    have hturn : Turn c tx it (it.read c tx (fuel+2)) es := read_turn hlists
    rw [TreeIterator.collect,hstep]
    generalize it.read c tx (fuel+2) = result at hturn
    cases hturn with
    | ended hnone hsame => rw [hnone,← hsame]
    | listed hbefore hnext hcurrent _ _ hfinish hinit' herr =>
      dsimp only
      rw [hbefore,ih hnext (hinit'.trans hinit) (by simpa using hturns),hcurrent,hfinish,herr]
      rfl

theorem collect_next (hlists : Lists c tx it.kind it.position es) (hinit : it.initialized = true)
    (hdone : it.done = false) (herr : it.err = none) (hturns : es.length < turns) :
    it.collect (TreeIterator.next c tx (fuel+2)) turns = (limited it.remaining (before it.finish es),none) := by
  induction turns generalizing it es with
  | zero => exact absurd hturns (not_lt_zero _)
  | succ turns ih =>
    have hstep : TreeIterator.next c tx (fuel+2) it = TreeIterator.read c tx (fuel+2) { it with current := none } := by
      rw [TreeIterator.next,hdone,herr,TreeIterator.nextUnlocked]
      simp [hinit]
    have hturn : Turn c tx { it with current := none } (TreeIterator.read c tx (fuel+2) _) es := read_turn hlists
    rw [TreeIterator.collect,hstep]
    generalize TreeIterator.read c tx (fuel+2) _ = result at hturn
    cases hturn with
    | ended hnone hsame =>
      rw [show before it.finish es = [] from hnone]
      simp [limited,hsame,herr]
    | @listed e rest next hbefore hnext hcurrent hremaining hdone' hfinish hinit' herr' =>
      replace herr' : next.err = none := herr'.trans herr
      rw [show before it.finish (e::rest) = _ from hbefore,limited_cons]
      dsimp only at hremaining hdone' hfinish ⊢
      rw [hcurrent,← hremaining]
      split_ifs with hone
      · have hstop : TreeIterator.collect (TreeIterator.next c tx (fuel+2)) turns next = ([],none) := by
          cases turns with
          | zero => exact congrArg _ herr'
          | succ turns => simp [TreeIterator.collect,TreeIterator.next,hdone',hone,herr']
        rw [hstop]
        rfl
      · rw [ih hnext (hinit'.trans hinit) (by simp [hdone',hdone,hone]) herr' (by simpa using hturns),hfinish]
        rfl

theorem before_eq (ho : Ordered es) (finish : Option K) : before finish es = Entries.range es none finish := by
  induction es with
  | nil => rfl
  | cons e es ih =>
    obtain ⟨he,ho⟩ := ordered_cons.mp ho
    have ih := ih ho
    unfold before at ih ⊢
    by_cases hend : finish.any (· ≤ e.1) = true
    · rw [takeWhile_cons_of_neg (by simp [hend])]
      cases finish with
      | none => cases hend
      | some f =>
        have hf : f ≤ e.1 := by simpa using hend
        exact (range_of_finish_le (forall_mem_cons.mpr ⟨hf,fun x hx => hf.trans (he x hx).le⟩)).symm
    · rw [takeWhile_cons_of_pos (by simpa using hend),ih]
      exact (filter_cons_of_pos (by simpa [inRange] using inRange_finish (by simpa using hend))).symm

theorem before_range (ho : Ordered es) (start finish : Option K) :
    before finish (Entries.range es start none) = Entries.range es start finish := by
  have hfrom : Ordered (Entries.range es start none) := ho.sublist filter_sublist
  rw [before_eq hfrom]
  simp [Entries.range,filter_filter,inRange,Bool.and_comm]

omit [LinearOrder K] in
theorem collect_congr {next : TreeIterator K V} {step : TreeIterator K V → Bool × TreeIterator K V}
    (h : step it = step next) : it.collect step (turns+1) = next.collect step (turns+1) := by
  rw [TreeIterator.collect,TreeIterator.collect,h]

/-- A tree that iterators can descend, empty without a root page. -/
def Iterable (c : TreeCodec B K V) (tx : WriteTxn B) (kind : TreeKind) (rootPage : ℕ) (m : SortedMap K V) : Prop :=
  rootPage = 0 ∧ m = ∅ ∨
    ∃ h page, page.pageID = rootPage ∧ h < maxTreeIteratorDepth ∧ Represents c tx kind h (.stored page) m.entries

variable {m : SortedMap K V} {rootPage : ℕ} {start finish : Option K}

omit [LinearOrder K] in
theorem limited_eq_self_iff {limit : ℤ} : limited limit es = es ↔ limit ≤ 0 ∨ es.length ≤ limit := by
  unfold limited
  split_ifs with hpos
  · rw [take_eq_self_iff]
    omega
  · exact iff_of_true rfl (.inl (not_lt.mp hpos))

/-- Iterators and mutable trees list the entries of the range up to the limit; `TreeScan` lists all of
them, and looks for page 0 where there is no tree. -/
theorem scans_agree (htree : Iterable c tx kind rootPage m) (hheader : tx.readPage 0 = none)
    (hbounds : ∀ s f, start = some s → finish = some f → s ≤ f) (limit : ℤ) (hfuel : m.entries.length+2 ≤ fuel) :
    iterate c tx fuel rootPage kind start finish limit = (limited limit (range m.entries start finish),none) ∧
    (∃ tree, MutableTree.openTree c tx rootPage kind = .ok tree ∧
      tree.scan c tx start finish limit = .ok (limited limit (range m.entries start finish))) ∧
    (treeScan c tx fuel rootPage kind start finish limit = (limited limit (range m.entries start finish),none) ↔
      rootPage ≠ 0 ∧ (limit ≤ 0 ∨ (range m.entries start finish).length ≤ limit)) := by
  obtain ⟨fuel,rfl⟩ := Nat.exists_eq_add_of_le' (show 2 ≤ fuel by omega)
  have hopens : start.any (fun s => finish.any (· < s)) = false := by
    cases start <;> cases finish <;> simp_all
  have hnew : (newTreeIterator rootPage kind start finish limit : Except _ (TreeIterator K V)) =
      .ok ⟨rootPage,kind,start,finish,limit,decide (rootPage = 0 ∨ start.isSome ∧ start = finish),false,none,{},none⟩ := by
    rw [newTreeIterator,hopens]
    rfl
  unfold iterate treeScan scanWith
  rw [hnew]
  dsimp only
  rcases htree with ⟨rfl,rfl⟩ | ⟨h,page,rfl,hd,hr⟩
  · refine ⟨?_,⟨_,rfl,MutableTree.scan_eq (MutableTree.openTree_empty rfl).2 limit hbounds⟩,?_⟩
    · simp [TreeIterator.collect,TreeIterator.next,show (∅ : SortedMap K V).entries = [] from rfl,Entries.range,limited]
    have hroot : descend c tx kind start maxTreeIteratorDepth [] 0 = .error .corrupt := by
      rw [maxTreeIteratorDepth,descend,TreeCodec.reference,hheader]
      rfl
    simp [TreeIterator.collect,TreeIterator.nextUnlocked,hroot]
  have hscan := MutableTree.openTree_holds ⟨h,page,rfl,hr⟩ (openTree_spec hr)
  obtain ⟨position,hdescend,hlists,-⟩ := descend_spec start hr (.root h) (by simpa using hd)
  rw [append_nil] at hlists
  have hlength : (range m.entries start none).length < fuel+2 := by
    have := length_filter_le (fun e => inRange start none e.1) m.entries
    unfold Entries.range
    omega
  have hzero : page.pageID ≠ 0 := by
    have := hr.allocated.1
    omega
  -- The first turn descends; from there on the iterator is the one that has descended.
  let opened (done : Bool) : TreeIterator K V := ⟨page.pageID,kind,start,finish,limit,done,true,none,position,none⟩
  have hopened : ∀ done, TreeIterator.nextUnlocked c tx (fuel+2) ⟨page.pageID,kind,start,finish,limit,done,false,none,{},none⟩ =
      TreeIterator.nextUnlocked c tx (fuel+2) (opened done) := by
    intro done
    rw [TreeIterator.nextUnlocked,TreeIterator.nextUnlocked,if_neg (by simp),if_pos rfl]
    dsimp only
    rw [show maxTreeIteratorDepth = maxTreeIteratorDepth - ([] : List (TreeIteratorFrame K V)).length from rfl,hdescend]
  rw [← before_range m.ordered]
  refine ⟨?_,⟨_,openTree_spec hr,?_⟩,?_⟩
  · by_cases hdone : start.isSome ∧ start = finish
    · obtain ⟨hsome,rfl⟩ := hdone
      obtain ⟨s,rfl⟩ := Option.isSome_iff_exists.mp hsome
      have hnil : range m.entries (some s) (some s) = [] := range_eq_nil (fun e _ => by simp [inRange])
      rw [before_range m.ordered,hnil]
      simp [TreeIterator.collect,TreeIterator.next,limited]
    rw [show decide (page.pageID = 0 ∨ start.isSome ∧ start = finish) = false by simp [hzero,hdone]]
    have hnext : (opened false).collect (TreeIterator.next c tx (fuel+2)) (fuel+2) = _ := collect_next hlists rfl rfl rfl hlength
    have hfirst : TreeIterator.next c tx (fuel+2) ⟨page.pageID,kind,start,finish,limit,false,false,none,{},none⟩ =
      TreeIterator.next c tx (fuel+2) (opened false) := hopened false
    exact (collect_congr hfirst).trans hnext
  · rw [before_range m.ordered]
    exact MutableTree.scan_eq hscan.2 limit hbounds
  have hnext : ∀ done, (opened done).collect (TreeIterator.nextUnlocked c tx (fuel+2)) (fuel+2) = _ := fun done =>
    collect_unlocked hlists rfl hlength
  rw [collect_congr (hopened _),hnext,Prod.mk.injEq,and_iff_left rfl,eq_comm,limited_eq_self_iff,and_iff_right hzero]

/-- A file with one leaf on page 2. -/
def leafFile : WriteTxn TreePage := { firstTransaction with
  filePages := 3
  nextPage := 3
  file := fun id => if id = 2 then some ⟨2,1,bytesCodec.encode .primary (.leaf [([1],[10]),([2],[20])] 2)⟩ else none }

theorem leafFile_ordered : Ordered [(([1],[10]) : Bytes × Bytes),([2],[20])] := by
  unfold Ordered
  decide

theorem leafFile_iterable : Iterable bytesCodec leafFile .primary 2 ⟨[([1],[10]),([2],[20])],leafFile_ordered⟩ :=
  .inr ⟨0,⟨2,2⟩,rfl,by decide,⟨rfl,fun page hp => by cases hp; exact ⟨le_rfl,lt_succ_self 2,not_mem_nil⟩⟩,leafFile_ordered,rfl⟩

theorem scans_agree_leafFile : iterate bytesCodec leafFile 4 2 .primary (some [2]) none 1 = ([([2],[20])],none) ∧
    treeScan bytesCodec leafFile 4 2 .primary none none 2 = ([([1],[10]),([2],[20])],none) :=
  ⟨(scans_agree leafFile_iterable rfl (by simp) 1 (by decide)).1,
    (scans_agree leafFile_iterable rfl (by simp) 2 (by decide)).2.2.mpr ⟨by decide,.inr (by decide)⟩⟩

/-- `TreeScan` goes on after the limit, and looks for page 0 where there is no tree. -/
theorem treeScan_unguarded : iterate bytesCodec leafFile 4 2 .primary none none 1 = ([([1],[10])],none) ∧
    treeScan bytesCodec leafFile 4 2 .primary none none 1 = ([([1],[10]),([2],[20])],none) ∧
    iterate bytesCodec leafFile 4 0 .primary none none 0 = ([],none) ∧
    treeScan bytesCodec leafFile 4 0 .primary none none 0 = ([],some .corrupt) := by
  refine ⟨?_,?_,?_,?_⟩ <;> rfl

end Meldbase.Storage
