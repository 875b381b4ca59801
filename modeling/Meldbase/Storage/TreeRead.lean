import Meldbase.Storage.TreeDelete

/-! # Lookups and scans

On a tree that represents `es`, `Get` is the map lookup and `Scan` lists the
entries of the key range in order, cut off at a positive limit.
-/
namespace Meldbase.Storage
open Entries ListSurgery Outcome TreeCodec
variable {B K V : Type} [LinearOrder K] {c : TreeCodec B K V} {tx : WriteTxn B} {kind : TreeKind} {es : List (K × V)}
  {limit : ℤ} {result : List (K × V)} {finish : Option K} {pieces : List (List (K × V))}

theorem getFrom_spec (hd : h < depth)
    (hr : Represents c tx kind h ref es) (key : K) : c.getFrom tx kind depth ref key = .ok (find es key) := by
  induction h generalizing depth ref es with
  | zero =>
    obtain ⟨depth,rfl⟩ := exists_depth hd
    obtain ⟨a,b,rfl,hidx,ha,hb⟩ := findIdx_entry_cut hr.2.1 key
    have hnone : find a key = none := find_eq_none.mpr (fun e he => (ha e he).ne)
    simp only [TreeCodec.getFrom,hr.1.loads,ok_bind,hidx,getElem?_length_append,find_append,hnone,Option.none_or]
    cases b with
    | nil => rfl
    | cons x b =>
      have hxb := (ordered_cons.mp (ordered_append.mp hr.2.1).2.1).1
      by_cases hx : x.1 = key
      · simp [find,hx]
      have hlt : key < x.1 := lt_of_le_of_ne (hb x List.mem_cons_self) (fun h => hx h.symm)
      have hrest : find (x::b) key = none :=
        find_eq_none.mpr (List.forall_mem_cons.mpr ⟨hx,fun e he => (hlt.trans (hxb e he)).ne'⟩)
      simp [hx,hrest]
  | succ h ih =>
    obtain ⟨depth,rfl⟩ := exists_depth hd
    obtain ⟨keys,children,pieces,hv,hp,rfl,-⟩ := hr.parts
    obtain ⟨pl,m,pr,rfl,hidx,hlt,hgt,-⟩ := hp.separates.route hp.ordered key
    obtain ⟨kl,kr,cl,child,cr,rfl,rfl,hctx,-,hchild,-⟩ := hp.cut
    have hcl : childIndex (kl ++ kr) key = cl.length := hidx.symm.trans hctx.childrenLength.symm
    have hflat : (pl ++ m::pr).flatten = pl.flatten ++ m ++ pr.flatten := by simp
    simp only [TreeCodec.getFrom,hv.loads,ok_bind,hcl,getElem?_length_append,List.head?_cons]
    rw [ih (show h < depth by omega) hchild,hflat,find_middle hlt hgt]

/-! ### Scans -/

/-- The first `limit` entries when the limit is positive, all entries otherwise. -/
def limited (limit : ℤ) (es : List (K × V)) : List (K × V) := if 0 < limit then es.take limit.toNat else es

omit [LinearOrder K] in
theorem limited_append (h : limitReached limit (limited limit l) = true)
    (r : List (K × V)) : limited limit (l ++ r) = limited limit l := by
  simp only [limitReached,Bool.and_eq_true,decide_eq_true_eq] at h
  obtain ⟨hpos,hlen⟩ := h
  simp only [limited,hpos,if_true,List.length_take] at hlen ⊢
  exact List.take_append_of_le_length (by omega)

omit [LinearOrder K] in
theorem limited_eq_self (h : limitReached limit (limited limit l) = false) :
    limited limit l = l := by
  by_cases hpos : 0 < limit
  · simp only [limitReached,limited,hpos,if_true,decide_true,Bool.true_and,decide_eq_false_iff_not,
      List.length_take] at h ⊢
    exact List.take_of_length_le (by omega)
  · simp [limited,hpos]

omit [LinearOrder K] in
theorem limited_of_not_reached (h : limitReached limit result = false) : limited limit result = result := by
  simp only [limitReached,Bool.and_eq_false_iff,decide_eq_false_iff_not] at h
  unfold limited
  split
  · exact List.take_of_length_le (by omega)
  · rfl

omit [LinearOrder K] in
theorem limited_concat (e : K × V) (h : limitReached limit result = false) :
    limited limit (result ++ [e]) = result ++ [e] := by
  simp only [limitReached,Bool.and_eq_false_iff,decide_eq_false_iff_not] at h
  unfold limited
  split
  · exact List.take_of_length_le (by simp; omega)
  · rfl

theorem range_of_finish_le (h : ∀ e ∈ es, f ≤ e.1) : range es start (some f) = [] :=
  range_eq_nil (fun e he => by simp [inRange,(h e he)])

theorem inRange_finish (h : finish.any (· ≤ k) = false) : finish.all (k < ·) = true := by
  cases finish with
  | none => rfl
  | some f => simpa using h

/-- The leaf loop appends the entries below the end of the range until the limit. -/
theorem scanEntries_eq (ho : Ordered es) (hres : limitReached limit result = false) :
    scanEntries finish limit es result = limited limit (result ++ range es none finish) := by
  induction es generalizing result with
  | nil => simpa [scanEntries,range] using (limited_of_not_reached hres).symm
  | cons e es ih =>
    obtain ⟨he,ho⟩ := ordered_cons.mp ho
    unfold scanEntries
    by_cases hf : finish.any (· ≤ e.1) = true
    · cases finish with
      | none => simp at hf
      | some f =>
        have hfe : f ≤ e.1 := by simpa using hf
        have hnil : range (e::es) none (some f) = [] :=
          range_of_finish_le (List.forall_mem_cons.mpr ⟨hfe,fun x hx => hfe.trans (he x hx).le⟩)
        rw [if_pos hf,hnil,List.append_nil,limited_of_not_reached hres]
    have hin : inRange none finish e.1 = true := by
      simpa [inRange] using inRange_finish (by simpa using hf)
    have hrange : range (e::es) none finish = e :: range es none finish := by
      simp [range,hin]
    rw [if_neg hf,hrange]
    by_cases hreach : limitReached limit (result ++ [e]) = true
    · simp only [hreach,if_true]
      have hfull := limited_concat e hres
      have hstop := limited_append (hfull.symm ▸ hreach) (range es none finish)
      rw [hfull] at hstop
      simpa using hstop.symm
    simp only [hreach]
    rw [ih ho (by simpa using hreach)]
    simp

theorem range_drop_start (ho : Ordered es) (s : K) (finish : Option K) :
    range (es.drop (es.findIdx (fun e => s ≤ e.1))) none finish = range es (some s) finish := by
  obtain ⟨a,b,rfl,hidx,ha,hb⟩ := findIdx_entry_cut ho s
  have hnil : range a (some s) finish = [] :=
    range_eq_nil (fun e he => by simp [inRange,not_le.mpr (ha e he)])
  rw [hidx,List.drop_left,range_append,hnil,List.nil_append]
  refine List.filter_congr (fun e he => ?_)
  simp [inRange,hb e he]

def SlotHolds (c : TreeCodec B K V) (tx : WriteTxn B) (kind : TreeKind) (h : ℕ) (slot : Option K × NodeRef K V)
    (piece : List (K × V)) : Prop :=
  Represents c tx kind h slot.2 piece ∧ ∀ k, slot.1 = some k → IsMinKey k piece

theorem slots_tail (hsep : List.Forall₂ IsMinKey keys pieces) (hch : List.Forall₂ (Represents c tx kind h) children pieces) :
    List.Forall₂ (SlotHolds c tx kind h) ((keys.map some).zip children) pieces := by
  induction hsep generalizing children with
  | nil => cases hch; exact List.Forall₂.nil
  | cons hk _ ih =>
    cases hch with
    | cons hr hrest => exact List.Forall₂.cons ⟨hr,fun k hks => by cases hks; exact hk⟩ (ih hrest)

theorem Parts.slots {children : List (NodeRef K V)} (hp : Parts c tx kind h keys children pieces) :
    List.Forall₂ (SlotHolds c tx kind h) ((none :: keys.map some).zip children) pieces := by
  obtain ⟨p,pieces,rfl⟩ := List.exists_cons_of_ne_nil hp.separates.1
  obtain ⟨child,children,hchild,hrest,rfl⟩ := List.forall₂_cons_right_iff.mp hp.children
  exact List.Forall₂.cons ⟨hchild,fun k hk => nomatch hk⟩ (slots_tail hp.separates.2 hrest)

/-- The child loop appends the range of all pieces until the limit. -/
theorem scanChildren_eq {visit : NodeRef K V → List (K × V) → Except StorageError (List (K × V))}
    (hvisit : ∀ ref es result, Represents c tx kind h ref es → limited limit result = result →
      visit ref result = .ok (limited limit (result ++ range es start finish)))
    (hslots : List.Forall₂ (SlotHolds c tx kind h) slots pieces) (ho : Ordered pieces.flatten)
    (hres : limitReached limit result = false) :
    scanChildren visit finish limit slots result = .ok (limited limit (result ++ range pieces.flatten start finish)) := by
  induction hslots generalizing result with
  | nil => simpa [scanChildren,range] using (limited_of_not_reached hres).symm
  | @cons slot p slots pieces hslot hrest ih =>
    obtain ⟨separator,child⟩ := slot
    rw [List.flatten_cons] at ho ⊢
    unfold scanChildren
    by_cases hstop : separator.any (fun s => finish.any (· ≤ s)) = true
    · cases separator with
      | none => simp at hstop
      | some s =>
        cases finish with
        | none => simp at hstop
        | some f =>
          have hfs : f ≤ s := by simpa using hstop
          have hmin := (hslot.2 s rfl).append pieces.flatten
          rw [if_pos hstop,range_of_finish_le (fun e he => hfs.trans (hmin.le ho e he)),List.append_nil,
            limited_of_not_reached hres]
    rw [if_neg hstop,hvisit child p result hslot.1 (limited_of_not_reached hres),ok_bind,range_append,
      ← List.append_assoc]
    by_cases hreach : limitReached limit (limited limit (result ++ range p start finish)) = true
    · simp only [hreach,if_true,pure_eq_ok,limited_append hreach]
    have hself := limited_eq_self (by simpa using hreach)
    rw [hself] at hreach ⊢
    simp only [hreach]
    exact ih (ordered_append.mp ho).2.1 (by simpa using hreach)

theorem Separates.below_start (hsep : Separates keys pieces) (ho : Ordered pieces.flatten) (s : K) :
    ∀ e ∈ (pieces.take (keys.findIdx (fun k => s < k))).flatten, e.1 < s := by
  obtain ⟨a,b,rfl,hidx,ha,-⟩ := findIdx_cut (fun k => decide (s < k)) keys
  have hlen := hsep.length_eq
  rw [hidx]
  rcases List.eq_nil_or_concat' a with rfl | ⟨ks,t,rfl⟩
  · simp
  obtain ⟨pl,m,pr,rfl,hpl⟩ := exists_cut_of_lt (show (ks ++ [t]).length < pieces.length by simp at hlen ⊢; omega)
  obtain ⟨kl,kr,hkeys,hkl,hfront,-⟩ := separates_cut.mp hsep
  obtain ⟨rfl,rfl⟩ := List.append_inj hkeys (by omega)
  obtain ⟨ks',t',hks,-,-,hmin⟩ := hfront.exists_last (by intro h; simp [h] at hpl)
  obtain rfl : t = t' := by simpa using (List.append_inj' hks rfl).2
  have hts : t ≤ s := by simpa using ha t (by simp)
  rw [← hpl,List.take_left]
  intro e he
  obtain ⟨v,rest,rfl⟩ := hmin
  have ho' : Ordered (pl.flatten ++ ((t,v) :: rest ++ pr.flatten)) := by simpa using ho
  exact ((ordered_append.mp ho').2.2 e he (t,v) (by simp)).trans_le hts

theorem scan_spec (hd : h < depth) (hr : Represents c tx kind h ref es) (hres : limited limit result = result) :
    c.scan tx kind start finish limit depth ref result = .ok (limited limit (result ++ range es start finish)) := by
  induction h generalizing depth ref es result with
  | zero =>
    obtain ⟨depth,rfl⟩ := exists_depth hd
    unfold TreeCodec.scan
    by_cases hreach : limitReached limit result = true
    · rw [if_pos hreach,limited_append (hres.symm ▸ hreach),hres]
    rw [if_neg hreach,hr.1.loads,ok_bind]
    have hreach : limitReached limit result = false := by simpa using hreach
    cases start with
    | none => simp only [List.drop_zero,pure_eq_ok,scanEntries_eq hr.2.1 hreach]
    | some s =>
      simp only [pure_eq_ok,scanEntries_eq (hr.2.1.sublist (List.drop_sublist _ _)) hreach,range_drop_start hr.2.1]
  | succ h ih =>
    obtain ⟨depth,rfl⟩ := exists_depth hd
    obtain ⟨keys,children,pieces,hv,hp,rfl,-⟩ := hr.parts
    unfold TreeCodec.scan
    by_cases hreach : limitReached limit result = true
    · rw [if_pos hreach,limited_append (hres.symm ▸ hreach),hres]
    rw [if_neg hreach,hv.loads,ok_bind]
    have hreach : limitReached limit result = false := by simpa using hreach
    have hvisit : ∀ ref es result, Represents c tx kind h ref es → limited limit result = result →
        c.scan tx kind start finish limit depth ref result = .ok (limited limit (result ++ range es start finish)) :=
      fun ref es result hr hres => ih (by omega) hr hres
    cases start with
    | none => exact scanChildren_eq hvisit hp.slots hp.ordered hreach
    | some s =>
      have hskip : range pieces.flatten (some s) finish =
          range (pieces.drop (keys.findIdx (fun k => s < k))).flatten (some s) finish := by
        conv_lhs => rw [← List.take_append_drop (keys.findIdx (fun k => s < k)) pieces]
        rw [List.flatten_append,range_append,range_eq_nil,List.nil_append]
        exact fun e he => by simp [inRange,not_le.mpr (hp.separates.below_start hp.ordered s e he)]
      have ho : Ordered (pieces.drop (keys.findIdx (fun k => s < k))).flatten :=
        hp.ordered.sublist (List.drop_sublist _ _).flatten
      rw [hskip]
      exact scanChildren_eq hvisit (List.forall₂_drop _ hp.slots) ho hreach

end Meldbase.Storage
