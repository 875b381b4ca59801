import Meldbase.Storage.MutableTree

/-! # Pieces of a branch and routing

A branch cuts its entries into the non-empty pieces of its children, and its
separators are the lowest keys of all pieces but the first.  The child index
selects the one piece that can hold a key.
-/
namespace Meldbase.Storage
open List
open Entries ListSurgery Outcome

section Pieces
variable {K V : Type} {p : List (K × V)} {pl : List (List (K × V))} {m : List (K × V)}

def IsMinKey (k : K) (piece : List (K × V)) : Prop := ∃ v rest, piece = (k,v) :: rest
def Separates (keys : List K) (pieces : List (List (K × V))) : Prop :=
  pieces ≠ [] ∧ Forall₂ IsMinKey keys pieces.tail
def Front (keys : List K) (pieces : List (List (K × V))) (m : List (K × V)) : Prop :=
  Forall₂ IsMinKey keys (pieces ++ [m]).tail

theorem IsMinKey.ne_nil (h : IsMinKey k p) : p ≠ [] := by
  obtain ⟨v,rest,rfl⟩ := h
  simp

theorem IsMinKey.unique (h : IsMinKey k p) (h' : IsMinKey k' p) : k = k' := by
  obtain ⟨v,rest,rfl⟩ := h
  obtain ⟨v',rest',h'⟩ := h'
  simp only [List.cons.injEq,Prod.mk.injEq] at h'
  exact h'.1.1

theorem IsMinKey.append (h : IsMinKey k p) (q : List (K × V)) : IsMinKey k (p ++ q) := by
  obtain ⟨v,rest,rfl⟩ := h
  exact ⟨v,rest ++ q,rfl⟩

theorem IsMinKey.of_append (h : IsMinKey k (p ++ q)) (hp : p ≠ []) : IsMinKey k p := by
  obtain ⟨v,rest,h⟩ := h
  cases p with
  | nil => exact absurd rfl hp
  | cons e p =>
    simp only [cons_append,List.cons.injEq] at h
    exact ⟨v,p,by rw [h.1]⟩

theorem IsMinKey.le [LinearOrder K] (h : IsMinKey k p) (ho : Ordered p) : ∀ e ∈ p, k ≤ e.1 := by
  obtain ⟨v,rest,rfl⟩ := h
  exact forall_mem_cons.mpr ⟨le_rfl,fun e he => ((ordered_cons.mp ho).1 e he).le⟩

theorem IsMinKey.insert [LinearOrder K] (h : IsMinKey s p) (ho : Ordered p) (hsk : s ≤ k)
    (v : V) : IsMinKey s (insert p k v) := by
  obtain ⟨w,rest,rfl⟩ := h
  rcases hsk.lt_or_eq with hlt | rfl
  · refine ⟨w,below k rest ++ (k,v) :: above k rest,?_⟩
    simp [Entries.insert,below,above,hlt,hlt.not_gt]
  refine ⟨v,above s rest,?_⟩
  have hrest : ∀ e ∈ rest, s ≤ e.1 := fun e he => ((ordered_cons.mp ho).1 e he).le
  have hb : below s ((s,w) :: rest) = [] := below_eq_nil (forall_mem_cons.mpr ⟨le_rfl,hrest⟩)
  rw [Entries.insert,hb]
  simp [above]

theorem tail_append_cons (pl : List (List (K × V))) (m : List (K × V)) (pr : List (List (K × V))) :
    (pl ++ m::pr).tail = (pl ++ [m]).tail ++ pr := by
  cases pl <;> simp

theorem separates_cut {keys : List K} : Separates keys (pl ++ m::pr) ↔
      ∃ kl kr, keys = kl ++ kr ∧ kl.length = pl.length ∧ Front kl pl m ∧ Forall₂ IsMinKey kr pr := by
  unfold Separates Front
  rw [tail_append_cons]
  constructor
  · rintro ⟨-,h⟩
    obtain ⟨kl,kr,rfl,hl,hr⟩ := forall₂_append_left h.flip
    refine ⟨kl,kr,rfl,?_,hl.flip,hr.flip⟩
    simpa using hl.length_eq.symm
  · rintro ⟨kl,kr,rfl,-,hl,hr⟩
    exact ⟨by simp,rel_append hl hr⟩

theorem Front.congr {keys : List K} (h : Front keys pl m)
    (hm : pl ≠ [] → ∀ k, IsMinKey k m → IsMinKey k m') : Front keys pl m' := by
  unfold Front at *
  cases pl with
  | nil => simpa using h
  | cons p pl =>
    simp only [cons_append,tail_cons] at h ⊢
    obtain ⟨kl,kr,rfl,hl,hr⟩ := forall₂_append_left h.flip
    cases hr with
    | cons hk hnil =>
      cases hnil
      exact rel_append hl.flip (Forall₂.cons (hm (by simp) _ hk) Forall₂.nil)

theorem Front.exists_last {keys : List K} (h : Front keys pl m)
    (hpl : pl ≠ []) : ∃ ks s, keys = ks ++ [s] ∧ ks.length+1 = pl.length ∧ Separates ks pl ∧ IsMinKey s m := by
  unfold Front at h
  cases pl with
  | nil => exact absurd rfl hpl
  | cons p pl =>
    simp only [cons_append,tail_cons] at h
    obtain ⟨kl,kr,rfl,hl,hr⟩ := forall₂_append_left h.flip
    cases hr with
    | cons hk hnil =>
      cases hnil
      exact ⟨kl,_,rfl,by simpa using hl.length_eq.symm,⟨by simp,hl.flip⟩,hk⟩

theorem Front.of_separates (h : Separates ks pl) (hs : IsMinKey s m) : Front (ks ++ [s]) pl m := by
  obtain ⟨hne,h⟩ := h
  unfold Front
  cases pl with
  | nil => exact absurd rfl hne
  | cons p pl => exact rel_append h (Forall₂.cons hs Forall₂.nil)

@[simp] theorem front_nil {keys : List K} : Front keys [] m ↔ keys = [] := by
  simp [Front]

end Pieces

section Routing
variable {K V : Type} [LinearOrder K] {pieces : List (List (K × V))}

theorem childIndex_cut {keys : List K} (ho : keys.Pairwise (· < ·)) (key : K) :
    ∃ kl kr, keys = kl ++ kr ∧ TreeCodec.childIndex keys key = kl.length ∧ (∀ k ∈ kl, k ≤ key) ∧ ∀ k ∈ kr, key < k := by
  obtain ⟨a,b,rfl,hidx,ha,hb⟩ := findIdx_cut (fun k => decide (key ≤ k)) keys
  have ha : ∀ k ∈ a, k ≤ key := fun k hk => (not_le.mp (by simpa using ha k hk)).le
  unfold TreeCodec.childIndex
  dsimp only
  rw [hidx,getElem?_length_append]
  cases b with
  | nil => exact ⟨a,[],rfl,by simp,ha,by simp⟩
  | cons x b =>
    have hx : key ≤ x := by simpa using hb x rfl
    have hob : ∀ k ∈ b, x < k := (pairwise_cons.mp (pairwise_append.mp ho).2.1).1
    by_cases hkey : x = key
    · refine ⟨a ++ [x],b,by simp,by simp [hkey],?_,fun k hk => hx.trans_lt (hob k hk)⟩
      intro k hk
      rcases mem_append.mp hk with hk | hk
      · exact ha k hk
      · rw [mem_singleton.mp hk,hkey]
    · have hlt : key < x := lt_of_le_of_ne hx (fun h => hkey h.symm)
      exact ⟨a,x::b,rfl,by simp [hkey],ha,forall_mem_cons.mpr ⟨hlt,fun k hk => hlt.trans (hob k hk)⟩⟩

theorem keys_pairwise {keys : List K} (h : Forall₂ IsMinKey keys pieces)
    (ho : Ordered pieces.flatten) : keys.Pairwise (· < ·) := by
  induction h with
  | nil => exact List.Pairwise.nil
  | @cons k p keys pieces hk hrest ih =>
    rw [flatten_cons] at ho
    obtain ⟨-,hor,hlt⟩ := ordered_append.mp ho
    refine pairwise_cons.mpr ⟨fun x hx => ?_,ih hor⟩
    obtain ⟨v,rest,rfl⟩ := hk
    obtain ⟨i,hi,rfl⟩ := getElem_of_mem hx
    obtain ⟨w,rest',hp⟩ := Forall₂.get hrest hi (hrest.length_eq ▸ hi)
    refine hlt (k,v) mem_cons_self (_,w) (mem_flatten.mpr ⟨_,get_mem _ ⟨i,hrest.length_eq ▸ hi⟩,?_⟩)
    rw [hp]
    exact mem_cons_self

theorem Separates.keys_pairwise {keys : List K} (h : Separates keys pieces)
    (ho : Ordered pieces.flatten) : keys.Pairwise (· < ·) := by
  obtain ⟨hne,h⟩ := h
  cases pieces with
  | nil => exact absurd rfl hne
  | cons p pieces =>
    rw [flatten_cons] at ho
    exact Storage.keys_pairwise h (ordered_append.mp ho).2.1

theorem Separates.route {keys : List K} (h : Separates keys pieces) (ho : Ordered pieces.flatten) (key : K) :
    ∃ pl m pr, pieces = pl ++ m::pr ∧ pl.length = TreeCodec.childIndex keys key ∧
      (∀ e ∈ pl.flatten, e.1 < key) ∧ (∀ e ∈ pr.flatten, key < e.1) ∧ (pl ≠ [] → ∀ s, IsMinKey s m → s ≤ key) := by
  obtain ⟨kl,kr,rfl,hidx,hkl,hkr⟩ := childIndex_cut (h.keys_pairwise ho) key
  obtain ⟨hne,h⟩ := h
  obtain ⟨p,pt,rfl⟩ := exists_cons_of_ne_nil hne
  obtain ⟨p1,p2,hpt,h1,h2⟩ := forall₂_append_left h
  obtain rfl : pt = p1 ++ p2 := hpt
  -- the pieces after the cut start with a separator above the key
  have hright : ∀ e ∈ p2.flatten, key < e.1 := by
    intro e he
    have hor : Ordered p2.flatten := by
      rw [flatten_cons,flatten_append] at ho
      exact (ordered_append.mp (ordered_append.mp ho).2.1).2.1
    cases h2 with
    | nil => simp at he
    | cons hk hrest =>
      rw [flatten_cons] at he hor
      exact (hkr _ mem_cons_self).trans_le ((hk.append _).le hor e he)
  rcases eq_nil_or_concat' p1 with rfl | ⟨pl,m,rfl⟩
  · cases h1
    exact ⟨[],p,p2,rfl,by simpa using hidx.symm,by simp,hright,fun hc => absurd rfl hc⟩
  obtain ⟨ks,ss,rfl,hks,hss⟩ := forall₂_append_left h1.flip
  cases hss with
  | @cons _ s _ _ hs hnil =>
    cases hnil
    have hsk : s ≤ key := hkl s (by simp)
    have hlen := hks.length_eq
    refine ⟨p::pl,m,p2,by simp,by rw [hidx]; simp [hlen],?_,hright,fun _ s' hs' => ?_⟩
    · intro e he
      obtain ⟨v,rest,rfl⟩ := hs
      have ho' : Ordered ((p::pl).flatten ++ ((s,v) :: rest ++ p2.flatten)) := by simpa using ho
      exact ((ordered_append.mp ho').2.2 e he (s,v) (by simp)).trans_le hsk
    · rw [hs'.unique hs]; exact hsk

end Routing
end Meldbase.Storage
