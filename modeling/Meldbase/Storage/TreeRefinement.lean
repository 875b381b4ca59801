import Meldbase.Storage.TreeFlush

/-! # A mutable tree refines a sorted map

A session edits one tree through any number of write transactions.  Whatever
puts, deletes, flushes and reopenings succeed, the tree answers every lookup and
scan as the sorted map that the same puts and deletes build.
-/
namespace Meldbase.Storage
open SortedMap List
open Entries ListSurgery Outcome TreeCodec
variable {B K V : Type} [LinearOrder K] {c : TreeCodec B K V} {tx tx' : WriteTxn B}

def MutableTree.Holds (c : TreeCodec B K V) (tx : WriteTxn B) (tree : MutableTree K V) (m : SortedMap K V) : Prop :=
  ∃ h < tree.depth, Represents c tx tree.kind h tree.root m.entries

namespace MutableTree
variable {tree tree' : MutableTree K V} {m : SortedMap K V} {kind : TreeKind}

theorem Holds.mono (hext : tx.Extends tx') (h : Holds c tx tree m) : Holds c tx' tree m := by
  obtain ⟨height,hd,hr⟩ := h
  exact ⟨height,hd,hr.mono hext⟩

theorem represents_root (ho : Ordered es)
    (hheld : EditedHolds c tx kind h es (left,some (separator,right))) :
    Represents c tx kind (h+1) (.loaded (.branch [separator] [left,right] (left.count+right.count))) es := by
  obtain ⟨l,r,rfl,hl,hsep,hleft,hright⟩ := hheld
  have hparts : Parts c tx kind h [separator] [left,right] [l,r] :=
    ⟨Forall₂.cons hleft (Forall₂.cons hright Forall₂.nil),by simp [hl,hsep.ne_nil],
      ⟨by simp,Forall₂.cons hsep Forall₂.nil⟩,by simpa using ho⟩
  have hvalid := (hparts.separates.keys_valid hparts.validKeys) separator (by simp)
  have hfit : 32 + ([separator].map c.branchCost).sum ≤ pageCapacity := by
    have := hvalid.2
    simp only [map_cons,map_nil,sum_cons,sum_nil,branchCost,branchLength,pageCapacity,
      pageSize,pageHeaderSize]
    omega
  have hrep := hparts.represents hfit (n := left.count+right.count) (by simp [hleft.count_eq,hright.count_eq])
  simpa using hrep

theorem put_holds (h : Holds c tx tree m) (hput : tree.put c tx key value = .ok tree') :
    tree'.kind = tree.kind ∧ Holds c tx tree' (m.insert key value) := by
  obtain ⟨height,hd,hr⟩ := h
  unfold MutableTree.put at hput
  obtain ⟨_,hkey,hput⟩ := bind_eq_ok.mp hput
  have hvalid : c.ValidKey key := by
    unfold checkKey at hkey
    split at hkey
    · cases hkey
    · next hk => exact ⟨by omega,by omega⟩
  obtain ⟨⟨left,split⟩,hedit,hput⟩ := bind_eq_ok.mp hput
  have hspec := put_spec hd hr hvalid value
  rw [hedit] at hspec
  cases split with
  | none =>
    cases hput
    exact ⟨rfl,height,hd,hspec⟩
  | some sr =>
    obtain ⟨separator,right⟩ := sr
    cases hput
    exact ⟨rfl,height+1,by dsimp only; omega,represents_root (m.insert key value).ordered hspec⟩

theorem get_eq (h : Holds c tx tree m) (key : K) : tree.get c tx key = .ok (m.find key) := by
  obtain ⟨height,hd,hr⟩ := h
  exact getFrom_spec hd hr key

theorem scan_eq (h : Holds c tx tree m) (limit : ℤ)
    (hbounds : ∀ s f, start = some s → finish = some f → s ≤ f) :
    tree.scan c tx start finish limit = .ok (limited limit (range m.entries start finish)) := by
  obtain ⟨height,hd,hr⟩ := h
  have hnil : limited limit ([] : List (K × V)) = [] := by simp [limited]
  have hb : start.any (fun s => finish.any (· < s)) = false := by
    cases start with
    | none => rfl
    | some s =>
      cases finish with
      | none => rfl
      | some f => simpa using hbounds s f rfl rfl
  simpa [MutableTree.scan,hb] using scan_spec hd hr hnil

theorem delete_holds (h : Holds c tx tree m) (hdel : tree.delete c tx key = .ok (removed,tree')) :
    tree'.kind = tree.kind ∧ removed = (m.find key).isSome ∧ Holds c tx tree' (m.erase key) := by
  obtain ⟨height,hd,hr⟩ := h
  unfold MutableTree.delete at hdel
  split at hdel
  · cases hdel
  obtain ⟨result,hresult,hdel⟩ := bind_eq_ok.mp hdel
  have hspec := delete_spec hd hr key
  rw [hresult] at hspec
  match result with
  | none =>
    have habsent : ∀ e ∈ m.entries, e.1 ≠ key := hspec
    cases hdel
    have hsame : m.erase key = m := entries_injective (erase_eq_self habsent)
    have hfind : m.find key = none := find_eq_none.mpr habsent
    exact ⟨rfl,by simp [hfind],height,hd,by rw [hsame]; exact hr⟩
  | some (left,none) =>
    obtain ⟨⟨v,hmem⟩,hheld⟩ := hspec
    have hfind : m.find key = some v := mem_entries.mp hmem
    obtain ⟨root,hroot,hdel⟩ := bind_eq_ok.mp hdel
    cases hdel
    refine ⟨rfl,by simp [hfind],?_⟩
    have hleft : ∃ height', height' ≤ height ∧ Represents c tx tree.kind height' left (m.erase key).entries := by
      rcases hheld with ⟨-,hheld⟩ | ⟨hnil,hleaf⟩
      · exact ⟨height,le_rfl,hheld⟩
      obtain rfl : left = .loaded (.leaf [] 0) := congrArg Prod.fst hleaf
      refine ⟨0,Nat.zero_le _,?_⟩
      show Represents c tx tree.kind 0 _ (erase m.entries key)
      rw [hnil]
      exact represents_leaf ordered_nil (by simp) (by simp [pageCapacity,pageSize,pageHeaderSize])
    obtain ⟨height',hle,hrep⟩ := hleft
    obtain ⟨root',h',hcollapse,hh',hrep'⟩ := collapse_spec (show height' < tree.depth by omega) hrep
    rw [hroot] at hcollapse
    cases hcollapse
    exact ⟨h',by dsimp only; omega,hrep'⟩
  | some (left,some (separator,right)) =>
    obtain ⟨⟨v,hmem⟩,hheld⟩ := hspec
    have hfind : m.find key = some v := mem_entries.mp hmem
    obtain ⟨root,hroot,hdel⟩ := bind_eq_ok.mp hdel
    cases hdel
    refine ⟨rfl,by simp [hfind],?_⟩
    rcases hheld with ⟨-,hheld⟩ | ⟨-,hleaf⟩
    · have hrep := represents_root (m.erase key).ordered hheld
      obtain ⟨root',h',hcollapse,hh',hrep'⟩ := collapse_spec (show height+1 < tree.depth+1 by omega) hrep
      rw [hroot] at hcollapse
      cases hcollapse
      exact ⟨h',by dsimp only; omega,hrep'⟩
    · cases congrArg Prod.snd hleaf

def StoredAt (c : TreeCodec B K V) (tx : WriteTxn B) (kind : TreeKind) (rootPage : ℕ) (m : SortedMap K V) : Prop :=
  ∃ h page, page.pageID = rootPage ∧ Represents c tx kind h (.stored page) m.entries

theorem StoredAt.mono (hext : tx.Extends tx') (h : StoredAt c tx kind rootPage m) :
    StoredAt c tx' kind rootPage m := by
  obtain ⟨height,page,hid,hr⟩ := h
  exact ⟨height,page,hid,hr.mono hext⟩

theorem flush_holds (hwf : tx.WellFormed) (h : Holds c tx tree m)
    (hflush : tree.flush c tx = .ok (rootPage,tx',tree')) :
    tree'.kind = tree.kind ∧ tx.Extends tx' ∧ Holds c tx' tree' m ∧ StoredAt c tx' tree.kind rootPage m := by
  obtain ⟨height,hd,hr⟩ := h
  unfold MutableTree.flush at hflush
  obtain ⟨⟨page,tx1⟩,hpage,hflush⟩ := bind_eq_ok.mp hflush
  cases hflush
  obtain ⟨hext,hrep⟩ := flush_spec hwf hr hpage
  exact ⟨rfl,hext,⟨height,hd,hrep⟩,height,page,rfl,hrep⟩

theorem openTree_holds (h : StoredAt c tx kind rootPage m)
    (hopen : openTree c tx rootPage kind = .ok tree') : tree'.kind = kind ∧ Holds c tx tree' m := by
  obtain ⟨height,page,rfl,hr⟩ := h
  rw [openTree_spec hr] at hopen
  cases hopen
  exact ⟨rfl,height,hr.height_lt,hr⟩

theorem openTree_empty (hopen : openTree c tx 0 kind = .ok tree') :
    tree'.kind = kind ∧ Holds c tx tree' ∅ := by
  cases hopen
  exact ⟨rfl,0,Nat.zero_lt_one,represents_leaf ordered_nil (by simp) (by simp [pageCapacity,pageSize,pageHeaderSize])⟩

end MutableTree
end Meldbase.Storage
