import Meldbase.Library.Outcome
import Meldbase.Storage.Format

/-! # Page allocation in a write transaction

A transaction stages new pages over the committed file.  Page numbers come from
the end of the free list or from the end of the file, so a number handed out is
never one that is already allocated; pages allocated before keep their content.
-/
namespace Meldbase.Storage
open Outcome
variable {B : Type*}

/-- The staging state of one write transaction over the committed pages `file`. -/
structure WriteTxn (B : Type*) where
  /-- committed pages as `readDataPageUnlocked` decodes them -/
  file : ℕ → Option (Page B)
  (filePages maxPhysicalPages generation sequence nextPage : ℕ)
  freePages : List ℕ
  reusedPages : List ℕ := []
  pages : List (ℕ × Page B) := []
  metadataAllocation : Bool := false

namespace WriteTxn
variable (tx : WriteTxn B)

/-- Reuse the last free page or extend the file within its size limit. -/
def allocatePageID : Except StorageError (ℕ × WriteTxn B) :=
  if tx.nextPage < 2 then .error .corrupt
  else if tx.freePages ≠ [] ∧ tx.metadataAllocation = false then
    let id := tx.freePages.getLastD 0
    if id < 2 ∨ tx.nextPage ≤ id then .error .corrupt
    else .ok (id,{ tx with freePages := tx.freePages.dropLast, reusedPages := tx.reusedPages ++ [id] })
  else if tx.maxPhysicalPages = 0 ∨ tx.maxPhysicalPages ≤ tx.nextPage then .error .storageLimit
  else .ok (tx.nextPage,{ tx with nextPage := tx.nextPage+1 })

/-- Stage a page at an allocated number, stamped with the transaction's generation. -/
def appendPageAt (id : ℕ) (body : B) : Except StorageError (WriteTxn B) :=
  if id < 2 then .error .corrupt
  else .ok { tx with pages := tx.pages ++ [(id,⟨tx.generation,tx.sequence,body⟩)] }
def appendPage (body : B) : Except StorageError (ℕ × WriteTxn B) := do
  let (id,tx) ← tx.allocatePageID
  let tx ← tx.appendPageAt id body
  return (id,tx)
def staged (id : ℕ) : Option (Page B) := (tx.pages.reverse.find? (fun p => p.1 = id)).map Prod.snd
def readPage (id : ℕ) : Option (Page B) :=
  match tx.staged id with
  | some page => some page
  | none => if id < 2 ∨ tx.filePages ≤ id then none else tx.file id
def Allocated (id : ℕ) : Prop := 2 ≤ id ∧ id < tx.nextPage ∧ id ∉ tx.freePages

/-- Free pages are distinct data pages of the file. -/
structure WellFormed (tx : WriteTxn B) : Prop where
  two_le_nextPage : 2 ≤ tx.nextPage
  free_nodup : tx.freePages.Nodup
  free_inFile : ∀ id ∈ tx.freePages, 2 ≤ id ∧ id < tx.nextPage

/-- Later staging: allocated pages stay allocated and keep their content. -/
structure Extends (tx tx' : WriteTxn B) : Prop where
  wellFormed : tx'.WellFormed
  allocated : ∀ id, tx.Allocated id → tx'.Allocated id
  readPage : ∀ id, tx.Allocated id → tx'.readPage id = tx.readPage id

variable {tx : WriteTxn B}

theorem Extends.refl (h : tx.WellFormed) : tx.Extends tx := ⟨h,fun _ hid => hid,fun _ _ => rfl⟩

theorem Extends.trans {tx1 tx2 tx3 : WriteTxn B} (h12 : tx1.Extends tx2) (h23 : tx2.Extends tx3) : tx1.Extends tx3 :=
  ⟨h23.wellFormed,fun id hid => h23.allocated id (h12.allocated id hid),
    fun id hid => (h23.readPage id (h12.allocated id hid)).trans (h12.readPage id hid)⟩

theorem allocatePageID_cases {id : ℕ} (h : tx.allocatePageID = .ok (id,tx')) : 2 ≤ tx.nextPage ∧
    ((∃ rest, tx.freePages = rest ++ [id] ∧ 2 ≤ id ∧ id < tx.nextPage ∧
        tx' = { tx with freePages := rest, reusedPages := tx.reusedPages ++ [id] }) ∨
      (id = tx.nextPage ∧ tx.nextPage < tx.maxPhysicalPages ∧ tx' = { tx with nextPage := tx.nextPage+1 })) := by
  unfold allocatePageID at h
  split at h
  · cases h
  next hnext =>
  refine ⟨by omega,?_⟩
  split at h
  · next hfree =>
    left
    dsimp only at h
    split at h
    · cases h
    next hrange =>
    simp only [Except.ok.injEq,Prod.mk.injEq] at h
    obtain ⟨rfl,rfl⟩ := h
    refine ⟨tx.freePages.dropLast,?_,by omega,by omega,rfl⟩
    rw [List.getLastD_eq_getLast?,List.getLast?_eq_some_getLast hfree.1,Option.getD_some,
      List.dropLast_append_getLast hfree.1]
  right
  split at h
  · cases h
  next hlimit =>
  simp only [Except.ok.injEq,Prod.mk.injEq] at h
  obtain ⟨rfl,rfl⟩ := h
  exact ⟨rfl,by omega,rfl⟩

theorem allocatePageID_fresh {id : ℕ} (hwf : tx.WellFormed) (h : tx.allocatePageID = .ok (id,tx')) :
    ¬ tx.Allocated id ∧ tx'.Allocated id ∧ tx.Extends tx' := by
  obtain ⟨hnext,⟨rest,hfree,hlo,hhi,rfl⟩ | ⟨rfl,-,rfl⟩⟩ := allocatePageID_cases h
  · have hnd := hwf.free_nodup
    rw [hfree,List.nodup_append] at hnd
    have hid : id ∉ rest := fun hm => hnd.2.2 id hm id (by simp) rfl
    refine ⟨fun ha => ha.2.2 (by simp [hfree]),⟨hlo,hhi,hid⟩,⟨⟨hnext,hnd.1,?_⟩,?_,fun _ _ => rfl⟩⟩
    · exact fun q hq => hwf.free_inFile q (by simp [hfree,show q ∈ rest from hq])
    · exact fun q hq => ⟨hq.1,hq.2.1,fun hm => hq.2.2 (by simp [hfree,show q ∈ rest from hm])⟩
  have hid : tx.nextPage ∉ tx.freePages := fun hm => (hwf.free_inFile _ hm).2.ne rfl
  refine ⟨fun ha => ha.2.1.ne rfl,⟨hnext,Nat.lt_succ_self _,hid⟩,⟨⟨by simp; omega,hwf.free_nodup,?_⟩,?_,fun _ _ => rfl⟩⟩
  · exact fun q hq => ⟨(hwf.free_inFile q hq).1,Nat.lt_succ_of_lt (hwf.free_inFile q hq).2⟩
  · exact fun q hq => ⟨hq.1,Nat.lt_succ_of_lt hq.2.1,hq.2.2⟩

theorem staged_append (tx : WriteTxn B) (id q : ℕ) (page : Page B) :
    ({ tx with pages := tx.pages ++ [(id,page)] } : WriteTxn B).staged q =
      if id = q then some page else tx.staged q := by
  by_cases h : id = q <;> simp [staged,h]

theorem readPage_append_self (tx : WriteTxn B) (id : ℕ) (page : Page B) :
    ({ tx with pages := tx.pages ++ [(id,page)] } : WriteTxn B).readPage id = some page := by
  simp [readPage,staged_append]

theorem readPage_append_other (tx : WriteTxn B) {id q : ℕ} (page : Page B) (h : id ≠ q) :
    ({ tx with pages := tx.pages ++ [(id,page)] } : WriteTxn B).readPage q = tx.readPage q := by
  simp [readPage,staged_append,h]

/-- A staged page is read back and no allocated page is disturbed. -/
theorem appendPage_spec {id : ℕ} (hwf : tx.WellFormed) (h : tx.appendPage body = .ok (id,tx')) :
    tx'.Allocated id ∧ ¬ tx.Allocated id ∧ tx'.readPage id = some ⟨tx.generation,tx.sequence,body⟩ ∧ tx.Extends tx' := by
  unfold appendPage at h
  obtain ⟨⟨id',tx1⟩,halloc,h⟩ := bind_eq_ok.mp h
  obtain ⟨tx2,happend,h⟩ := bind_eq_ok.mp h
  cases h
  obtain ⟨hnew,hin,hext⟩ := allocatePageID_fresh hwf halloc
  have hstamp : tx1.generation = tx.generation ∧ tx1.sequence = tx.sequence := by
    obtain ⟨-,⟨_,_,_,_,rfl⟩ | ⟨_,_,rfl⟩⟩ := allocatePageID_cases halloc <;> exact ⟨rfl,rfl⟩
  unfold appendPageAt at happend
  split at happend
  · cases happend
  cases happend
  refine ⟨hin,hnew,?_,⟨⟨hext.wellFormed.1,hext.wellFormed.2,hext.wellFormed.3⟩,hext.allocated,?_⟩⟩
  · rw [readPage_append_self,hstamp.1,hstamp.2]
  intro q hq
  have hne : id ≠ q := by
    rintro rfl
    exact hnew hq
  rw [readPage_append_other _ _ hne]
  exact hext.readPage q hq

end WriteTxn
end Meldbase.Storage
