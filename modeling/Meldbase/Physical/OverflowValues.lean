import Meldbase.Physical.FailedUpdates

/-! # Values on overflow pages

System records, commit records and documents are stored and loaded by three copies of
one function.  What a transaction stores is loaded from any file that holds its pages,
whatever it did before and after.
-/
namespace Meldbase.Physical
open List Prod
open Logical (OverflowPage overflowPages overflowChunks overflowChunkBytes inlineCommitValueLimit PagesFor maxUint64)
open FixedWidth Framing Outcome

theorem stagePages_pages (h : stagePages kind written tx = .ok tx') :
    tx'.pages = tx.pages ++ written.map (fun e => (e.1,⟨tx.generation,tx.sequence,.overflow kind e.2.payload e.2.link⟩)) := by
  induction written generalizing tx with
  | nil =>
    cases h
    simp
  | cons e rest ih =>
    obtain ⟨tx1,happend,h⟩ := bind_eq_ok.mp (show (tx.appendPageAt _ _ >>= _) = _ from h)
    obtain ⟨-,happend⟩ := guard_eq_ok.mp (show (if _ then _ else _) = _ from happend)
    cases happend
    rw [ih h]
    simp

theorem descriptor_flatten {kind : OverflowKind} {sum : Bytes} (hsum : sum.length = 32) (hlarge : inlineCommitValueLimit ≤ total)
    (hmax : total ≤ kind.maximum) (hwide : total < 256 ^ 8) (htwo : 2 ≤ page) (hpage : page < 256 ^ 8) :
    kind.descriptor [littleEndian 8 total,littleEndian 8 page,sum].flatten = .ok (total,page,sum) := by
  obtain ⟨hsplit,hlength⟩ := Logical.splitFields_descriptor total page hsum
  unfold OverflowKind.descriptor
  rw [hsplit]
  dsimp only
  rw [hlength,ofLittleEndian_littleEndian hwide,ofLittleEndian_littleEndian hpage,if_neg (by simp),if_neg]
  simp only [Bool.or_eq_true,decide_eq_true_eq]
  omega

-- SHA-256, of which only its length matters
variable (checksum : Bytes → Bytes) (kind : OverflowKind) (pages : ℕ → Option DataPage)

/-- The overflow pages of one type. -/
def overflowsOf (id : ℕ) : Option OverflowPage :=
  match pages id with
  | some ⟨_,_,.overflow pageKind payload link⟩ => if pageKind = kind then some ⟨link,payload⟩ else none
  | _ => none

/-- `loadOverflowValue`, `loadCommitValue` and `loadDocumentValue`; only a commit record may be empty. -/
def loadValue : Bytes → Except StorageError Bytes
  | [] => .error .corrupt
  | tag::body =>
    if tag = 0 then if kind ≠ .commit && body.length = 0 then .error .corrupt else .ok body
    else if tag ≠ 1 then .error .corrupt
    else do
      let (total,page,sum) ← kind.descriptor body
      let result ← Logical.loadChunks (overflowsOf kind pages) total (2 ^ 32) 0 0 [] page []
      if sum ≠ checksum result then .error .corrupt else .ok result

theorem stored_value_loads (hsum : ∀ v, (checksum v).length = 32) (value : Bytes) {free : List ℕ} {first : ℕ}
    (hpool : Pool free first) {tx tx' final : Storage.WriteTxn PageBody} (hd : Drawn free first tx) {descriptor : Bytes}
    (h : storeValue kind value (checksum value) tx = .ok (descriptor,tx')) (hlater : Later first tx' final)
    (hwords : ∀ w ∈ final.pages, w.1 ≤ maxUint64) (hpages : ∀ w ∈ final.pages, pages w.1 = some w.2) :
    loadValue checksum kind pages descriptor = .ok value := by
  unfold storeValue at h
  obtain ⟨hlimit,h⟩ := guard_eq_ok.mp h
  simp only [Bool.or_eq_true,Bool.and_eq_true,decide_eq_true_eq,not_or,not_and,not_lt] at hlimit
  split_ifs at h with hinline
  · cases h
    refine if_neg ?_
    simpa using hlimit.1
  obtain ⟨⟨ids,tx1⟩,hids,h⟩ := bind_eq_ok.mp h
  obtain ⟨tx2,hstage,h⟩ := bind_eq_ok.mp h
  cases h
  obtain ⟨-,-,-,hnodup,hlength,hgiven⟩ := allocatePageIDs_drawn hpool hd hids
  obtain ⟨added,hadded,-⟩ := hlater.pages
  -- every page of the chain stays staged, so a reader finds it
  have hwritten : ∀ e ∈ overflowPages value.length (overflowChunks value.length) 0 ids
      (pieces overflowChunkBytes (overflowChunks value.length) value),
      e.1 ≤ maxUint64 ∧ overflowsOf kind pages e.1 = some e.2 := by
    intro e he
    have hmem : (e.1,⟨tx1.generation,tx1.sequence,.overflow kind e.2.payload e.2.link⟩) ∈ final.pages := by
      rw [hadded,stagePages_pages hstage]
      exact mem_append_left _ (mem_append_right _ (mem_map.mpr ⟨e,he,rfl⟩))
    refine ⟨hwords _ hmem,?_⟩
    rw [overflowsOf,hpages _ hmem]
    exact if_pos rfl
  have hpagesFor : PagesFor ids value.length := by
    refine ⟨hlength,hnodup,fun id hid => (hgiven id hid).2.2,fun id hid => ?_⟩
    rw [← overflowPages_ids value.length (overflowChunks value.length) 0
      (hlength.trans (length_pieces overflowChunkBytes _ value).symm)] at hid
    obtain ⟨e,he,rfl⟩ := mem_map.mp hid
    exact (hwritten e he).1
  have hmax : value.length ≤ Logical.maxCommitValueBytes := hlimit.2.trans (by cases kind <;> decide)
  obtain ⟨hloaded,htwo,hfirst⟩ := Logical.loadChunks_store hpagesFor (by omega) hmax (fun e he => (hwritten e he).2)
  unfold loadValue
  dsimp only
  rw [if_neg (by decide),if_neg (by decide),
    descriptor_flatten (hsum value) (by omega) hlimit.2 (hmax.trans_lt (by decide)) htwo hfirst,ok_bind]
  dsimp only
  rw [hloaded,ok_bind,if_neg (by simp)]

set_option maxRecDepth 100000 in
theorem stored_value_loads_newFile : ∃ descriptor tx', tx'.pages.map fst = [2] ∧
    storeValue .system (replicate 8192 7) (replicate 32 0) (newFile.file.beginUpdate 1).toWriteTxn = .ok (descriptor,tx') ∧
    ∀ pages, (∀ w ∈ tx'.pages, pages w.1 = some w.2) →
      loadValue (fun _ => replicate 32 0) .system pages descriptor = .ok (replicate 8192 7) :=
  ⟨_,_,by decide +kernel,rfl,fun pages => stored_value_loads _ .system pages (fun _ => length_replicate) _
    ⟨.nil,nofun,le_rfl⟩ (show Drawn [] 2 (newFile.file.beginUpdate 1).toWriteTxn from drawn_start rfl rfl rfl rfl) rfl
    (.refl 2 _) (by decide +kernel)⟩

end Meldbase.Physical
