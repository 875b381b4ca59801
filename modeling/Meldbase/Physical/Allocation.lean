import Meldbase.Physical.Update

/-! # What a transaction writes

A transaction is given page numbers from the end of the free list and past the end
of the file.  All it stages stands on numbers it was given, each number is used
once, and what remains of the free list is a prefix of it.  So a published version
never shares a written page with what was in use before.
-/
namespace Meldbase.Physical
open List Prod Nat
open Storage (TreeKind TreeNode PageRef NodeRef MutableTree)
open Logical (OverflowPage overflowPages overflowPayload overflowChunks overflowChunkBytes)
open FixedWidth Framing Outcome

/-- Free pages are data pages of the file in ascending order. -/
structure Pool (free : List ℕ) (next : ℕ) : Prop where
  ascending : free.Pairwise (· < ·)
  inFile : ∀ p ∈ free, 2 ≤ p ∧ p < next
  two_le : 2 ≤ next

/-- The numbers a transaction was given: reused ones and those past the old end. -/
def Owns (next : ℕ) (tx : Storage.WriteTxn PageBody) (id : ℕ) : Prop :=
  id ∈ tx.reusedPages ∨ (next ≤ id ∧ id < tx.nextPage)

/-- The state of a transaction that started with the pool `free` and the end `next`. -/
structure Drawn (free : List ℕ) (next : ℕ) (tx : Storage.WriteTxn PageBody) : Prop where
  free_eq : free = tx.freePages ++ tx.reusedPages.reverse
  next_le : next ≤ tx.nextPage
  owned : ∀ w ∈ tx.pages, Owns next tx w.1
  distinct : (tx.pages.map fst).Nodup
  cut : ∀ w ∈ tx.pages, w.2.body.WellCut
  stamped : ∀ w ∈ tx.pages, w.2.generation = tx.generation

/-- A later state of the same transaction: what it was given stays its own, and what
it has staged since stands on numbers given since. -/
structure Later (next : ℕ) (tx tx' : Storage.WriteTxn PageBody) : Prop where
  generation : tx'.generation = tx.generation
  sequence : tx'.sequence = tx.sequence
  filePages : tx'.filePages = tx.filePages
  owns : ∀ id, Owns next tx id → Owns next tx' id
  pages : ∃ added, tx'.pages = tx.pages ++ added ∧ ∀ w ∈ added, ¬ Owns next tx w.1

section Transaction
variable {free : List ℕ} {next id : ℕ} {tx tx' tx'' : Storage.WriteTxn PageBody}

theorem Later.refl (next : ℕ) (tx : Storage.WriteTxn PageBody) : Later next tx tx :=
  ⟨rfl,rfl,rfl,fun _ h => h,[],(append_nil _).symm,fun _ h => absurd h not_mem_nil⟩

theorem Later.trans (h : Later next tx tx') (h' : Later next tx' tx'') : Later next tx tx'' := by
  obtain ⟨added,hadded,hfresh⟩ := h.pages
  obtain ⟨added',hadded',hfresh'⟩ := h'.pages
  refine ⟨h'.generation.trans h.generation,h'.sequence.trans h.sequence,h'.filePages.trans h.filePages,
    fun id hid => h'.owns id (h.owns id hid),added ++ added',?_,?_⟩
  · rw [hadded',hadded,append_assoc]
  intro w hw
  rcases mem_append.mp hw with hw | hw
  · exact hfresh w hw
  · exact fun hown => hfresh' w hw (h.owns w.1 hown)

theorem drawn_start (h : tx.pages = []) (hreused : tx.reusedPages = []) (hfree : tx.freePages = free)
    (hnext : tx.nextPage = next) : Drawn free next tx := by
  refine ⟨?_,hnext.ge,?_,?_,?_,?_⟩
  · rw [hfree,hreused,reverse_nil,append_nil]
  all_goals simp [h]

/-- A number handed out is new, and nothing is staged by it. -/
theorem allocatePageID_drawn (hpool : Pool free next) (hd : Drawn free next tx) (h : tx.allocatePageID = .ok (id,tx')) :
    Drawn free next tx' ∧ Later next tx tx' ∧ tx'.pages = tx.pages ∧ Owns next tx' id ∧ ¬ Owns next tx id ∧ 2 ≤ id := by
  obtain ⟨-,⟨rest,hrest,hlo,hhi,rfl⟩ | ⟨rfl,-,rfl⟩⟩ := Storage.WriteTxn.allocatePageID_cases h
  · have hfree : free = rest ++ (tx.reusedPages ++ [id]).reverse := by
      rw [hd.free_eq,hrest,reverse_append,reverse_singleton,append_assoc]
    have hmono : ∀ q, Owns next tx q →
        Owns next { tx with freePages := rest, reusedPages := tx.reusedPages ++ [id] } q := by
      rintro q (hq | hq)
      · exact .inl (mem_append_left _ hq)
      · exact .inr hq
    have hnew : ¬ Owns next tx id := by
      rintro (hq | ⟨hq,-⟩)
      · have hnd := (hpool.ascending.imp (fun h => h.ne) : free.Nodup)
        rw [hd.free_eq,hrest] at hnd
        exact (nodup_append.mp hnd).2.2 id (by simp) id (mem_reverse.mpr hq) rfl
      · have hin := hpool.inFile id (by rw [hd.free_eq,hrest]; simp)
        omega
    exact ⟨⟨hfree,hd.next_le,fun w hw => hmono _ (hd.owned w hw),hd.distinct,hd.cut,hd.stamped⟩,
      ⟨rfl,rfl,rfl,hmono,[],(append_nil _).symm,fun _ h => absurd h not_mem_nil⟩,rfl,
      .inl (mem_append_right _ mem_cons_self),hnew,hlo⟩
  have hmono : ∀ q, Owns next tx q → Owns next { tx with nextPage := tx.nextPage+1 } q := by
    rintro q (hq | hq)
    · exact .inl hq
    · exact .inr ⟨hq.1,lt_succ_of_lt hq.2⟩
  have hnew : ¬ Owns next tx tx.nextPage := by
    rintro (hq | ⟨-,hq⟩)
    · have hin := hpool.inFile tx.nextPage (by rw [hd.free_eq]; simp [hq])
      have hle := hd.next_le
      omega
    · omega
  have htwo := hpool.two_le.trans hd.next_le
  exact ⟨⟨hd.free_eq,le_succ_of_le hd.next_le,fun w hw => hmono _ (hd.owned w hw),hd.distinct,hd.cut,hd.stamped⟩,
    ⟨rfl,rfl,rfl,hmono,[],(append_nil _).symm,fun _ h => absurd h not_mem_nil⟩,rfl,
    .inr ⟨hd.next_le,lt_succ_self _⟩,hnew,htwo⟩

/-- Staging a page on a number that is given and not yet used. -/
theorem appendPageAt_drawn (hd : Drawn free next tx) (hown : Owns next tx id)
    (hunused : id ∉ tx.pages.map fst) (hcut : body.WellCut) (h : tx.appendPageAt id body = .ok tx') :
    Drawn free next tx' ∧ tx'.pages = tx.pages ++ [(id,⟨tx.generation,tx.sequence,body⟩)] ∧
      tx'.generation = tx.generation ∧ tx'.sequence = tx.sequence ∧ tx'.filePages = tx.filePages ∧
      ∀ q, Owns next tx' q ↔ Owns next tx q := by
  unfold Storage.WriteTxn.appendPageAt at h
  obtain ⟨-,h⟩ := guard_eq_ok.mp h
  cases h
  refine ⟨⟨hd.free_eq,hd.next_le,?_,?_,?_,?_⟩,rfl,rfl,rfl,rfl,fun q => Iff.rfl⟩
  · intro w hw
    rcases mem_append.mp hw with hw | hw
    · exact hd.owned w hw
    · rw [mem_singleton.mp hw]
      exact hown
  · rw [map_append,nodup_append]
    refine ⟨hd.distinct,nodup_singleton _,?_⟩
    rintro a ha b hb rfl
    have heq : a = id := mem_singleton.mp hb
    exact hunused (heq ▸ ha)
  · intro w hw
    rcases mem_append.mp hw with hw | hw
    · exact hd.cut w hw
    · rw [mem_singleton.mp hw]
      exact hcut
  intro w hw
  rcases mem_append.mp hw with hw | hw
  · exact hd.stamped w hw
  · rw [mem_singleton.mp hw]

theorem Drawn.unused (hd : Drawn free next tx) (hnew : ¬ Owns next tx id) : id ∉ tx.pages.map fst := by
  intro hmem
  obtain ⟨w,hw,rfl⟩ := mem_map.mp hmem
  exact hnew (hd.owned w hw)

theorem appendPage_drawn (hpool : Pool free next) (hd : Drawn free next tx) (hcut : body.WellCut)
    (h : tx.appendPage body = .ok (id,tx')) : Drawn free next tx' ∧ Later next tx tx' := by
  unfold Storage.WriteTxn.appendPage at h
  obtain ⟨⟨q,tx1⟩,halloc,h⟩ := bind_eq_ok.mp h
  obtain ⟨tx2,happend,h⟩ := bind_eq_ok.mp h
  cases h
  obtain ⟨hd1,hlater,hpages,hown,hnew,-⟩ := allocatePageID_drawn hpool hd halloc
  obtain ⟨hd2,hstaged,hgen,hseq,hfile,howns⟩ :=
    appendPageAt_drawn hd1 hown (by rw [hpages]; exact hd.unused hnew) hcut happend
  refine ⟨hd2,hgen.trans hlater.generation,hseq.trans hlater.sequence,hfile.trans hlater.filePages,
    fun q hq => (howns q).mpr (hlater.owns q hq),_,by rw [hstaged,hpages],?_⟩
  intro w hw
  rw [mem_singleton.mp hw]
  exact hnew

theorem writeNode_drawn (hpool : Pool free next)
    (hd : Drawn free next tx) (h : pageCodec.writeNode kind tx node = .ok (page,tx')) :
    Drawn free next tx' ∧ Later next tx tx' := by
  unfold Storage.TreeCodec.writeNode at h
  obtain ⟨_,-,h⟩ := bind_eq_ok.mp h
  obtain ⟨⟨q,tx1⟩,happend,h⟩ := bind_eq_ok.mp h
  cases h
  have hcut : (PageBody.node kind node).WellCut := trivial
  exact appendPage_drawn hpool hd hcut happend

theorem flushChildren_drawn
    {write : Storage.WriteTxn PageBody → NodeRef Bytes Value → Except StorageError (PageRef × Storage.WriteTxn PageBody)}
    (hwrite : ∀ {tx tx' : Storage.WriteTxn PageBody} {ref page}, Drawn free next tx → write tx ref = .ok (page,tx') →
      Drawn free next tx' ∧ Later next tx tx')
    (hd : Drawn free next tx)
    (h : Storage.TreeCodec.flushChildren write tx children = .ok (pages,tx')) :
    Drawn free next tx' ∧ Later next tx tx' := by
  induction children generalizing tx pages with
  | nil =>
    cases h
    exact ⟨hd,.refl next _⟩
  | cons child children ih =>
    unfold Storage.TreeCodec.flushChildren at h
    obtain ⟨⟨page,tx1⟩,hpage,h⟩ := bind_eq_ok.mp h
    obtain ⟨⟨rest,tx2⟩,hrest,h⟩ := bind_eq_ok.mp h
    cases h
    obtain ⟨hd1,hlater1⟩ := hwrite hd hpage
    obtain ⟨hd2,hlater2⟩ := ih hd1 hrest
    exact ⟨hd2,hlater1.trans hlater2⟩

theorem flush_drawn (hpool : Pool free next)
    (hd : Drawn free next tx) (h : pageCodec.flush kind depth tx ref = .ok (page,tx')) :
    Drawn free next tx' ∧ Later next tx tx' := by
  induction depth generalizing tx tx' ref page with
  | zero =>
    cases ref with
    | stored p =>
      rw [Storage.TreeCodec.flush] at h
      cases h
      exact ⟨hd,.refl next tx⟩
    | loaded node =>
      rw [Storage.TreeCodec.flush] at h
      cases h
  | succ depth ih =>
    cases ref with
    | stored p =>
      rw [Storage.TreeCodec.flush] at h
      cases h
      exact ⟨hd,.refl next tx⟩
    | loaded node =>
      cases node with
      | leaf entries count =>
        rw [Storage.TreeCodec.flush] at h
        exact writeNode_drawn hpool hd h
      | branch keys children count =>
        rw [Storage.TreeCodec.flush] at h
        obtain ⟨⟨pages,tx1⟩,hpages,h⟩ := bind_eq_ok.mp h
        obtain ⟨hd1,hlater1⟩ := flushChildren_drawn ih hd hpages
        obtain ⟨hd2,hlater2⟩ := writeNode_drawn hpool hd1 h
        exact ⟨hd2,hlater1.trans hlater2⟩

/-! ### Long values -/

theorem allocatePageIDs_drawn {count : ℕ} (hpool : Pool free next) (hd : Drawn free next tx)
    (h : allocatePageIDs count tx = .ok (ids,tx')) :
    Drawn free next tx' ∧ Later next tx tx' ∧ tx'.pages = tx.pages ∧ ids.Nodup ∧ ids.length = count ∧
      ∀ id ∈ ids, Owns next tx' id ∧ ¬ Owns next tx id ∧ 2 ≤ id := by
  induction count generalizing tx ids with
  | zero =>
    cases h
    exact ⟨hd,.refl next _,rfl,nodup_nil,rfl,fun _ hid => absurd hid not_mem_nil⟩
  | succ count ih =>
    unfold allocatePageIDs at h
    obtain ⟨⟨id,tx1⟩,halloc,h⟩ := bind_eq_ok.mp h
    obtain ⟨⟨rest,tx2⟩,hrest,h⟩ := bind_eq_ok.mp h
    cases h
    obtain ⟨hd1,hlater1,hpages1,hown,hnew,htwo⟩ := allocatePageID_drawn hpool hd halloc
    obtain ⟨hd2,hlater2,hpages2,hnodup,hlength,hids⟩ := ih hd1 hrest
    refine ⟨hd2,hlater1.trans hlater2,hpages2.trans hpages1,nodup_cons.mpr ⟨fun hmem => (hids id hmem).2.1 hown,hnodup⟩,
      by rw [length_cons,hlength],forall_mem_cons.mpr ⟨⟨hlater2.owns id hown,hnew,htwo⟩,?_⟩⟩
    exact fun q hq => ⟨(hids q hq).1,fun hown => (hids q hq).2.1 (hlater1.owns q hown),(hids q hq).2.2⟩

theorem stagePages_drawn (hd : Drawn free next tx)
    (hown : ∀ e ∈ pages, Owns next tx e.1) (hunused : ∀ e ∈ pages, e.1 ∉ tx.pages.map fst)
    (hnodup : (pages.map fst).Nodup)
    (hcut : ∀ e ∈ pages, (PageBody.overflow kind e.2.payload e.2.link).WellCut) (h : stagePages kind pages tx = .ok tx') :
    Drawn free next tx' ∧ (∃ added, tx'.pages = tx.pages ++ added ∧ ∀ w ∈ added, w.1 ∈ pages.map fst) ∧
      tx'.generation = tx.generation ∧ tx'.sequence = tx.sequence ∧ tx'.filePages = tx.filePages ∧
      ∀ q, Owns next tx' q ↔ Owns next tx q := by
  induction pages generalizing tx with
  | nil =>
    cases h
    exact ⟨hd,⟨[],(append_nil _).symm,fun _ hw => absurd hw not_mem_nil⟩,rfl,rfl,rfl,fun _ => Iff.rfl⟩
  | cons e pages ih =>
    unfold stagePages at h
    obtain ⟨tx1,happend,h⟩ := bind_eq_ok.mp h
    obtain ⟨howne,hown⟩ := forall_mem_cons.mp hown
    obtain ⟨hunusede,hunused⟩ := forall_mem_cons.mp hunused
    obtain ⟨hcute,hcut⟩ := forall_mem_cons.mp hcut
    rw [map_cons,nodup_cons] at hnodup
    obtain ⟨hd1,hpages1,hgen1,hseq1,hfile1,howns1⟩ := appendPageAt_drawn hd howne hunusede hcute happend
    have hunused1 : ∀ e' ∈ pages, e'.1 ∉ tx1.pages.map fst := by
      intro e' he' hmem
      rw [hpages1,map_append] at hmem
      rcases mem_append.mp hmem with hmem | hmem
      · exact hunused e' he' hmem
      · exact hnodup.1 (mem_singleton.mp hmem ▸ mem_map_of_mem he')
    obtain ⟨hd2,⟨added,hadded,hids⟩,hgen2,hseq2,hfile2,howns2⟩ :=
      ih hd1 (fun e' he' => (howns1 e'.1).mpr (hown e' he')) hunused1 hnodup.2 hcut h
    refine ⟨hd2,⟨_::added,by rw [hadded,hpages1,append_assoc,singleton_append],?_⟩,hgen2.trans hgen1,
      hseq2.trans hseq1,hfile2.trans hfile1,fun q => (howns2 q).trans (howns1 q)⟩
    exact forall_mem_cons.mpr ⟨mem_cons_self,fun w hw => mem_cons_of_mem _ (hids w hw)⟩

theorem overflowPages_ids (total chunks index : ℕ) {pieces : List Bytes}
    (h : ids.length = pieces.length) : (overflowPages total chunks index ids pieces).map fst = ids := by
  induction ids generalizing index pieces with
  | nil => rfl
  | cons id ids ih =>
    cases pieces with
    | nil => cases h
    | cons piece rest => rw [overflowPages,map_cons,ih _ (Nat.succ.inj h)]

theorem overflowPayload_parts (chunks : ℕ) (piece : Bytes) (htotal : total < 256 ^ 8) (hindex : index < 256 ^ 4) :
    ofLittleEndian ((overflowPayload total index chunks piece).take 8) = total ∧
      ofLittleEndian (((overflowPayload total index chunks piece).drop 8).take 4) = index ∧
      (overflowPayload total index chunks piece).drop 16 = piece := by
  have hwidths : [littleEndian 8 total,littleEndian 4 index,littleEndian 4 chunks].map List.length = [8,4,4] := by
    simp
  have hsplit := splitFields_flatten hwidths piece
  simp only [splitFields,List.cons.injEq] at hsplit
  refine ⟨?_,?_,drop_fields hwidths piece⟩
  · rw [overflowPayload,hsplit.1,ofLittleEndian_littleEndian htotal]
  · rw [overflowPayload,hsplit.2.1,ofLittleEndian_littleEndian hindex]

/-- Pieces of one size that together leave data for a last one are full. -/
theorem overflowPages_cut {total chunks index count : ℕ}
    (hids : ids.length = count) (hrest : index*overflowChunkBytes+rest.length = total)
    (hcount : count*overflowChunkBytes < rest.length+overflowChunkBytes) (htotal : total < 256 ^ 8)
    (hindex : index+count < 256 ^ 4) :
    ∀ e ∈ overflowPages total chunks index ids (pieces overflowChunkBytes count rest),
      (PageBody.overflow kind e.2.payload e.2.link).WellCut := by
  induction count generalizing index ids rest with
  | zero =>
    rw [length_eq_zero_iff.mp hids]
    exact fun _ he => absurd he not_mem_nil
  | succ count ih =>
    obtain ⟨id,ids,rfl⟩ := exists_cons_of_length_eq_add_one hids
    rw [length_cons,add_right_cancel_iff] at hids
    rw [succ_mul] at hcount
    rw [pieces,overflowPages]
    refine forall_mem_cons.mpr ⟨?_,?_⟩
    · intro hlink
      obtain ⟨hlen,hidx,hdata⟩ := overflowPayload_parts chunks (rest.take overflowChunkBytes) htotal
        (show index < 256 ^ 4 by omega)
      dsimp only at hlink ⊢
      -- a page with a successor leaves at least one more piece
      have hmore : 0 < count := by
        cases ids with
        | nil => exact absurd rfl hlink
        | cons q qs =>
          rw [length_cons] at hids
          omega
      have hone := Nat.le_mul_of_pos_left overflowChunkBytes hmore
      refine ⟨?_,?_⟩
      · rw [hdata,length_take]
        omega
      · rw [hlen,hidx,succ_mul]
        omega
    have hdrop : (rest.drop overflowChunkBytes).length = rest.length - overflowChunkBytes := length_drop
    by_cases hzero : count = 0
    · subst hzero
      rw [length_eq_zero_iff.mp hids]
      exact fun _ he => absurd he not_mem_nil
    have hone := Nat.le_mul_of_pos_left overflowChunkBytes (Nat.pos_of_ne_zero hzero)
    refine ih hids ?_ (by rw [hdrop]; omega) (by omega)
    rw [hdrop,succ_mul]
    omega

theorem storeValue_drawn {kind : OverflowKind} {value sum descriptor : Bytes} (hpool : Pool free next)
    (hd : Drawn free next tx) (h : storeValue kind value sum tx = .ok (descriptor,tx')) :
    Drawn free next tx' ∧ Later next tx tx' := by
  unfold storeValue at h
  obtain ⟨hlimit,h⟩ := guard_eq_ok.mp h
  split_ifs at h with hinline
  · cases h
    exact ⟨hd,.refl next tx⟩
  obtain ⟨⟨ids,tx1⟩,hids,h⟩ := bind_eq_ok.mp h
  obtain ⟨tx2,hstage,h⟩ := bind_eq_ok.mp h
  cases h
  obtain ⟨hd1,hlater1,hpages1,hnodup,hlength,hgiven⟩ := allocatePageIDs_drawn hpool hd hids
  have hmax : value.length ≤ 67108864 := by
    simp only [Bool.or_eq_true,decide_eq_true_eq,not_or,not_lt] at hlimit
    exact hlimit.2.trans (by cases kind <;> decide)
  have hchunk : overflowChunkBytes = 16304 := by decide
  have hchunks : overflowChunks value.length = (value.length+16303) / 16304 := by
    rw [overflowChunks,hchunk]
    rfl
  have hcount : overflowChunks value.length*overflowChunkBytes < value.length+overflowChunkBytes := by
    rw [hchunks,hchunk]
    omega
  have hmap := overflowPages_ids value.length (overflowChunks value.length) 0
    (hlength.trans (length_pieces overflowChunkBytes _ value).symm)
  have hfst : ∀ e ∈ overflowPages value.length (overflowChunks value.length) 0 ids
      (pieces overflowChunkBytes (overflowChunks value.length) value), e.1 ∈ ids :=
    fun e he => hmap ▸ mem_map_of_mem he
  obtain ⟨hd2,⟨added,hadded,haddedids⟩,hgen,hseq,hfile,howns⟩ :=
    stagePages_drawn hd1 (fun e he => (hgiven e.1 (hfst e he)).1)
    (fun e he => by rw [hpages1]; exact hd.unused (hgiven e.1 (hfst e he)).2.1) (hmap.symm ▸ hnodup)
    (overflowPages_cut hlength (by omega) hcount (by omega) (by rw [hchunks]; omega)) hstage
  refine ⟨hd2,hgen.trans hlater1.generation,hseq.trans hlater1.sequence,hfile.trans hlater1.filePages,
    fun q hq => (howns q).mpr (hlater1.owns q hq),added,by rw [hadded,hpages1],?_⟩
  exact fun w hw => (hgiven w.1 (hmap ▸ haddedids w hw)).2.1

end Transaction

/-! ### The whole update -/

section Update
variable {free : List ℕ} {next : ℕ} {tx tx' : WriteTxn}

/-- What a callback leaves of the fields it has no access to. -/
structure SameBase (tx tx' : WriteTxn) : Prop where
  baseRoot : tx'.baseRoot = tx.baseRoot
  tracked : tx'.freeSpaceTracked = tx.freeSpaceTracked
  rebuild : tx'.freeSpaceRebuild = tx.freeSpaceRebuild

theorem run_drawn {α : Type} {pages : ℕ → Option DataPage} {build : Build α} {a : α}
    (hpool : Pool free next) (hd : Drawn free next tx.toWriteTxn) (h : build.run pages tx cache = (.ok (a,tx'),cache')) :
    Drawn free next tx'.toWriteTxn ∧ Later next tx.toWriteTxn tx'.toWriteTxn ∧ SameBase tx tx' := by
  induction build generalizing tx cache with
  | done b =>
    cases h
    exact ⟨hd,.refl next _,⟨rfl,rfl,rfl⟩⟩
  | fail e => cases h
  | read pageID next ih => exact ih _ hd h
  | appendNode kind node next ih =>
    unfold Build.run at h
    cases hwrite : pageCodec.writeNode kind tx.toWriteTxn node with
    | error e =>
      rw [hwrite] at h
      cases h
    | ok found =>
      obtain ⟨page,staged⟩ := found
      rw [hwrite] at h
      obtain ⟨hd1,hlater1⟩ := writeNode_drawn hpool hd hwrite
      obtain ⟨hd2,hlater2,hbase⟩ := ih page hd1 h
      exact ⟨hd2,hlater1.trans hlater2,hbase.baseRoot,hbase.tracked,hbase.rebuild⟩
  | storeValue kind value sum next ih =>
    unfold Build.run at h
    cases hstore : Physical.storeValue kind value sum tx.toWriteTxn with
    | error e =>
      rw [hstore] at h
      cases h
    | ok found =>
      obtain ⟨descriptor,staged⟩ := found
      rw [hstore] at h
      obtain ⟨hd1,hlater1⟩ := storeValue_drawn hpool hd hstore
      obtain ⟨hd2,hlater2,hbase⟩ := ih descriptor hd1 h
      exact ⟨hd2,hlater1.trans hlater2,hbase.baseRoot,hbase.tracked,hbase.rebuild⟩
  | require feature next ih =>
    unfold Build.run at h
    cases hrequire : tx.requireFeature feature with
    | error e =>
      rw [hrequire] at h
      cases h
    | ok tx1 =>
      rw [hrequire] at h
      obtain ⟨-,hset⟩ := guard_eq_ok.mp (show (if _ then _ else _) = _ from hrequire)
      cases hset
      obtain ⟨hd2,hlater,hbase⟩ := ih (by exact hd) h
      exact ⟨hd2,hlater,hbase.baseRoot,hbase.tracked,hbase.rebuild⟩
  | retain bytes next ih =>
    unfold Build.run at h
    obtain ⟨hd2,hlater,hbase⟩ := ih (by exact hd) h
    exact ⟨hd2,hlater,hbase.baseRoot,hbase.tracked,hbase.rebuild⟩
  | changeBuilds next ih =>
    unfold Build.run at h
    obtain ⟨hd2,hlater,hbase⟩ := ih (by exact hd) h
    exact ⟨hd2,hlater,hbase.baseRoot,hbase.tracked,hbase.rebuild⟩

theorem finalizeFreeSpace_drawn (hpool : Pool free next)
    (hd : Drawn free next tx.toWriteTxn) (h : tx.finalizeFreeSpace root = .ok (tx',root')) :
    Drawn free next tx'.toWriteTxn ∧ Later next tx.toWriteTxn tx'.toWriteTxn ∧ SameBase tx tx' := by
  unfold WriteTxn.finalizeFreeSpace at h
  split_ifs at h
  · cases h
    exact ⟨hd,.refl next _,⟨rfl,rfl,rfl⟩⟩
  · cases h
    exact ⟨hd,.refl next _,⟨rfl,rfl,rfl⟩⟩
  · cases h
    exact ⟨hd,.refl next _,⟨rfl,rfl,rfl⟩⟩
  obtain ⟨tree,-,h⟩ := bind_eq_ok.mp h
  obtain ⟨filled,-,h⟩ := bind_eq_ok.mp h
  obtain ⟨⟨freeSpaceRoot,flushed,_⟩,hflush,h⟩ := bind_eq_ok.mp h
  cases h
  unfold MutableTree.flush at hflush
  obtain ⟨⟨page,tx1⟩,hpage,hret⟩ := bind_eq_ok.mp hflush
  cases hret
  -- the allocation flag is the only field that changes around the flush
  have hstart : Drawn free next { tx.toWriteTxn with metadataAllocation := true } :=
    ⟨hd.free_eq,hd.next_le,hd.owned,hd.distinct,hd.cut,hd.stamped⟩
  obtain ⟨hd1,hlater1⟩ := flush_drawn hpool hstart hpage
  exact ⟨⟨hd1.free_eq,hd1.next_le,hd1.owned,hd1.distinct,hd1.cut,hd1.stamped⟩,
    ⟨hlater1.generation,hlater1.sequence,hlater1.filePages,hlater1.owns,hlater1.pages⟩,⟨rfl,rfl,rfl⟩⟩

/-- What is ready to be written: every page on a number of its own. -/
structure Fresh (free : List ℕ) (next stamp : ℕ) (p : Prepared) : Prop where
  drawn : Drawn free next p.tx.toWriteTxn
  generation : p.tx.generation = stamp
  owned : ∀ w ∈ p.writes, Owns next p.tx.toWriteTxn w.1
  distinct : (p.writes.map fst).Nodup
  cut : ∀ w ∈ p.writes, w.2.body.WellCut
  stamped : ∀ w ∈ p.writes, w.2.generation = stamp
  two_le : 2 ≤ p.rootPageID

theorem prepare_fresh (hpool : Pool free next)
    (hd : Drawn free next tx.toWriteTxn) (h : tx.prepare root = .ok p) : Fresh free next tx.generation p := by
  unfold WriteTxn.prepare at h
  obtain ⟨-,h⟩ := guard_eq_ok.mp h
  obtain ⟨⟨rootPageID,allocated⟩,halloc,h⟩ := bind_eq_ok.mp h
  obtain ⟨⟨tx2,root2⟩,hfinal,h⟩ := bind_eq_ok.mp h
  obtain ⟨rootPage,hencode,h⟩ := bind_eq_ok.mp h
  cases h
  obtain ⟨hd1,hlater1,hpages1,hown,hnew,htwo⟩ := allocatePageID_drawn hpool hd halloc
  obtain ⟨hd2,hlater2,-⟩ := finalizeFreeSpace_drawn hpool
    (show Drawn free next ({ tx with toWriteTxn := allocated } : WriteTxn).toWriteTxn from hd1) hfinal
  obtain ⟨rfl,-,-⟩ := encodeDatabaseRoot_ok hencode
  have hgen : tx2.generation = tx.generation := hlater2.generation.trans hlater1.generation
  obtain ⟨added,hadded,hfresh⟩ := hlater2.pages
  -- the root page was given before the free-space pages and is not among the staged ones
  have hunused : rootPageID ∉ tx2.pages.map fst := by
    rw [hadded,map_append]
    intro hmem
    rcases mem_append.mp hmem with hmem | hmem
    · exact hd.unused hnew (hpages1 ▸ hmem)
    · obtain ⟨w,hw,hwid⟩ := mem_map.mp hmem
      exact hfresh w hw (hwid.symm ▸ hown)
  refine ⟨hd2,hgen,?_,?_,?_,?_,htwo⟩
  · intro w hw
    rcases mem_append.mp hw with hw | hw
    · exact hd2.owned w hw
    · rw [mem_singleton.mp hw]
      exact hlater2.owns _ hown
  · unfold Prepared.writes
    rw [map_append,nodup_append]
    refine ⟨hd2.distinct,nodup_singleton _,?_⟩
    rintro a ha b hb rfl
    have heq : a = rootPageID := mem_singleton.mp hb
    exact hunused (heq ▸ ha)
  · intro w hw
    rcases mem_append.mp hw with hw | hw
    · exact hd2.cut w hw
    · rw [mem_singleton.mp hw]
      trivial
  intro w hw
  rcases mem_append.mp hw with hw | hw
  · exact (hd2.stamped w hw).trans hgen
  · rw [mem_singleton.mp hw]
    exact hgen

end Update
end Meldbase.Physical
