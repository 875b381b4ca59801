import Meldbase.Database.QueryDelta
import Meldbase.Database.WireValue

/-! # Realtime frames

A snapshot or a delta is charged item by item against the frame limit, less a fixed
reserve for the ids and resume tokens around the items.  The frame itself is measured
again when it is queued, and one over the limit ends the session: items that fill the
budget do so whenever the ids and tokens need more than the reserve.
-/
namespace Meldbase.Server
open List Option
open Database Unicode Decimal ByteText Logical

def realtimeEnvelopeBytes : ℕ := 512

abbrev WireTree := Json Bytes
def WireTree.size (j : WireTree) : ℕ := (utf8 (j.print goQuote)).length

/-! ### Resume tokens -/

structure ResumeClaims where
  database : DocumentID
  (actor workspace collection policyVersion : Bytes)
  queryHash : Bytes
  (position expires : ℕ)

def ResumeClaims.tree (c : ResumeClaims) : WireTree :=
  .object [(utf8 ['v'],.number ['1']),(utf8 ['d','b'],.string (utf8 (hexEncode c.database.val))),
    (utf8 ['s','u','b'],.string c.actor),(utf8 ['w','o','r','k','s','p','a','c','e'],.string c.workspace),
    (utf8 ['c','o','l','l','e','c','t','i','o','n'],.string c.collection),
    (utf8 ['q','u','e','r','y'],.string (utf8 (hexEncode c.queryHash))),
    (utf8 ['p','o','l','i','c','y'],.string c.policyVersion),
    (utf8 ['p','o','s','i','t','i','o','n'],.number (natDigits c.position)),
    (utf8 ['e','x','p','i','r','e','s'],.number (natDigits c.expires))]

def rawURLEncode (b : Bytes) : List Char :=
  ((base64Encode b).filter (· ≠ '=')).map fun c => if c = '+' then '-' else if c = '/' then '_' else c

def issue (sign : Bytes → Bytes) (c : ResumeClaims) : Option Bytes :=
  if c.policyVersion = [] ∨ 128 < c.policyVersion.length ∨ 512 < c.actor.length ∨ 512 < c.workspace.length then none
  else
    let payload := utf8 (c.tree.print goQuote)
    some (utf8 (rawURLEncode payload ++ '.' :: rawURLEncode (sign payload)))

/-! ### Frames -/

def operationName : QueryDeltaOperationKind → List Char
  | .remove => ['r','e','m','o','v','e']
  | .add => ['a','d','d','_','b','e','f','o','r','e']
  | .move => ['m','o','v','e','_','b','e','f','o','r','e']
  | .change => ['c','h','a','n','g','e']

def wireDocument (d : Document) : Option WireTree := if d.validate then encodeWireValue (.object d) else none

/-- The tree of one operation of a delta; a snapshot's items are its documents. -/
def wireOperation (operation : QueryDeltaOperation) : Option WireTree :=
  let before := if operation.beforeID.isZero then []
    else [(utf8 ['b','e','f','o','r','e'],.string (utf8 (hexEncode operation.beforeID.val)))]
  let rest := [(utf8 ['i','d'],.string (utf8 (hexEncode operation.documentID.val))),
    (utf8 ['o','p'],.string (utf8 (operationName operation.kind)))]
  match operation.document with
  | none => some (.object (before ++ rest))
  | some d => (wireDocument d).map fun document =>
      .object (before ++ (utf8 ['d','o','c','u','m','e','n','t'],document) :: rest)

def chargeItem (limit used : ℕ) (item : WireTree) : Option ℕ :=
  if limit < used + item.size + 1 then none else some (used + item.size + 1)

def chargeItems (limit : ℕ) (items : List WireTree) : Option ℕ :=
  if limit ≤ realtimeEnvelopeBytes then none else items.foldlM (chargeItem (limit - realtimeEnvelopeBytes)) 0

/-- What surrounds the items; a delta also names the token it starts from. -/
structure Envelope where
  (requestID subscriptionID token : Bytes)
  fromToken : Option Bytes

def Envelope.frame (e : Envelope) (items : List WireTree) : WireTree :=
  let members (kind : List Char) : List (Bytes × WireTree) :=
    [(utf8 ['r','e','q','u','e','s','t','I','d'],.string e.requestID),
      (utf8 ['s','u','b','s','c','r','i','p','t','i','o','n','I','d'],.string e.subscriptionID),
      (utf8 ['t','o','k','e','n'],.string e.token),(utf8 ['t','y','p','e'],.string (utf8 kind)),(utf8 ['v'],.number ['1'])]
  .object (match e.fromToken with
    | none => (utf8 ['d','o','c','u','m','e','n','t','s'],.array items) :: members ['s','n','a','p','s','h','o','t']
    | some start => (utf8 ['f','r','o','m','T','o','k','e','n'],.string start) ::
        (utf8 ['o','p','e','r','a','t','i','o','n','s'],.array items) :: members ['d','e','l','t','a'])

inductive SendResult where
  | refused
  | cancelled
  | queued
  deriving DecidableEq

def sendItems (limit : ℕ) (e : Envelope) (items : List WireTree) : SendResult :=
  match chargeItems limit items with
  | none => .refused
  | some _ => if limit < (e.frame items).size then .cancelled else .queued

def charge (items : List WireTree) : ℕ := (items.map fun item => item.size + 1).sum

theorem chargeItems_eq (h : chargeItems limit items = some used) :
    used = charge items ∧ used ≤ limit - realtimeEnvelopeBytes ∧ realtimeEnvelopeBytes < limit := by
  unfold chargeItems at h
  split_ifs at h with hlimit
  have hfold : ∀ {start : ℕ}, start ≤ limit - realtimeEnvelopeBytes →
      items.foldlM (chargeItem (limit - realtimeEnvelopeBytes)) start = some used →
      used = start + charge items ∧ used ≤ limit - realtimeEnvelopeBytes := by
    clear h
    induction items with
    | nil =>
      intro start hstart h
      cases h
      exact ⟨by simp [charge],hstart⟩
    | cons item items ih =>
      intro start hstart h
      rw [foldlM_cons] at h
      obtain ⟨next,hnext,h⟩ := bind_eq_some_iff.mp h
      unfold chargeItem at hnext
      split_ifs at hnext with hover
      cases hnext
      obtain ⟨hused,hle⟩ := ih (not_lt.mp hover) h
      exact ⟨by rw [hused]; simp [charge,Nat.add_assoc],hle⟩
  obtain ⟨hused,hle⟩ := hfold (Nat.zero_le _) h
  exact ⟨by simpa using hused,hle,not_le.mp hlimit⟩

theorem utf8_append (a b : List Char) : utf8 (a ++ b) = utf8 a ++ utf8 b := flatMap_append

theorem utf8_cons (c : Char) (text : List Char) : utf8 (c :: text) = utf8Bytes c.toNat ++ utf8 text := flatMap_cons

theorem length_printMoreItems (items : List WireTree) :
    (utf8 (Json.printMoreItems goQuote items)).length = charge items + 1 := by
  induction items with
  | nil => rfl
  | cons item items ih =>
    rw [Json.printMoreItems,utf8_cons,utf8_append,length_append,length_append,ih]
    simp [charge,WireTree.size,utf8Bytes]
    omega

theorem length_printItems (items : List WireTree) : (utf8 (Json.printItems goQuote items)).length = max (charge items) 1 := by
  cases items with
  | nil => rfl
  | cons item items =>
    rw [Json.printItems,utf8_append,length_append,length_printMoreItems]
    simp [charge,WireTree.size]
    omega

/-! ### Around the items -/

def quotedLength (s : Bytes) : ℕ := (utf8 (goQuote s)).length

/-- An ASCII character that JSON strings hold as it is. -/
def plain (c : Char) : Bool := c.toNat < 0x80 ∧ goEscape c = [c]

theorem runes_plain (h : text.all plain) : runes (utf8 text) = text.map some ∧ (utf8 text).length = text.length := by
  induction text with
  | nil => exact ⟨rfl,rfl⟩
  | cons c text ih =>
    rw [all_cons,Bool.and_eq_true] at h
    obtain ⟨hrunes,hlength⟩ := ih h.2
    have hc : c.toNat < 0x80 := (of_decide_eq_true h.1).1
    have hbyte : utf8Bytes c.toNat = [Fin.ofNat 256 c.toNat] := if_pos hc
    have hval : (Fin.ofNat 256 c.toNat).val = c.toNat := Nat.mod_eq_of_lt (by omega)
    have hrune : decodeRune (Fin.ofNat 256 c.toNat) (utf8 text) = some (c.toNat,0) := by
      unfold decodeRune
      rw [hval,if_pos hc]
    rw [utf8_cons,hbyte,singleton_append,length_cons,length_cons,hlength,map_cons,← hrunes]
    refine ⟨?_,rfl⟩
    rw [runes,runesFrom,hrune]
    dsimp only
    rw [Char.ofNat_toNat]
    rfl

theorem quotedLength_plain (h : text.all plain) : quotedLength (utf8 text) = text.length + 2 := by
  have hescape : (text.map some).flatMap (fun rune => rune.elim (Json.unicodeEscape 0xfffd) goEscape) = text := by
    rw [flatMap_map]
    refine (flatMap_congr fun c hc => ?_).trans (flatMap_singleton' text)
    exact (of_decide_eq_true (all_eq_true.mp h c hc)).2
  rw [quotedLength,goQuote,(runes_plain h).1,hescape,utf8_cons,utf8_append]
  simp only [length_append,(runes_plain h).2]
  rw [show (utf8Bytes '"'.toNat).length = 1 from rfl,show (utf8 ['"']).length = 1 from rfl]
  omega

theorem length_printMoreMembers (members : List (Bytes × WireTree)) : (utf8 (Json.printMoreMembers goQuote members)).length =
    (members.map fun m => quotedLength m.1 + m.2.size + 2).sum + 1 := by
  induction members with
  | nil => rfl
  | cons m members ih =>
    rw [Json.printMoreMembers,utf8_cons,utf8_append,utf8_cons,utf8_append]
    simp only [length_append,ih,map_cons,sum_cons,quotedLength,WireTree.size]
    simp [utf8Bytes]
    omega

theorem size_object (m : Bytes × WireTree) (members : List (Bytes × WireTree)) : WireTree.size (.object (m :: members)) =
    ((m :: members).map fun m => quotedLength m.1 + m.2.size + 2).sum + 1 := by
  rw [WireTree.size,Json.print,Json.printMembers,utf8_cons,utf8_append,utf8_cons,utf8_append]
  simp only [length_append,length_printMoreMembers,map_cons,sum_cons,quotedLength,WireTree.size]
  simp [utf8Bytes]
  omega

theorem size_array (items : List WireTree) : WireTree.size (.array items) = max (charge items) 1 + 1 := by
  rw [WireTree.size,Json.print,utf8_cons,length_append,length_printItems]
  simp [utf8Bytes]
  omega

/-- The bytes of a frame that no item is charged for. -/
def Envelope.overhead (e : Envelope) : ℕ :=
  quotedLength e.requestID + quotedLength e.subscriptionID + quotedLength e.token +
    e.fromToken.elim 79 fun start => quotedLength start + 90

theorem Envelope.size_frame (e : Envelope) (items : List WireTree) :
    (e.frame items).size = e.overhead + max (charge items) 1 := by
  have hstring (s : Bytes) : WireTree.size (.string s) = quotedLength s := rfl
  have hversion : WireTree.size (.number ['1']) = 1 := rfl
  unfold Envelope.frame Envelope.overhead
  cases e.fromToken with
  | none =>
    simp (disch := decide) only [size_object,map_cons,map_nil,sum_cons,sum_nil,size_array,hstring,hversion,
      Option.elim_none,quotedLength_plain,length_cons,length_nil]
    omega
  | some start =>
    simp (disch := decide) only [size_object,map_cons,map_nil,sum_cons,sum_nil,size_array,hstring,hversion,
      Option.elim_some,quotedLength_plain,length_cons,length_nil]
    omega

/-! ### Ids and tokens -/

theorem hexEncode_plain (b : Bytes) : (hexEncode b).all plain ∧ (hexEncode b).length = 2 * b.length := by
  have hdigit : ∀ n < 16, plain (hexDigit n) = true := by decide +kernel
  induction b with
  | nil => exact ⟨rfl,rfl⟩
  | cons a rest ih =>
    have ha := a.isLt
    rw [hexEncode,flatMap_cons,all_append,length_append,all_cons,all_cons]
    simp [hdigit (a.val / 16) (by omega),hdigit (a.val % 16) (by omega)]
    exact ⟨by simpa [hexEncode] using ih.1,by have := ih.2; simp [hexEncode] at this ⊢; omega⟩

theorem base64Encode_sextets (b : Bytes) : ∀ c ∈ base64Encode b, c = '=' ∨ ∃ n < 64, sextetChar n = c := by
  fun_induction base64Encode b with
  | case1 => simp
  | case2 a =>
    have := a.isLt
    simp only [forall_mem_cons]
    exact ⟨.inr ⟨_,by omega,rfl⟩,.inr ⟨_,by omega,rfl⟩,.inl trivial,.inl trivial,by simp⟩
  | case3 a b =>
    have := a.isLt
    have := b.isLt
    simp only [forall_mem_cons]
    exact ⟨.inr ⟨_,by omega,rfl⟩,.inr ⟨_,by omega,rfl⟩,.inr ⟨_,by omega,rfl⟩,.inl trivial,by simp⟩
  | case4 a b c rest ih =>
    have := a.isLt
    have := b.isLt
    simp only [forall_mem_cons]
    exact ⟨.inr ⟨_,by omega,rfl⟩,.inr ⟨_,by omega,rfl⟩,.inr ⟨_,by have := c.isLt; omega,rfl⟩,.inr ⟨_,by omega,rfl⟩,ih⟩

theorem rawURLEncode_plain (b : Bytes) : (rawURLEncode b).all plain := by
  have hsextet : ∀ n < 64,
      plain (if sextetChar n = '+' then '-' else if sextetChar n = '/' then '_' else sextetChar n) = true := by
    decide +kernel
  refine all_eq_true.mpr fun c hc => ?_
  obtain ⟨digit,hdigit,rfl⟩ := mem_map.mp hc
  obtain ⟨hdigit,hpad⟩ := mem_filter.mp hdigit
  obtain ⟨n,hn,rfl⟩ := (base64Encode_sextets b digit hdigit).resolve_left (by simpa using hpad)
  exact hsextet n hn

theorem issue_plain (h : issue sign c = some token) : quotedLength token = token.length + 2 := by
  unfold issue at h
  split_ifs at h
  cases h
  have hplain : (rawURLEncode (utf8 (c.tree.print goQuote)) ++
      '.' :: rawURLEncode (sign (utf8 (c.tree.print goQuote)))).all plain := by
    rw [all_append,all_cons,rawURLEncode_plain,rawURLEncode_plain]
    decide
  rw [quotedLength_plain hplain,(runes_plain hplain).2]

/-! ### Items that fill the budget -/

theorem sendItems_fits (h : e.overhead ≤ realtimeEnvelopeBytes) (items : List WireTree) :
    sendItems limit e items ≠ .cancelled := by
  unfold sendItems
  cases hcharge : chargeItems limit items with
  | none => simp
  | some used =>
    obtain ⟨rfl,hle,hlimit⟩ := chargeItems_eq hcharge
    dsimp only
    rw [e.size_frame,if_neg (by omega)]
    simp

theorem sendItems_filled (hsize : item.size + 1 + realtimeEnvelopeBytes = limit) :
    sendItems limit e [item] ≠ .cancelled ↔ e.overhead ≤ realtimeEnvelopeBytes := by
  have hcharge : chargeItems limit [item] = some (limit - realtimeEnvelopeBytes) := by
    rw [chargeItems,if_neg (by omega),foldlM_cons,chargeItem,if_neg (by omega)]
    simp
    omega
  obtain ⟨hused,-⟩ := chargeItems_eq hcharge
  unfold sendItems
  rw [hcharge]
  dsimp only
  rw [e.size_frame,← hused]
  split_ifs <;> simp <;> omega

def fillerDocument (n : ℕ) : Document := [(idField,.id (.ending 1)),([0x61],.string (replicate n 0x61))]

theorem quotedLength_filler (n : ℕ) : quotedLength (replicate n 0x61) = n + 2 := by
  have hutf8 : replicate n (0x61 : Byte) = utf8 (replicate n 'a') := by
    induction n with
    | zero => rfl
    | succ n ih => rw [replicate_succ,replicate_succ,utf8_cons,← ih]; rfl
  have hplain : (replicate n 'a').all plain := all_eq_true.mpr fun c hc => by rw [eq_of_mem_replicate hc]; decide
  rw [hutf8,quotedLength_plain hplain,length_replicate]

theorem fillerDocument_validate (n : ℕ) : (fillerDocument n).validate = true := by
  have hstring : validUTF8 (replicate n 0x61) = true := by
    induction n with
    | zero => rfl
    | succ n ih => rw [replicate_succ,validUTF8.eq_def]; exact ih
  change (validField idField && true && (validField [0x61] && validUTF8 (replicate n 0x61) && true)) = true
  rw [hstring]
  decide

theorem wireDocument_filler (n : ℕ) : ∃ item, wireDocument (fillerDocument n) = some item ∧ item.size = n + 106 := by
  refine ⟨_,by rw [wireDocument,if_pos (fillerDocument_validate n),encodeWireValue,if_pos (fillerDocument_validate n)]; rfl,?_⟩
  have hstring (s : Bytes) : WireTree.size (.string s) = quotedLength s := rfl
  have hsort (a b : WireTree) : sortByName [(idField,a),([0x61],b)] = [(idField,a),([0x61],b)] := rfl
  have hid : quotedLength idField = 5 ∧ quotedLength [0x61] = 3 ∧
      quotedLength (utf8 (hexEncode (Identifier.ending 1).val)) = 34 :=
    ⟨rfl,rfl,rfl⟩
  simp (disch := decide) only [hsort,map_cons,map_nil,tagged,wireEntry,size_object,size_array,charge,hstring,sum_cons,sum_nil,
    wireKind,quotedLength_filler,hid,quotedLength_plain,length_cons,length_nil]
  omega

theorem wireOperation_filler (n : ℕ) :
    ∃ item, wireOperation ⟨.change,.ending 1,zeroIdentifier,some (fillerDocument n)⟩ = some item ∧ item.size = n + 173 := by
  obtain ⟨item,hitem,hsize⟩ := wireDocument_filler n
  refine ⟨_,by rw [wireOperation]; dsimp only; rw [hitem]; rfl,?_⟩
  have hstring (s : Bytes) : WireTree.size (.string s) = quotedLength s := rfl
  have hid : quotedLength (utf8 (hexEncode (Identifier.ending 1).val)) = 34 := rfl
  simp (disch := decide) only [if_pos (show zeroIdentifier.isZero = true from rfl),nil_append,size_object,map_cons,map_nil,
    sum_cons,sum_nil,hsize,hstring,hid,operationName,quotedLength_plain,length_cons,length_nil]
  omega

/-- With a limit of at least 1024 no items end a session exactly when its request id, its subscription id and its
resume tokens fit the reserve with the text around them. -/
theorem sendItems_cancels_iff (htoken : issue sign claims = some token) (hlimit : 1024 ≤ limit) (request subscription : Bytes) :
    ((∀ (docs : List Document) items, docs.mapM wireDocument = some items →
      sendItems limit ⟨request,utf8 (hexEncode subscription),token,none⟩ items ≠ .cancelled) ↔
        quotedLength request + 2 * subscription.length + token.length + 83 ≤ 512) ∧
    ∀ earlier start, issue sign earlier = some start →
      ((∀ (operations : List QueryDeltaOperation) items, operations.mapM wireOperation = some items →
        sendItems limit ⟨request,utf8 (hexEncode subscription),token,some start⟩ items ≠ .cancelled) ↔
          quotedLength request + 2 * subscription.length + token.length + start.length + 96 ≤ 512) := by
  have hsubscription : quotedLength (utf8 (hexEncode subscription)) = 2 * subscription.length + 2 := by
    rw [quotedLength_plain (hexEncode_plain subscription).1,(hexEncode_plain subscription).2]
  refine ⟨?_,fun earlier start hstart => ?_⟩
  · have hoverhead : quotedLength request + 2 * subscription.length + token.length + 83 =
        (Envelope.mk request (utf8 (hexEncode subscription)) token none).overhead := by
      simp only [Envelope.overhead,hsubscription,issue_plain htoken,Option.elim_none]
      omega
    rw [hoverhead]
    refine ⟨fun h => ?_,fun h _ items _ => sendItems_fits h items⟩
    obtain ⟨item,hitem,hsize⟩ := wireDocument_filler (limit - 619)
    exact (sendItems_filled (by rw [hsize,realtimeEnvelopeBytes]; omega)).mp
      (h [fillerDocument (limit - 619)] [item] (by simp [hitem]))
  · have hoverhead : quotedLength request + 2 * subscription.length + token.length + start.length + 96 =
        (Envelope.mk request (utf8 (hexEncode subscription)) token (some start)).overhead := by
      simp only [Envelope.overhead,hsubscription,issue_plain htoken,issue_plain hstart,Option.elim_some]
      omega
    rw [hoverhead]
    refine ⟨fun h => ?_,fun h _ items _ => sendItems_fits h items⟩
    obtain ⟨item,hitem,hsize⟩ := wireOperation_filler (limit - 686)
    exact (sendItems_filled (by rw [hsize,realtimeEnvelopeBytes]; omega)).mp
      (h [⟨.change,.ending 1,zeroIdentifier,some (fillerDocument (limit - 686))⟩] [item] (by simp [hitem]))

def shortClaims (position : ℕ) : ResumeClaims :=
  ⟨.ending 1,[0x61],[],[0x61],[0x76],replicate 32 0,position,1800000000⟩

/-- A snapshot with one short token always fits; a delta with two does not. -/
theorem sendItems_cancels_iff_short : ∃ first next, issue (fun _ => replicate 32 0) (shortClaims 1) = some first ∧
    issue (fun _ => replicate 32 0) (shortClaims 2) = some next ∧
    (∀ (docs : List Document) items, docs.mapM wireDocument = some items →
      sendItems 1024 ⟨[0x61],utf8 (hexEncode (replicate 16 0)),next,none⟩ items ≠ .cancelled) ∧
    ¬ ∀ (operations : List QueryDeltaOperation) items, operations.mapM wireOperation = some items →
      sendItems 1024 ⟨[0x61],utf8 (hexEncode (replicate 16 0)),next,some first⟩ items ≠ .cancelled := by
  have hissue (position : ℕ) : ∃ token, issue (fun _ => replicate 32 0) (shortClaims position) = some token := ⟨_,rfl⟩
  obtain ⟨first,hfirst⟩ := hissue 1
  obtain ⟨next,hnext⟩ := hissue 2
  have hlength : first.length = 326 ∧ next.length = 326 := by
    cases hfirst
    cases hnext
    decide +kernel
  obtain ⟨hsnapshot,hdelta⟩ := sendItems_cancels_iff hnext (le_refl 1024) [0x61] (replicate 16 0)
  have hrequest : quotedLength [0x61] = 3 := rfl
  refine ⟨first,next,hfirst,hnext,hsnapshot.mpr ?_,fun h => ?_⟩
  · rw [hrequest,hlength.2]
    decide
  · have h := (hdelta _ _ hfirst).mp h
    rw [hrequest,hlength.1,hlength.2] at h
    exact absurd h (by decide)

/-- Eight removals fill the budget of 512 bytes, and two resume tokens do not fit the rest. -/
theorem removals_cancel_session : ∃ first next operation, issue (fun _ => replicate 32 0) (shortClaims 1) = some first ∧
    issue (fun _ => replicate 32 0) (shortClaims 2) = some next ∧
    wireOperation ⟨.remove,.ending 1,zeroIdentifier,none⟩ = some operation ∧
    sendItems 1024 ⟨[0x61],utf8 (hexEncode (replicate 16 0)),next,some first⟩ (replicate 8 operation) = .cancelled :=
  ⟨_,_,_,rfl,rfl,rfl,by decide +kernel⟩

end Meldbase.Server
