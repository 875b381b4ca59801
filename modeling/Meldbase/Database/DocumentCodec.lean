import Meldbase.Database.Changes

/-! # The binary codec of documents

The encoder writes a tag and a payload for every value, and the fields of an object
in the order of their names.  `canonicalDocumentSize` counts the bytes without writing
them, in 64-bit arithmetic: its count is exact for every document that fits into
memory.
-/
namespace Meldbase.Database
open Comparison
open Logical (maxUint16 maxUint32 maxUint64)
open FixedWidth (littleEndian length_littleEndian)
open List Option

def writeTagged (depth : ℕ) (kind : Byte) (payload : Option Bytes) : Option Bytes :=
  if 64 < depth then none else payload.map (kind :: ·)

def writeBytes32 (b : Bytes) : Option Bytes :=
  if maxUint32 < b.length then none else some (littleEndian 4 b.length ++ b)

def writeFields (entries : List (Bytes × Bytes)) : Bytes :=
  littleEndian 4 entries.length ++
    (sortByName entries).flatMap (fun e => littleEndian 2 e.1.length ++ e.1 ++ e.2)

mutual

def encodeValueBinary (depth : ℕ) : Value → Option Bytes
  | .null => writeTagged depth 0 (some [])
  | .bool b => writeTagged depth 1 (some [if b then 1 else 0])
  | .int i => writeTagged depth 2 (some (littleEndian 8 (i.toInt % 2 ^ 64).toNat))
  | .float f => writeTagged depth 3 (if f.isFinite then some (littleEndian 8 f.bits.toNat) else none)
  | .string s => writeTagged depth 4 (writeBytes32 s)
  | .binary b => writeTagged depth 5 (writeBytes32 b)
  | .time ms => writeTagged depth 6 (some (littleEndian 8 (ms % 2 ^ 64).toNat))
  | .array values => writeTagged depth 7 (if maxUint32 < values.length then none
      else (encodeItemsBinary depth values).map (littleEndian 4 values.length ++ ·))
  | .object fields => writeTagged depth 8 (if 64 < depth+1 ∨ maxUint32 < fields.length then none
      else (encodeFieldsBinary (depth+1) fields).map writeFields)
  | .id id => writeTagged depth 9 (some id.val)

def encodeItemsBinary (depth : ℕ) : List Value → Option Bytes
  | [] => some []
  | v::rest =>
    match encodeValueBinary (depth+1) v,encodeItemsBinary depth rest with
    | some b,some bs => some (b ++ bs)
    | _,_ => none

/-- The encoded fields of an object at the given depth, not yet in their order. -/
def encodeFieldsBinary (depth : ℕ) : Document → Option (List (Bytes × Bytes))
  | [] => some []
  | (name,v) :: rest =>
    if !validField name || maxUint16 < name.length then none
    else match encodeValueBinary (depth+1) v,encodeFieldsBinary depth rest with
      | some b,some entries => some ((name,b) :: entries)
      | _,_ => none

end

def encodeDocumentBinary (d : Document) : Option Bytes :=
  if !d.validate || maxUint32 < d.length then none else (encodeFieldsBinary 0 d).map writeFields

def fieldsLength (entries : List (Bytes × Bytes)) : ℕ := (entries.map fun e => 2 + e.1.length + e.2.length).sum

theorem length_writeFields (entries : List (Bytes × Bytes)) : (writeFields entries).length = 4 + fieldsLength entries := by
  have hperm := (stableSort_perm (lessBy nameOrder) entries).map fun e => 2 + e.1.length + e.2.length
  simp only [writeFields,fieldsLength,sortByName,length_append,length_littleEndian,length_flatMap,← hperm.sum_eq]

/-- What a size computation owes to an encoder that writes after `total` bytes: it accepts only
what is valid and encoded, and counts the bytes of what fits. -/
def SizedAs (total : ℕ) (size : Option ℕ) (valid : Bool) (length : Option ℕ) : Prop :=
  (size.isSome → valid ∧ length.isSome) ∧ ∀ n, valid → length = some n → total+n ≤ maxUint64 → size = some (total+n)

section
variable {size length length' : Option ℕ}

theorem SizedAs.refused : SizedAs total none valid none := ⟨nofun,nofun⟩

theorem SizedAs.exact (h : total+n = m) : SizedAs total (some m) true (some n) :=
  ⟨fun _ => ⟨rfl,rfl⟩,by rintro _ - ⟨⟩ -; rw [h]⟩

theorem SizedAs.then {next : ℕ → Option ℕ} (h : SizedAs 0 size valid length)
    (hnext : ∀ n, SizedAs (total+n) (next n) valid' length') :
    SizedAs total (size.bind fun n => if maxUint64 < total+n then none else next n) (valid && valid')
      (length.bind fun n => length'.map (n + ·)) := by
  constructor
  · intro hsome
    obtain ⟨result,hsome⟩ := isSome_iff_exists.mp hsome
    obtain ⟨n,rfl,hresult⟩ := bind_eq_some_iff.mp hsome
    split_ifs at hresult
    obtain ⟨hvalid,hlength⟩ := h.1 rfl
    obtain ⟨hvalid',hlength'⟩ := (hnext n).1 (by rw [hresult]; rfl)
    obtain ⟨m,rfl⟩ := isSome_iff_exists.mp hlength
    exact ⟨by simp [hvalid,hvalid'],by simpa using hlength'⟩
  rintro k hvalid hlength hfits
  obtain ⟨n,rfl,hlength⟩ := bind_eq_some_iff.mp hlength
  obtain ⟨m,rfl,rfl⟩ := map_eq_some_iff.mp hlength
  rw [Bool.and_eq_true] at hvalid
  rw [h.2 n hvalid.1 rfl (by omega),bind_some,if_neg (by omega),Nat.zero_add,
    (hnext n).2 m hvalid.2 rfl (by omega),Nat.add_assoc]

theorem SizedAs.shift (h : SizedAs (total+width) size valid length) :
    SizedAs total size valid (length.map (width + ·)) := by
  refine ⟨fun hsome => by simpa using h.1 hsome,fun k hvalid hlength hfits => ?_⟩
  obtain ⟨n,rfl,rfl⟩ := map_eq_some_iff.mp hlength
  rw [h.2 n hvalid rfl (by omega),Nat.add_assoc]

theorem SizedAs.wrapped (h : SizedAs 4 size valid length) :
    SizedAs 0 (size.map fun n => (n+1) % 2 ^ 64) valid (length.map (4 + · + 1)) := by
  refine ⟨fun hsome => by simpa using h.1 (by simpa using hsome),fun k hvalid hlength hfits => ?_⟩
  obtain ⟨n,rfl,rfl⟩ := map_eq_some_iff.mp hlength
  unfold maxUint64 at hfits
  rw [h.2 n hvalid rfl (by unfold maxUint64; omega),map_some,Nat.mod_eq_of_lt (by omega),Nat.zero_add]

end

mutual

theorem canonicalValueSize_sized {checked depth : ℕ} (h : checked ≤ depth) : (v : Value) →
    SizedAs 0 (canonicalValueSize (depth+1) v) (validateValue checked v) ((encodeValueBinary (depth+1) v).map length)
  | .null | .bool _ | .int _ | .time _ | .id _ | .float _ | .string _ | .binary _ => by
    simp only [canonicalValueSize,sizeAt,validateValue,encodeValueBinary,writeTagged,writeBytes32]
    split_ifs
    all_goals first | exact .refused | simp_all [SizedAs] <;> omega
  | .array values => by
    have ih := canonicalItemsSize_sized (Nat.succ_le_succ h) (0+5) values
    simp only [canonicalValueSize,validateValue,encodeValueBinary,writeTagged]
    by_cases hrefused : 64 < depth+1 ∨ maxUint32 < values.length
    · rw [if_pos hrefused]
      rcases hrefused with hrefused | hrefused <;> simpa [hrefused] using SizedAs.refused
    obtain ⟨hdepth,hcount⟩ := not_or.mp hrefused
    have hchecked : checked+1 ≤ 64 := by omega
    simpa [hdepth,hcount,hchecked,Function.comp_def,Nat.add_right_comm _ _ 1] using ih.shift
  | .object fields => by
    have ih := canonicalFieldsSize_sized (show checked+1 ≤ depth+2 by omega) 4 fields
    simp only [canonicalValueSize,validateValue,encodeValueBinary,writeTagged]
    by_cases hrefused : 64 < depth+1 ∨ 64 < depth+1+1 ∨ maxUint32 < fields.length
    · rw [if_pos hrefused]
      rcases hrefused with hrefused | hrefused
      · rw [if_pos hrefused]
        exact .refused
      · rw [if_pos hrefused,map_none,ite_self]
        exact .refused
    obtain ⟨hdepth,hobject⟩ := not_or.mp hrefused
    have hchecked : checked+1 ≤ 64 := by omega
    rw [if_neg hrefused,if_neg hdepth,if_neg hobject]
    simpa [hchecked,Function.comp_def,length_writeFields] using ih.wrapped

theorem canonicalFieldsSize_sized {checked depth : ℕ} (h : checked ≤ depth) (total : ℕ) : (fields : Document) →
    SizedAs total (canonicalFieldsSize depth total fields) (validateFields checked fields)
      ((encodeFieldsBinary depth fields).map fieldsLength)
  | [] => .exact rfl
  | (name,v) :: rest => by
    have ih := ((canonicalValueSize_sized h v).then fun n => canonicalFieldsSize_sized h (total + (2+name.length) + n) rest).shift
    simp only [canonicalFieldsSize,validateFields,encodeFieldsBinary]
    split_ifs with hname
    · exact .refused
    simp only [Bool.or_eq_true,Bool.not_eq_true',decide_eq_true_eq,not_or,Bool.not_eq_false] at hname
    rw [hname.1,Bool.true_and]
    revert ih
    cases canonicalValueSize (depth+1) v <;> cases encodeValueBinary (depth+1) v <;> cases encodeFieldsBinary depth rest <;>
      simp [fieldsLength,Nat.add_assoc]

theorem canonicalItemsSize_sized {checked depth : ℕ} (h : checked ≤ depth) (total : ℕ) : (values : List Value) →
    SizedAs total (canonicalItemsSize depth total values) (validateValues checked values)
      ((encodeItemsBinary depth values).map length)
  | [] => .exact rfl
  | v::rest => by
    have ih := (canonicalValueSize_sized h v).then fun n => canonicalItemsSize_sized h (total+n) rest
    simp only [canonicalItemsSize,validateValues,encodeItemsBinary]
    revert ih
    cases canonicalValueSize (depth+1) v <;> cases encodeValueBinary (depth+1) v <;> cases encodeItemsBinary depth rest <;>
      simp

end

theorem canonicalDocumentSize_sized (d : Document) :
    SizedAs 0 (canonicalDocumentSize d) true ((encodeDocumentBinary d).map length) := by
  have h := canonicalFieldsSize_sized (Nat.zero_le 0) (0+4) d
  unfold canonicalDocumentSize encodeDocumentBinary Document.validate
  by_cases hcount : maxUint32 < d.length
  · simpa [hcount] using SizedAs.refused
  cases hvalid : validateFields 0 d with
  | false =>
    have hnone : canonicalFieldsSize 0 4 d = none := by
      rw [← not_isSome_iff_eq_none]
      exact fun hsome => by simpa [hvalid] using (h.1 hsome).1
    simpa [hcount,hnone] using SizedAs.refused
  | true =>
    rw [hvalid] at h
    simpa [hcount,Function.comp_def,length_writeFields] using h.shift

/-! ### Documents in memory -/

mutual

/-- The bytes of a value: its struct and what it refers to, nothing of which is shared. -/
def Value.memory : Value → ℕ
  | .string s => 136 + s.length
  | .binary b => 136 + b.length
  | .array values => 136 + itemsMemory values
  | .object fields => 136 + fieldsMemory fields
  | _ => 136

def itemsMemory : List Value → ℕ
  | [] => 0
  | v::rest => v.memory + itemsMemory rest

/-- A name is a string header and its bytes. -/
def fieldsMemory : Document → ℕ
  | [] => 0
  | (name,v) :: rest => 16 + name.length + v.memory + fieldsMemory rest

end

/-- The map of a document is reached through a pointer. -/
def Document.memory (d : Document) : ℕ := 8 + fieldsMemory d

mutual

theorem length_encodeValueBinary_le : ∀ (v : Value) {depth : ℕ} {b : Bytes}, encodeValueBinary depth v = some b →
    b.length ≤ v.memory
  | .null,_,_,h | .bool _,_,_,h | .int _,_,_,h | .time _,_,_,h | .float _,_,_,h | .string _,_,_,h | .binary _,_,_,h => by
    simp only [encodeValueBinary,writeTagged,writeBytes32] at h
    split_ifs at h <;> simp only [map_some,map_none,some.injEq,reduceCtorEq] at h
    all_goals
      simp only [← h,length_cons,length_append,length_littleEndian,length_nil,Value.memory]
      omega
  | .id id,_,_,h => by
    simp only [encodeValueBinary,writeTagged] at h
    split_ifs at h
    cases h
    simp only [length_cons,id.property,Value.memory]
    decide
  | .array values,_,_,h => by
    simp only [encodeValueBinary,writeTagged] at h
    split_ifs at h
    · cases h
    obtain ⟨payload,hpayload,rfl⟩ := map_eq_some_iff.mp h
    obtain ⟨items,hitems,rfl⟩ := map_eq_some_iff.mp hpayload
    have ih := length_encodeItemsBinary_le values hitems
    simp only [length_cons,length_append,length_littleEndian,Value.memory]
    omega
  | .object fields,_,_,h => by
    simp only [encodeValueBinary,writeTagged] at h
    split_ifs at h
    · cases h
    obtain ⟨payload,hpayload,rfl⟩ := map_eq_some_iff.mp h
    obtain ⟨entries,hentries,rfl⟩ := map_eq_some_iff.mp hpayload
    have ih := fieldsLength_encodeFieldsBinary_le fields hentries
    rw [length_cons,length_writeFields,Value.memory]
    omega

theorem length_encodeItemsBinary_le : ∀ (values : List Value) {depth : ℕ} {b : Bytes},
    encodeItemsBinary depth values = some b → b.length ≤ itemsMemory values
  | [],_,_,h => by
    cases h
    exact Nat.zero_le _
  | v::rest,_,_,h => by
    rw [encodeItemsBinary] at h
    split at h
    · rename_i hv hrest
      cases h
      rw [length_append,itemsMemory]
      exact Nat.add_le_add (length_encodeValueBinary_le v hv) (length_encodeItemsBinary_le rest hrest)
    · cases h

theorem fieldsLength_encodeFieldsBinary_le : ∀ (fields : Document) {depth : ℕ} {entries : List (Bytes × Bytes)},
    encodeFieldsBinary depth fields = some entries → fieldsLength entries ≤ fieldsMemory fields
  | [],_,_,h => by
    cases h
    exact Nat.zero_le _
  | (name,v) :: rest,_,_,h => by
    rw [encodeFieldsBinary] at h
    split_ifs at h
    split at h
    · rename_i hv hrest
      cases h
      have hvalue := length_encodeValueBinary_le v hv
      have ih := fieldsLength_encodeFieldsBinary_le rest hrest
      rw [fieldsLength] at ih ⊢
      simp only [map_cons,sum_cons,fieldsMemory]
      omega
    · cases h

end

/-- For every document whose bytes a 64-bit machine can address, the computed size is the length of the
encoding, and a document has a size exactly if it is encoded. -/
theorem canonicalDocumentSize_exact (d : Document) (hmemory : d.memory ≤ 2 ^ 64) :
    canonicalDocumentSize d = (encodeDocumentBinary d).map length := by
  have h := canonicalDocumentSize_sized d
  cases hbytes : encodeDocumentBinary d with
  | none =>
    rw [hbytes] at h
    rw [map_none,← not_isSome_iff_eq_none]
    exact fun hsome => by simpa using (h.1 hsome).2
  | some bytes =>
    have hfits : bytes.length ≤ maxUint64 := by
      rw [encodeDocumentBinary] at hbytes
      split_ifs at hbytes
      obtain ⟨entries,hentries,rfl⟩ := map_eq_some_iff.mp hbytes
      have hle := fieldsLength_encodeFieldsBinary_le d hentries
      rw [Document.memory] at hmemory
      rw [length_writeFields,maxUint64]
      omega
    have hsize := h.2 bytes.length rfl (by rw [hbytes]; rfl) (by rwa [Nat.zero_add])
    rw [hsize,Nat.zero_add,map_some]

/-- Objects and arrays within each other, with values of every kind. -/
def nestedDocument : Document :=
  [(idField,.id (.ending 1)),([0x61],.array [.null,.bool true,.object [([0x62],.array [.object []]),([0x63],.string [0x78])]]),
    ([0x64],.object [([0x65],.int 1),([0x66],.float ⟨0x3ff0000000000000⟩),([0x67],.time (-1)),([0x68],.binary [0,1])])]

theorem canonicalDocumentSize_exact_nested :
    canonicalDocumentSize nestedDocument = (encodeDocumentBinary nestedDocument).map length ∧
    canonicalDocumentSize nestedDocument = some 118 :=
  ⟨canonicalDocumentSize_exact nestedDocument (by decide),by decide⟩

end Meldbase.Database
