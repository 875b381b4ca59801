import Mathlib.Data.Rat.Floor
import Meldbase.Logical.Records

/-! # Values and documents

Documents map field names to typed values; a Go map is the list of its entries.
Strings are Go strings, byte sequences that need not be UTF-8.  A float is its
64 bits, read as an exact dyadic rational; the integer conversions round to the
nearest float, ties to even.
-/
namespace Meldbase.Database
open Bool

abbrev DocumentID := Logical.Identifier

/-! ### Floats -/

structure Float64 where
  bits : BitVec 64
  deriving DecidableEq

inductive FloatValue where
  | nan
  | infinite (negative : Bool)
  | finite (value : ℚ)
  deriving DecidableEq

variable (f : Float64)

def Float64.negative : Bool := f.bits.getLsbD 63
def Float64.exponent : ℕ := (f.bits.extractLsb' 52 11).toNat
def Float64.fraction : ℕ := (f.bits.extractLsb' 0 52).toNat
def Float64.value : FloatValue :=
  let sign : ℚ := if f.negative then -1 else 1
  if f.exponent = 2047 then
    if f.fraction = 0 then .infinite f.negative else .nan
  else if f.exponent = 0 then .finite (sign * f.fraction / 2 ^ 1074)
  else .finite (sign * (2 ^ 52 + f.fraction) * 2 ^ f.exponent / 2 ^ 1075)
def Float64.isFinite : Bool :=
  match f.value with
  | .finite _ => true
  | _ => false
def Float64.equal (g : Float64) : Bool :=
  match f.value,g.value with
  | .finite a,.finite b => a = b
  | .infinite a,.infinite b => a = b
  | _,_ => false
def roundToFloat64 (i : ℤ) : ℤ :=
  let magnitude := i.natAbs
  if magnitude < 2 ^ 53 then i
  else
    let shift := magnitude.log2 - 52
    let quotient := magnitude / 2 ^ shift
    let remainder := magnitude % 2 ^ shift
    let rounded :=
      if 2 ^ shift < 2*remainder ∨ 2 ^ shift = 2*remainder ∧ quotient % 2 = 1 then quotient+1 else quotient
    i.sign * (rounded * 2 ^ shift : ℕ)
def truncate (q : ℚ) : ℤ := q.num.tdiv q.den
def compareIntFloat (i : Int64) (f : Float64) : Option Ordering :=
  match f.value with
  | .nan => none
  | .infinite negative => some (if negative then .gt else .lt)
  | .finite value =>
    if (2 : ℚ) ^ 63 ≤ value then some .lt
    else if value < -(2 : ℚ) ^ 63 then some .gt
    else if (roundToFloat64 i.toInt : ℚ) = value ∧ (truncate value : ℚ) = value ∧ truncate value = i.toInt then some .eq
    else if (roundToFloat64 i.toInt : ℚ) < value then some .lt
    else some .gt

/-! ### Values -/

inductive Value where
  | null
  | bool (b : Bool)
  | int (i : Int64)
  | float (f : Float64)
  | string (s : Bytes)
  | binary (b : Bytes)
  | time (milliseconds : ℤ)
  | array (values : List Value)
  | object (fields : List (Bytes × Value))
  | id (id : DocumentID)

abbrev Document := List (Bytes × Value)
def lookupField (d : Document) (field : Bytes) : Option Value :=
  match d with
  | [] => none
  | (name,v) :: rest => if name = field then some v else lookupField rest field

/-- Compares an integer with a float without losing integer precision. -/
def compareNumeric : Value → Value → Option Ordering
  | .int a,.float b => compareIntFloat a b
  | .float a,.int b => (compareIntFloat b a).map Ordering.swap
  | _,_ => none

mutual
def Value.equal : Value → Value → Bool
  | .null,.null => true
  | .bool a,.bool b => a = b
  | .int a,.int b => a = b
  | .float a,.float b => a.equal b
  | .string a,.string b => a = b
  | .binary a,.binary b => a = b
  | .time a,.time b => a = b
  | .id a,.id b => a = b
  | .array a,.array b => equalValues a b
  | .object a,.object b => a.length = b.length && equalFields a b
  | a,b => compareNumeric a b = some .eq
def equalValues : List Value → List Value → Bool
  | [],[] => true
  | a::as,b::bs => a.equal b && equalValues as bs
  | _,_ => false
def equalFields : Document → Document → Bool
  | [],_ => true
  | (name,v) :: rest,other =>
    (match lookupField other name with
      | some w => v.equal w
      | none => false) && equalFields rest other

end

def Document.equal (d other : Document) : Bool := d.length = other.length && equalFields d other
def idField : Bytes := [0x5f,0x69,0x64]
def Document.id (d : Document) : Option DocumentID :=
  match lookupField d idField with
  | some (.id id) => some id
  | _ => none

/-! ### Validation -/

def continuation (b : Byte) : Bool := 0x80 ≤ b.val && b.val ≤ 0xbf

/-- `utf8.ValidString`: no overlong forms, no surrogates, nothing above U+10FFFF. -/
def validUTF8 : Bytes → Bool
  | [] => true
  | a::rest =>
    if a.val < 0x80 then validUTF8 rest
    else match rest with
      | [] => false
      | b::rest =>
        if 0xc2 ≤ a.val ∧ a.val ≤ 0xdf then continuation b && validUTF8 rest
        else match rest with
          | [] => false
          | c::rest =>
            if 0xe0 ≤ a.val ∧ a.val ≤ 0xef then
              continuation b && continuation c && (a.val ≠ 0xe0 || 0xa0 ≤ b.val) && (a.val ≠ 0xed || b.val ≤ 0x9f)
                && validUTF8 rest
            else match rest with
              | [] => false
              | d::rest =>
                0xf0 ≤ a.val && a.val ≤ 0xf4 && continuation b && continuation c && continuation d
                  && (a.val ≠ 0xf0 || 0x90 ≤ b.val) && (a.val ≠ 0xf4 || b.val ≤ 0x8f) && validUTF8 rest

/-- Field names `__proto__`, `prototype` and `constructor`. -/
def reservedFields : List Bytes :=
  [[0x5f,0x5f,0x70,0x72,0x6f,0x74,0x6f,0x5f,0x5f],[0x70,0x72,0x6f,0x74,0x6f,0x74,0x79,0x70,0x65],
    [0x63,0x6f,0x6e,0x73,0x74,0x72,0x75,0x63,0x74,0x6f,0x72]]

/-- Rejects names that are unsafe or reserved for query syntax: empty, not
UTF-8, with a zero byte or a dot, starting with a dollar, or reserved. -/
def validField (name : Bytes) : Bool :=
  !name.isEmpty && validUTF8 name && !name.contains 0 && !name.contains 0x2e && name.head? ≠ some 0x24
    && !reservedFields.contains name

mutual
/-- `validateDocument` and `validateArray` on one value at the given depth. -/
def validateValue (depth : ℕ) : Value → Bool
  | .float f => f.isFinite
  | .string s => validUTF8 s
  | .object fields => depth+1 ≤ 64 && validateFields (depth+1) fields
  | .array values => depth+1 ≤ 64 && validateValues (depth+1) values
  | _ => true
def validateFields (depth : ℕ) : Document → Bool
  | [] => true
  | (name,v) :: rest => validField name && validateValue depth v && validateFields depth rest
def validateValues (depth : ℕ) : List Value → Bool
  | [] => true
  | v::rest => validateValue depth v && validateValues depth rest

end

def Document.validate (d : Document) : Bool := validateFields 0 d

theorem Float64.equal_trans {f g h : Float64} (hfg : f.equal g) (hgh : g.equal h) : f.equal h := by
  unfold Float64.equal at *
  cases hf : f.value <;> cases hg : g.value <;> cases hh : h.value <;> simp_all

/-- An integer equals a float exactly when the float denotes that integer. -/
theorem compareIntFloat_eq {f : Float64} : compareIntFloat i f = some .eq ↔
    ∃ value, f.value = .finite value ∧ ¬ (2 : ℚ) ^ 63 ≤ value ∧ ¬ value < -(2 : ℚ) ^ 63 ∧
      (roundToFloat64 i.toInt : ℚ) = value ∧ (truncate value : ℚ) = value ∧ truncate value = i.toInt := by
  unfold compareIntFloat
  cases hf : f.value with
  | nan => simp
  | infinite negative => cases negative <;> simp
  | finite value =>
    dsimp only
    constructor
    · intro h
      split_ifs at h with hlow hhigh heq
      · cases h
      · cases h
      · exact ⟨value,rfl,hlow,hhigh,heq⟩
      · cases h
      · cases h
    · rintro ⟨_,⟨⟩,hlow,hhigh,heq⟩
      rw [if_neg hlow,if_neg hhigh,if_pos heq]

theorem compareIntFloat_congr {f g : Float64} (hfg : f.equal g) :
    compareIntFloat i f = some .eq ↔ compareIntFloat i g = some .eq := by
  unfold Float64.equal at hfg
  rw [compareIntFloat_eq,compareIntFloat_eq]
  cases hf : f.value <;> cases hg : g.value <;> simp_all

theorem compareNumeric_float_int {f : Float64} {i : Int64} :
    compareNumeric (.float f) (.int i) = some .eq ↔ compareIntFloat i f = some .eq := by
  change (compareIntFloat i f).map Ordering.swap = some .eq ↔ _
  cases compareIntFloat i f with
  | none => simp
  | some o => cases o <;> simp

theorem compareIntFloat_unique {f : Float64} (hi : compareIntFloat i f = some .eq)
    (hj : compareIntFloat j f = some .eq) : i = j := by
  obtain ⟨v,hv,-,-,-,-,hvi⟩ := compareIntFloat_eq.mp hi
  obtain ⟨w,hw,-,-,-,-,hwj⟩ := compareIntFloat_eq.mp hj
  obtain rfl : v = w := FloatValue.finite.inj (hv.symm.trans hw)
  exact Int64.toInt_inj.mp (hvi.symm.trans hwj)

theorem Float64.equal_of_int {f g : Float64} (hf : compareIntFloat i f = some .eq)
    (hg : compareIntFloat i g = some .eq) : f.equal g := by
  obtain ⟨v,hv,-,-,hiv,-⟩ := compareIntFloat_eq.mp hf
  obtain ⟨w,hw,-,-,hiw,-⟩ := compareIntFloat_eq.mp hg
  simp [Float64.equal,hv,hw,← hiv,← hiw]

theorem mem_of_lookupField (h : lookupField d field = some v) : (field,v) ∈ d := by
  induction d with
  | nil => simp [lookupField] at h
  | cons e d ih =>
    obtain ⟨name,w⟩ := e
    rw [lookupField] at h
    split_ifs at h with hn
    · simp_all
    · exact List.mem_cons_of_mem _ (ih h)

theorem equalFields_mem (h : equalFields d other)
    (hv : (field,v) ∈ d) : ∃ w, lookupField other field = some w ∧ v.equal w := by
  induction d with
  | nil => simp at hv
  | cons e d ih =>
    obtain ⟨name,u⟩ := e
    rw [equalFields,and_eq_true] at h
    rcases List.mem_cons.mp hv with hv | hv
    · obtain ⟨rfl,rfl⟩ := Prod.mk.inj hv
      cases hw : lookupField other field with
      | none => simp [hw] at h
      | some w =>
        rw [hw] at h
        exact ⟨w,rfl,h.1⟩
    · exact ih h.2 hv

mutual
theorem Value.equal_trans : ∀ {a b c : Value}, a.equal b → b.equal c → a.equal c
  | .null,b,c,hab,hbc => by
    cases b <;> simp [Value.equal,compareNumeric] at hab
    exact hbc
  | .bool x,b,c,hab,hbc | .string x,b,c,hab,hbc | .binary x,b,c,hab,hbc | .time x,b,c,hab,hbc | .id x,b,c,hab,hbc => by
    cases b <;> simp [Value.equal,compareNumeric] at hab
    exact hab ▸ hbc
  | .int x,.int y,c,hab,hbc => by
    simp only [Value.equal,decide_eq_true_eq] at hab
    exact hab ▸ hbc
  | .array xs,.array ys,.array zs,hab,hbc => equalValues_trans hab hbc
  | .object xs,.object ys,.object zs,hab,hbc => by
    simp only [Value.equal,and_eq_true,decide_eq_true_eq] at hab hbc ⊢
    exact ⟨hab.1.trans hbc.1,equalFields_trans hab.2 hbc.2⟩
  | .int x,.float y,.int z,hab,hbc => by
    simp only [Value.equal,compareNumeric_float_int,decide_eq_true_eq] at hab hbc ⊢
    exact compareIntFloat_unique hab hbc
  | .int x,.float y,.float z,hab,hbc => by
    simp only [Value.equal,decide_eq_true_eq] at hab hbc ⊢
    exact (compareIntFloat_congr hbc).mp hab
  | .float x,.float y,.float z,hab,hbc => Float64.equal_trans hab hbc
  | .float x,.float y,.int z,hab,hbc => by
    simp only [Value.equal,compareNumeric_float_int,decide_eq_true_eq] at hab hbc ⊢
    exact (compareIntFloat_congr hab).mpr hbc
  | .float x,.int y,.int z,hab,hbc => by
    simp only [Value.equal,decide_eq_true_eq] at hbc
    exact hbc ▸ hab
  | .float x,.int y,.float z,hab,hbc => by
    simp only [Value.equal,compareNumeric_float_int,decide_eq_true_eq] at hab hbc ⊢
    exact Float64.equal_of_int hab hbc

theorem equalValues_trans : ∀ {a b c : List Value}, equalValues a b → equalValues b c → equalValues a c
  | [],[],_,_,hbc => hbc
  | x::xs,y::ys,z::zs,hab,hbc => by
    simp only [equalValues,and_eq_true] at hab hbc ⊢
    exact ⟨Value.equal_trans hab.1 hbc.1,equalValues_trans hab.2 hbc.2⟩
  | _::_,_::_,[],_,hbc => by simp [equalValues] at hbc
  | [],_::_,_,hab,_ => by simp [equalValues] at hab
  | _::_,[],_,hab,_ => by simp [equalValues] at hab

theorem equalFields_trans : ∀ {a b c : Document}, equalFields a b → equalFields b c → equalFields a c
  | [],_,_,_,_ => by simp [equalFields]
  | (name,v) :: rest,b,c,hab,hbc => by
    obtain ⟨w,hw,hvw⟩ := equalFields_mem hab List.mem_cons_self
    obtain ⟨u,hu,hwu⟩ := equalFields_mem hbc (mem_of_lookupField hw)
    rw [equalFields,and_eq_true] at hab ⊢
    rw [hu]
    exact ⟨Value.equal_trans hvw hwu,equalFields_trans hab.2 hbc⟩

end

theorem Document.equal_trans {a b c : Document} (hab : a.equal b) (hbc : b.equal c) : a.equal c := by
  simp only [Document.equal,and_eq_true,decide_eq_true_eq] at hab hbc ⊢
  exact ⟨hab.1.trans hbc.1,equalFields_trans hab.2 hbc.2⟩

theorem Document.id_eq_some {id : DocumentID} :
    d.id = some id ↔ lookupField d idField = some (.id id) := by
  unfold Document.id
  cases lookupField d idField with
  | none => simp
  | some v => cases v <;> simp

theorem Document.id_of_equal {d e : Document} (h : d.equal e) {id : DocumentID} (hid : d.id = some id) :
    e.id = some id := by
  simp only [Document.equal,and_eq_true] at h
  obtain ⟨w,hw,hv⟩ := equalFields_mem h.2 (mem_of_lookupField (Document.id_eq_some.mp hid))
  cases w <;> simp [Value.equal,compareNumeric] at hv
  rw [Document.id_eq_some,hw,hv]

end Meldbase.Database
