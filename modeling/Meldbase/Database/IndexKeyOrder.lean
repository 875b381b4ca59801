import Meldbase.Database.IndexKey
import Meldbase.Database.NumericOrder

/-! # Order of scalar keys

The key of a number is written as a shifted 64-bit magnitude; it is the big-endian
text of the number in units of `2 ^ (-1074)`.  Keys are therefore ordered as the
values they stand for.  Only times have too few bytes for this.
-/
namespace Meldbase.Database
open Option Bool List Prod Nat
open FixedWidth PrefixOrder

/-! ### Writing keys -/

def writeShiftedIndexMagnitude (width magnitude shift : ℕ) : Option Bytes :=
  if width = 0 ∨ magnitude = 0 then
    if magnitude = 0 then some (replicate width 0) else none
  else
    let byteShift := shift / 8
    let bitShift := shift % 8
    if width < byteShift+8 then none
    else
      let last := width - byteShift
      let low := bigEndian 8 (magnitude * 2 ^ bitShift % 2 ^ 64) ++ replicate byteShift 0
      let high := if bitShift = 0 then 0 else magnitude / 2 ^ (64 - bitShift)
      if high = 0 then some (replicate (last - 8) 0 ++ low)
      else if last < 9 then none
      else some (replicate (last - 9) 0 ++ Fin.ofNat 256 high::low)

/-- Sign, magnitude and shift of a number. -/
def numericParts : Value → Option (Bool × ℕ × ℕ)
  | .int i => some (i.toInt < 0,i.toInt.natAbs,1074)
  | .float f => if f.isFinite then some (f.negative,if f.exponent = 0 then f.fraction else 2 ^ 52 + f.fraction,f.exponent - 1)
      else none
  | _ => none

variable (destination : Bytes)

def appendNumericIndexKey (value : Value) : Option Bytes := do
  let (negative,magnitude,shift) ← numericParts value
  if magnitude = 0 then some (destination ++ 0x30::0x01 :: replicate numericMagnitudeBytes 0)
  else do
    let bytes ← writeShiftedIndexMagnitude numericMagnitudeBytes magnitude shift
    some (destination ++ 0x30 :: if negative then 0x00 :: bytes.map invertByte else 0x02::bytes)
def appendIndexKey : Value → Option Bytes
  | .null => some (destination ++ [0x10])
  | .bool b => some (destination ++ [if b then 0x21 else 0x20])
  | .int i => appendNumericIndexKey destination (.int i)
  | .float f => appendNumericIndexKey destination (.float f)
  | .string s => some (destination ++ 0x40 :: escapeIndexBytes s)
  | .time milliseconds => some (destination ++ 0x50 :: bigEndian 8 ((milliseconds + 2 ^ 63) % 2 ^ 64).toNat)
  | .id id => some (destination ++ 0x60::id.val)
  | .binary b => some (destination ++ 0x70 :: escapeIndexBytes b)
  | .array _ => none
  | .object _ => none

/-- A magnitude that fits is written as the big-endian text of its value. -/
theorem writeShiftedIndexMagnitude_eq (hpos : magnitude ≠ 0) (h64 : magnitude < 2 ^ 64)
    (hwidth : shift / 8 + 8 ≤ width) (hfit : magnitude * 2 ^ shift < 256 ^ width) :
    writeShiftedIndexMagnitude width magnitude shift = some (bigEndian width (magnitude * 2 ^ shift)) := by
  obtain ⟨front,rfl⟩ := Nat.exists_eq_add_of_le' hwidth
  have hshift : magnitude * 2 ^ shift = magnitude * 2 ^ (shift % 8) * 256 ^ (shift / 8) := by
    rw [show (256 : ℕ) = 2 ^ 8 from rfl,← pow_mul,mul_assoc,← pow_add,mod_add_div]
  have h256 : (256 : ℕ) ^ 8 = 2 ^ 64 := rfl
  -- the upper part, eight bytes and zeros
  have htext : bigEndian (front + (shift / 8 + 8)) (magnitude * 2 ^ shift) =
      bigEndian front (magnitude * 2 ^ (shift % 8) / 2 ^ 64) ++ (bigEndian 8 (magnitude * 2 ^ (shift % 8) % 2 ^ 64) ++
        replicate (shift / 8) 0) := by
    rw [show front + (shift / 8 + 8) = front+8 + shift / 8 by omega,bigEndian_append,hshift,
      Nat.mul_div_cancel _ (by positivity),bigEndian_mul_pow,bigEndian_append,h256,← bigEndian_mod 8,h256,append_assoc]
  have hhigh : magnitude * 2 ^ (shift % 8) / 2 ^ 64 = if shift % 8 = 0 then 0 else magnitude / 2 ^ (64 - shift % 8) := by
    have hlt : shift % 8 < 8 := mod_lt _ (by decide)
    split_ifs with hzero
    · rw [hzero,pow_zero,mul_one,div_eq_of_lt h64]
    · rw [show 2 ^ 64 = 2 ^ (64 - shift % 8) * 2 ^ (shift % 8) by rw [← pow_add]; congr 1; omega,Nat.mul_div_mul_right _ _
        (by positivity)]
  have hsmall : magnitude * 2 ^ (shift % 8) / 2 ^ 64 < 256 := by
    have hlt : shift % 8 < 8 := mod_lt _ (by decide)
    refine Nat.div_lt_of_lt_mul ?_
    calc magnitude * 2 ^ (shift % 8) < 2 ^ 64 * 2 ^ 8 :=
          Nat.mul_lt_mul_of_lt_of_le h64 (Nat.pow_le_pow_right (by decide) hlt.le) (by positivity)
      _ = 2 ^ 64 * 256 := rfl
  rw [htext]
  unfold writeShiftedIndexMagnitude
  rw [if_neg (by omega)]
  dsimp only
  rw [if_neg (by omega),← hhigh,show front + (shift / 8 + 8) - shift / 8 - 8 = front by omega]
  by_cases hzero : magnitude * 2 ^ (shift % 8) / 2 ^ 64 = 0
  · rw [if_pos hzero,hzero,bigEndian_zero]
  rw [if_neg hzero]
  have hfront : front ≠ 0 := by
    rintro rfl
    have hlow : 2 ^ 64 ≤ magnitude * 2 ^ (shift % 8) := by
      by_contra hlt
      exact hzero (div_eq_of_lt (not_le.mp hlt))
    have hbig : 256 ^ 8 * 256 ^ (shift / 8) ≤ magnitude * 2 ^ (shift % 8) * 256 ^ (shift / 8) := mul_le_mul_right _ hlow
    rw [hshift,zero_add,add_comm,pow_add] at hfit
    exact absurd hfit (not_lt.mpr hbig)
  obtain ⟨front,rfl⟩ := exists_eq_succ_of_ne_zero hfront
  rw [if_neg (by omega),show front.succ + (shift / 8 + 8) - shift / 8 - 9 = front by omega,succ_eq_add_one,bigEndian_succ front,
    div_eq_of_lt hsmall,bigEndian_zero,append_assoc]
  rfl

/-! ### Numbers -/

/-- A number in units of `2 ^ (-1074)`. -/
def signedMagnitude (negative : Bool) (magnitude : ℕ) : ℤ := if negative then -magnitude else magnitude

theorem Float64.parts_lt (f : Float64) : (if f.exponent = 0 then f.fraction else 2 ^ 52 + f.fraction) < 2 ^ 53 := by
  have hfraction : f.fraction < 2 ^ 52 := (f.bits.extractLsb' 0 52).isLt
  split_ifs <;> omega

theorem Float64.exponent_le (f : Float64) (h : f.isFinite) : f.exponent ≤ 2046 := by
  have hlt : f.exponent < 2 ^ 11 := (f.bits.extractLsb' 52 11).isLt
  have hne : f.exponent ≠ 2047 := by
    intro he
    unfold Float64.isFinite Float64.value at h
    by_cases hzero : f.fraction = 0 <;> simp [he,hzero] at h
  omega

theorem Float64.magnitude_eq (f : Float64) :
    f.magnitude = (if f.exponent = 0 then f.fraction else 2 ^ 52 + f.fraction) * 2 ^ (f.exponent - 1) := by
  unfold Float64.magnitude
  split_ifs with h
  · rw [h,pow_zero,mul_one]
  · rfl

theorem parts_fit {bits : ℕ} (hmagnitude : magnitude ≤ 2 ^ bits) (hshift : bits+shift < 2104) :
    magnitude * 2 ^ shift < 256 ^ numericMagnitudeBytes := by
  calc magnitude * 2 ^ shift ≤ 2 ^ bits * 2 ^ shift := mul_le_mul_right _ hmagnitude
    _ = 2 ^ (bits+shift) := (pow_add 2 bits shift).symm
    _ < 2 ^ 2104 := Nat.pow_lt_pow_right (by decide) hshift
    _ = 256 ^ numericMagnitudeBytes := pow_mul 2 8 263

theorem int_natAbs_le (i : Int64) : i.toInt.natAbs ≤ 2 ^ 63 := by
  have hlow := i.le_toInt
  have hhigh := i.toInt_lt
  omega

theorem appendNumericIndexKey_eq {bits : ℕ}
    (hparts : numericParts value = some (negative,magnitude,shift)) (hmagnitude : magnitude ≤ 2 ^ bits) (hbits : bits < 64)
    (hwidth : shift ≤ 2045) (hfit : bits+shift < 2104) :
    appendNumericIndexKey destination value = some (destination ++ numericIndexKey negative (magnitude * 2 ^ shift)) := by
  have h64 : magnitude < 2 ^ 64 := hmagnitude.trans_lt (Nat.pow_lt_pow_right (by decide) hbits)
  unfold appendNumericIndexKey
  rw [hparts,bind_eq_bind,bind_some]
  dsimp only
  by_cases hzero : magnitude = 0
  · rw [if_pos hzero,hzero,zero_mul]
    rfl
  have hpos : magnitude * 2 ^ shift ≠ 0 := by positivity
  rw [if_neg hzero,writeShiftedIndexMagnitude_eq hzero h64 (by unfold numericMagnitudeBytes; omega) (parts_fit hmagnitude hfit),
    bind_eq_bind,bind_some,numericIndexKey,if_neg hpos]
  split <;> rfl

theorem appendIndexKey_eq (v : Value) : appendIndexKey destination v = (encodeIndexKey v).map (destination ++ ·) := by
  cases v with
  | int i => exact appendNumericIndexKey_eq destination rfl (int_natAbs_le i) (by decide) (by decide) (by decide)
  | float f =>
    rw [encodeIndexKey]
    split_ifs with hfinite
    · have hexponent := f.exponent_le hfinite
      have hparts : numericParts (.float f) = some (f.negative,_,_) := if_pos hfinite
      rw [map_some,Float64.magnitude_eq]
      exact appendNumericIndexKey_eq destination hparts f.parts_lt.le (by decide) (by omega) (by omega)
    change appendNumericIndexKey destination (.float f) = none
    unfold appendNumericIndexKey
    rw [show numericParts (.float f) = none from if_neg hfinite]
    rfl
  | _ => rfl

theorem signedMagnitude_int (i : ℤ) (c : ℕ) : signedMagnitude (i < 0) (i.natAbs*c) = i*c := by
  unfold signedMagnitude
  rcases lt_or_ge i 0 with h | h
  · rw [if_pos (decide_eq_true h)]
    push_cast
    rw [abs_of_neg h]
    ring
  rw [if_neg (by simpa using h)]
  push_cast
  rw [abs_of_nonneg h]

theorem Float64.scaled_eq {f : Float64} (h : f.value = .finite x) :
    (signedMagnitude f.negative f.magnitude : ℚ) = x * 2 ^ 1074 := by
  have hc : (2 : ℚ) ^ 1074 ≠ 0 := pow_ne_zero _ two_ne_zero
  have hc' : (2 : ℚ) ^ 1075 = 2 ^ 1074 * 2 := pow_succ 2 1074
  unfold Float64.value at h
  unfold signedMagnitude Float64.magnitude
  rw [hc'] at h
  generalize (2 : ℚ) ^ 1074 = c at h hc
  by_cases h0 : f.exponent = 0
  · rw [if_neg (by omega),if_pos h0] at h
    cases h
    rw [if_pos h0,div_mul_cancel₀ _ hc]
    split_ifs <;> push_cast <;> ring
  have hfinite : f.exponent ≠ 2047 := by
    intro he
    rw [if_pos he] at h
    split_ifs at h
  rw [if_neg hfinite,if_neg h0] at h
  cases h
  obtain ⟨e,he⟩ : ∃ e, f.exponent = e+1 := ⟨f.exponent - 1,by omega⟩
  rw [if_neg h0,he,Nat.add_sub_cancel,pow_succ]
  split_ifs <;> push_cast <;> field_simp <;> ring

theorem encodeIndexKey_number {v : Value} (hk : encodeIndexKey v = some k) (hx : v.number? = some x) :
    ∃ negative magnitude, k = numericIndexKey negative magnitude ∧ magnitude < 256 ^ numericMagnitudeBytes ∧
      (signedMagnitude negative magnitude : ℚ) = x * 2 ^ 1074 := by
  rcases Value.number_cases hx with ⟨i,rfl,rfl⟩ | ⟨f,rfl,hf⟩
  · refine ⟨i.toInt < 0,i.toInt.natAbs * 2 ^ 1074,(some.inj hk).symm,parts_fit (int_natAbs_le i) (by decide),?_⟩
    rw [signedMagnitude_int,Int.cast_mul]
    norm_cast
  have hfinite : f.isFinite := by
    unfold Float64.isFinite
    rw [hf]
  rw [encodeIndexKey,if_pos hfinite] at hk
  have hexponent := f.exponent_le hfinite
  refine ⟨_,_,(some.inj hk).symm,?_,f.scaled_eq hf⟩
  rw [f.magnitude_eq]
  exact parts_fit f.parts_lt.le (by omega)

theorem numericIndexKey_lt (hm : m < 256 ^ numericMagnitudeBytes) (hm' : m' < 256 ^ numericMagnitudeBytes)
    (h : signedMagnitude n m < signedMagnitude n' m') : numericIndexKey n m < numericIndexKey n' m' := by
  have hsign {c d : Byte} (hcd : c < d) (x y : Bytes) : 0x30::c::x < 0x30::d::y :=
    ((Diverges.of_head x y hcd).after [0x30]).lt
  cases n <;> cases n'
  case false.false =>
    have hlt : m < m' := by simpa [signedMagnitude] using h
    simp only [numericIndexKey,false_eq_true,if_false,show m' ≠ 0 by omega]
    split_ifs
    · exact hsign (by decide) _ _
    · exact ((bigEndian_diverges hlt hm').after [0x30,0x02]).lt
  case false.true =>
    simp only [signedMagnitude,if_true,if_false,false_eq_true] at h
    omega
  case true.false =>
    simp only [signedMagnitude,if_true,if_false,false_eq_true] at h
    simp only [numericIndexKey,if_true,if_false,false_eq_true]
    split_ifs
    · omega
    all_goals exact hsign (by decide) _ _
  case true.true =>
    have hlt : m' < m := by simpa [signedMagnitude] using h
    simp only [numericIndexKey,if_true,if_false,show m ≠ 0 by omega]
    split_ifs
    · exact hsign (by decide) _ _
    · exact (((bigEndian_diverges hlt hm).map_strictAnti invertByte_strictAnti).after [0x30,0x00]).lt

theorem numericIndexKey_congr (h : signedMagnitude n m = signedMagnitude n' m') :
    numericIndexKey n m = numericIndexKey n' m' := by
  unfold signedMagnitude at h
  unfold numericIndexKey
  have hm : m = m' := by split_ifs at h <;> omega
  subst hm
  by_cases hzero : m = 0
  · rw [if_pos hzero,if_pos hzero]
  have hn : n = n' := by
    cases n <;> cases n' <;> simp only [if_true,if_false,false_eq_true] at h <;> first | rfl | omega
  rw [hn]

/-! ### Order of keys -/

/-- The types in the order of their tags. -/
def indexRank : Value → ℕ
  | .null => 0
  | .bool _ => 1
  | .int _ => 2
  | .float _ => 2
  | .string _ => 3
  | .time _ => 4
  | .id _ => 5
  | .binary _ => 6
  | .array _ => 7
  | .object _ => 7
def indexNumber : Value → ℚ
  | .bool b => if b then 1 else 0
  | .time milliseconds => milliseconds
  | v => v.number?.getD 0
def indexBytes : Value → Bytes
  | .string s => s
  | .id id => id.val
  | .binary b => b
  | _ => []
def indexPosition (v : Value) : ℕ ×ₗ ℚ ×ₗ Bytes := toLex (indexRank v,toLex (indexNumber v,indexBytes v))
def Value.timeFits : Value → Bool
  | .time milliseconds => -2 ^ 63 ≤ milliseconds ∧ milliseconds < 2 ^ 63
  | _ => true

section Order
variable {v w : Value} {kv kw : Bytes}

theorem encodeIndexKey_tag (h : encodeIndexKey v = some kv) : ∃ tag rest, kv = tag::rest ∧ tag.val / 16 = indexRank v+1 := by
  have hnumeric (n : Bool) (m : ℕ) : ∃ rest, numericIndexKey n m = 0x30::rest := by
    unfold numericIndexKey
    split_ifs <;> exact ⟨_,rfl⟩
  cases v with
  | int i =>
    obtain ⟨rest,hrest⟩ := hnumeric (i.toInt < 0) (i.toInt.natAbs * 2 ^ 1074)
    exact ⟨_,rest,(some.inj h).symm.trans hrest,by rw [indexRank]; rfl⟩
  | float f =>
    obtain ⟨rest,hrest⟩ := hnumeric f.negative f.magnitude
    rw [encodeIndexKey] at h
    split_ifs at h
    exact ⟨_,rest,(some.inj h).symm.trans hrest,by rw [indexRank]; rfl⟩
  | bool b =>
    cases h
    cases b <;> exact ⟨_,_,rfl,rfl⟩
  | array _ => cases h
  | object _ => cases h
  | _ =>
    cases h
    exact ⟨_,_,rfl,by rw [indexRank]; rfl⟩

theorem indexNumber_number (h : encodeIndexKey v = some kv) (hrank : indexRank v = 2) :
    v.number? = some (indexNumber v) ∧ indexBytes v = [] := by
  cases v <;> try cases hrank
  case int i => exact ⟨rfl,rfl⟩
  case float f =>
    rw [encodeIndexKey] at h
    split_ifs at h with hfinite
    refine ⟨?_,rfl⟩
    unfold Float64.isFinite at hfinite
    unfold indexNumber Value.number?
    cases hf : f.value <;> simp_all

theorem time_key_lt (hs : (Value.time s).timeFits) (ht : (Value.time t).timeFits) (h : s < t) :
    Diverges (bigEndian 8 ((s + 2 ^ 63) % 2 ^ 64).toNat) (bigEndian 8 ((t + 2 ^ 63) % 2 ^ 64).toNat) := by
  have hs := of_decide_eq_true hs
  have ht := of_decide_eq_true ht
  exact bigEndian_diverges (by omega) (by omega)

theorem encodeIndexKey_lt (hv : encodeIndexKey v = some kv) (hw : encodeIndexKey w = some kw) (fv : v.timeFits) (fw : w.timeFits)
    (h : indexPosition v < indexPosition w) : kv < kw := by
  rcases Lex.lt_iff.mp h with hrank | ⟨hrank,hrest⟩
  · obtain ⟨tag,rest,rfl,htag⟩ := encodeIndexKey_tag hv
    obtain ⟨tag',rest',rfl,htag'⟩ := encodeIndexKey_tag hw
    change indexRank v < indexRank w at hrank
    exact (Diverges.of_head rest rest' (show tag.val < tag'.val by omega)).lt
  change indexRank v = indexRank w at hrank
  replace hrest : indexNumber v < indexNumber w ∨ indexNumber v = indexNumber w ∧ indexBytes v < indexBytes w :=
    Lex.lt_iff.mp hrest
  by_cases hnumber : indexRank v = 2
  · obtain ⟨hx,hnil⟩ := indexNumber_number hv hnumber
    obtain ⟨hy,hnil'⟩ := indexNumber_number hw (hrank ▸ hnumber)
    obtain ⟨n,m,rfl,hm,hscaled⟩ := encodeIndexKey_number hv hx
    obtain ⟨n',m',rfl,hm',hscaled'⟩ := encodeIndexKey_number hw hy
    rw [hnil,hnil'] at hrest
    have hxy : indexNumber v < indexNumber w := hrest.resolve_right fun h => not_lt_nil _ h.2
    refine numericIndexKey_lt hm hm' ?_
    have hlt := mul_lt_mul_of_pos_right hxy (pow_pos (show (0 : ℚ) < 2 from two_pos) 1074)
    rw [← hscaled,← hscaled'] at hlt
    exact_mod_cast hlt
  cases v <;> cases w <;> try (simp [indexRank] at hrank; done)
  case null.null => exact absurd hrest (by simp [indexNumber,indexBytes])
  case bool.bool a b =>
    cases hv
    cases hw
    cases a <;> cases b <;> first | decide | exact absurd hrest (by simp [indexNumber,indexBytes])
  case time.time s t =>
    cases hv
    cases hw
    have hst : s < t := by simpa [indexNumber,indexBytes] using hrest
    exact ((time_key_lt fv fw hst).after [0x50]).lt
  case string.string s t | binary.binary s t =>
    cases hv
    cases hw
    have hst : s < t := (hrest.resolve_left (lt_irrefl (0 : ℚ))).2
    exact ((escapeIndexBytes_diverges hst).after [_]).lt
  case id.id s t =>
    cases hv
    cases hw
    have hst : s.val < t.val := (hrest.resolve_left (lt_irrefl (0 : ℚ))).2
    exact cons_lt_cons_self.mpr hst
  all_goals first | exact absurd rfl hnumber | cases hv

theorem encodeIndexKey_congr (hv : encodeIndexKey v = some kv) (hw : encodeIndexKey w = some kw)
    (h : indexPosition v = indexPosition w) : kv = kw := by
  obtain ⟨hrank,hrest⟩ := Prod.ext_iff.mp h
  obtain ⟨hnumber,hbytes⟩ := Prod.ext_iff.mp hrest
  change indexRank v = indexRank w at hrank
  change indexNumber v = indexNumber w at hnumber
  change indexBytes v = indexBytes w at hbytes
  by_cases htwo : indexRank v = 2
  · obtain ⟨hx,-⟩ := indexNumber_number hv htwo
    obtain ⟨hy,-⟩ := indexNumber_number hw (hrank ▸ htwo)
    obtain ⟨n,m,rfl,-,hscaled⟩ := encodeIndexKey_number hv hx
    obtain ⟨n',m',rfl,-,hscaled'⟩ := encodeIndexKey_number hw hy
    rw [hnumber,← hscaled'] at hscaled
    exact numericIndexKey_congr (by exact_mod_cast hscaled)
  suffices v = w by
    subst this
    exact some.inj (hv.symm.trans hw)
  cases v <;> cases w <;> try (simp [indexRank] at hrank; done)
  case bool.bool a b => cases a <;> cases b <;> first | rfl | simp [indexNumber] at hnumber
  case time.time s t => exact congrArg Value.time (show s = t from Int.cast_inj.mp hnumber)
  case string.string s t => exact congrArg Value.string hbytes
  case binary.binary s t => exact congrArg Value.binary hbytes
  case id.id s t => exact congrArg Value.id (Subtype.ext hbytes)
  case null.null => rfl
  all_goals first | exact absurd rfl htwo | cases hv

/-- The time that 64 bits of milliseconds stand for. -/
def Value.wrapped : Value → Value
  | .time milliseconds => .time ((milliseconds + 2 ^ 63) % 2 ^ 64 - 2 ^ 63)
  | v => v

theorem encodeIndexKey_wrapped (v : Value) : encodeIndexKey v.wrapped = encodeIndexKey v := by
  cases v <;> try rfl
  case time t =>
    have hmod : ((t + 2 ^ 63) % 2 ^ 64 - 2 ^ 63 + 2 ^ 63) % 2 ^ 64 = (t + 2 ^ 63) % 2 ^ 64 := by omega
    rw [Value.wrapped,encodeIndexKey,encodeIndexKey,hmod]

theorem Value.wrapped_fits (v : Value) : v.wrapped.timeFits := by
  cases v <;> try rfl
  case time t => exact decide_eq_true (by omega)

theorem Value.timeFits_of_wrapped (h : indexPosition v = indexPosition v.wrapped) : v.timeFits := by
  cases v <;> try rfl
  case time t =>
    have hnumber : indexNumber (.time t) = indexNumber (Value.wrapped (.time t)) := (Prod.ext_iff.mp (Prod.ext_iff.mp h).2).1
    have ht : t = (t + 2 ^ 63) % 2 ^ 64 - 2 ^ 63 := Int.cast_inj.mp hnumber
    exact decide_eq_true (by omega)

/-- Strings and binaries have the keys of any length; they compare with every value as the keys do. -/
theorem compareValues_bytes (hrank : indexRank v = 3 ∨ indexRank v = 6) (hv : encodeIndexKey v = some kv)
    (hw : encodeIndexKey w = some kw) : compareValues v w = some (threeWay kv kw) := by
  have hw' : encodeIndexKey w.wrapped = some kw := (encodeIndexKey_wrapped w).trans hw
  have fv : v.timeFits := by cases v <;> first | rfl | simp [indexRank] at hrank
  have hlow (h : indexRank v < indexRank w.wrapped) : threeWay kv kw = .lt :=
    (threeWay_eq_lt _ _).mpr (encodeIndexKey_lt hv hw' fv w.wrapped_fits (Lex.lt_iff.mpr (.inl h)))
  have hhigh (h : indexRank w.wrapped < indexRank v) : threeWay kv kw = .gt :=
    (threeWay_eq_gt _ _).mpr (encodeIndexKey_lt hw' hv w.wrapped_fits fv (Lex.lt_iff.mpr (.inl h)))
  have hescaped (tag : Byte) (s t : Bytes) :
      threeWay ([tag] ++ escapeIndexBytes s) ([tag] ++ escapeIndexBytes t) = threeWay s t := by
    rcases lt_trichotomy s t with h | rfl | h
    · rw [(threeWay_eq_lt _ _).mpr h,(threeWay_eq_lt _ _).mpr ((escapeIndexBytes_diverges h).after [tag]).lt]
    · rw [(threeWay_eq_eq _ _).mpr rfl,(threeWay_eq_eq _ _).mpr rfl]
    · rw [(threeWay_eq_gt _ _).mpr h,(threeWay_eq_gt _ _).mpr ((escapeIndexBytes_diverges h).after [tag]).lt]
  cases v <;> try (simp [indexRank] at hrank; done)
  all_goals cases w
  case string.string s t | binary.binary s t =>
    cases hv
    cases hw
    exact congrArg some (hescaped _ s t).symm
  case string.array | string.object | binary.array | binary.object => cases hw
  all_goals first
    | rw [hlow (by simp [indexRank,Value.wrapped])]; rfl
    | rw [hhigh (by simp [indexRank,Value.wrapped])]; rfl

theorem appendIndexKey_nil (v : Value) : appendIndexKey [] v = encodeIndexKey v := (appendIndexKey_eq [] v).trans map_id'

/-- Byte order of the written keys is the order of the values, and equal keys belong to equal values, exactly
for the values whose milliseconds fit; no key is a proper prefix of another. -/
theorem index_keys_ordered (hv : appendIndexKey [] v = some kv) :
    (v.timeFits ↔ ∀ w kw, appendIndexKey [] w = some kw → w.timeFits →
      (kv < kw ↔ indexPosition v < indexPosition w) ∧ (kv = kw ↔ indexPosition v = indexPosition w)) ∧
    ∀ w kw, appendIndexKey [] w = some kw → kv <+: kw → kv = kw := by
  simp only [appendIndexKey_nil] at hv ⊢
  refine ⟨⟨fun fv w kw hw fw => ?_,fun h => ?_⟩,fun w kw hw =>
    scalarKey_prefixFree _ (encodeIndexKey_scalar hv) _ (encodeIndexKey_scalar hw)⟩
  · rcases lt_trichotomy (indexPosition v) (indexPosition w) with h | h | h
    · have hlt := encodeIndexKey_lt hv hw fv fw h
      exact ⟨iff_of_true hlt h,iff_of_false hlt.ne h.ne⟩
    · have heq := encodeIndexKey_congr hv hw h
      exact ⟨iff_of_false heq.not_lt h.not_lt,iff_of_true heq h⟩
    · have hlt := encodeIndexKey_lt hw hv fw fv h
      exact ⟨iff_of_false hlt.not_gt h.not_gt,iff_of_false hlt.ne' h.ne'⟩
  · have hwrapped := h v.wrapped kv ((encodeIndexKey_wrapped v).trans hv) v.wrapped_fits
    exact Value.timeFits_of_wrapped (hwrapped.2.mp rfl)

/-- A string that continues another sorts after it without extending its key. -/
theorem index_keys_ordered_continued : ∃ kv kw, appendIndexKey [] (.string [0]) = some kv ∧
    appendIndexKey [] (.string [0,1]) = some kw ∧ (kv <+: kw → kv = kw) ∧
      (kv < kw ↔ indexPosition (.string [0]) < indexPosition (.string [0,1])) := by
  obtain ⟨horder,hfree⟩ := index_keys_ordered (v := .string [0]) rfl
  exact ⟨_,_,rfl,rfl,hfree (.string [0,1]) _ rfl,(horder.mp rfl (.string [0,1]) _ rfl rfl).1⟩

/-- Times whose milliseconds need more than 64 bits are ordered modulo `2 ^ 64`. -/
theorem late_time_before_epoch :
    ∃ kv kw, appendIndexKey [] (.time 9223372036854776000) = some kv ∧ appendIndexKey [] (.time 0) = some kw ∧
    kv < kw ∧ indexPosition (.time 0) < indexPosition (.time 9223372036854776000) := by
  refine ⟨_,_,rfl,rfl,by decide +kernel,?_⟩
  have hnumber : indexNumber (.time 0) < indexNumber (.time 9223372036854776000) := by norm_num [indexNumber]
  exact Lex.lt_iff.mpr (.inr ⟨rfl,Lex.lt_iff.mpr (.inl hnumber)⟩)

end Order
end Meldbase.Database
