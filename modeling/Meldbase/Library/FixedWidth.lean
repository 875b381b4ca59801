import Mathlib.Order.Fin.Basic
import Mathlib.Tactic.Ring
import Meldbase.Library.ByteText
import Meldbase.Library.PrefixOrder

/-! # Fixed-width byte encodings

Little- and big-endian encodings of naturals in a given number of bytes, with the
decoding that inverts them below the width's bound.
-/
namespace Meldbase.FixedWidth

def littleEndian : ℕ → ℕ → List (Fin 256)
  | 0, _ => []
  | w+1, n => Fin.ofNat 256 n :: littleEndian w (n / 256)
def ofLittleEndian : List (Fin 256) → ℕ
  | [] => 0
  | d::ds => d.val+256*ofLittleEndian ds
def bigEndian (w n : ℕ) : List (Fin 256) := (littleEndian w n).reverse
def ofBigEndian (ds : List (Fin 256)) : ℕ := ofLittleEndian ds.reverse

@[simp] theorem length_littleEndian (w n : ℕ) : (littleEndian w n).length = w := by
  induction w generalizing n with
  | zero => rfl
  | succ w ih => simp [littleEndian,ih]

@[simp] theorem length_bigEndian (w n : ℕ) : (bigEndian w n).length = w := by simp [bigEndian]

theorem ofLittleEndian_littleEndian {w n : ℕ} (h : n < 256 ^ w) : ofLittleEndian (littleEndian w n) = n := by
  induction w generalizing n with
  | zero => simp only [pow_zero,Nat.lt_one_iff] at h; simp [littleEndian,ofLittleEndian,h]
  | succ w ih =>
    have hq : n / 256 < 256 ^ w := Nat.div_lt_of_lt_mul (by rwa [pow_succ,Nat.mul_comm] at h)
    simp only [littleEndian,ofLittleEndian,ih hq,Fin.val_ofNat]
    omega

theorem ofBigEndian_bigEndian {w n : ℕ} (h : n < 256 ^ w) : ofBigEndian (bigEndian w n) = n := by
  simp [ofBigEndian,bigEndian,ofLittleEndian_littleEndian h]

theorem bigEndian_inj {w m n : ℕ} (hm : m < 256 ^ w) (hn : n < 256 ^ w) :
    bigEndian w m = bigEndian w n ↔ m = n := by
  refine ⟨fun h => ?_,fun h => by rw [h]⟩
  rw [← ofBigEndian_bigEndian hm,h,ofBigEndian_bigEndian hn]

theorem ofLittleEndian_lt (ds : List (Fin 256)) : ofLittleEndian ds < 256 ^ ds.length := by
  induction ds with
  | nil => simp [ofLittleEndian]
  | cons d ds ih =>
    have hd := d.isLt
    simp only [ofLittleEndian,List.length_cons,pow_succ]
    omega

theorem bigEndian_succ (w n : ℕ) : bigEndian (w+1) n = bigEndian w (n / 256) ++ [Fin.ofNat 256 n] := by
  simp [bigEndian,littleEndian]

theorem bigEndian_zero (w : ℕ) : bigEndian w 0 = List.replicate w 0 := by
  induction w with
  | zero => rfl
  | succ w ih =>
    rw [bigEndian_succ,Nat.zero_div,ih,List.replicate_succ']
    rfl

theorem bigEndian_append (a b n : ℕ) : bigEndian (a+b) n = bigEndian a (n / 256 ^ b) ++ bigEndian b n := by
  induction b generalizing n with
  | zero => simp [bigEndian,littleEndian]
  | succ b ih =>
    rw [← Nat.add_assoc,bigEndian_succ,ih,bigEndian_succ b,Nat.div_div_eq_div_mul,← pow_succ',List.append_assoc]

theorem bigEndian_mod (w n : ℕ) : bigEndian w (n % 256 ^ w) = bigEndian w n := by
  induction w generalizing n with
  | zero => rfl
  | succ w ih =>
    have hlast : Fin.ofNat 256 (n % 256 ^ (w+1)) = Fin.ofNat 256 n := by
      rw [Fin.ext_iff,Fin.val_ofNat,Fin.val_ofNat,Nat.mod_mod_of_dvd n (Dvd.intro_left _ (pow_succ 256 w).symm)]
    rw [bigEndian_succ,bigEndian_succ,hlast,pow_succ',Nat.mod_mul_right_div_self,ih]

theorem bigEndian_mul_pow (w n : ℕ) : bigEndian w (n * 256 ^ w) = List.replicate w 0 := by
  rw [← bigEndian_mod,Nat.mul_mod_left,bigEndian_zero]

theorem bigEndian_diverges {w m n : ℕ} (h : m < n) (hn : n < 256 ^ w) :
    PrefixOrder.Diverges (bigEndian w m) (bigEndian w n) := by
  induction w generalizing m n with
  | zero =>
    rw [pow_zero] at hn
    omega
  | succ w ih =>
    have hq : n / 256 < 256 ^ w := Nat.div_lt_of_lt_mul (by rwa [pow_succ,Nat.mul_comm] at hn)
    rw [bigEndian_succ,bigEndian_succ]
    rcases (Nat.div_le_div_right (c := 256) h.le).lt_or_eq with hlt | heq
    · exact (ih hlt hq).append _ _
    rw [heq]
    refine (PrefixOrder.Diverges.of_head [] [] ?_).after _
    rw [Fin.lt_def,Fin.val_ofNat,Fin.val_ofNat]
    omega

end Meldbase.FixedWidth
