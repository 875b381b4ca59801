import Mathlib.Algebra.Order.Field.Power
import Meldbase.Database.Query

/-! # The order of numbers

An integer is compared with a float after rounding it to a float.  Rounding to the
nearest keeps the order with respect to every float, so the result is that of the
exact values except where an integer rounds up to the very float below 2^63 it is
compared with: the two are then not equal, not less, and reported greater.
-/
namespace Meldbase.Database
open Comparison Option Nat

/-! ### Rounding and significands -/

/-- A rational with a significand of 53 bits. -/
def Dyadic53 (q : ℚ) : Prop := ∃ n e : ℤ, |n| < 2 ^ 53 ∧ q = n * 2 ^ e

variable {q : ℚ}

theorem Dyadic53.neg (h : Dyadic53 q) : Dyadic53 (-q) := by
  obtain ⟨n,e,hn,rfl⟩ := h
  exact ⟨-n,e,by rwa [abs_neg],by push_cast; ring⟩

theorem Float64.fraction_lt (f : Float64) : f.fraction < 2 ^ 52 := (f.bits.extractLsb' 0 52).isLt

theorem Float64.dyadic {f : Float64} (hf : f.value = .finite q) : Dyadic53 q := by
  have hfrac := f.fraction_lt
  have hsign : ∃ s : ℤ, |s| = 1 ∧ (if f.negative then -1 else 1 : ℚ) = s := by
    cases f.negative
    · exact ⟨1,by simp,by simp⟩
    · exact ⟨-1,by simp,by simp⟩
  obtain ⟨s,hs,hscast⟩ := hsign
  unfold Float64.value at hf
  simp only [hscast] at hf
  split_ifs at hf with hinf hsub
  · obtain rfl := FloatValue.finite.inj hf
    refine ⟨s*f.fraction,-(1074 : ℕ),?_,?_⟩
    · rw [abs_mul,hs,one_mul,abs_cast]
      exact_mod_cast hfrac.trans (by norm_num)
    rw [zpow_neg,zpow_natCast,div_eq_mul_inv]
    push_cast
    rfl
  obtain rfl := FloatValue.finite.inj hf
  refine ⟨s * (2 ^ 52 + f.fraction),(f.exponent : ℤ) - (1075 : ℕ),?_,?_⟩
  · rw [abs_mul,hs,one_mul]
    rw [abs_of_nonneg (by positivity)]
    have : (f.fraction : ℤ) < 2 ^ 52 := by exact_mod_cast hfrac
    linarith
  rw [zpow_sub₀ (by norm_num),zpow_natCast,zpow_natCast,← mul_div_assoc]
  push_cast
  rfl

/-- A large dyadic number is a multiple of the spacing of floats at its size. -/
theorem Dyadic53.multiple (h : Dyadic53 q) (hq : 2 ^ (52+s) ≤ q) : ∃ k : ℤ, q = k * 2 ^ s := by
  obtain ⟨n,e,hn,rfl⟩ := h
  have hpos : (0 : ℚ) < 2 ^ e := by positivity
  have hnq : (n : ℚ) < 2 ^ 53 := by
    have : n < 2 ^ 53 := (abs_lt.mp hn).2
    exact_mod_cast this
  have hexp : (s : ℤ) ≤ e := by
    by_contra hlt
    have hle : (2 : ℚ) ^ e ≤ 2 ^ ((s : ℤ) - 1) := zpow_le_zpow_right₀ (by norm_num) (by omega)
    have hsplit : (2 : ℚ) ^ 53 * 2 ^ ((s : ℤ) - 1) = 2 ^ (52+s) := by
      rw [← zpow_natCast,← zpow_natCast,← zpow_add₀ (by norm_num)]
      congr 1
      push_cast
      ring
    have hlt : (n : ℚ) * 2 ^ e < 2 ^ 53 * 2 ^ e := mul_lt_mul_of_pos_right hnq hpos
    have hle' : (2 : ℚ) ^ 53 * 2 ^ e ≤ 2 ^ 53 * 2 ^ ((s : ℤ) - 1) := mul_le_mul_of_nonneg_left hle (by positivity)
    linarith
  obtain ⟨d,rfl⟩ := Int.le.dest hexp
  refine ⟨n * 2 ^ d,?_⟩
  rw [zpow_add₀ (by norm_num),zpow_natCast,zpow_natCast]
  push_cast
  ring

def spacing (m : ℕ) : ℕ := m.log2 - 52

theorem roundToFloat64_large {m : ℕ} (hm : 2 ^ 53 ≤ m) :
    roundToFloat64 m = (m / 2 ^ spacing m * 2 ^ spacing m : ℕ) ∨
    roundToFloat64 m = ((m / 2 ^ spacing m+1) * 2 ^ spacing m : ℕ) ∧ m / 2 ^ spacing m * 2 ^ spacing m < m := by
  have hpos : 0 < m := lt_of_lt_of_le (by norm_num) hm
  unfold roundToFloat64
  rw [Int.natAbs_natCast]
  dsimp only
  rw [if_neg (not_lt.mpr hm),Int.sign_natCast_of_ne_zero hpos.ne',one_mul]
  change (((ite _ _ _ : ℕ) * 2 ^ spacing m : ℕ) : ℤ) = _ ∨ (((ite _ _ _ : ℕ) * 2 ^ spacing m : ℕ) : ℤ) = _ ∧ _
  split_ifs with hup
  · refine .inr ⟨rfl,?_⟩
    change 2 ^ spacing m < 2 * (m % 2 ^ spacing m) ∨ 2 ^ spacing m = 2 * (m % 2 ^ spacing m) ∧ _ at hup
    have hsp : 0 < 2 ^ spacing m := by positivity
    have hrem : 0 < m % 2 ^ spacing m := by omega
    have hdiv := div_add_mod' m (2 ^ spacing m)
    omega
  · exact .inl rfl

theorem roundToFloat64_small (h : i.natAbs < 2 ^ 53) : roundToFloat64 i = i := by
  unfold roundToFloat64
  dsimp only
  rw [if_pos h]

theorem roundToFloat64_neg (i : ℤ) : roundToFloat64 (-i) = -roundToFloat64 i := by
  unfold roundToFloat64
  rw [Int.natAbs_neg]
  dsimp only
  by_cases h : i.natAbs < 2 ^ 53
  · rw [if_pos h,if_pos h]
  · rw [if_neg h,if_neg h,Int.sign_neg,neg_mul]

/-- The size of a large integer in units of its spacing. -/
theorem spacing_bounds (hm : 2 ^ 53 ≤ m) : 2 ^ (52+spacing m) ≤ m ∧ m < 2 ^ (53+spacing m) ∧
    2 ^ 52 ≤ m / 2 ^ spacing m ∧ m / 2 ^ spacing m+1 ≤ 2 ^ 53 := by
  have hne : m ≠ 0 := by
    rintro rfl
    norm_num at hm
  have hlog : 53 ≤ m.log2 := (le_log2 hne).mpr hm
  have hshift : 52+spacing m = m.log2 := by
    unfold spacing
    omega
  have hlow : 2 ^ (52+spacing m) ≤ m := hshift ▸ log2_self_le hne
  have hhigh : m < 2 ^ (53+spacing m) := by
    have : 53+spacing m = m.log2+1 := by omega
    exact this ▸ lt_log2_self
  refine ⟨hlow,hhigh,?_,?_⟩
  · rw [le_div_iff_mul_le (by positivity),← pow_add]
    exact hlow
  · rw [add_one_le_iff,div_lt_iff_lt_mul (by positivity),← pow_add]
    exact hhigh

theorem multiple_le_of_lt {k : ℤ} (h : (k : ℚ) * 2 ^ s < ((u+1 : ℕ) : ℚ) * 2 ^ s) : (k : ℚ) * 2 ^ s ≤ (u : ℚ) * 2 ^ s := by
  have hk : k < ((u+1 : ℕ) : ℤ) := by exact_mod_cast lt_of_mul_lt_mul_right h (by positivity)
  have hle : k ≤ (u : ℤ) := by
    push_cast at hk
    omega
  exact mul_le_mul_of_nonneg_right (by exact_mod_cast hle) (by positivity)

theorem le_multiple_of_lt {k : ℤ} {u s : ℕ} (h : (u : ℚ) * 2 ^ s < (k : ℚ) * 2 ^ s) :
    ((u+1 : ℕ) : ℚ) * 2 ^ s ≤ (k : ℚ) * 2 ^ s := by
  have hk : (u : ℤ) < k := by exact_mod_cast lt_of_mul_lt_mul_right h (by positivity)
  have hle : ((u+1 : ℕ) : ℤ) ≤ k := by
    push_cast
    omega
  exact mul_le_mul_of_nonneg_right (by exact_mod_cast hle) (by positivity)

/-- What does not exceed an integer does not exceed its rounding. -/
theorem Dyadic53.le_round_nat (h : Dyadic53 q) {m : ℕ} (hq : q ≤ m) : q ≤ roundToFloat64 m := by
  by_cases hm : m < 2 ^ 53
  · rw [roundToFloat64_small (by simpa using hm)]
    exact_mod_cast hq
  obtain ⟨-,-,hquot,-⟩ := spacing_bounds (not_lt.mp hm)
  have hlt : m < (m / 2 ^ spacing m+1) * 2 ^ spacing m := lt_mul_of_div_lt (lt_succ_self _) (by positivity)
  rcases roundToFloat64_large (not_lt.mp hm) with hr | ⟨hr,-⟩
  · rw [hr]
    by_cases hsmall : 2 ^ (52+spacing m) ≤ q
    · obtain ⟨k,hk⟩ := h.multiple hsmall
      rw [hk] at hq ⊢
      refine (multiple_le_of_lt (lt_of_le_of_lt hq (by exact_mod_cast hlt))).trans_eq ?_
      push_cast
      rfl
    have hbound : (2 : ℚ) ^ (52+spacing m) ≤ ((m / 2 ^ spacing m * 2 ^ spacing m : ℕ) : ℚ) := by
      rw [pow_add]
      exact_mod_cast mul_le_mul_right (2 ^ spacing m) hquot
    exact ((not_le.mp hsmall).le).trans (by exact_mod_cast hbound)
  · rw [hr]
    exact hq.trans (by exact_mod_cast hlt.le)

/-- What is not below an integer is not below its rounding. -/
theorem Dyadic53.round_nat_le (h : Dyadic53 q) {m : ℕ} (hq : m ≤ q) : roundToFloat64 m ≤ q := by
  by_cases hm : m < 2 ^ 53
  · rw [roundToFloat64_small (by simpa using hm)]
    exact_mod_cast hq
  obtain ⟨hlow,-,-,hquot⟩ := spacing_bounds (not_lt.mp hm)
  rcases roundToFloat64_large (not_lt.mp hm) with hr | ⟨hr,hlt⟩
  · rw [hr]
    refine le_trans ?_ hq
    exact_mod_cast div_mul_le_self m (2 ^ spacing m)
  rw [hr]
  have hlowq : (2 : ℚ) ^ (52+spacing m) ≤ q := le_trans (by exact_mod_cast hlow) hq
  obtain ⟨k,hk⟩ := h.multiple hlowq
  rw [hk] at hq ⊢
  refine Eq.trans_le ?_ (le_multiple_of_lt (lt_of_lt_of_le (by exact_mod_cast hlt) hq))
  push_cast
  rfl

theorem Dyadic53.le_round (h : Dyadic53 q) {i : ℤ} (hq : q ≤ i) : q ≤ roundToFloat64 i := by
  rcases Int.le_total 0 i with hi | hi
  · obtain ⟨m,rfl⟩ := Int.eq_ofNat_of_zero_le hi
    exact h.le_round_nat (by exact_mod_cast hq)
  obtain ⟨m,hm⟩ := Int.eq_ofNat_of_zero_le (Int.neg_nonneg_of_nonpos hi)
  obtain rfl : i = -(m : ℤ) := by omega
  have hround := h.neg.round_nat_le (m := m) (by push_cast at hq; linarith)
  rw [roundToFloat64_neg]
  push_cast
  linarith

theorem Dyadic53.round_le (h : Dyadic53 q) {i : ℤ} (hq : i ≤ q) : roundToFloat64 i ≤ q := by
  have hround := h.neg.le_round (i := -i) (by push_cast; linarith)
  rw [roundToFloat64_neg] at hround
  push_cast at hround
  linarith

/-! ### Comparisons by exact values -/

def Value.number? : Value → Option ℚ
  | .int i => some i.toInt
  | .float f =>
    match f.value with
    | .finite q => some q
    | _ => none
  | _ => none

theorem Value.number_cases {v : Value} (h : v.number? = some x) :
    (∃ i : Int64, v = .int i ∧ x = i.toInt) ∨ ∃ f : Float64, v = .float f ∧ f.value = .finite x := by
  cases v <;> try cases h
  case int i => exact .inl ⟨i,rfl,rfl⟩
  case float f =>
    refine .inr ⟨f,rfl,?_⟩
    change (match f.value with
      | .finite q => some q
      | _ => none) = some x at h
    cases hf : f.value with
    | finite q =>
      rw [hf] at h
      rw [Option.some.inj h]
    | nan =>
      rw [hf] at h
      cases h
    | infinite negative =>
      rw [hf] at h
      cases h

/-- The rounding of the integer decides, unless it hides a lesser integer. -/
theorem compareIntFloat_exact (hf : f.value = .finite q)
    (hup : q < 2 ^ 63 → (roundToFloat64 i.toInt : ℚ) = q → q ≤ i.toInt) :
    compareIntFloat i f = some (threeWay (i.toInt : ℚ) q) := by
  have hdyadic := Float64.dyadic hf
  have hlow : (-2 ^ 63 : ℚ) ≤ i.toInt := by exact_mod_cast i.le_toInt
  have hhigh : (i.toInt : ℚ) < 2 ^ 63 := by exact_mod_cast i.toInt_lt
  unfold compareIntFloat
  rw [hf]
  dsimp only
  split_ifs with habove hbelow heq hless
  · rw [(threeWay_eq_lt _ _).mpr (hhigh.trans_le habove)]
  · rw [(threeWay_eq_gt _ _).mpr (hbelow.trans_le hlow)]
  · obtain ⟨-,hint,htrunc⟩ := heq
    rw [(threeWay_eq_eq _ _).mpr (by rw [← hint,htrunc])]
  · have hlt : (i.toInt : ℚ) < q := by
      by_contra hge
      exact absurd (hdyadic.le_round (not_lt.mp hge)) (not_le.mpr hless)
    rw [(threeWay_eq_lt _ _).mpr hlt]
  have hround : q ≤ roundToFloat64 i.toInt := not_lt.mp hless
  have hle : q ≤ i.toInt := by
    rcases hround.eq_or_lt with hround | hround
    · exact hup (not_le.mp habove) hround.symm
    · by_contra hlt
      exact absurd (hdyadic.round_le (not_le.mp hlt).le) (not_le.mpr hround)
  have hne : q ≠ i.toInt := by
    -- an integer equal to the float rounds to itself and is its truncation
    rintro rfl
    have hself : (roundToFloat64 i.toInt : ℚ) = i.toInt := le_antisymm (hdyadic.round_le le_rfl) hround
    exact heq ⟨hself,by simp [truncate],by simp [truncate]⟩
  rw [(threeWay_eq_gt _ _).mpr (lt_of_le_of_ne hle hne)]

/-- An integer that rounds up to the float is reported greater than it. -/
theorem compareIntFloat_hidden (hf : f.value = .finite q) (hq : q < 2 ^ 63)
    (hround : (roundToFloat64 i.toInt : ℚ) = q) (hlt : i.toInt < q) : compareIntFloat i f = some .gt := by
  unfold compareIntFloat
  rw [hf]
  dsimp only
  rw [if_neg (not_le.mpr hq)]
  split_ifs with hbelow heq hless
  · rfl
  · obtain ⟨-,hint,htrunc⟩ := heq
    rw [← hint,htrunc] at hlt
    exact absurd hlt (lt_irrefl _)
  · exact absurd hround hless.ne
  · rfl

theorem Float64.compare_exact {f g : Float64} (hf : f.value = .finite p) (hg : g.value = .finite q) :
    f.compare g = threeWay p q := by
  unfold Float64.compare Float64.less
  rw [hf,hg]
  dsimp only
  rcases lt_trichotomy p q with h | h | h
  · simp [h,(threeWay_eq_lt p q).mpr h]
  · simp [h]
  · simp [h,h.not_gt,(threeWay_eq_gt p q).mpr h]

def NoHiddenOrder (S : Set Value) : Prop :=
  ∀ i f q, Value.int i ∈ S → Value.float f ∈ S → f.value = .finite q → q < 2 ^ 63 →
    (roundToFloat64 i.toInt : ℚ) = q → q ≤ i.toInt

variable {S : Set Value} {a b : Value} {x y : ℚ}

theorem compareNumeric_exact (hS : NoHiddenOrder S) (ha : a ∈ S) (hb : b ∈ S) (hx : a.number? = some x)
    (hy : b.number? = some y) (hkind : a.kind ≠ b.kind) : compareNumeric a b = some (threeWay x y) := by
  rcases Value.number_cases hx with ⟨i,rfl,rfl⟩ | ⟨f,rfl,hf⟩ <;>
    rcases Value.number_cases hy with ⟨j,rfl,rfl⟩ | ⟨g,rfl,hg⟩
  · exact absurd rfl hkind
  · exact compareIntFloat_exact hg (hS i g y ha hb hg)
  · change (compareIntFloat j f).map Ordering.swap = _
    rw [compareIntFloat_exact hf (hS j f x hb ha hf),map_some,← threeWay_swap]
  · exact absurd rfl hkind

theorem compareValues_exact (hS : NoHiddenOrder S) (ha : a ∈ S) (hb : b ∈ S) (hx : a.number? = some x)
    (hy : b.number? = some y) : compareValues a b = some (threeWay x y) := by
  by_cases hkind : a.kind = b.kind
  · rcases Value.number_cases hx with ⟨i,rfl,rfl⟩ | ⟨f,rfl,hf⟩ <;>
      rcases Value.number_cases hy with ⟨j,rfl,rfl⟩ | ⟨g,rfl,hg⟩
    · change some (threeWay i.toInt j.toInt) = some (threeWay (i.toInt : ℚ) (j.toInt : ℚ))
      exact congrArg some (Int.cast_strictMono.cmp_map_eq i.toInt j.toInt).symm
    · cases hkind
    · cases hkind
    · exact congrArg some (Float64.compare_exact hf hg)
  · unfold compareValues
    rw [compareNumeric_exact hS ha hb hx hy hkind]

theorem compareSortValues_exact (hS : NoHiddenOrder S) (ha : a ∈ S) (hb : b ∈ S) (hx : a.number? = some x)
    (hy : b.number? = some y) : compareSortValues a b = threeWay x y := by
  unfold compareSortValues
  split_ifs with hkind
  · rw [compareNumeric_exact hS ha hb hx hy hkind]
  · rw [compareValues_exact hS ha hb hx hy,getD_some]

def ExactOn (S : Set Value) : Prop :=
  ∀ a ∈ S, ∀ b ∈ S, ∀ x y, a.number? = some x → b.number? = some y →
    compareValues a b = some (threeWay x y) ∧ compareSortValues a b = threeWay x y

theorem NoHiddenOrder.exactOn (hS : NoHiddenOrder S) : ExactOn S :=
  fun _ ha _ hb _ _ hx hy => ⟨compareValues_exact hS ha hb hx hy,compareSortValues_exact hS ha hb hx hy⟩

theorem ExactOn.preorderOn (h : ExactOn S) (hnumbers : ∀ v ∈ S, v.number?.isSome) : PreorderOn compareSortValues S := by
  have hsort : ∀ a ∈ S, ∀ b ∈ S, compareSortValues a b = cmp (a.number?.getD 0) (b.number?.getD 0) := by
    intro a ha b hb
    obtain ⟨x,hx⟩ := isSome_iff_exists.mp (hnumbers a ha)
    obtain ⟨y,hy⟩ := isSome_iff_exists.mp (hnumbers b hb)
    rw [(h a ha b hb x y hx hy).2,hx,hy]
    rfl
  have horder := PreorderOn.of_linearOrder (S := S) fun v : Value => v.number?.getD 0
  constructor
  · intro a ha b hb
    rw [hsort a ha b hb,hsort b hb a ha]
    exact horder.swap a ha b hb
  intro a ha b hb c hc
  rw [hsort a ha b hb,hsort b hb c hc,hsort a ha c hc]
  exact horder.trans a ha b hb c hc

theorem ExactOn.noHiddenOrder (h : ExactOn S) : NoHiddenOrder S := by
  intro i f q hi hf hfinite hq hround
  by_contra hlt
  have hnumber : (Value.float f).number? = some q := by simp only [Value.number?,hfinite]
  have hexact := (h _ hi _ hf _ _ rfl hnumber).1
  have hgreater : compareValues (.int i) (.float f) = some .gt := by
    unfold compareValues
    rw [show compareNumeric (.int i) (.float f) = some .gt from compareIntFloat_hidden hfinite hq hround (not_le.mp hlt)]
  rw [hgreater,(threeWay_eq_lt _ _).mpr (not_le.mp hlt)] at hexact
  cases hexact

/-- Numbers are compared by their exact values, and so in a total preorder, exactly on the
sets in which no integer rounds up to a float below 2^63. -/
theorem numbers_ordered_exactly (S : Set Value) (hnumbers : ∀ v ∈ S, v.number?.isSome) :
    NoHiddenOrder S ↔ ExactOn S ∧ PreorderOn compareSortValues S :=
  ⟨fun hS => ⟨hS.exactOn,hS.exactOn.preorderOn hnumbers⟩,fun h => h.1.noHiddenOrder⟩

/-- The integer `9007199254740995` rounds up to the float `9007199254740996`: it is
reported greater than that float, and less than the integer the float equals. -/
theorem rounded_tie_hides_order :
    compareValues (.int 9007199254740995) (.float ⟨0x4340000000000002⟩) = some .gt ∧
    (Value.float ⟨0x4340000000000002⟩).number? = some 9007199254740996 ∧
    compareSortValues (.int 9007199254740996) (.float ⟨0x4340000000000002⟩) = .eq ∧
    compareSortValues (.float ⟨0x4340000000000002⟩) (.int 9007199254740995) = .lt ∧
    compareSortValues (.int 9007199254740996) (.int 9007199254740995) = .gt := by
  refine ⟨?_,?_,?_,?_,?_⟩ <;> decide +kernel

def halfFloat : Float64 := ⟨0x3fe0000000000000⟩

def tieFloat : Float64 := ⟨0x4340000000000002⟩

def mixedNumbers : Set Value := {Value.int 9007199254740997,Value.float halfFloat,Value.float tieFloat}

/-- An integer that rounds down to a float keeps its place above it. -/
theorem numbers_ordered_exactly_mixed : ExactOn mixedNumbers ∧ PreorderOn compareSortValues mixedNumbers := by
  have hhalf : halfFloat.value = .finite (1 / 2) := by decide +kernel
  have htie : tieFloat.value = .finite 9007199254740996 := by decide +kernel
  have hround : roundToFloat64 (Int64.toInt 9007199254740997) = 9007199254740996 := by decide +kernel
  refine (numbers_ordered_exactly mixedNumbers ?_).mp ?_
  · rintro v (rfl | rfl | rfl) <;> decide +kernel
  rintro i f q (hi | hi | hi) (hf | hf | hf) hq - hr <;> cases hi <;> cases hf
  · rw [hround] at hr
    rw [hhalf] at hq
    cases hq
    norm_num at hr
  · rw [htie] at hq
    cases hq
    decide +kernel

end Meldbase.Database
