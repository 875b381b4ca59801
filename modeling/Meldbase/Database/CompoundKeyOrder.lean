import Meldbase.Database.IndexIntervals
import Meldbase.Database.IndexKeyOrder

/-! # Order of compound keys

Two components of one field agree, or diverge in the direction of the field.
Keys of tuples are therefore ordered as the tuples are, and leading components
are a prefix of the keys that begin with them.
-/
namespace Meldbase.Database
open List Option
open PrefixOrder

def compareTuples : List IndexField → List Value → List Value → Ordering
  | f::fs,v::vs,w::ws =>
    (if f.order = 1 then cmp (indexPosition v) (indexPosition w) else cmp (indexPosition w) (indexPosition v)).then
      (compareTuples fs vs ws)
  | _,_,_ => .eq

theorem compareTuples_cons (f : IndexField) (fs : List IndexField) (v w : Value) (vs ws : List Value) :
    compareTuples (f::fs) (v::vs) (w::ws) = (if f.order = 1 then cmp (indexPosition v) (indexPosition w)
      else cmp (indexPosition w) (indexPosition v)).then (compareTuples fs vs ws) := rfl

theorem threeWay_of_encodedAs {a b : Bytes} (h : EncodedAs o a b) : threeWay a b = o := by
  cases o with
  | lt => exact cmp_eq_lt_iff a b |>.mpr (Diverges.lt h)
  | eq => exact cmp_eq_eq_iff a b |>.mpr h
  | gt => exact cmp_eq_gt_iff a b |>.mpr (Diverges.lt h)

theorem indexComponent_encodedAs (hv : indexComponent f v = some cv)
    (hw : indexComponent f w = some cw) (fv : v.timeFits) (fw : w.timeFits) :
    EncodedAs (if f.order = 1 then cmp (indexPosition v) (indexPosition w) else cmp (indexPosition w) (indexPosition v))
      cv cw := by
  obtain ⟨kv,hkv,-⟩ := indexComponent_key hv
  obtain ⟨kw,hkw,-⟩ := indexComponent_key hw
  have hkeys : threeWay kv kw = cmp (indexPosition v) (indexPosition w) := by
    rcases lt_trichotomy (indexPosition v) (indexPosition w) with h | h | h
    · rw [cmp_eq_lt_iff _ _ |>.mpr h,cmp_eq_lt_iff]
      exact encodeIndexKey_lt hkv hkw fv fw h
    · rw [h,cmp_self_eq_eq,cmp_eq_eq_iff]
      exact encodeIndexKey_congr hkv hkw h
    · rw [cmp_eq_gt_iff _ _ |>.mpr h,cmp_eq_gt_iff]
      exact encodeIndexKey_lt hkw hkv fw fv h
  have h := indexComponent_ordered hkv hkw hv hw
  rwa [hkeys,cmp_swap] at h

variable {fields : List IndexField} {vs ws : List Value}

section
variable (hv : vs.length = fields.length)
include hv

section
variable (hw : ws.length = fields.length)
include hw

theorem compareTuples_eq_iff : compareTuples fields vs ws = .eq ↔ vs.map indexPosition = ws.map indexPosition := by
  induction fields generalizing vs ws with
  | nil =>
    obtain rfl := eq_nil_of_length_eq_zero hv
    obtain rfl := eq_nil_of_length_eq_zero hw
    exact iff_of_true rfl rfl
  | cons f fs ih =>
    obtain ⟨v,vs,rfl⟩ := exists_cons_of_length_eq_add_one hv
    obtain ⟨w,ws,rfl⟩ := exists_cons_of_length_eq_add_one hw
    rw [compareTuples_cons,Ordering.then_eq_eq,ih (by simpa using hv) (by simpa using hw),map_cons,map_cons,cons_eq_cons]
    by_cases hf : f.order = 1
    · rw [if_pos hf,cmp_eq_eq_iff]
    · rw [if_neg hf,cmp_eq_eq_iff,eq_comm]

theorem indexComponents_encodedAs
     (ha : indexComponents vs fields = some a) (hb : indexComponents ws fields = some b)
    (fv : ∀ v ∈ vs, v.timeFits) (fw : ∀ w ∈ ws, w.timeFits) : EncodedAs (compareTuples fields vs ws) a b := by
  induction fields generalizing vs ws a b with
  | nil =>
    obtain rfl := eq_nil_of_length_eq_zero hv
    obtain rfl := eq_nil_of_length_eq_zero hw
    exact some.inj (ha.symm.trans hb)
  | cons f fs ih =>
    obtain ⟨v,vs,rfl⟩ := exists_cons_of_length_eq_add_one hv
    obtain ⟨w,ws,rfl⟩ := exists_cons_of_length_eq_add_one hw
    obtain ⟨fv,fvs⟩ := forall_mem_cons.mp fv
    obtain ⟨fw,fws⟩ := forall_mem_cons.mp fw
    rw [indexComponents] at ha hb
    obtain ⟨cv,hcv,ha⟩ := bind_eq_some_iff.mp ha
    obtain ⟨a,ha',ha⟩ := bind_eq_some_iff.mp ha
    obtain ⟨cw,hcw,hb⟩ := bind_eq_some_iff.mp hb
    obtain ⟨b,hb',hb⟩ := bind_eq_some_iff.mp hb
    cases ha
    cases hb
    exact (indexComponent_encodedAs hcv hcw fv fw).then (ih (by simpa using hv) (by simpa using hw) ha' hb' fvs fws)

theorem indexComponents_eq_of_extends
     (ha : indexComponents vs fields = some a) (hb : indexComponents ws fields = some b)
    (haz : a <+: z) (hbz : b <+: z) : a = b := by
  obtain ⟨o,hplaced,hiff⟩ : ∃ o, Placed o (b ++ []) a ∧ (o = .eq ↔ vs.map encodeIndexKey <+: ws.map encodeIndexKey) :=
    components_placed hv.le (by rwa [hv,take_length]) (by rwa [hw,take_length]) (by simp [hw])
  rw [append_nil] at hplaced
  cases o with
  | lt => exact absurd haz (Diverges.not_extends hplaced hbz)
  | gt => exact absurd hbz (Diverges.not_extends hplaced haz)
  | eq =>
    rw [indexComponents_congr ((hiff.mp rfl).eq_of_length (by simp [hv,hw])),hb] at ha
    exact (some.inj ha).symm

end

theorem partial_not_extended {id : DocumentID}
     (hkv : indexComponents vs fields = some kv) (hlt : us.length < fields.length)
    (hp : encodeCompoundPartialIndexKey us (fields.take us.length) id = some kp) : ¬ kp <+: kv := by
  unfold encodeCompoundPartialIndexKey at hp
  split_ifs at hp
  obtain ⟨ku,hku,hp⟩ := bind_eq_some_iff.mp hp
  split_ifs at hp
  cases hp
  have hku := (encodeCompoundIndexKey_eq hku).2
  intro hpre
  rw [← take_append_drop us.length vs,← take_append_drop us.length fields] at hkv
  obtain ⟨a,b,ha,hb,rfl⟩ := indexComponents_append (by simp [hv]) hkv
  -- The leading components are those of the tuple, and no component begins with the marker.
  obtain rfl : ku = a := indexComponents_eq_of_extends (by simp [hlt.le]) (by simp [hv]) hku ha
    ((prefix_append ku _).trans hpre) (prefix_append a b)
  rw [prefix_append_right_inj] at hpre
  obtain ⟨v,vs',hvs⟩ := exists_cons_of_length_pos (l := vs.drop us.length) (by simp; omega)
  obtain ⟨f,fs',hfs⟩ := exists_cons_of_length_pos (l := fields.drop us.length) (by simp; omega)
  rw [hvs,hfs,indexComponents] at hb
  obtain ⟨c,hc,hb⟩ := bind_eq_some_iff.mp hb
  obtain ⟨rest,-,hb⟩ := bind_eq_some_iff.mp hb
  cases hb
  obtain ⟨first,more,rfl,hfloor,-⟩ := indexComponent_floor hc
  rw [cons_append] at hpre
  obtain ⟨rfl,-⟩ := cons_prefix_cons.mp hpre
  exact absurd hfloor (by decide)

end

theorem prefix_iff_of_fits {kv ku : Bytes} (hvl : vs.length = fields.length) (hv : indexComponents vs fields = some kv)
    (fv : ∀ v ∈ vs, v.timeFits) (hu : encodeCompoundIndexPrefix us fields = some ku) (fu : ∀ u ∈ us, u.timeFits) :
    ku <+: kv ↔ us.map indexPosition <+: vs.map indexPosition := by
  obtain ⟨hul,hu⟩ := encodeCompoundIndexPrefix_eq hu
  rw [← take_append_drop us.length vs,← take_append_drop us.length fields] at hv
  obtain ⟨a,b,ha,-,rfl⟩ := indexComponents_append (by simp [hvl]) hv
  have hlen : us.length = (fields.take us.length).length := by simp [hul]
  have htake : (vs.take us.length).length = (fields.take us.length).length := by simp [hvl]
  have h := indexComponents_encodedAs hlen htake hu ha fu (fun v hm => fv v (mem_of_mem_take hm))
  have hiff := compareTuples_eq_iff hlen htake
  have hextends : us.map indexPosition <+: vs.map indexPosition ↔
    us.map indexPosition = (vs.take us.length).map indexPosition := by
    rw [prefix_iff_eq_take,map_take,length_map]
  rw [hextends,← hiff]
  constructor
  · exact fun hp => h.of_extends hp (prefix_append a b)
  intro heq
  rw [heq] at h
  obtain rfl : ku = a := h
  exact prefix_append ku b

theorem encodeCompoundIndexKey_wrapped (vs : List Value) (fields : List IndexField) :
    encodeCompoundIndexKey (vs.map Value.wrapped) fields = encodeCompoundIndexKey vs fields := by
  have hcomponents : indexComponents (vs.map Value.wrapped) fields = indexComponents vs fields :=
    indexComponents_congr (by simp [encodeIndexKey_wrapped])
  simp only [encodeCompoundIndexKey,hcomponents,length_map,map_eq_nil_iff]

/-- Compound keys are ordered as their tuples, and leading components are a prefix of exactly the keys that
begin with their values, exactly for the tuples whose times fit; no key is a proper prefix of another, and a
partial key, which ends in the marker and the id, is a prefix of no full key. -/
theorem compound_keys_ordered {kv : Bytes} (hv : encodeCompoundIndexKey vs fields = some kv) :
    ((∀ v ∈ vs, v.timeFits) ↔
      (∀ ws kw, encodeCompoundIndexKey ws fields = some kw → (∀ w ∈ ws, w.timeFits) →
        threeWay kv kw = compareTuples fields vs ws ∧ (kv = kw ↔ vs.map indexPosition = ws.map indexPosition)) ∧
      ∀ us ku, encodeCompoundIndexPrefix us fields = some ku → (∀ u ∈ us, u.timeFits) →
        (ku <+: kv ↔ us.map indexPosition <+: vs.map indexPosition)) ∧
    (∀ ws kw, encodeCompoundIndexKey ws fields = some kw → kv <+: kw → kv = kw) ∧
    ∀ us id kp, us.length < fields.length → encodeCompoundPartialIndexKey us (fields.take us.length) id = some kp →
      ¬ kp <+: kv := by
  have hkey := hv
  obtain ⟨hvl,hv⟩ := encodeCompoundIndexKey_eq hv
  refine ⟨⟨fun fv => ⟨fun ws kw hw fw => ?_,fun us ku hu fu => ?_⟩,fun h v hvs => ?_⟩,fun ws kw hw hp => ?_,
    fun us id kp => partial_not_extended hvl hv⟩
  · obtain ⟨hwl,hw⟩ := encodeCompoundIndexKey_eq hw
    have h := threeWay_of_encodedAs (indexComponents_encodedAs hvl hwl hv hw fv fw)
    exact ⟨h,by rw [← compareTuples_eq_iff hvl hwl,← h,cmp_eq_eq_iff]⟩
  · exact prefix_iff_of_fits hvl hv fv hu fu
  · -- The wrapped tuple has the same key.
    have hwrapped := h.1 (vs.map Value.wrapped) kv ((encodeCompoundIndexKey_wrapped vs fields).trans hkey)
      (forall_mem_map.mpr fun v _ => v.wrapped_fits)
    rw [List.map_map] at hwrapped
    exact Value.timeFits_of_wrapped (map_inj_left.mp (hwrapped.2.mp rfl) v hvs)
  · obtain ⟨hwl,hw⟩ := encodeCompoundIndexKey_eq hw
    exact indexComponents_eq_of_extends hvl hwl hv hw hp (prefix_refl kw)

def mixedFields : List IndexField := [⟨[107],1⟩,⟨[108],-1⟩]

theorem compound_keys_ordered_mixed : ∃ kv kw, encodeCompoundIndexKey [.bool true,.string []] mixedFields = some kv ∧
    encodeCompoundIndexKey [.bool true,.string [0]] mixedFields = some kw ∧
    threeWay kv kw = compareTuples mixedFields [.bool true,.string []] [.bool true,.string [0]] :=
  ⟨_,_,rfl,rfl,(((compound_keys_ordered rfl).1.mp (by decide)).1 [.bool true,.string [0]] _ rfl (by decide)).1⟩

/-- The milliseconds of a late time wrap around, so its key is before that of the epoch. -/
theorem late_tuple_before_epoch : ∃ kv kw, encodeCompoundIndexKey [.time 9223372036854776000] [⟨[107],1⟩] = some kv ∧
    encodeCompoundIndexKey [.time 0] [⟨[107],1⟩] = some kw ∧ kv < kw ∧
    compareTuples [⟨[107],1⟩] [.time 9223372036854776000] [.time 0] = .gt := by
  refine ⟨_,_,rfl,rfl,by decide +kernel,?_⟩
  have hlate : indexPosition (.time 0) < indexPosition (.time 9223372036854776000) :=
    Prod.Lex.lt_iff.mpr (.inr ⟨rfl,Prod.Lex.lt_iff.mpr (.inl (by decide +kernel))⟩)
  exact congrArg (Ordering.then · .eq) ((cmp_eq_gt_iff _ _).mpr hlate)

end Meldbase.Database
