import Meldbase.Database.Query
import Meldbase.Logical.IndexContents

/-! # Index keys

The order-preserving encoding of scalars, the framing of compound keys, and the
key under which an index lists a document.  A numeric key holds the magnitude
scaled by `2 ^ 1074`, so that every finite float is an integer.
-/
namespace Meldbase.Database
open List
open FixedWidth PrefixOrder

/-! ### Scalars -/

def numericMagnitudeBytes : ℕ := 263
def invertByte (b : Byte) : Byte := ⟨255 - b.val,by omega⟩
def escapeIndexBytes : Bytes → Bytes
  | [] => [0,0]
  | b::rest => if b = 0 then 0::255 :: escapeIndexBytes rest else b :: escapeIndexBytes rest
def numericIndexKey (negative : Bool) (magnitude : ℕ) : Bytes :=
  if magnitude = 0 then 0x30::0x01 :: List.replicate numericMagnitudeBytes 0
  else if negative then 0x30::0x00 :: (bigEndian numericMagnitudeBytes magnitude).map invertByte
  else 0x30::0x02 :: bigEndian numericMagnitudeBytes magnitude
def Float64.magnitude (f : Float64) : ℕ :=
  if f.exponent = 0 then f.fraction else (2 ^ 52 + f.fraction) * 2 ^ (f.exponent - 1)
def encodeIndexKey : Value → Option Bytes
  | .null => some [0x10]
  | .bool b => some [if b then 0x21 else 0x20]
  | .int i => some (numericIndexKey (i.toInt < 0) (i.toInt.natAbs * 2 ^ 1074))
  | .float f => if f.isFinite then some (numericIndexKey f.negative f.magnitude) else none
  | .string s => some (0x40 :: escapeIndexBytes s)
  | .time milliseconds => some (0x50 :: bigEndian 8 ((milliseconds + 2 ^ 63) % 2 ^ 64).toNat)
  | .id id => some (0x60::id.val)
  | .binary b => some (0x70 :: escapeIndexBytes b)
  | .array _ => none
  | .object _ => none

/-! ### Compound keys -/

def maxCompoundIndexFields : ℕ := 4
def maxCanonicalSecondaryKeyLen : ℕ := 4096 - 24

/-- Marks a tuple whose remaining fields are missing. -/
def compoundPartialMarker : Byte := 0x01

/-- Sorts below every encoded scalar component. -/
def compoundComponentFloor : Byte := 0x02

structure IndexField where
  field : Bytes
  order : ℤ
  deriving DecidableEq

structure IndexDefinition where
  name : Bytes
  fields : List IndexField
  unique : Bool
  deriving DecidableEq

/-- Frames a scalar key in reversed byte order. -/
def descendingIndexComponent : Bytes → Bytes
  | [] => [255,255]
  | b::rest =>
    if invertByte b = 255 then 255::0 :: descendingIndexComponent rest
    else invertByte b :: descendingIndexComponent rest
def indexComponent (field : IndexField) (value : Value) : Option Bytes :=
  if field.order ≠ 1 ∧ field.order ≠ -1 then none
  else (encodeIndexKey value).map (if field.order = 1 then escapeIndexBytes else descendingIndexComponent)
def indexComponents : List Value → List IndexField → Option Bytes
  | v::vs,f::fs => do
    let component ← indexComponent f v
    let rest ← indexComponents vs fs
    some (component ++ rest)
  | _,_ => some []

variable (values : List Value) (fields : List IndexField)

def encodeCompoundIndexKey : Option Bytes :=
  if values = [] ∨ values.length ≠ fields.length ∨ maxCompoundIndexFields < fields.length then none
  else do
    let key ← indexComponents values fields
    if maxCanonicalSecondaryKeyLen < key.length then none else some key
def encodeCompoundPartialIndexKey (id : DocumentID) : Option Bytes :=
  if id.isZero then none
  else do
    let key ← encodeCompoundIndexKey values fields
    if maxCanonicalSecondaryKeyLen < key.length+1+id.val.length then none
    else some (key ++ compoundPartialMarker::id.val)
def encodeCompoundIndexPrefix : Option Bytes :=
  if values = [] ∨ fields.length < values.length then none
  else encodeCompoundIndexKey values (fields.take values.length)

/-- Whether an index needs tuple or descending-order encoding. -/
def usesCompoundIndexCodec (definition : IndexDefinition) : Bool :=
  match definition.fields with
  | [f] => f.order ≠ 1
  | _ => true
def presentValues (d : Document) : List IndexField → List Value
  | [] => []
  | f::fs =>
    match lookupInternal d f.field with
    | none => []
    | some v => v :: presentValues d fs

inductive IndexError where
  | invalidIndex
  deriving DecidableEq

/-- A full or partial index key, or `none` for a document that is not indexed. -/
def indexDocumentKey (definition : IndexDefinition) (d : Document) : Except IndexError (Option Bytes) :=
  let values := presentValues d definition.fields
  if definition.fields = [] then .error .invalidIndex
  else if values.length < definition.fields.length then
    if values = [] ∨ !usesCompoundIndexCodec definition then .ok none
    else match d.id with
      | none => .error .invalidIndex
      | some id =>
        match encodeCompoundPartialIndexKey values (definition.fields.take values.length) id with
        | none => .error .invalidIndex
        | some key => .ok (some key)
  else
    match (if usesCompoundIndexCodec definition then encodeCompoundIndexKey values definition.fields
      else values.head?.bind encodeIndexKey) with
    | none => .error .invalidIndex
    | some key => .ok (some key)
def indexKeyPrefixEnd (key : Bytes) : Option Bytes := Logical.lexicographicPrefixEnd key

/-! ### Order of the encodings -/

theorem invertByte_strictAnti : StrictAnti invertByte := by
  intro a b h
  rw [Fin.lt_def] at h ⊢
  have := b.isLt
  simp only [invertByte]
  omega

theorem descendingIndexComponent_eq (s : Bytes) : descendingIndexComponent s = (escapeIndexBytes s).map invertByte := by
  induction s with
  | nil => rfl
  | cons b rest ih =>
    have hb : invertByte b = 255 ↔ b = 0 := by
      rw [Fin.ext_iff,Fin.ext_iff]
      have := b.isLt
      simp [invertByte]
      omega
    rw [descendingIndexComponent,escapeIndexBytes]
    split_ifs with h1 h2 h2
    · rw [ih]
      rfl
    · exact absurd (hb.mp h1) h2
    · exact absurd (hb.mpr h2) h1
    · rw [ih]
      rfl

/-- Escaped strings diverge wherever the strings differ, also where one ends first. -/
theorem escapeIndexBytes_diverges (h : x < y) : Diverges (escapeIndexBytes x) (escapeIndexBytes y) := by
  induction x generalizing y with
  | nil =>
    cases y with
    | nil => exact absurd h (lt_irrefl _)
    | cons b y =>
      rw [escapeIndexBytes,escapeIndexBytes]
      split_ifs with hb
      · exact (Diverges.of_head [] (escapeIndexBytes y) (by decide)).after [0]
      · exact Diverges.of_head _ _ (Fin.pos_of_ne_zero hb)
  | cons a x ih =>
    cases y with
    | nil => exact absurd h (not_lt_nil _)
    | cons b y =>
      rw [escapeIndexBytes,escapeIndexBytes]
      rcases cons_lt_cons_iff.mp h with hab | ⟨rfl,hxy⟩
      · have hb : b ≠ 0 := (Fin.zero_le a |>.trans_lt hab).ne'
        rw [if_neg hb]
        split_ifs with ha
        · exact Diverges.of_head _ _ (Fin.pos_of_ne_zero hb)
        · exact Diverges.of_head _ _ hab
      split_ifs
      · exact (ih hxy).after [0,255]
      · exact (ih hxy).after [a]

theorem escapeIndexBytes_inj_of_extends (hx : escapeIndexBytes x <+: z) (hy : escapeIndexBytes y <+: z) :
    x = y := by
  rcases lt_trichotomy x y with h | h | h
  · exact absurd hy ((escapeIndexBytes_diverges h).not_extends hx)
  · exact h
  · exact absurd hx ((escapeIndexBytes_diverges h).not_extends hy)

def scalarWidth (tag : Byte) : ℕ :=
  if tag = 0x30 then 264 else if tag = 0x50 then 8 else if tag = 0x60 then 16 else 0

inductive ScalarKey : Bytes → Prop where
  | fixed (tag : Byte) (rest : Bytes) (h : tag ∈ [0x10,0x20,0x21,0x30,0x50,0x60])
      (hrest : rest.length = scalarWidth tag) : ScalarKey (tag::rest)
  | escaped (tag : Byte) (s : Bytes) (h : tag ∈ [0x40,0x70]) : ScalarKey (tag :: escapeIndexBytes s)

theorem numericIndexKey_scalar (negative : Bool) (magnitude : ℕ) : ScalarKey (numericIndexKey negative magnitude) := by
  unfold numericIndexKey
  split_ifs
  · exact .fixed 0x30 _ (by decide) (by rw [length_cons,length_replicate]; rfl)
  · exact .fixed 0x30 _ (by decide) (by rw [length_cons,length_map,length_bigEndian]; rfl)
  · exact .fixed 0x30 _ (by decide) (by rw [length_cons,length_bigEndian]; rfl)

variable {k : Bytes}

theorem encodeIndexKey_scalar (h : encodeIndexKey v = some k) : ScalarKey k := by
  cases v with
  | null =>
    cases h
    exact .fixed _ _ (by decide) rfl
  | bool b =>
    cases h
    cases b
    · exact .fixed _ _ (by decide) rfl
    · exact .fixed _ _ (by decide) rfl
  | int i =>
    rw [encodeIndexKey,Option.some.injEq] at h
    rw [← h]
    exact numericIndexKey_scalar _ _
  | float f =>
    rw [encodeIndexKey] at h
    split_ifs at h
    rw [Option.some.injEq] at h
    rw [← h]
    exact numericIndexKey_scalar _ _
  | string s =>
    cases h
    exact .escaped _ _ (by decide)
  | binary b =>
    cases h
    exact .escaped _ _ (by decide)
  | time t =>
    cases h
    exact .fixed _ _ (by decide) (by rw [length_bigEndian]; rfl)
  | id id =>
    cases h
    exact .fixed _ _ (by decide) (by rw [id.property]; rfl)
  | array vs => cases h
  | object fs => cases h

theorem fixed_tag_ne_escaped {tag : Byte} (h : tag ∈ [0x10,0x20,0x21,0x30,0x50,0x60]) : tag ∉ [0x40,0x70] := by
  simp only [mem_cons,not_mem_nil,or_false] at h
  rcases h with rfl | rfl | rfl | rfl | rfl | rfl <;> decide

theorem scalarKey_prefixFree : PrefixFree {k | ScalarKey k} := by
  rintro _ ha _ hb hab
  cases ha with
  | fixed tag rest htag hrest =>
    cases hb with
    | fixed tag' rest' htag' hrest' =>
      obtain ⟨rfl,hp⟩ := cons_prefix_cons.mp hab
      rw [hp.eq_of_length (hrest.trans hrest'.symm)]
    | escaped tag' s' htag' =>
      obtain ⟨rfl,-⟩ := cons_prefix_cons.mp hab
      exact absurd htag' (fixed_tag_ne_escaped htag)
  | escaped tag s htag =>
    cases hb with
    | fixed tag' rest' htag' hrest' =>
      obtain ⟨rfl,-⟩ := cons_prefix_cons.mp hab
      exact absurd htag (fixed_tag_ne_escaped htag')
    | escaped tag' s' htag' =>
      obtain ⟨rfl,hp⟩ := cons_prefix_cons.mp hab
      rw [escapeIndexBytes_inj_of_extends hp (prefix_refl _)]

theorem ScalarKey.tag (h : ScalarKey k) : ∃ tag rest, k = tag::rest ∧ 0x10 ≤ tag ∧ tag ≤ 0x70 := by
  cases h with
  | fixed tag rest htag _ =>
    refine ⟨tag,rest,rfl,?_⟩
    simp only [mem_cons,not_mem_nil,or_false] at htag
    rcases htag with rfl | rfl | rfl | rfl | rfl | rfl <;> decide
  | escaped tag s htag =>
    refine ⟨tag,_,rfl,?_⟩
    simp only [mem_cons,not_mem_nil,or_false] at htag
    rcases htag with rfl | rfl <;> decide

/-! ### Ends of key ranges -/

theorem lt_indexKeyPrefixEnd (h : indexKeyPrefixEnd k = some e) (hz : k <+: z) : z < e :=
  Logical.lt_lexicographicPrefixEnd h hz

theorem indexKeyPrefixEnd_le (h : indexKeyPrefixEnd k = some e) (hz : Diverges k z) : e ≤ z := by
  obtain ⟨front,c,tail,rfl,htail,-,rfl⟩ := Logical.lexicographicPrefixEnd_eq_some h
  obtain ⟨d,a,b,x,y,hk,rfl,hab⟩ := hz
  have ha : a ≠ 255 := by
    rintro rfl
    exact absurd hab (not_lt.mpr (Fin.le_last b))
  have hnext (hca : c = a) : [c+1] ≤ b::y := by
    subst hca
    rcases (Fin.add_one_le_of_lt hab).lt_or_eq with hlt | heq
    · exact (cons_lt_cons_iff.mpr (.inl hlt)).le
    · rw [heq]
      exact cons_le_cons.mpr (.inr ⟨rfl,not_lt.mp (not_lt_nil _)⟩)
  rcases append_eq_append_iff.mp hk with ⟨r,rfl,hr⟩ | ⟨r,rfl,hr⟩
  · -- The strings diverge at or after the raised byte; after it there are only 255s.
    cases r with
    | nil =>
      obtain ⟨rfl,-⟩ := List.cons.inj hr
      rw [append_nil]
      exact append_le_append front (hnext rfl)
    | cons s r =>
      obtain ⟨-,hr⟩ := List.cons.inj hr
      exact absurd (htail a (by rw [hr]; simp)) ha
  cases r with
  | nil =>
    obtain ⟨rfl,-⟩ := List.cons.inj hr
    rw [append_nil]
    exact append_le_append d (hnext rfl)
  | cons s r =>
    obtain ⟨rfl,-⟩ := List.cons.inj hr
    rw [append_assoc]
    exact ((Diverges.of_head _ _ hab).after d).lt.le

theorem placed_prefixEnd (h : Placed o z k) (he : indexKeyPrefixEnd k = some e) :
    ∃ o', Placed o' z e ∧ (o' = .lt ↔ o ≠ .gt) := by
  cases o with
  | gt =>
    obtain ⟨o',hne,h'⟩ := placed_of_le (indexKeyPrefixEnd_le he h)
    exact ⟨o',h',by simp [hne]⟩
  | eq =>
    obtain ⟨front,c,tail,rfl,-,hlt,rfl⟩ := Logical.lexicographicPrefixEnd_eq_some he
    obtain ⟨s,rfl⟩ := h
    exact ⟨.lt,⟨front,c,c+1,tail ++ s,[],by simp,rfl,hlt⟩,by simp⟩
  | lt =>
    have hlt : z < e := (Diverges.lt h).trans (lt_indexKeyPrefixEnd he (prefix_refl _))
    refine ⟨.lt,(prefix_or_diverges hlt).resolve_left (fun hp => ?_),by simp⟩
    obtain ⟨front,c,tail,rfl,-,-,rfl⟩ := Logical.lexicographicPrefixEnd_eq_some he
    rcases prefix_concat_iff.mp hp with rfl | hfront
    · exact lt_irrefl _ hlt
    · exact Diverges.not_extends h (hfront.trans (prefix_append _ _)) (prefix_refl _)

/-- Whether a string is below an upper end; the empty one is open. -/
def Under (high : Ordering) (z stop : Bytes) : Prop := if stop = [] then high = .lt else Placed high z stop

theorem placed_prefixEnd_getD (h : Placed o z k) :
    ∃ high, Under high z ((indexKeyPrefixEnd k).getD []) ∧ (high = .lt ↔ o ≠ .gt) := by
  cases he : indexKeyPrefixEnd k with
  | some e =>
    obtain ⟨o',h',hiff⟩ := placed_prefixEnd h he
    obtain ⟨front,c,tail,-,-,-,rfl⟩ := Logical.lexicographicPrefixEnd_eq_some he
    exact ⟨o',by rwa [Under,Option.getD_some,if_neg (by simp)],hiff⟩
  | none =>
    -- A string of 255s has nothing above it but its extensions.
    refine ⟨.lt,rfl,iff_of_true rfl ?_⟩
    rintro rfl
    obtain ⟨d,a,b,x,y,rfl,-,hab⟩ := h
    have hall : (d ++ a::x).reverse.dropWhile (· = 255) = [] := by
      unfold indexKeyPrefixEnd Logical.lexicographicPrefixEnd at he
      split at he
      · assumption
      · cases he
    have ha := dropWhile_eq_nil_iff.mp hall a (by simp)
    rw [of_decide_eq_true ha] at hab
    exact absurd hab (not_lt.mpr (Fin.le_last b))

theorem indexKeyPrefixEnd_isSome (hk : b ∈ k) (hb : b ≠ 255) : ∃ e, indexKeyPrefixEnd k = some e := by
  unfold indexKeyPrefixEnd Logical.lexicographicPrefixEnd
  cases hd : k.reverse.dropWhile (· = 255) with
  | cons c cs => exact ⟨_,rfl⟩
  | nil =>
    have := dropWhile_eq_nil_iff.mp hd b (by simp [hk])
    simp [hb] at this

theorem placed_lowerEnd (h : Placed o z k) (inclusive : Bool) (hk : b ∈ k) (hb : b ≠ 255) :
    ∃ start low, (if inclusive then some k else indexKeyPrefixEnd k) = some start ∧ start ≠ [] ∧ Placed low z start ∧
      (low ≠ .lt ↔ o = .gt ∨ o = .eq ∧ inclusive = true) := by
  cases inclusive with
  | true => exact ⟨k,o,rfl,ne_nil_of_mem hk,h,by cases o <;> simp⟩
  | false =>
    obtain ⟨start,hs⟩ := indexKeyPrefixEnd_isSome hk hb
    obtain ⟨low,h',hiff⟩ := placed_prefixEnd h hs
    refine ⟨start,low,hs,fun hnil => ?_,h',by rw [ne_eq,hiff]; cases o <;> simp⟩
    exact not_lt_nil k (hnil ▸ lt_indexKeyPrefixEnd hs (prefix_refl _))

theorem placed_upperEnd (h : Placed o z k) (inclusive : Bool) (hk : k ≠ []) :
    ∃ high, Under high z (if inclusive then (indexKeyPrefixEnd k).getD [] else k) ∧
      (high = .lt ↔ o = .lt ∨ o = .eq ∧ inclusive = true) := by
  cases inclusive with
  | true =>
    obtain ⟨high,h',hiff⟩ := placed_prefixEnd_getD h
    exact ⟨high,h',by rw [hiff]; cases o <;> simp⟩
  | false => exact ⟨o,by rwa [if_neg Bool.false_ne_true,Under,if_neg hk],by simp⟩

/-! ### Equality and keys -/

theorem Float64.compare_of_equal {f g : Float64} (h : f.equal g) : f.compare g = .eq := by
  unfold Float64.equal at h
  unfold Float64.compare Float64.less
  cases hf : f.value <;> cases hg : g.value <;> simp_all

theorem scalarKind_of_encodeIndexKey (h : encodeIndexKey v = some k) : scalarKind v.kind := by
  cases v <;> first | rfl | cases h

theorem compareValues_of_equal (h : v.equal w) (hv : scalarKind v.kind) :
    compareValues v w = some .eq := by
  cases v <;> cases w
  case int.float i f =>
    have h : compareIntFloat i f = some .eq := of_decide_eq_true h
    simp [compareValues,compareNumeric,h]
  case float.int f i =>
    have h : compareNumeric (.float f) (.int i) = some .eq := of_decide_eq_true h
    simp [compareValues,h]
  case float.float f g => exact congrArg some (Float64.compare_of_equal h)
  all_goals
    simp_all [Value.equal,compareValues,compareNumeric,compareSameKind,scalarKind,Value.kind,cmp_self_eq_eq]

theorem fieldEquals_scalar (hv : scalarKind v.kind) : fieldEquals v w = v.equal w := by
  cases v <;> first | rfl | cases hv

end Meldbase.Database
