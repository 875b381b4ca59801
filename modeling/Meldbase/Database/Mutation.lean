import Meldbase.Database.QueryValidation

/-! # Compiled updates

A mutation is a list of edits at dotted paths.  Edits run in order on a copy of
the document and the result is validated.  What an edit at one path leaves
alone is every value at a path that neither contains nor extends it.
-/
namespace Meldbase.Database
open List Outcome

inductive UpdateError where
  | invalidUpdate
  | invalidDocument
  | corrupt
  deriving DecidableEq

/-! ### Float addition -/

def Float64.nearest (q : ℚ) : Float64 :=
  let scaled := q.num.natAbs * 2 ^ 1074
  let shift := (scaled / q.den).log2 - 52
  let unit := q.den * 2 ^ shift
  let quotient := scaled / unit
  let remainder := scaled % unit
  let rounded := if unit < 2*remainder ∨ unit = 2*remainder ∧ quotient % 2 = 1 then quotient+1 else quotient
  -- the exponent field is one more than the shift once the significand has its leading bit
  let magnitude := min (shift * 2 ^ 52 + rounded) (2047 * 2 ^ 52)
  ⟨BitVec.ofNat 64 (if q < 0 then 2 ^ 63 + magnitude else magnitude)⟩
def Float64.zero : Float64 := ⟨0⟩
def Float64.negativeZero : Float64 := ⟨0x8000000000000000⟩
def Float64.quietNaN : Float64 := ⟨0x7ff8000000000001⟩
def Float64.add (f g : Float64) : Float64 :=
  match f.value,g.value with
  | .nan,_ => .quietNaN
  | _,.nan => .quietNaN
  | .infinite a,.infinite b => if a = b then f else .quietNaN
  | .infinite _,.finite _ => f
  | .finite _,.infinite _ => g
  | .finite a,.finite b =>
    if a+b = 0 then if f.negative && g.negative then .negativeZero else .zero else .nearest (a+b)

-- one half and one; the largest float overflows when it is doubled
example : Float64.add ⟨0x3fe0000000000000⟩ ⟨0x3ff0000000000000⟩ = ⟨0x3ff8000000000000⟩ := by decide +kernel
example : Float64.add ⟨0x7fefffffffffffff⟩ ⟨0x7fefffffffffffff⟩ = ⟨0x7ff0000000000000⟩ := by decide +kernel

def exactFloat64 (i : Int64) : Option Float64 :=
  if roundToFloat64 i.toInt = i.toInt then some (if i.toInt = 0 then .zero else .nearest i.toInt) else none

/-- The float of a number; `none` when it loses precision.  The source reads the float field of
an operand that is no integer, which is zero unless it holds a float. -/
def floatOperand : Value → Option Float64
  | .int i => exactFloat64 i
  | .float f => some f
  | _ => some .zero
def addNumbers : Value → Value → Except UpdateError Value
  | .int a,.int b =>
    let sum := a+b
    if 0 < b ∧ sum < a ∨ b < 0 ∧ a < sum then .error .invalidUpdate else .ok (.int sum)
  | left,right =>
    if left.kind ≠ .int64 ∧ left.kind ≠ .float64 then .error .invalidUpdate
    else match floatOperand left,floatOperand right with
    | some a,some b => if (a.add b).isFinite then .ok (.float (a.add b)) else .error .invalidUpdate
    | _,_ => .error .invalidUpdate

/-! ### Writing fields -/

def putField : Document → Bytes → Value → Document
  | [],field,v => [(field,v)]
  | e::rest,field,v => if e.1 = field then (field,v) :: rest else e :: putField rest field v

variable (d : Document)

def deleteField (field : Bytes) : Document := d.filter (fun e => e.1 ≠ field)

@[simp] theorem lookupField_putField (field : Bytes) (v : Value) :
    lookupField (putField d field v) field = some v := by
  induction d with
  | nil => simp [putField,lookupField]
  | cons e rest ih =>
    rw [putField]
    split_ifs with h
    · simp [lookupField]
    · rw [lookupField,if_neg h,ih]

variable {other : Bytes}

theorem lookupField_putField_ne (h : other ≠ field) (d : Document) (v : Value) :
    lookupField (putField d field v) other = lookupField d other := by
  induction d with
  | nil => simp [putField,lookupField,h.symm]
  | cons e rest ih =>
    rw [putField]
    split_ifs with he
    · rw [lookupField,lookupField,if_neg h.symm,if_neg (he ▸ h.symm)]
    · rw [lookupField,lookupField,ih]

theorem lookupField_deleteField_ne (h : other ≠ field) (d : Document) :
    lookupField (deleteField d field) other = lookupField d other := by
  induction d with
  | nil => rfl
  | cons e rest ih =>
    unfold deleteField at ih ⊢
    rw [filter_cons]
    split_ifs with he
    · rw [lookupField,lookupField,ih]
    · have hname : e.1 = field := by simpa using he
      rw [ih,lookupField,if_neg (hname ▸ h.symm)]

/-! ### Writing paths -/

def setParts (d : Document) (parts : List Bytes) (value : Value) : Except UpdateError Document :=
  match parts with
  | [] => .ok d
  | [part] => .ok (putField d part value)
  | part::parts =>
    match lookupField d part with
    | none => do
      let child ← setParts [] parts value
      .ok (putField d part (.object child))
    | some (.object fields) => do
      let child ← setParts fields parts value
      .ok (putField d part (.object child))
    | some _ => .error .invalidUpdate

variable (path : Bytes)

def setPath (value : Value) : Except UpdateError Document := setParts d (splitPath path) value

/-- Removes the field at the parts if its parent objects exist. -/
def unsetParts (d : Document) : List Bytes → Document
  | [] => d
  | [part] => deleteField d part
  | part::parts =>
    match lookupField d part with
    | some (.object fields) => putField d part (.object (unsetParts fields parts))
    | _ => d
def unsetPath : Document := unsetParts d (splitPath path)

/-! ### Operations -/

inductive UpdateKind where
  | set
  | unset
  | inc
  | push
  | pull
  deriving DecidableEq

/-- One compiled field edit. -/
structure UpdateOperation where
  kind : UpdateKind
  path : Bytes
  value : Value

structure MutationSpec where
  operations : List UpdateOperation

def covers (ancestor path : Bytes) : Bool := path = ancestor || (ancestor ++ [0x2e]).isPrefixOf path
def validateMutationPath (previous : List Bytes) : Bool :=
  validatePath path && !covers idField path && previous.all (fun existing => !covers existing path && !covers path existing)
def validateMutationPaths : List Bytes → List Bytes → Bool
  | _,[] => true
  | previous,path::paths => validateMutationPath path previous && validateMutationPaths (previous ++ [path]) paths

/-- What compilation accepts: paths apart from each other and from the id, and numbers as increments. -/
def MutationSpec.compiled (m : MutationSpec) : Bool :=
  validateMutationPaths [] (m.operations.map UpdateOperation.path) &&
    m.operations.all (fun operation => operation.kind ≠ .inc || operation.value.kind = .int64 || operation.value.kind = .float64)

/-- The edited field paths; the source returns them sorted, for its callers only test each one. -/
def MutationSpec.paths (m : MutationSpec) : List Bytes := m.operations.map UpdateOperation.path
def applyUpdateOperation (operation : UpdateOperation) : Except UpdateError Document :=
  match operation.kind with
  | .set => setPath d operation.path operation.value
  | .unset => .ok (unsetPath d operation.path)
  | .inc =>
    match lookupInternal d operation.path with
    | none => setPath d operation.path operation.value
    | some current => do
      let value ← addNumbers current operation.value
      setPath d operation.path value
  | .push =>
    match lookupInternal d operation.path with
    | none => setPath d operation.path (.array [operation.value])
    | some (.array items) => setPath d operation.path (.array (items ++ [operation.value]))
    | some _ => .error .invalidUpdate
  | .pull =>
    match lookupInternal d operation.path with
    | none => .ok d
    | some (.array items) => setPath d operation.path (.array (items.filter (fun item => !item.equal operation.value)))
    | some _ => .error .invalidUpdate

/-- Runs the compiled edits on a copy of the document and validates the result. -/
def MutationSpec.apply (m : MutationSpec) (d : Document) : Except UpdateError Document :=
  if m.operations = [] then .error .invalidUpdate
  else do
    let result ← m.operations.foldlM applyUpdateOperation d
    if result.validate then .ok result else .error .invalidDocument
def prepareDocumentUpdates (m : MutationSpec) : List Document → Except UpdateError (List (DocumentID × Document))
  | [] => .ok []
  | d::rest =>
    match d.id with
    | none => .error .corrupt
    | some id => do
      let after ← m.apply d
      let changes ← prepareDocumentUpdates m rest
      .ok (if after.equal d then changes else (id,after) :: changes)

/-! ### What an edit leaves alone -/

theorem splitPath_ne_nil : splitPath path ≠ [] := by
  cases path with
  | nil => simp [splitPath]
  | cons b rest =>
    rw [splitPath]
    split_ifs
    · simp
    · split <;> simp

theorem splitPath_dot : splitPath (0x2e::path) = [] :: splitPath path := by
  rw [splitPath,if_pos rfl]

theorem splitPath_char (hb : b ≠ 0x2e) (path : Bytes) :
    ∃ part parts, splitPath path = part::parts ∧ splitPath (b::path) = (b::part) :: parts := by
  obtain ⟨part,parts,h⟩ := exists_cons_of_ne_nil (splitPath_ne_nil path)
  refine ⟨part,parts,h,?_⟩
  rw [splitPath,if_neg hb,h]

/-- The parts of a path extend those of another iff it is that path or goes on
with a dot: what the source tests with `strings.HasPrefix`. -/
theorem splitPath_extends {path : Bytes} :
    splitPath path <+: splitPath other ↔ other = path ∨ path ++ [0x2e] <+: other := by
  induction path generalizing other with
  | nil =>
    cases other with
    | nil => simp [splitPath]
    | cons c rest =>
      by_cases hc : c = 0x2e
      · rw [hc,splitPath_dot]
        simp [splitPath,cons_prefix_cons]
      obtain ⟨part,parts,-,h⟩ := splitPath_char hc rest
      rw [h]
      simp [splitPath,cons_prefix_cons,Ne.symm hc]
  | cons b path ih =>
    cases other with
    | nil =>
      by_cases hb : b = 0x2e
      · rw [hb,splitPath_dot]
        simp [splitPath,cons_prefix_cons,splitPath_ne_nil]
      obtain ⟨part,parts,-,h⟩ := splitPath_char hb path
      rw [h]
      simp [splitPath,cons_prefix_cons]
    | cons c rest =>
      have hsplit : splitPath (b::path) <+: splitPath (c::rest) ↔ b = c ∧ splitPath path <+: splitPath rest := by
        by_cases hb : b = 0x2e <;> by_cases hc : c = 0x2e
        · rw [hb,hc,splitPath_dot,splitPath_dot,cons_prefix_cons]
          simp
        · obtain ⟨part,parts,-,h⟩ := splitPath_char hc rest
          rw [hb,splitPath_dot,h,cons_prefix_cons]
          simp [Ne.symm hc]
        · obtain ⟨part,parts,-,h⟩ := splitPath_char hb path
          rw [hc,splitPath_dot,h,cons_prefix_cons]
          simp [hb]
        obtain ⟨part,parts,hp,h⟩ := splitPath_char hb path
        obtain ⟨part',parts',hp',h'⟩ := splitPath_char hc rest
        rw [h,h',hp,hp',cons_prefix_cons,cons_prefix_cons,List.cons.injEq,and_assoc]
      rw [hsplit,ih,cons_append,cons_prefix_cons,List.cons.injEq]
      constructor
      · rintro ⟨rfl,rfl | h⟩
        · exact .inl ⟨rfl,rfl⟩
        · exact .inr ⟨rfl,h⟩
      rintro (⟨rfl,rfl⟩ | ⟨rfl,h⟩)
      · exact ⟨rfl,.inl rfl⟩
      · exact ⟨rfl,.inr h⟩

theorem covers_iff {ancestor path : Bytes} : covers ancestor path = true ↔ splitPath ancestor <+: splitPath path := by
  rw [splitPath_extends]
  simp [covers]

/-- Neither path contains or extends the other. -/
def Apart (parts other : List Bytes) : Prop := ¬ parts <+: other ∧ ¬ other <+: parts

variable {part : Bytes} {parts : List Bytes}

theorem Apart.tail {other : List Bytes} (h : Apart (part::parts) (part::other)) : Apart parts other :=
  ⟨fun hp => h.1 (cons_prefix_cons.mpr ⟨rfl,hp⟩),fun hp => h.2 (cons_prefix_cons.mpr ⟨rfl,hp⟩)⟩

theorem Apart.ne_nil {other : List Bytes} (h : Apart parts other) : parts ≠ [] ∧ other ≠ [] := by
  constructor
  · rintro rfl
    exact h.1 nil_prefix
  · rintro rfl
    exact h.2 nil_prefix

@[simp] theorem lookupParts_empty (parts : List Bytes) : lookupParts [] parts = none := by
  cases parts <;> simp [lookupParts,lookupField]

variable {d : Document}

theorem lookupParts_object (h : lookupField d part = some (.object fields))
    (hp : parts ≠ []) : lookupParts d (part::parts) = lookupParts fields parts := by
  obtain ⟨next,rest,rfl⟩ := exists_cons_of_ne_nil hp
  simp only [lookupParts,h]

theorem lookupParts_missing (h : lookupField d part = none) : lookupParts d (part::parts) = none := by
  simp only [lookupParts,h]

theorem lookupParts_congr (h : lookupField d part = lookupField e part) :
    lookupParts d (part::parts) = lookupParts e (part::parts) := by
  simp only [lookupParts,h]

/-- The value at a path below a value. -/
def Value.lookup (v : Value) (path : Bytes) : Option Value :=
  match v with
  | .object fields => lookupInternal fields path
  | _ => none

theorem splitPath_below (path rest : Bytes) : splitPath (path ++ 0x2e::rest) = splitPath path ++ splitPath rest := by
  induction path with
  | nil => exact splitPath_dot rest
  | cons b path ih =>
    by_cases hb : b = 0x2e
    · rw [hb,cons_append,splitPath_dot,splitPath_dot,ih,cons_append]
    obtain ⟨part,parts,hpath,hcons⟩ := splitPath_char hb path
    rw [hcons,cons_append,splitPath,if_neg hb,ih,hpath]
    rfl

theorem lookupParts_below (hp : parts ≠ []) (d : Document) (rest : Bytes) :
    lookupParts d (parts ++ splitPath rest) = (lookupParts d parts).bind (Value.lookup · rest) := by
  induction parts generalizing d with
  | nil => exact absurd rfl hp
  | cons part parts ih =>
    cases parts with
    | nil =>
      obtain ⟨next,more,hrest⟩ := exists_cons_of_ne_nil (splitPath_ne_nil rest)
      simp only [nil_append,cons_append,lookupParts,Value.lookup,lookupInternal,hrest]
      cases lookupField d part with
      | none => rfl
      | some v => cases v <;> rfl
    | cons next parts =>
      simp only [cons_append,lookupParts]
      cases lookupField d part with
      | none => rfl
      | some v => cases v <;> first | rfl | exact ih (cons_ne_nil next parts) _

theorem lookupInternal_below (d : Document) (path rest : Bytes) :
    lookupInternal d (path ++ 0x2e::rest) = (lookupInternal d path).bind (Value.lookup · rest) := by
  rw [lookupInternal,splitPath_below]
  exact lookupParts_below (splitPath_ne_nil path) d rest

theorem lookupParts_putField_ne (h : other ≠ part) (v : Value) (parts : List Bytes) :
    lookupParts (putField d part v) (other::parts) = lookupParts d (other::parts) :=
  lookupParts_congr (lookupField_putField_ne h d v)

theorem lookupParts_putField_object (hp : parts ≠ []) :
    lookupParts (putField d part (.object fields)) (part::parts) = lookupParts fields parts :=
  lookupParts_object (lookupField_putField d part _) hp

theorem setParts_keeps : ∀ {d d' : Document} {other : List Bytes} {value : Value},
    setParts d parts value = .ok d' → Apart parts other → lookupParts d' other = lookupParts d other := by
  induction parts with
  | nil => exact fun _ hap => absurd rfl hap.ne_nil.1
  | cons part parts ih =>
    intro d d' other value h hap
    obtain ⟨first,others,rfl⟩ := exists_cons_of_ne_nil hap.ne_nil.2
    by_cases hp : parts = []
    · subst hp
      cases h
      refine lookupParts_putField_ne ?_ value others
      rintro rfl
      exact hap.1 (by simp [cons_prefix_cons])
    obtain ⟨next,rest,rfl⟩ := exists_cons_of_ne_nil hp
    simp only [setParts] at h
    split at h
    · rename_i hmissing
      obtain ⟨child,hchild,h⟩ := bind_eq_ok.mp h
      cases h
      by_cases hfirst : first = part
      · subst hfirst
        rw [lookupParts_putField_object hap.tail.ne_nil.2,ih hchild hap.tail,lookupParts_empty,lookupParts_missing hmissing]
      · exact lookupParts_putField_ne hfirst _ others
    · rename_i fields hfields
      obtain ⟨child,hchild,h⟩ := bind_eq_ok.mp h
      cases h
      by_cases hfirst : first = part
      · subst hfirst
        rw [lookupParts_putField_object hap.tail.ne_nil.2,ih hchild hap.tail,lookupParts_object hfields hap.tail.ne_nil.2]
      · exact lookupParts_putField_ne hfirst _ others
    · cases h

theorem unsetParts_keeps : ∀ {d : Document} {other : List Bytes},
    Apart parts other → lookupParts (unsetParts d parts) other = lookupParts d other := by
  induction parts with
  | nil => exact fun hap => absurd rfl hap.ne_nil.1
  | cons part parts ih =>
    intro d other hap
    obtain ⟨first,others,rfl⟩ := exists_cons_of_ne_nil hap.ne_nil.2
    by_cases hp : parts = []
    · subst hp
      refine lookupParts_congr (lookupField_deleteField_ne ?_ d)
      rintro rfl
      exact hap.1 (by simp [cons_prefix_cons])
    obtain ⟨next,rest,rfl⟩ := exists_cons_of_ne_nil hp
    simp only [unsetParts]
    split
    · rename_i fields hfields
      by_cases hfirst : first = part
      · subst hfirst
        rw [lookupParts_putField_object hap.tail.ne_nil.2,ih hap.tail,lookupParts_object hfields hap.tail.ne_nil.2]
      · exact lookupParts_putField_ne hfirst _ others
    · rfl

variable {d' : Document}

theorem setPath_keeps {path : Bytes} (h : setPath d path value = .ok d')
    (hap : Apart (splitPath path) (splitPath other)) : lookupInternal d' other = lookupInternal d other :=
  setParts_keeps h hap

theorem applyUpdateOperation_keeps
    (h : applyUpdateOperation d operation = .ok d') (hap : Apart (splitPath operation.path) (splitPath other)) :
    lookupInternal d' other = lookupInternal d other := by
  obtain ⟨kind,path,operand⟩ := operation
  cases kind with
  | set => exact setPath_keeps h hap
  | unset =>
    cases h
    exact unsetParts_keeps hap
  | inc =>
    simp only [applyUpdateOperation] at h
    split at h
    · exact setPath_keeps h hap
    · obtain ⟨value,-,h⟩ := bind_eq_ok.mp h
      exact setPath_keeps h hap
  | push =>
    simp only [applyUpdateOperation] at h
    split at h
    · exact setPath_keeps h hap
    · exact setPath_keeps h hap
    · cases h
  | pull =>
    simp only [applyUpdateOperation] at h
    split at h
    · cases h
      rfl
    · exact setPath_keeps h hap
    · cases h

theorem setParts_lookup (hp : parts ≠ []) (h : setParts d parts value = .ok d') : lookupParts d' parts = some value := by
  induction parts generalizing d d' with
  | nil => exact absurd rfl hp
  | cons part parts ih =>
    cases parts with
    | nil =>
      cases h
      simp only [lookupParts,lookupField_putField]
    | cons next parts =>
      simp only [setParts] at h
      split at h
      · obtain ⟨child,hchild,h⟩ := bind_eq_ok.mp h
        cases h
        rw [lookupParts_putField_object (cons_ne_nil next parts),ih (cons_ne_nil next parts) hchild]
      · obtain ⟨child,hchild,h⟩ := bind_eq_ok.mp h
        cases h
        rw [lookupParts_putField_object (cons_ne_nil next parts),ih (cons_ne_nil next parts) hchild]
      · cases h

theorem lookupField_deleteField (d : Document) (field : Bytes) : lookupField (deleteField d field) field = none := by
  unfold deleteField
  induction d with
  | nil => rfl
  | cons e rest ih =>
    rw [filter_cons]
    split_ifs with he
    · rw [lookupField,if_neg (by simpa using he),ih]
    · exact ih

theorem unsetParts_lookup (hp : parts ≠ []) (d : Document) : lookupParts (unsetParts d parts) parts = none := by
  induction parts generalizing d with
  | nil => exact absurd rfl hp
  | cons part parts ih =>
    cases parts with
    | nil => simp only [unsetParts,lookupParts,lookupField_deleteField]
    | cons next parts =>
      simp only [unsetParts]
      split
      · rw [lookupParts_putField_object (cons_ne_nil next parts),ih (cons_ne_nil next parts)]
      · rename_i hno
        cases hv : lookupField d part with
        | none => exact lookupParts_missing hv
        | some v => cases v <;> first | exact (hno _ hv).elim | simp only [lookupParts,hv]

theorem addNumbers_lookup (h : addNumbers left right = .ok value) (rest : Bytes) :
    value.lookup rest = none ∧ left.lookup rest = none := by
  unfold addNumbers at h
  split at h
  · dsimp only at h
    split_ifs at h
    cases h
    exact ⟨rfl,rfl⟩
  split_ifs at h with hkind
  split at h
  · split_ifs at h
    cases h
    cases left <;> first | exact ⟨rfl,rfl⟩ | exact absurd (by simp [Value.kind]) hkind
  · cases h

/-- What a path below an edited one holds afterwards: no number or array has fields. -/
theorem applyUpdateOperation_below (h : applyUpdateOperation d operation = .ok d') (rest : Bytes)
    (hinc : operation.kind = .inc → operation.value.kind = .int64 ∨ operation.value.kind = .float64) :
    lookupInternal d' (operation.path ++ 0x2e::rest) =
      match operation.kind with
      | .set => operation.value.lookup rest
      | .unset => none
      | _ => lookupInternal d (operation.path ++ 0x2e::rest) := by
  obtain ⟨kind,path,operand⟩ := operation
  have hset {value : Value} (h : setPath d path value = .ok d') : lookupInternal d' path = some value :=
    setParts_lookup (splitPath_ne_nil path) h
  rw [lookupInternal_below,lookupInternal_below]
  cases kind with
  | set =>
    rw [hset h]
    rfl
  | unset =>
    cases h
    rw [lookupInternal,unsetPath,unsetParts_lookup (splitPath_ne_nil path)]
    rfl
  | inc =>
    simp only [applyUpdateOperation] at h
    split at h
    · rename_i hmissing
      rw [hset h,hmissing]
      cases operand <;> first | rfl | simp [Value.kind] at hinc
    · rename_i current hcurrent
      obtain ⟨value,hvalue,h⟩ := bind_eq_ok.mp h
      obtain ⟨hsum,hnumber⟩ := addNumbers_lookup hvalue rest
      rw [hset h,hcurrent]
      exact hsum.trans hnumber.symm
  | push =>
    simp only [applyUpdateOperation] at h
    split at h
    · rename_i hmissing
      rw [hset h,hmissing]
      rfl
    · rename_i items hitems
      rw [hset h,hitems]
      rfl
    · cases h
  | pull =>
    simp only [applyUpdateOperation] at h
    split at h
    · rename_i hmissing
      cases h
      rfl
    · rename_i items hitems
      rw [hset h,hitems]
      rfl
    · cases h

theorem foldlM_applyUpdateOperation_keeps {operations : List UpdateOperation}
    (h : operations.foldlM applyUpdateOperation d = .ok d')
    (hap : ∀ operation ∈ operations, Apart (splitPath operation.path) (splitPath other)) :
    lookupInternal d' other = lookupInternal d other := by
  refine foldlM_invariant (I := fun e => lookupInternal e other = lookupInternal d other) ?_ rfl h
  intro e operation hmem e' he hstep
  rw [applyUpdateOperation_keeps hstep (hap _ hmem),he]

variable {m : MutationSpec}

theorem MutationSpec.apply_eq (h : m.apply d = .ok d') : m.operations.foldlM applyUpdateOperation d = .ok d' := by
  unfold MutationSpec.apply at h
  split_ifs at h
  obtain ⟨result,hresult,h⟩ := bind_eq_ok.mp h
  split_ifs at h
  cases h
  exact hresult

theorem MutationSpec.apply_keeps (h : m.apply d = .ok d')
    (hap : ∀ path ∈ m.paths, Apart (splitPath path) (splitPath other)) : lookupInternal d' other = lookupInternal d other :=
  foldlM_applyUpdateOperation_keeps (m.apply_eq h) (fun _ hmem => hap _ (mem_map_of_mem hmem))

/-- An edit above a path that leaves the value there: it sets an object with that value, or removes nothing. -/
def UpdateOperation.Leaves (operation : UpdateOperation) (path : Bytes) (value : Option Value) : Prop :=
  ∀ rest, path = operation.path ++ 0x2e::rest →
    (operation.kind = .set → operation.value.lookup rest = value) ∧ (operation.kind = .unset → value = none)

theorem apart_of_above {edited next rest : Bytes} (h : Apart (splitPath edited) (splitPath next))
    (hbelow : ¬ splitPath (edited ++ 0x2e::rest) <+: splitPath next) :
    Apart (splitPath next) (splitPath (edited ++ 0x2e::rest)) := by
  refine ⟨fun hext => ?_,hbelow⟩
  rw [splitPath_below] at hext
  rcases prefix_or_prefix_of_prefix hext (prefix_append (splitPath edited) (splitPath rest)) with hp | hp
  · exact h.2 hp
  · exact h.1 hp

/-- Edits at paths apart from each other, none at or below a path, keep its value exactly when an edit above it does. -/
theorem foldlM_applyUpdateOperation_iff {operations : List UpdateOperation}
    (h : operations.foldlM applyUpdateOperation d = .ok d')
    (hpairs : operations.Pairwise (fun a b => Apart (splitPath a.path) (splitPath b.path)))
    (hbelow : ∀ operation ∈ operations, ¬ splitPath other <+: splitPath operation.path)
    (hinc : ∀ operation ∈ operations, operation.kind = .inc → operation.value.kind = .int64 ∨ operation.value.kind = .float64) :
    lookupInternal d' other = lookupInternal d other ↔
      ∀ operation ∈ operations, operation.Leaves other (lookupInternal d other) := by
  induction operations generalizing d with
  | nil =>
    cases h
    simp
  | cons operation operations ih =>
    rw [foldlM_cons] at h
    obtain ⟨e,he,h⟩ := bind_eq_ok.mp h
    obtain ⟨hfirst,hpairs⟩ := pairwise_cons.mp hpairs
    obtain ⟨hnot,hbelow⟩ := forall_mem_cons.mp hbelow
    obtain ⟨hnumber,hinc⟩ := forall_mem_cons.mp hinc
    rw [forall_mem_cons]
    by_cases habove : ∃ rest, other = operation.path ++ 0x2e::rest
    · -- the edits after it are apart from the path
      obtain ⟨rest,rfl⟩ := habove
      have hlater : ∀ next ∈ operations, Apart (splitPath next.path) (splitPath (operation.path ++ 0x2e::rest)) :=
        fun next hm => apart_of_above (hfirst next hm) (hbelow next hm)
      have hvacuous : ∀ next ∈ operations, next.Leaves (operation.path ++ 0x2e::rest)
          (lookupInternal d (operation.path ++ 0x2e::rest)) := by
        intro next hm rest' heq
        refine absurd ?_ (hlater next hm).1
        rw [heq,splitPath_below]
        exact prefix_append _ _
      rw [foldlM_applyUpdateOperation_keeps h hlater,applyUpdateOperation_below he rest hnumber,and_iff_left hvacuous]
      constructor
      · intro heq rest' hrest
        obtain rfl : rest = rest' := (cons.inj (append_cancel_left hrest)).2
        exact ⟨fun hk => by rwa [hk] at heq,fun hk => by rw [hk] at heq; exact heq.symm⟩
      · intro hleaves
        obtain ⟨hset,hunset⟩ := hleaves rest rfl
        cases hk : operation.kind with
        | set => exact hset hk
        | unset => exact (hunset hk).symm
        | _ => rfl
    · have hap : Apart (splitPath operation.path) (splitPath other) := by
        refine ⟨fun hext => ?_,hnot⟩
        rcases splitPath_extends.mp hext with rfl | ⟨rest,hrest⟩
        · exact hnot (prefix_refl _)
        · exact habove ⟨rest,by rw [← hrest,append_assoc]; rfl⟩
      rw [← applyUpdateOperation_keeps he hap,ih h hpairs hbelow hinc]
      exact ⟨fun hrest => ⟨fun rest heq => absurd ⟨rest,heq⟩ habove,hrest⟩,fun hall => hall.2⟩

theorem validateMutationPaths_apart (h : validateMutationPaths previous paths = true) :
    paths.Pairwise (fun a b => Apart (splitPath a) (splitPath b)) ∧
      ∀ a ∈ previous, ∀ b ∈ paths, Apart (splitPath a) (splitPath b) := by
  induction paths generalizing previous with
  | nil => exact ⟨.nil,by simp⟩
  | cons first rest ih =>
    rw [validateMutationPaths,Bool.and_eq_true] at h
    obtain ⟨hrest,hprevious⟩ := ih h.2
    obtain ⟨hprevious,hfirst⟩ := forall_mem_append.mp hprevious
    have hvalid := h.1
    simp only [validateMutationPath,Bool.and_eq_true,Bool.not_eq_true',all_eq_true] at hvalid
    refine ⟨pairwise_cons.mpr ⟨hfirst first (mem_singleton_self first),hrest⟩,fun a ha =>
      forall_mem_cons.mpr ⟨⟨fun hext => ?_,fun hext => ?_⟩,hprevious a ha⟩⟩
    · exact absurd (covers_iff.mpr hext) (by simp [(hvalid.2 a ha).1])
    · exact absurd (covers_iff.mpr hext) (by simp [(hvalid.2 a ha).2])

theorem MutationSpec.compiled_apart (h : m.compiled = true) :
    m.operations.Pairwise (fun a b => Apart (splitPath a.path) (splitPath b.path)) ∧
      ∀ operation ∈ m.operations, operation.kind = .inc → operation.value.kind = .int64 ∨ operation.value.kind = .float64 := by
  rw [MutationSpec.compiled,Bool.and_eq_true] at h
  have hpairs := (validateMutationPaths_apart h.1).1
  rw [pairwise_map] at hpairs
  refine ⟨hpairs,fun operation hm hinc => ?_⟩
  simpa [hinc] using all_eq_true.mp h.2 operation hm

theorem validateMutationPaths_id (h : validateMutationPaths previous paths = true) {path : Bytes}
    (hp : path ∈ paths) : covers idField path = false := by
  induction paths generalizing previous with
  | nil => cases hp
  | cons first rest ih =>
    rw [validateMutationPaths,Bool.and_eq_true] at h
    rcases mem_cons.mp hp with rfl | hp
    · have hvalid := h.1
      simp only [validateMutationPath,Bool.and_eq_true,Bool.not_eq_true'] at hvalid
      exact hvalid.1.2
    · exact ih h.2 hp

theorem splitPath_top (h : 0x2e ∉ field) : splitPath field = [field] := by
  induction field with
  | nil => rfl
  | cons b rest ih =>
    rw [mem_cons,not_or] at h
    rw [splitPath,if_neg (Ne.symm h.1),ih h.2]

theorem lookupInternal_top (h : 0x2e ∉ field) (d : Document) : lookupInternal d field = lookupField d field := by
  unfold lookupInternal
  rw [splitPath_top h]
  cases hv : lookupField d field <;> simp [lookupParts,hv]

theorem MutationSpec.apply_id (hpaths : validateMutationPaths [] m.paths = true)
    (h : m.apply d = .ok d') : d'.id = d.id := by
  have htop : (0x2e : Byte) ∉ idField := by decide
  have hkeeps : lookupInternal d' idField = lookupInternal d idField := by
    refine m.apply_keeps h (fun path hp => ?_)
    have hcovers := validateMutationPaths_id hpaths hp
    have hbelow : ¬ splitPath idField <+: splitPath path := fun hext => by
      rw [covers_iff.mpr hext] at hcovers
      cases hcovers
    refine ⟨fun hext => hbelow ?_,hbelow⟩
    -- a part of a single part is that part
    rw [splitPath_top htop] at hext ⊢
    obtain ⟨first,rest,hsplit⟩ := exists_cons_of_ne_nil (splitPath_ne_nil path)
    rw [hsplit,cons_prefix_cons] at hext
    rw [hsplit,hext.1]
    exact cons_prefix_cons.mpr ⟨rfl, nil_prefix⟩
  rw [lookupInternal_top htop,lookupInternal_top htop] at hkeeps
  unfold Document.id
  rw [hkeeps]

theorem prepareDocumentUpdates_mem (h : prepareDocumentUpdates m docs = .ok changes) (hc : change ∈ changes) :
    ∃ d ∈ docs, d.id = some change.1 ∧ m.apply d = .ok change.2 := by
  induction docs generalizing changes with
  | nil =>
    cases h
    cases hc
  | cons d rest ih =>
    rw [prepareDocumentUpdates] at h
    split at h
    · cases h
    rename_i id hid
    obtain ⟨after,hafter,h⟩ := bind_eq_ok.mp h
    obtain ⟨others,hothers,h⟩ := bind_eq_ok.mp h
    cases h
    have hrest : change ∈ others → ∃ d' ∈ d::rest, d'.id = some change.1 ∧ m.apply d' = .ok change.2 := by
      intro hm
      obtain ⟨d',hd',hrest⟩ := ih hothers hm
      exact ⟨d',mem_cons_of_mem _ hd',hrest⟩
    split_ifs at hc
    · exact hrest hc
    rcases mem_cons.mp hc with rfl | hc
    · exact ⟨d,mem_cons_self,hid,hafter⟩
    · exact hrest hc

/-! ### What an update stores -/

mutual
/-- A value with other times, and with the fields of its objects in the order of their names. -/
def Value.withTimes (f : ℤ → ℤ) : Value → Value
  | .time milliseconds => .time (f milliseconds)
  | .array values => .array (itemsWithTimes f values)
  | .object fields => .object (sortByName (fieldsWithTimes f fields))
  | v => v
def itemsWithTimes (f : ℤ → ℤ) : List Value → List Value
  | [] => []
  | v::rest => v.withTimes f :: itemsWithTimes f rest
def fieldsWithTimes (f : ℤ → ℤ) : Document → Document
  | [] => []
  | (name,v) :: rest => (name,v.withTimes f) :: fieldsWithTimes f rest

end

mutual
def Value.times : Value → List ℤ
  | .time milliseconds => [milliseconds]
  | .array values => itemsTimes values
  | .object fields => fieldsTimes fields
  | _ => []
def itemsTimes : List Value → List ℤ
  | [] => []
  | v::rest => v.times ++ itemsTimes rest
def fieldsTimes : Document → List ℤ
  | [] => []
  | (_,v) :: rest => v.times ++ fieldsTimes rest

end

/-- Milliseconds that are written as 64 bits and read back. -/
def wrapMilliseconds (milliseconds : ℤ) : ℤ := (milliseconds + 2 ^ 63) % 2 ^ 64 - 2 ^ 63

/-- A document as a map, which has no order. -/
def Document.contents (d : Document) : Document := sortByName (fieldsWithTimes (fun t => t) d)

/-- What is read after the document is stored: in a file it is stored through the codec. -/
def Document.readBack (durable : Bool) (d : Document) : Document :=
  sortByName (fieldsWithTimes (fun t => if durable then wrapMilliseconds t else t) d)

section
variable (durable : Bool)

end

section
variable {f g : ℤ → ℤ}

theorem fieldsWithTimes_eq (f : ℤ → ℤ) (fields : Document) :
    fieldsWithTimes f fields = fields.map (fun e => (e.1,e.2.withTimes f)) := by
  induction fields with
  | nil => rfl
  | cons e rest ih => rw [fieldsWithTimes,ih,map_cons]

theorem sortByName_withTimes_iff (fields : Document) :
    sortByName (fieldsWithTimes f fields) = sortByName (fieldsWithTimes g fields) ↔
    ∀ e ∈ fields, e.2.withTimes f = e.2.withTimes g := by
  have hsort (f : ℤ → ℤ) : sortByName (fieldsWithTimes f fields) = (sortByName fields).map (fun e => (e.1,e.2.withTimes f)) := by
    rw [fieldsWithTimes_eq]
    exact (Comparison.stableSort_map (f := fun e : Bytes × Value => (e.1,e.2.withTimes f))
      (pairwise_of_forall fun _ _ => rfl)).symm
  rw [hsort,hsort,map_inj_left]
  simp [sortByName]

mutual

theorem Value.withTimes_iff : ∀ v : Value, v.withTimes f = v.withTimes g ↔ ∀ t ∈ v.times, f t = g t
  | .time t => by simp [Value.withTimes,Value.times]
  | .array values => by simp only [Value.withTimes,Value.array.injEq,Value.times,itemsWithTimes_iff values]
  | .object fields => by
    simp only [Value.withTimes,Value.object.injEq,Value.times,sortByName_withTimes_iff,fieldsWithTimes_iff fields]
  | .null | .bool _ | .int _ | .float _ | .string _ | .binary _ | .id _ => by simp [Value.withTimes,Value.times]

theorem itemsWithTimes_iff : ∀ values : List Value,
    itemsWithTimes f values = itemsWithTimes g values ↔ ∀ t ∈ itemsTimes values, f t = g t
  | [] => by simp [itemsWithTimes,itemsTimes]
  | v::rest => by
    simp only [itemsWithTimes,cons.injEq,itemsTimes,forall_mem_append,Value.withTimes_iff v,itemsWithTimes_iff rest]

theorem fieldsWithTimes_iff : ∀ fields : Document,
    (∀ e ∈ fields, e.2.withTimes f = e.2.withTimes g) ↔ ∀ t ∈ fieldsTimes fields, f t = g t
  | [] => by simp [fieldsTimes]
  | (_,v) :: rest => by
    simp only [forall_mem_cons,fieldsTimes,forall_mem_append,Value.withTimes_iff v,fieldsWithTimes_iff rest]

end

end

section
variable {durable : Bool} {m : MutationSpec} {selected : List Document} {documents : DocumentID → Option Document}
  {changes : List (DocumentID × Document)}

end

def counted (n : Byte) (v : Value) : Document := [(idField,.id (.ending n)),([0x61],v)]
end Meldbase.Database
