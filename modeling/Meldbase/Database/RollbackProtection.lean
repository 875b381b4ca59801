import Meldbase.Database.RollbackAnchor
import Meldbase.Physical.Recovery

/-! # Opening under a rollback anchor

A database opened with an anchor store compares the Meta record it finds with the
anchor, and publishes the Meta record of every later version to the store.  The file
is its two Meta slots: the pages of a version are synced before its Meta record is
written, so that a Meta record that can be read has a valid root.  What a process reads
is the page cache; a power loss leaves of the writes since the last sync any part.
-/
namespace Meldbase.Database.RollbackProtection
open Function Bool Option Nat
open Logical (Identifier)
open Outcome (guard_eq_ok)
open Physical (Meta Fate Disk slotOrder slotsConsistent otherSlot slotMeta slotUsable validateRoot isUnsupported
  readDatabaseRoot inspectExistingFile)

/-! ### Opening -/

abbrev Slots := Fin 2 → Option Meta

/-- `inspectExistingFile` on slots whose roots are valid. -/
def selectMeta (slots : Slots) : Option (Fin 2 × Meta) :=
  if !slotsConsistent slots then none
  else (slotOrder slots).findSome? (fun slot => (slots slot).map (fun m => (slot,m)))

/-- The options next to the anchor store; a zero identifier expects nothing. -/
structure Protection where
  expectedDatabaseID : Identifier
  (minimumCommitSequence minimumGeneration : ℕ)
  initializeAnchor : Bool

inductive OpenError where
  | anchorRequired | invalidProtection | rollbackAnchor | databaseIdentity | staleSnapshot | corrupt
  deriving DecidableEq

def Protection.required (p : Protection) (anchor : Option RollbackAnchor) : Except OpenError RollbackAnchor :=
  match anchor with
  | none =>
    if !p.initializeAnchor then .error .anchorRequired
    else .ok ⟨p.expectedDatabaseID,p.minimumCommitSequence,p.minimumGeneration⟩
  | some a =>
    if p.initializeAnchor then .error .invalidProtection
    else if !validRollbackAnchor a then .error .rollbackAnchor
    else if !p.expectedDatabaseID.isZero && p.expectedDatabaseID ≠ a.databaseID then .error .databaseIdentity
    else .ok ⟨a.databaseID,max a.minimumCommitSequence p.minimumCommitSequence,
      max a.minimumGeneration p.minimumGeneration⟩

/-- `storage.OpenWithOptions` on an existing file. -/
def openStorage (required : RollbackAnchor) (found : Option (Fin 2 × Meta)) : Except OpenError (Fin 2 × Meta) :=
  match found with
  | none => .error .corrupt
  | some (slot,m) =>
    if !required.databaseID.isZero && m.databaseID ≠ required.databaseID then .error .databaseIdentity
    else if m.commitSequence < required.minimumCommitSequence then .error .staleSnapshot
    else if m.generation < required.minimumGeneration then .error .staleSnapshot
    else .ok (slot,m)

/-- How a store answers: as it should, with an error and no effect, or with an error
after the effect. -/
inductive Reply where
  | done | refused | unreported
  deriving DecidableEq

def persistRollbackAnchor (current : Option RollbackAnchor) (requested : RollbackAnchor) (reply : Reply) :
    Option RollbackAnchor × Except OpenError RollbackAnchor :=
  if !validRollbackAnchor requested || reply = .refused then (current,.error .rollbackAnchor)
  else match advanceAnchor current requested with
    | .error _ => (current,.error .rollbackAnchor)
    | .ok retained =>
      if reply = .unreported || !anchorBeforeOrEqual requested retained then (some retained,.error .rollbackAnchor)
      else (some retained,.ok retained)
def anchorOf (m : Meta) : RollbackAnchor := ⟨m.databaseID,m.commitSequence,m.generation⟩
def anchorReached (anchor : Option RollbackAnchor) (m : Meta) : Bool :=
  match anchor with
  | none => false
  | some a => a.minimumCommitSequence = m.commitSequence && a.minimumGeneration = m.generation

/-- `OpenWithOptions` after the file was inspected: the anchor afterwards, and the slot
and Meta record the database starts from. -/
def openDatabase (p : Protection) (reply : Reply) (anchor : Option RollbackAnchor) (found : Option (Fin 2 × Meta)) :
    Option RollbackAnchor × Except OpenError (Fin 2 × Meta) :=
  match p.required anchor with
  | .error e => (anchor,.error e)
  | .ok required =>
    match openStorage required found with
    | .error e => (anchor,.error e)
    | .ok (slot,m) =>
      if anchorReached anchor m then (anchor,.ok (slot,m))
      else match persistRollbackAnchor anchor (anchorOf m) reply with
        | (anchor',.error e) => (anchor',.error e)
        | (anchor',.ok retained) =>
          if retained ≠ anchorOf m then (anchor',.error .rollbackAnchor) else (anchor',.ok (slot,m))

/-! ### The file and its process -/

/-- The version in memory, and the one whose Meta record is written and not yet synced. -/
structure Primary where
  current : Meta
  metaSlot : Fin 2
  writing : Option Meta

structure State where
  (durable cached : Slots)
  anchor : Option RollbackAnchor
  primary : Option Primary
  acknowledged : List RollbackAnchor

/-- A commit moves the sequence, a maintenance update only the generation. -/
def Succeeds (m next : Meta) : Prop :=
  next.databaseID = m.databaseID ∧ next.generation = m.generation+1 ∧ m.commitSequence ≤ next.commitSequence

namespace State
variable (s : State)

def reopen (p : Protection) (reply : Reply) : State :=
  match openDatabase p reply s.anchor (selectMeta s.cached) with
  | (anchor,.error _) => { s with anchor := anchor }
  | (anchor,.ok (slot,m)) => { s with anchor := anchor, primary := some ⟨m,slot,none⟩ }

/-- The sync after the pages of an update covers the slots too. -/
def writeMeta (p : Primary) (next : Meta) : State := { s with
  durable := s.cached
  cached := update s.cached (otherSlot p.metaSlot) (some next)
  primary := some { p with writing := some next } }
def syncMeta (p : Primary) (next : Meta) : State := { s with
  durable := s.cached
  primary := some ⟨next,otherSlot p.metaSlot,none⟩ }

/-- `advanceRollbackAnchorLocked`: an update returns to its caller when the anchor
holds its version, and stops the database otherwise. -/
def publishAnchor (p : Primary) (reply : Reply) : State :=
  match persistRollbackAnchor s.anchor (anchorOf p.current) reply with
  | (anchor,.error _) => { s with anchor := anchor, primary := none }
  | (anchor,.ok retained) => { s with anchor := anchor, acknowledged := retained::s.acknowledged }

/-- The process ends; of a Meta record it was writing the cache has the given part. -/
def crash (fate : Fate) : State :=
  match s.primary with
  | some ⟨_,slot,some _⟩ => { s with
      cached := match fate with
        | .lost => s.durable
        | .torn => update s.cached (otherSlot slot) none
        | .whole => s.cached
      primary := none }
  | _ => { s with primary := none }
def restored (slots : Slots) : State := { s with durable := slots, cached := slots, primary := none }

end State

/-- What a power loss may leave of a slot. -/
def Survives (durable cached after : Option Meta) : Prop :=
  after = cached ∨ after = durable ∨ after = none ∧ durable ≠ cached

/-- One step.  With `synced` the file is never replaced, and what an open reads is on
the disk. -/
inductive Step (synced : Bool) (s : State) : State → Prop where
  | reopen (p : Protection) (reply : Reply) (hclosed : s.primary = none) (hsynced : synced = true → s.cached = s.durable) :
    Step synced s (s.reopen p reply)
  | writeMeta (p : Primary) (next : Meta) (hp : s.primary = some p) (hidle : p.writing = none)
      (hnext : Succeeds p.current next) : Step synced s (s.writeMeta p next)
  | syncMeta (p : Primary) (next : Meta) (hp : s.primary = some p) (hwriting : p.writing = some next) :
    Step synced s (s.syncMeta p next)
  | publishAnchor (p : Primary) (reply : Reply) (hp : s.primary = some p) : Step synced s (s.publishAnchor p reply)
  | crash (fate : Fate) : Step synced s (s.crash fate)
  /-- the system writes the cache back -/
  | writeBack (hclosed : s.primary = none) : Step synced s (s.restored s.cached)
  | powerLoss (slots : Slots) (hslots : ∀ slot, Survives (s.durable slot) (s.cached slot) (slots slot)) :
    Step synced s (s.restored slots)
  /-- another file is put in its place -/
  | replace (slots : Slots) (hclosed : s.primary = none) (hsynced : synced = false) : Step synced s (s.restored slots)

def createdMeta (databaseID : {id : Identifier // id.isZero = false}) : Meta := ⟨databaseID.val,1,0,0,2,0,0,0⟩
def created (databaseID : {id : Identifier // id.isZero = false}) : State where
  durable := fun slot => if slot = 0 then some (createdMeta databaseID) else none
  cached := fun slot => if slot = 0 then some (createdMeta databaseID) else none
  anchor := none
  primary := none
  acknowledged := []

inductive Reaches (synced : Bool) : State → Prop where
  | created (databaseID : {id : Identifier // id.isZero = false}) : Reaches synced (created databaseID)
  | step {s t : State} (h : Reaches synced s) (hstep : Step synced s t) : Reaches synced t

/-! ### What an open does -/

section Open
variable {anchor anchor' : Option RollbackAnchor} {p : Protection} {reply : Reply} {found : Option (Fin 2 × Meta)}

theorem persistRollbackAnchor_spec (h : persistRollbackAnchor anchor requested reply = (anchor',result)) :
    (anchor' = anchor ∨ anchor' = some requested ∧ validRollbackAnchor requested = true ∧
      ∀ c ∈ anchor, anchorBeforeOrEqual c requested = true) ∧
    ∀ retained, result = .ok retained → retained = requested ∧ anchor' = some requested := by
  unfold persistRollbackAnchor at h
  split at h
  · cases h
    exact ⟨.inl rfl,nofun⟩
  split at h
  · cases h
    exact ⟨.inl rfl,nofun⟩
  next retained hadvance =>
  obtain ⟨rfl,hvalid,hle⟩ := advanceAnchor_ok hadvance
  split at h
  · cases h
    exact ⟨.inr ⟨rfl,hvalid,hle⟩,nofun⟩
  · cases h
    exact ⟨.inr ⟨rfl,hvalid,hle⟩,fun _ hresult => by cases hresult; exact ⟨rfl,rfl⟩⟩

theorem openStorage_ok (h : openStorage required found = .ok opened) :
    found = some opened ∧ required.minimumCommitSequence ≤ opened.2.commitSequence ∧
      required.minimumGeneration ≤ opened.2.generation := by
  unfold openStorage at h
  split at h
  · cases h
  obtain ⟨-,h⟩ := guard_eq_ok.mp h
  obtain ⟨hsequence,h⟩ := guard_eq_ok.mp h
  obtain ⟨hgeneration,h⟩ := guard_eq_ok.mp h
  cases h
  exact ⟨rfl,not_lt.mp hsequence,not_lt.mp hgeneration⟩

theorem openDatabase_spec (h : openDatabase p reply anchor found = (anchor',result)) :
    (anchor' = anchor ∨ ∃ slot m, found = some (slot,m) ∧ anchor' = some (anchorOf m) ∧
      validRollbackAnchor (anchorOf m) = true ∧ ∀ c ∈ anchor, anchorBeforeOrEqual c (anchorOf m) = true) ∧
    ∀ opened, result = .ok opened → found = some opened := by
  unfold openDatabase at h
  split at h
  · cases h
    exact ⟨.inl rfl,nofun⟩
  split at h
  · cases h
    exact ⟨.inl rfl,nofun⟩
  next slot m hstorage =>
  obtain ⟨hfound,-⟩ := openStorage_ok hstorage
  split at h
  · cases h
    exact ⟨.inl rfl,fun _ hresult => by cases hresult; exact hfound⟩
  split at h
  · next hpersist =>
    cases h
    exact ⟨(persistRollbackAnchor_spec hpersist).1.imp_right (fun hmoved => ⟨slot,m,hfound,hmoved⟩),nofun⟩
  next hpersist =>
  have hmoved := (persistRollbackAnchor_spec hpersist).1
  split at h
  · cases h
    exact ⟨hmoved.imp_right (fun hmoved => ⟨slot,m,hfound,hmoved⟩),nofun⟩
  cases h
  exact ⟨hmoved.imp_right (fun hmoved => ⟨slot,m,hfound,hmoved⟩),
    fun _ hresult => by cases hresult; exact hfound⟩

theorem required_ok (h : p.required (some c) = .ok required) :
    c.minimumCommitSequence ≤ required.minimumCommitSequence ∧ c.minimumGeneration ≤ required.minimumGeneration := by
  unfold Protection.required at h
  obtain ⟨-,h⟩ := guard_eq_ok.mp h
  obtain ⟨-,h⟩ := guard_eq_ok.mp h
  obtain ⟨-,h⟩ := guard_eq_ok.mp h
  cases h
  exact ⟨le_max_left _ _,le_max_left _ _⟩

theorem openDatabase_behind (p : Protection) (reply : Reply)
    (hbehind : m.commitSequence < c.minimumCommitSequence ∨ m.generation < c.minimumGeneration) :
    ∃ e, openDatabase p reply (some c) (some (slot,m)) = (some c,.error e) := by
  unfold openDatabase
  cases hrequired : p.required (some c) with
  | error e => exact ⟨e,rfl⟩
  | ok required =>
    obtain ⟨hsequence,hgeneration⟩ := required_ok hrequired
    dsimp only
    cases hstorage : openStorage required (some (slot,m)) with
    | error e => exact ⟨e,rfl⟩
    | ok opened =>
      obtain ⟨hfound,hsequence',hgeneration'⟩ := openStorage_ok hstorage
      cases hfound
      dsimp only at hsequence' hgeneration'
      omega

/-- The options ask for no more than the file is. -/
def Protection.Accepts (p : Protection) (m : Meta) : Prop :=
  (p.expectedDatabaseID.isZero = true ∨ p.expectedDatabaseID = m.databaseID) ∧
    p.minimumCommitSequence ≤ m.commitSequence ∧ p.minimumGeneration ≤ m.generation
def AnchorWithin (anchor : Option RollbackAnchor) (m : Meta) : Prop :=
  ∀ a ∈ anchor, validRollbackAnchor a = true ∧ anchorBeforeOrEqual a (anchorOf m) = true

theorem openStorage_met (hid : required.databaseID.isZero = true ∨ required.databaseID = m.databaseID)
    (hsequence : required.minimumCommitSequence ≤ m.commitSequence) (hgeneration : required.minimumGeneration ≤ m.generation) :
    openStorage required (some (slot,m)) = .ok (slot,m) := by
  have hsame : ¬ ((!required.databaseID.isZero && decide (m.databaseID ≠ required.databaseID)) = true) := by
    rcases hid with hzero | heq
    · simp [hzero]
    · simp [heq]
  unfold openStorage
  dsimp only
  rw [if_neg hsame,if_neg (not_lt.mpr hsequence),if_neg (not_lt.mpr hgeneration)]

theorem required_met (slot : Fin 2) (hanchor : AnchorWithin anchor m)
    (hfirst : p.initializeAnchor = anchor.isNone) (haccepts : p.Accepts m) :
    ∃ required, p.required anchor = .ok required ∧ openStorage required (some (slot,m)) = .ok (slot,m) := by
  obtain ⟨hexpected,hsequence,hgeneration⟩ := haccepts
  cases anchor with
  | none => exact ⟨_,by rw [Protection.required,hfirst]; rfl,openStorage_met hexpected hsequence hgeneration⟩
  | some a =>
    obtain ⟨hvalid,hle⟩ := hanchor a rfl
    obtain ⟨hid,hsequence',hgeneration'⟩ := anchorBeforeOrEqual_iff.mp hle
    have hsame : ¬ ((!p.expectedDatabaseID.isZero && decide (p.expectedDatabaseID ≠ a.databaseID)) = true) := by
      rcases hexpected with hzero | heq
      · simp [hzero]
      · simp [heq,hid,anchorOf]
    refine ⟨⟨a.databaseID,max a.minimumCommitSequence p.minimumCommitSequence,
      max a.minimumGeneration p.minimumGeneration⟩,?_,
      openStorage_met (.inr hid) (max_le hsequence' hsequence) (max_le hgeneration' hgeneration)⟩
    rw [Protection.required,hfirst,hvalid]
    exact (if_neg nofun).trans ((if_neg nofun).trans (if_neg hsame))

theorem persistRollbackAnchor_done (hvalid : validRollbackAnchor requested = true)
    (hanchor : ∀ a ∈ anchor, anchorBeforeOrEqual a requested = true) :
    persistRollbackAnchor anchor requested .done = (some requested,.ok requested) := by
  have hadvance : advanceAnchor anchor requested = .ok requested := by
    cases anchor with
    | none => simp [advanceAnchor,hvalid]
    | some a =>
      obtain ⟨hid,hsequence,hgeneration⟩ := anchorBeforeOrEqual_iff.mp (hanchor a rfl)
      simp [advanceAnchor,hvalid,hid,not_lt.mpr hsequence,not_lt.mpr hgeneration]
  simp [persistRollbackAnchor,hvalid,hadvance,anchorBeforeOrEqual_refl]

theorem openDatabase_ahead (hvalid : validRollbackAnchor (anchorOf m) = true)
    (hanchor : AnchorWithin anchor m)
    (hfirst : p.initializeAnchor = anchor.isNone) (haccepts : p.Accepts m) :
    openDatabase p .done anchor (some (slot,m)) = (some (anchorOf m),.ok (slot,m)) := by
  obtain ⟨required,hrequired,hstorage⟩ := required_met slot hanchor hfirst haccepts
  unfold openDatabase
  rw [hrequired]
  dsimp only
  rw [hstorage]
  dsimp only
  split_ifs with hreached
  · cases anchor with
    | none => cases hreached
    | some a =>
      obtain ⟨hid,-,-⟩ := anchorBeforeOrEqual_iff.mp (hanchor a rfl).2
      simp only [anchorReached,and_eq_true,decide_eq_true_eq] at hreached
      have heq : a = anchorOf m := by
        cases a
        simp_all [anchorOf]
      rw [heq]
  · rw [persistRollbackAnchor_done hvalid (fun a ha => (hanchor a ha).2)]
    simp

end Open

/-! ### The anchor only advances -/

section Acknowledged
variable {s t : State} {synced : Bool}

def Anchored (s : State) : Prop :=
  ∀ a ∈ s.acknowledged, ∃ c, s.anchor = some c ∧ anchorBeforeOrEqual a c = true

theorem Anchored.advance (h : Anchored s)
    (hanchor : anchor = s.anchor ∨ ∃ requested, anchor = some requested ∧
      ∀ c ∈ s.anchor, anchorBeforeOrEqual c requested = true) :
    ∀ a ∈ s.acknowledged, ∃ c, anchor = some c ∧ anchorBeforeOrEqual a c = true := by
  intro a ha
  obtain ⟨c,hc,hle⟩ := h a ha
  rcases hanchor with rfl | ⟨requested,rfl,hmoved⟩
  · exact ⟨c,hc,hle⟩
  · exact ⟨requested,rfl,anchorBeforeOrEqual_trans hle (hmoved c hc)⟩

theorem Anchored.reopen (h : Anchored s) (p : Protection) (reply : Reply) : Anchored (s.reopen p reply) := by
  have hadvance : ∀ anchor result, openDatabase p reply s.anchor (selectMeta s.cached) = (anchor,result) →
      ∀ a ∈ s.acknowledged, ∃ c, anchor = some c ∧ anchorBeforeOrEqual a c = true := fun anchor result hopen =>
    h.advance ((openDatabase_spec hopen).1.imp_right (fun ⟨_,m,_,hmoved,_,hle⟩ => ⟨anchorOf m,hmoved,hle⟩))
  unfold State.reopen
  split
  · next hopen => exact hadvance _ _ hopen
  · next hopen => exact hadvance _ _ hopen

theorem Anchored.publishAnchor (h : Anchored s) (p : Primary) (reply : Reply) : Anchored (s.publishAnchor p reply) := by
  have hadvance : ∀ anchor result, persistRollbackAnchor s.anchor (anchorOf p.current) reply = (anchor,result) →
      ∀ a ∈ s.acknowledged, ∃ c, anchor = some c ∧ anchorBeforeOrEqual a c = true := fun anchor result hpersist =>
    h.advance ((persistRollbackAnchor_spec hpersist).1.imp_right (fun hmoved => ⟨_,hmoved.1,hmoved.2.2⟩))
  unfold State.publishAnchor
  split
  · next hpersist => exact hadvance _ _ hpersist
  next hpersist =>
  obtain ⟨rfl,hanchor⟩ := (persistRollbackAnchor_spec hpersist).2 _ rfl
  exact List.forall_mem_cons.mpr ⟨⟨_,hanchor,anchorBeforeOrEqual_refl _⟩,hadvance _ _ hpersist⟩

theorem Anchored.step (h : Anchored s) (hstep : Step synced s t) : Anchored t := by
  cases hstep with
  | reopen p reply => exact h.reopen p reply
  | writeMeta p next => exact h
  | syncMeta p next => exact h
  | publishAnchor p reply => exact h.publishAnchor p reply
  | crash fate =>
    unfold State.crash
    split <;> exact h
  | writeBack => exact h
  | powerLoss slots => exact h
  | replace slots => exact h

theorem Reaches.anchored (h : Reaches synced s) : Anchored s := by
  induction h with
  | created databaseID => exact nofun
  | step _ hstep ih => exact ih.step hstep

end Acknowledged

/-! ### The newest durable version -/

section Based
variable {s t : State} {k : Fin 2} {m next : Meta}

theorem otherSlot_ne (k : Fin 2) : otherSlot k ≠ k := by decide +revert

theorem otherSlot_otherSlot (k : Fin 2) : otherSlot (otherSlot k) = k := by decide +revert

def Older (o m : Meta) : Prop := o.databaseID = m.databaseID ∧ o.generation < m.generation

theorem Succeeds.older (h : Succeeds m next) : Older m next := ⟨h.1.symm,by rw [h.2.1]; exact lt_succ_self _⟩

theorem Succeeds.le (h : Succeeds m next) : anchorBeforeOrEqual (anchorOf m) (anchorOf next) = true :=
  anchorBeforeOrEqual_iff.mpr ⟨h.1.symm,h.2.2,h.older.2.le⟩

theorem Succeeds.valid (h : Succeeds m next) (hm : validRollbackAnchor (anchorOf m) = true) :
    validRollbackAnchor (anchorOf next) = true := by
  have hpositive : 0 < next.generation := (zero_le _).trans_lt h.older.2
  rw [validRollbackAnchor,and_eq_true] at hm ⊢
  exact ⟨by rw [anchorOf,h.1]; exact hm.1,decide_eq_true hpositive⟩

theorem selectMeta_newest (hk : slots k = some m)
    (hother : ∀ o, slots (otherSlot k) = some o → Older o m) : selectMeta slots = some (k,m) := by
  unfold selectMeta slotsConsistent slotOrder
  obtain rfl | rfl : k = 0 ∨ k = 1 := by omega
  · cases ho : slots 1 with
    | none => simp [hk]
    | some o =>
      obtain ⟨hid,hlt⟩ := hother o ho
      simp [hk,hid,hlt.le.not_gt,hlt.ne']
  cases ho : slots 0 with
  | none => simp [hk]
  | some o =>
    obtain ⟨hid,hlt⟩ := hother o ho
    simp [hk,hid,hlt,hlt.ne]

/-- The process is at its version, and the cache is ahead of the disk by the Meta
record it is writing only. -/
def Primary.At (p : Primary) (s : State) (k : Fin 2) (m : Meta) : Prop :=
  p.current = m ∧ p.metaSlot = k ∧
    match p.writing with
    | none => s.cached = s.durable
    | some next => s.cached (otherSlot k) = some next ∧ Succeeds m next

/-- Slot `k` holds the newest durable version, the anchor is not past it, and only the
next version may be in the cache without being on the disk. -/
structure Based (s : State) (k : Fin 2) (m : Meta) : Prop where
  durable : s.durable k = some m
  cached : s.cached k = some m
  valid : validRollbackAnchor (anchorOf m) = true
  older : ∀ o, s.durable (otherSlot k) = some o → Older o m
  other : s.cached (otherSlot k) = s.durable (otherSlot k) ∨ ∀ n, s.cached (otherSlot k) = some n → Succeeds m n
  anchor : AnchorWithin s.anchor m
  primary : ∀ p, s.primary = some p → p.At s k m

theorem created_based (databaseID : {id : Identifier // id.isZero = false}) :
    Based (created databaseID) 0 (createdMeta databaseID) := by
  refine ⟨rfl,rfl,?_,nofun,.inl rfl,nofun,nofun⟩
  simp [validRollbackAnchor,anchorOf,createdMeta,databaseID.property]

theorem AnchorWithin.succeeds (h : AnchorWithin anchor m) (hnext : Succeeds m next) :
    AnchorWithin anchor next := fun a ha => ⟨(h a ha).1,anchorBeforeOrEqual_trans (h a ha).2 hnext.le⟩

theorem Based.moved (h : Based s k m) {anchor : Option RollbackAnchor}
    (hanchor : anchor = s.anchor ∨ anchor = some (anchorOf m)) : AnchorWithin anchor m := by
  rcases hanchor with rfl | rfl
  · exact h.anchor
  · rintro a ⟨⟩
    exact ⟨h.valid,anchorBeforeOrEqual_refl _⟩

theorem Based.reopen (h : Based s k m) (hdurable : s.cached = s.durable) (p : Protection) (reply : Reply) :
    Based (s.reopen p reply) k m := by
  have hfound : selectMeta s.cached = some (k,m) := selectMeta_newest h.cached (by rw [hdurable]; exact h.older)
  have hmoved : ∀ anchor result, openDatabase p reply s.anchor (selectMeta s.cached) = (anchor,result) →
      AnchorWithin anchor m := by
    intro anchor result hopen
    rcases (openDatabase_spec hopen).1 with hsame | ⟨slot,m',hfound',hanchor,-⟩
    · exact h.moved (.inl hsame)
    · cases hfound.symm.trans hfound'
      exact h.moved (.inr hanchor)
  unfold State.reopen
  split
  · next hopen => exact { h with anchor := hmoved _ _ hopen }
  next hopen =>
  cases hfound.symm.trans ((openDatabase_spec hopen).2 _ rfl)
  exact { h with anchor := hmoved _ _ hopen, primary := fun p hp => by cases hp; exact ⟨rfl,rfl,hdurable⟩ }

theorem Based.publishAnchor (h : Based s k m) (hp : s.primary = some p) (reply : Reply) :
    Based (s.publishAnchor p reply) k m := by
  obtain ⟨hcurrent,-⟩ := h.primary p hp
  have hmoved : ∀ anchor result, persistRollbackAnchor s.anchor (anchorOf p.current) reply = (anchor,result) →
      AnchorWithin anchor m := by
    intro anchor result hpersist
    rw [hcurrent] at hpersist
    exact h.moved ((persistRollbackAnchor_spec hpersist).1.imp_right And.left)
  unfold State.publishAnchor
  split
  · next hpersist => exact { h with anchor := hmoved _ _ hpersist, primary := nofun }
  · next hpersist => exact { h with anchor := hmoved _ _ hpersist }

theorem Based.cached_update (h : Based s k m) (content : Option Meta) :
    update s.cached (otherSlot k) content k = some m :=
  (update_of_ne (otherSlot_ne k).symm _ _).trans h.cached

theorem Based.writeMeta (h : Based s k m) (hp : s.primary = some p) (hidle : p.writing = none)
    (hnext : Succeeds p.current next) : Based (s.writeMeta p next) k m := by
  obtain ⟨rfl,rfl,hat⟩ := h.primary p hp
  rw [hidle] at hat
  have hwritten := update_self (otherSlot p.metaSlot) (some next) s.cached
  refine ⟨h.cached,h.cached_update _,h.valid,?_,.inr ?_,h.anchor,?_⟩
  · have hsame : s.cached = s.durable := hat
    rw [State.writeMeta,hsame]
    exact h.older
  · intro n hn
    cases hwritten.symm.trans hn
    exact hnext
  · rintro q ⟨⟩
    exact ⟨rfl,rfl,hwritten,hnext⟩

theorem Based.advanced (h : Based s k m) (hnext : Succeeds m next) (hat : t.durable k = some m)
    (hdurable : t.durable (otherSlot k) = some next) (hcached : t.cached = t.durable) (hanchor : t.anchor = s.anchor)
    (hprimary : ∀ p, t.primary = some p → p.At t (otherSlot k) next) : Based t (otherSlot k) next := by
  refine ⟨hdurable,by rw [hcached]; exact hdurable,hnext.valid h.valid,?_,.inl (by rw [hcached]),?_,hprimary⟩
  · intro o ho
    rw [otherSlot_otherSlot] at ho
    cases hat.symm.trans ho
    exact hnext.older
  · rw [hanchor]
    exact h.anchor.succeeds hnext

theorem Based.syncMeta (h : Based s k m) (hp : s.primary = some p) (hwriting : p.writing = some next) :
    Based (s.syncMeta p next) (otherSlot k) next := by
  obtain ⟨-,rfl,hat⟩ := h.primary p hp
  rw [hwriting] at hat
  refine h.advanced hat.2 h.cached hat.1 rfl rfl ?_
  rintro q ⟨⟩
  exact ⟨rfl,rfl,rfl⟩

theorem Based.crash (h : Based s k m) (fate : Fate) : Based (s.crash fate) k m := by
  unfold State.crash
  split
  · next current slot next hp =>
    obtain ⟨-,rfl,hat⟩ := h.primary _ hp
    cases fate with
    | lost => exact ⟨h.durable,h.durable,h.valid,h.older,.inl rfl,h.anchor,nofun⟩
    | torn =>
      refine ⟨h.durable,h.cached_update none,h.valid,h.older,.inr (fun n hn => ?_),h.anchor,nofun⟩
      cases (update_self (otherSlot slot) none s.cached).symm.trans hn
    | whole => exact { h with primary := nofun }
  · exact { h with primary := nofun }

/-- The cache and the disk agree again, on the newest durable version or on the next. -/
theorem Based.restored (h : Based s k m) (slots : Slots)
    (hslots : ∀ slot, Survives (s.durable slot) (s.cached slot) (slots slot)) :
    ∃ k' m', Based (s.restored slots) k' m' := by
  have hk : slots k = some m := by
    rcases hslots k with hcached | hdurable | ⟨-,hne⟩
    · exact hcached.trans h.cached
    · exact hdurable.trans h.durable
    · exact absurd (h.durable.trans h.cached.symm) hne
  have hkept (holder : ∀ o, slots (otherSlot k) = some o → Older o m) : ∃ k' m', Based (s.restored slots) k' m' :=
    ⟨k,m,hk,hk,h.valid,holder,.inl rfl,h.anchor,nofun⟩
  have hdurable (hsame : slots (otherSlot k) = s.durable (otherSlot k)) : ∃ k' m', Based (s.restored slots) k' m' :=
    hkept (fun o ho => h.older o (hsame.symm.trans ho))
  rcases hslots (otherSlot k) with hcached | hsame | ⟨hnone,-⟩
  · rcases h.other with hsame | hnext
    · exact hdurable (hcached.trans hsame)
    cases hn : slots (otherSlot k) with
    | none => exact hkept (fun o ho => nomatch hn.symm.trans ho)
    | some n => exact ⟨_,n,h.advanced (hnext n (hcached.symm.trans hn)) hk hn rfl rfl nofun⟩
  · exact hdurable hsame
  · exact hkept (fun o ho => nomatch hnone.symm.trans ho)

theorem Based.step (h : Based s k m) (hstep : Step true s t) : ∃ k' m', Based t k' m' := by
  cases hstep with
  | reopen p reply _ hsynced => exact ⟨k,m,h.reopen (hsynced rfl) p reply⟩
  | writeMeta p next hp hidle hnext => exact ⟨k,m,h.writeMeta hp hidle hnext⟩
  | syncMeta p next hp hwriting => exact ⟨_,next,h.syncMeta hp hwriting⟩
  | publishAnchor p reply hp => exact ⟨k,m,h.publishAnchor hp reply⟩
  | crash fate => exact ⟨k,m,h.crash fate⟩
  | writeBack => exact h.restored s.cached (fun _ => .inl rfl)
  | powerLoss slots hslots => exact h.restored slots hslots
  | replace slots _ hsynced => cases hsynced

theorem Reaches.based (h : Reaches true s) : ∃ k m, Based s k m := by
  induction h with
  | created databaseID => exact ⟨0,_,created_based databaseID⟩
  | step _ hstep ih =>
    obtain ⟨k,m,hbased⟩ := ih
    exact hbased.step hstep

end Based

/-- Once a version is acknowledged, no file behind it opens, whatever the options are.
As long as every open reads what is on the disk, the file as any crash leaves it opens,
and the anchor is then the file's. -/
theorem rollback_detected_and_crashes_recovered {synced : Bool} {s : State} (h : Reaches synced s) :
    (∀ a ∈ s.acknowledged, ∀ p reply slot m,
      m.commitSequence < a.minimumCommitSequence ∨ m.generation < a.minimumGeneration →
        ∃ e, openDatabase p reply s.anchor (some (slot,m)) = (s.anchor,.error e)) ∧
    (synced = true → s.primary = none → ∃ slot m, selectMeta s.cached = some (slot,m) ∧
        (∀ a ∈ s.acknowledged, anchorBeforeOrEqual a (anchorOf m) = true) ∧
        ∀ p : Protection, p.initializeAnchor = s.anchor.isNone → p.Accepts m →
          openDatabase p .done s.anchor (selectMeta s.cached) = (some (anchorOf m),.ok (slot,m))) := by
  refine ⟨?_,?_⟩
  · intro a ha p reply slot m hbehind
    obtain ⟨c,hc,hle⟩ := h.anchored a ha
    obtain ⟨-,hsequence,hgeneration⟩ := anchorBeforeOrEqual_iff.mp hle
    rw [hc]
    exact openDatabase_behind p reply (by omega)
  rintro rfl -
  obtain ⟨k,m,hbased⟩ := h.based
  -- what the process reads is what a write-back of the cache would leave
  obtain ⟨slot,n,hread⟩ := hbased.restored s.cached (fun _ => .inl rfl)
  have hselect : selectMeta s.cached = some (slot,n) := selectMeta_newest hread.cached hread.older
  refine ⟨slot,n,hselect,?_,?_⟩
  · intro a ha
    obtain ⟨c,hc,hle⟩ := h.anchored a ha
    exact anchorBeforeOrEqual_trans hle (hread.anchor c hc).2
  intro p hfirst haccepts
  rw [hselect]
  exact openDatabase_ahead hread.valid hread.anchor hfirst haccepts

def exampleID : {id : Identifier // id.isZero = false} := ⟨.filled 1,rfl⟩
def firstCommit : Meta := ⟨exampleID.val,2,1,2,3,1,0,0⟩
def defaults (initializeAnchor : Bool) : Protection := ⟨Logical.zeroIdentifier,0,0,initializeAnchor⟩

/-- The process ends between writing the Meta record of the first commit and syncing it. -/
def interrupted : State :=
  (((created exampleID).reopen (defaults true) .done).writeMeta ⟨createdMeta exampleID,0,none⟩ firstCommit).crash .whole

theorem reaches_interrupted (synced : Bool) : Reaches synced interrupted := by
  refine .step (.step (.step (.created exampleID) (.reopen (defaults true) .done rfl (fun _ => rfl)))
    (.writeMeta ⟨createdMeta exampleID,0,none⟩ firstCommit rfl rfl ?_)) (.crash .whole)
  exact ⟨rfl,rfl,zero_le _⟩

theorem interrupted_commit_recovered : Reaches true interrupted ∧ interrupted.primary = none ∧
    ∃ slot m, openDatabase (defaults false) .done interrupted.anchor (selectMeta interrupted.cached) =
      (some (anchorOf m),.ok (slot,m)) := by
  obtain ⟨-,hrecovered⟩ := rollback_detected_and_crashes_recovered (reaches_interrupted true)
  obtain ⟨slot,m,-,-,hopen⟩ := hrecovered rfl rfl
  exact ⟨reaches_interrupted true,rfl,slot,m,hopen _ rfl ⟨.inl rfl,zero_le _,zero_le _⟩⟩

/-- An open publishes the version of the interrupted commit from the page cache, and a
power loss then takes its Meta record away: the file is behind the anchor for good. -/
theorem unsynced_open_locked_out : ∃ s, Reaches false s ∧ s.primary = none ∧
    ∀ p reply, ∃ e, openDatabase p reply s.anchor (selectMeta s.cached) = (s.anchor,.error e) := by
  have hreopened := (reaches_interrupted false).step (.reopen (defaults false) .done rfl nofun)
  refine ⟨_,hreopened.step (.powerLoss (created exampleID).cached ?_),rfl,fun p reply => ?_⟩
  · exact Fin.forall_fin_two.mpr ⟨.inl rfl,.inr (.inl rfl)⟩
  · change ∃ e, openDatabase p reply (some (anchorOf firstCommit)) (some (0,createdMeta exampleID)) = _
    exact openDatabase_behind p reply (.inr (by decide))

end Meldbase.Database.RollbackProtection
