import Meldbase.Library.FixedWidth
import Meldbase.Library.ListSurgery
import Meldbase.Logical.System

/-! # Durable consumer checkpoints

The acknowledgement directory is one system record.  A directory that encodes
decodes to its checkpoints in name order.
-/
namespace Meldbase.Logical
open List Outcome
open FixedWidth

structure Checkpoint where
  name : Bytes
  ack : ℕ
  deriving DecidableEq

def maxDurableCommitConsumers : ℕ := 64
def maxDurableConsumerName : ℕ := 64

/-- The bytes of `"\x00meldbase.consumers"`. -/
def durableConsumerKey : Bytes := [0,109,101,108,100,98,97,115,101,46,99,111,110,115,117,109,101,114,115]

/-- The bytes of `"MELDCON1"`. -/
def durableConsumerMagic : Bytes := [77,69,76,68,67,79,78,49]
def validDurableConsumerName (name : Bytes) : Bool :=
  0 < name.length && name.length ≤ maxDurableConsumerName && name.all isNameByte

variable (cs : List Checkpoint)

def orderedCheckpoints : List Checkpoint := cs.insertionSort (fun a b => a.name ≤ b.name)
def encodeCheckpoint (c : Checkpoint) : Bytes :=
  Fin.ofNat 256 c.name.length :: (c.name ++ littleEndian 8 c.ack)
def encodeDurableConsumerCheckpoints : Except StorageError Bytes :=
  if maxDurableCommitConsumers < cs.length then .error .corrupt
  else
    let ordered := orderedCheckpoints cs
    if ordered.all (fun c => validDurableConsumerName c.name) && ordered.IsChain (fun a b => a.name ≠ b.name) then
      .ok (durableConsumerMagic ++ littleEndian 2 formatVersion ++ littleEndian 2 ordered.length ++
        [0,0,0,0] ++ ordered.flatMap encodeCheckpoint)
    else .error .corrupt

/-- The entry loop of `decodeDurableConsumerCheckpoints`, with the entries still
expected, the name before and the bytes left. -/
def decodeCheckpoints : ℕ → Option Bytes → Bytes → Except StorageError (List Checkpoint)
  | 0, _, rest => if rest = [] then .ok [] else .error .corrupt
  | _+1, _, [] => .error .corrupt
  | n+1, previous, length::rest =>
    if length.val = 0 || maxDurableConsumerName < length.val || rest.length < length.val+8 then .error .corrupt
    else
      let name := rest.take length.val
      let tail := rest.drop length.val
      if !validDurableConsumerName name || previous.any (name ≤ ·) then .error .corrupt
      else do
        let more ← decodeCheckpoints n (some name) (tail.drop 8)
        .ok (⟨name,ofLittleEndian (tail.take 8)⟩ :: more)
def decodeDurableConsumerCheckpoints (encoded : Bytes) : Except StorageError (List Checkpoint) :=
  if encoded.length < 16 || encoded.take 8 ≠ durableConsumerMagic ||
      ofLittleEndian ((encoded.drop 8).take 2) ≠ formatVersion || ofLittleEndian ((encoded.drop 12).take 2) ≠ 0 ||
      ofLittleEndian ((encoded.drop 14).take 2) ≠ 0 then .error .corrupt
  else
    let count := ofLittleEndian ((encoded.drop 10).take 2)
    if maxDurableCommitConsumers < count then .error .corrupt
    else decodeCheckpoints count none (encoded.drop 16)

/-- `durableConsumerCheckpointsUnlocked`: no record means no consumer. -/
def durableConsumerCheckpoints (catalogRoot : Option Catalog) : Except StorageError (List Checkpoint) :=
  match getSystemRecord catalogRoot durableConsumerKey with
  | none => .ok []
  | some value => decodeDurableConsumerCheckpoints value
def findDurableConsumer (name : Bytes) : Option Checkpoint := cs.find? (fun c => c.name = name)

/-! ### Round trip -/

/-- Directories that a decoder accepts: strictly ascending valid names. -/
structure DirectoryOk (cs : List Checkpoint) : Prop where
  names : ∀ c ∈ cs, validDurableConsumerName c.name
  acks : ∀ c ∈ cs, c.ack ≤ maxUint64
  ascending : cs.Pairwise (fun a b => a.name < b.name)

variable {cs : List Checkpoint}

theorem decodeCheckpoints_encode (hok : DirectoryOk cs)
    (hprev : ∀ p ∈ previous, ∀ c ∈ cs, p < c.name) :
    decodeCheckpoints cs.length previous (cs.flatMap encodeCheckpoint) = .ok cs := by
  induction cs generalizing previous with
  | nil => rfl
  | cons c cs ih =>
    obtain ⟨hnames,hacks,hasc⟩ := hok
    obtain ⟨hfirst,hrest⟩ := pairwise_cons.mp hasc
    have hname := hnames c mem_cons_self
    have hack : c.ack < 256 ^ 8 := by
      have := hacks c mem_cons_self
      unfold maxUint64 at this
      omega
    have hbounds : 0 < c.name.length ∧ c.name.length ≤ 64 := by
      simp only [validDurableConsumerName,Bool.and_eq_true,decide_eq_true_eq] at hname
      exact hname.1
    have hlen : (Fin.ofNat 256 c.name.length).val = c.name.length := Nat.mod_eq_of_lt (by omega)
    have hmore := @ih (some c.name) ⟨fun d hd => hnames d (mem_cons_of_mem _ hd),
      fun d hd => hacks d (mem_cons_of_mem _ hd),hrest⟩ (by
        intro p hp d hd
        cases hp
        exact hfirst d hd)
    have hbefore : previous.any (c.name ≤ ·) = false := by
      cases previous with
      | none => rfl
      | some p => simpa using hprev p rfl c mem_cons_self
    simp only [length_cons,flatMap_cons,encodeCheckpoint,cons_append,decodeCheckpoints,hlen]
    have hdrop : ∀ tail : Bytes, (littleEndian 8 c.ack ++ tail).drop 8 = tail := fun tail => by
      rw [drop_left' (length_littleEndian 8 c.ack)]
    have htake : ∀ tail : Bytes, (littleEndian 8 c.ack ++ tail).take 8 = littleEndian 8 c.ack := fun tail => by
      rw [take_left' (length_littleEndian 8 c.ack)]
    have hguard : (decide (c.name.length = 0) || decide (maxDurableConsumerName < c.name.length) ||
        decide ((c.name ++ littleEndian 8 c.ack ++ cs.flatMap encodeCheckpoint).length < c.name.length+8)) = false := by
      simp only [length_append,length_littleEndian,Bool.or_eq_false_iff,decide_eq_false_iff_not]
      unfold maxDurableConsumerName
      omega
    rw [if_neg (by rw [hguard]; decide)]
    simp only [append_assoc,take_left',drop_left',hname,hbefore,htake,hdrop,hmore,
      ofLittleEndian_littleEndian hack,Bool.not_true,Bool.or_false,Bool.false_eq_true,if_false,ok_bind]

theorem decodeCheckpoints_acks (h : decodeCheckpoints n previous encoded = .ok cs) : ∀ c ∈ cs, c.ack ≤ maxUint64 := by
  induction n generalizing previous encoded cs with
  | zero =>
    unfold decodeCheckpoints at h
    split_ifs at h
    cases h
    simp
  | succ n ih =>
    cases encoded with
    | nil => cases h
    | cons length rest =>
      unfold decodeCheckpoints at h
      obtain ⟨-,h⟩ := guard_eq_ok.mp h
      obtain ⟨-,h⟩ := guard_eq_ok.mp h
      obtain ⟨more,hmore,h⟩ := bind_eq_ok.mp h
      cases h
      intro c hc
      rcases mem_cons.mp hc with rfl | hc
      · -- eight bytes at most
        have hlt := ofLittleEndian_lt ((rest.drop length.val).take 8)
        have hlen : ((rest.drop length.val).take 8).length ≤ 8 := length_take_le _ _
        have hpow : 256 ^ ((rest.drop length.val).take 8).length ≤ 256 ^ 8 := Nat.pow_le_pow_right (by omega) hlen
        unfold maxUint64
        dsimp only
        omega
      · exact ih hmore c hc

theorem durableConsumerCheckpoints_acks (h : durableConsumerCheckpoints root = .ok cs) : ∀ c ∈ cs, c.ack ≤ maxUint64 := by
  unfold durableConsumerCheckpoints at h
  split at h
  · cases h
    simp
  unfold decodeDurableConsumerCheckpoints at h
  obtain ⟨-,h⟩ := guard_eq_ok.mp h
  obtain ⟨-,h⟩ := guard_eq_ok.mp h
  exact decodeCheckpoints_acks h

theorem decode_encode_checkpoints (hacks : ∀ c ∈ cs, c.ack ≤ maxUint64)
    (h : encodeDurableConsumerCheckpoints cs = .ok encoded) :
    decodeDurableConsumerCheckpoints encoded = .ok (orderedCheckpoints cs) ∧ DirectoryOk (orderedCheckpoints cs) := by
  unfold encodeDurableConsumerCheckpoints at h
  dsimp only at h
  split_ifs at h with hmany hvalid
  cases h
  simp only [Bool.and_eq_true,all_eq_true,decide_eq_true_eq] at hvalid
  obtain ⟨hnames,hdistinct⟩ := hvalid
  have hlength : (orderedCheckpoints cs).length = cs.length := length_insertionSort _ _
  have hsorted : (orderedCheckpoints cs).Pairwise (fun a b => a.name ≤ b.name) := pairwise_insertionSort _ _
  have hok : DirectoryOk (orderedCheckpoints cs) := by
    exact ⟨hnames,fun c hc => hacks c ((mem_insertionSort _).mp hc),
      ListSurgery.pairwise_lt_of_le_of_ne hsorted hdistinct⟩
  refine ⟨?_,hok⟩
  have hcount : (orderedCheckpoints cs).length < 256 ^ 2 := by
    unfold maxDurableCommitConsumers at hmany
    omega
  have hversion : ofLittleEndian (littleEndian 2 formatVersion) = formatVersion :=
    ofLittleEndian_littleEndian (by decide)
  have hbody := @decodeCheckpoints_encode _ none hok (by simp)
  have hlen := ofLittleEndian_littleEndian hcount
  obtain ⟨x,y,hwidth⟩ : ∃ x y, littleEndian 2 (orderedCheckpoints cs).length = [x,y] := ⟨_,_,rfl⟩
  have hthree : littleEndian 2 formatVersion = [3,0] := rfl
  rw [hwidth] at hlen ⊢
  rw [hthree] at hversion ⊢
  have hfew : ¬ maxDurableCommitConsumers < (orderedCheckpoints cs).length := by rwa [hlength]
  have hzero : ofLittleEndian [0,0] = 0 := rfl
  simp only [decodeDurableConsumerCheckpoints,durableConsumerMagic,cons_append,nil_append,
    length_cons,take_succ_cons,take_zero,drop_succ_cons,drop_zero,hversion,hlen,hzero,
    hfew,hbody,ne_eq,not_true_eq_false,decide_false,Bool.or_false,if_false]
  rw [if_neg (by simp)]

end Meldbase.Logical
