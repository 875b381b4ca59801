import Meldbase.Logical.ReplaySafety

/-! # Acknowledged delivery

A durable consumer that is opened by one handle at a time has acknowledged, over
all its handles, a prefix of the commits after its creation, and no acknowledged
commit is delivered to it again.
-/
namespace Meldbase.Logical
open Function SortedMap List
open Outcome (bind_eq_ok guard_eq_ok ok_bind)

/-! ### Saved checkpoints -/

def File.savedAck (f : File) (name : Bytes) : Option ℕ :=
  match durableConsumerCheckpoints f.root.catalogRoot with
  | .ok cs => (findDurableConsumer cs name).map Checkpoint.ack
  | .error _ => none

variable {f : File} {cs : List Checkpoint} {f' : File} {name : Bytes} {log : ℕ → CommitBatch}

theorem File.savedAck_eq (h : durableConsumerCheckpoints f.root.catalogRoot = .ok cs)
    (name : Bytes) : f.savedAck name = (findDurableConsumer cs name).map Checkpoint.ack := by
  unfold File.savedAck
  rw [h]

theorem File.savedAck_of_root (h : f'.root = f.root) (name : Bytes) : f'.savedAck name = f.savedAck name := by
  unfold File.savedAck
  rw [h]

theorem findDurableConsumer_eq_some (hnodup : (cs.map Checkpoint.name).Nodup)
    : findDurableConsumer cs name = some c ↔ c ∈ cs ∧ c.name = name := by
  constructor
  · intro h
    exact ⟨mem_of_find?_eq_some h,by simpa using find?_some h⟩
  rintro ⟨hmem,rfl⟩
  obtain ⟨d,hd⟩ : ∃ d, findDurableConsumer cs c.name = some d := by
    rw [← Option.isSome_iff_exists,findDurableConsumer,find?_isSome]
    exact ⟨c,hmem,by simp⟩
  have hname : d.name = c.name := by simpa using find?_some hd
  rw [hd,inj_on_of_nodup_map hnodup (mem_of_find?_eq_some hd) hmem hname]

theorem findDurableConsumer_ordered (hok : DirectoryOk (orderedCheckpoints cs)) (name : Bytes) :
    findDurableConsumer (orderedCheckpoints cs) name = findDurableConsumer cs name := by
  have hperm : (orderedCheckpoints cs).Perm cs := perm_insertionSort _ _
  have hordered : ((orderedCheckpoints cs).map Checkpoint.name).Nodup :=
    pairwise_map.mpr (hok.ascending.imp (fun h => ne_of_lt h))
  have hnodup : (cs.map Checkpoint.name).Nodup := (hperm.map _).nodup_iff.mp hordered
  ext c
  rw [findDurableConsumer_eq_some hordered,findDurableConsumer_eq_some hnodup,hperm.mem_iff]

theorem storeDirectory_checkpoints [Sha256]
    (hacks : ∀ c ∈ cs, c.ack ≤ maxUint64) (hencoded : encodeDurableConsumerCheckpoints cs = .ok encoded)
    (h : storeDirectory root encoded = .ok catalog) :
    durableConsumerCheckpoints (some catalog) = .ok (orderedCheckpoints cs) ∧ DirectoryOk (orderedCheckpoints cs) := by
  obtain ⟨-,hrecord⟩ := applySystemRecordMutation_applied (storeDirectory_ok h)
  have hstored : getSystemRecord (some catalog) durableConsumerKey = some encoded := by
    rw [hrecord]
    simp [directoryMutation]
  unfold durableConsumerCheckpoints
  rw [hstored]
  exact decode_encode_checkpoints hacks hencoded

theorem replaceDurableConsumerCheckpoints_saved [Sha256] (hacks : ∀ c ∈ cs, c.ack ≤ maxUint64)
    (h : f.replaceDurableConsumerCheckpoints cs = .ok f') (name : Bytes) :
    f'.savedAck name = (findDurableConsumer cs name).map Checkpoint.ack := by
  obtain ⟨encoded,catalog,hencoded,hstore,hup⟩ := replaceDurableConsumerCheckpoints_ok h
  obtain ⟨hround,hok⟩ := storeDirectory_checkpoints hacks hencoded hstore
  have hcatalog : f'.root.catalogRoot = some catalog := hup.catalogRoot
  rw [← hcatalog] at hround
  rw [File.savedAck_eq hround,findDurableConsumer_ordered hok]

theorem createInitialDurableConsumer_saved [Sha256] (h : f.createInitialDurableConsumer name transactionID = .ok f') (n : Bytes) :
    f'.savedAck n = if n = name then some 1 else none := by
  obtain ⟨tx,root,batch,encoded,catalog,-,hup,happends,hencoded,hstore,hbatch,-⟩ := createInitialDurableConsumer_ok h
  obtain ⟨hround,-⟩ := storeDirectory_checkpoints (by simp [maxUint64]) hencoded hstore
  rw [← hbatch,← happends.catalog,← hup.catalogRoot] at hround
  rw [File.savedAck_eq hround]
  by_cases hn : n = name
  · simp [hn,orderedCheckpoints,findDurableConsumer]
  · simp [hn,orderedCheckpoints,findDurableConsumer,Ne.symm hn]

theorem createDurableCommitConsumer_saved [Sha256] {after position : ℕ} (hf : FileLogged f log)
    (h : f.createDurableCommitConsumer name after transactionID = .ok (f',position)) :
    f'.savedAck name = some position ∧ ∀ n, n ≠ name → f'.savedAck n = f.savedAck n := by
  obtain ⟨cs,hafter,hcs,hnone,⟨hzero,hinitial,rfl⟩ | ⟨hreplace,rfl⟩⟩ := createDurableCommitConsumer_cases h
  · have hsaved := createInitialDurableConsumer_saved hinitial
    refine ⟨by rw [hsaved,if_pos rfl],?_⟩
    intro n hn
    have hempty : durableConsumerCheckpoints f.root.catalogRoot = .ok [] := by
      rw [hf.empty hzero]
      rfl
    rw [hsaved,if_neg hn,File.savedAck_eq hempty]
    rfl
  have hsaved := replaceDurableConsumerCheckpoints_saved (by
    intro c hc
    rcases mem_append.mp hc with hc | hc
    · exact durableConsumerCheckpoints_acks hcs c hc
    · obtain rfl := mem_singleton.mp hc
      exact hafter.1.trans hf.sequence_le) hreplace
  constructor
  · rw [hsaved,findDurableConsumer,find?_append,← findDurableConsumer,hnone]
    simp
  intro n hn
  rw [hsaved,File.savedAck_eq hcs,findDurableConsumer,find?_append,← findDurableConsumer]
  simp [Ne.symm hn]

theorem findDurableConsumer_withAck (cs : List Checkpoint) (name n : Bytes) (sequence : ℕ) :
    (findDurableConsumer (withAck cs name sequence) n).map Checkpoint.ack =
      if n = name then (findDurableConsumer cs n).map (fun _ => sequence)
      else (findDurableConsumer cs n).map Checkpoint.ack := by
  induction cs with
  | nil => simp [withAck,findDurableConsumer]
  | cons c cs ih =>
    unfold withAck findDurableConsumer at ih ⊢
    rw [map_cons,find?_cons,find?_cons]
    by_cases hc : c.name = name <;> by_cases hn : c.name = n
    · simp [hc,← hn]
    · have hne : n ≠ name := fun heq => hn (hc.trans heq.symm)
      simp only [hc,if_true,hc ▸ hn,decide_false,hne,if_false] at ih ⊢
      exact ih
    · have hne : n ≠ name := fun heq => hc (hn.trans heq)
      simp [hn,hne]
    · simp only [hc,hn,if_false,decide_false] at ih ⊢
      exact ih

structure Acked (f : File) (consumer : DurableCommitConsumer) (sequence : ℕ) (f' : File)
    (consumer' : DurableCommitConsumer) (saved : ℕ) : Prop where
  lower : consumer.checkpoint ≤ sequence
  upper : sequence ≤ consumer.delivered
  before : f.savedAck consumer.name = some saved
  after : f'.savedAck consumer.name = some (max saved sequence)
  others : ∀ n, n ≠ consumer.name → f'.savedAck n = f.savedAck n
  handle : consumer' = { consumer with checkpoint := max saved sequence }
  sequence_eq : f'.root.commitSequence = f.root.commitSequence

theorem ackDurableConsumer_ok [Sha256] {sequence : ℕ}
    (hdelivered : consumer.delivered ≤ maxUint64) (h : f.ackDurableConsumer consumer sequence = .ok (f',consumer')) :
    ∃ saved, Acked f consumer sequence f' consumer' saved := by
  obtain ⟨hlower,hupper,cs,c,hcs,hfind,rfl,hwrite⟩ := ackDurableConsumer_cases h
  have hbefore : f.savedAck consumer.name = some c.ack := by
    rw [File.savedAck_eq hcs,hfind]
    rfl
  refine ⟨c.ack,?_⟩
  rcases hwrite with ⟨hstale,rfl⟩ | ⟨hahead,hreplace⟩
  · exact ⟨hlower,hupper,hbefore,by rw [max_eq_left hstale]; exact hbefore,fun _ _ => rfl,rfl,rfl⟩
  have hsaved := replaceDurableConsumerCheckpoints_saved (by
    intro d hd
    obtain ⟨e,he,rfl⟩ := mem_map.mp hd
    split_ifs
    · exact hupper.trans hdelivered
    · exact durableConsumerCheckpoints_acks hcs e he) hreplace
  obtain ⟨_,_,-,-,hup⟩ := replaceDurableConsumerCheckpoints_ok hreplace
  refine ⟨hlower,hupper,hbefore,?_,?_,rfl,hup.commitSequence⟩
  · rw [hsaved,findDurableConsumer_withAck,if_pos rfl,hfind,max_eq_right hahead.le]
    rfl
  · intro n hn
    rw [hsaved,findDurableConsumer_withAck,if_neg hn,File.savedAck_eq hcs]

theorem deleteDurableCommitConsumer_saved [Sha256] (h : f.deleteDurableCommitConsumer name = .ok f') :
    f'.savedAck name = none ∧ ∀ n, n ≠ name → f'.savedAck n = f.savedAck n := by
  obtain ⟨cs,hcs,hreplace⟩ := deleteDurableCommitConsumer_cases h
  have hsaved := replaceDurableConsumerCheckpoints_saved
    (fun c hc => durableConsumerCheckpoints_acks hcs c (mem_of_mem_filter hc)) hreplace
  constructor
  · rw [hsaved,findDurableConsumer,find?_filter]
    simp
  intro n hn
  rw [hsaved,File.savedAck_eq hcs,findDurableConsumer,find?_filter,findDurableConsumer]
  congr 2
  funext c
  by_cases hc : c.name = n
  · simp [hc,hn]
  · simp [hc]

theorem durableConsumerPosition_saved (h : f.durableConsumerPosition name = .ok position) : f.savedAck name = some position := by
  unfold File.durableConsumerPosition at h
  obtain ⟨-,h⟩ := guard_eq_ok.mp h
  obtain ⟨cs,hcs,h⟩ := bind_eq_ok.mp h
  rw [File.savedAck_eq hcs]
  split at h
  · cases h
  rename_i c hfind
  obtain ⟨_,-,h⟩ := bind_eq_ok.mp h
  cases h
  rw [hfind]
  rfl

/-! ### What a consumer has seen -/

/-- The history of a consumer: where it was created, what it has acknowledged, and
what each open handle has been given since its last acknowledgement. -/
structure ConsumerView where
  start : ℕ
  acknowledged : List CommitBatch
  pending : ℕ → List CommitBatch

def ConsumerView.initial : ConsumerView := ⟨0,[],fun _ => []⟩
def Session.serves (s : Session) (name : Bytes) (pinID : ℕ) : Bool := (s.consumers.find pinID).any (fun c => c.name = name)
def ConsumerView.observe [Sha256] (name : Bytes) (v : ConsumerView) (s : Session) (op : Operation) : ConsumerView :=
  match op, s.perform op with
  | .createConsumer n _ _, .ok (s',_) =>
    if n = name then ⟨(s'.file.savedAck name).getD 0,[],fun _ => []⟩ else v
  | .consumerNext id, .ok (_,.batch b) =>
    if s.serves name id then { v with pending := update v.pending id (v.pending id ++ [b]) } else v
  | .ack id sequence, .ok _ =>
    if s.serves name id then { v with
      acknowledged := v.acknowledged ++ (v.pending id).filter (fun b => b.sequence ≤ sequence)
      pending := update v.pending id ((v.pending id).filter (fun b => sequence < b.sequence)) }
    else v
  | .close id, _ => { v with pending := update v.pending id [] }
  | .reopen _ _, .ok _ => { v with pending := fun _ => [] }
  | _, _ => v
def follow [Sha256] (name : Bytes) : Session × ConsumerView → List Operation → Session × ConsumerView
  | p, [] => p
  | (s,v), op::ops => follow name (s.step op,v.observe name s op) ops

theorem follow_fst [Sha256] (name : Bytes) (s : Session) (v : ConsumerView) (ops : List Operation) :
    (follow name (s,v) ops).1 = ops.foldl Session.step s := by
  induction ops generalizing s v with
  | nil => rfl
  | cons op ops ih => exact ih _ _

/-- Where the record changes write a directory that decodes, it gives the consumer no checkpoint but the one it has. -/
def File.WritesOwnCheckpoint (f : File) (name : Bytes) (records : List SystemRecordMutation) : Prop :=
  ∀ m ∈ records, m.key = durableConsumerKey → m.delete = false →
    ∀ cs, decodeDurableConsumerCheckpoints m.newValue = .ok cs →
      ∀ c, findDurableConsumer cs name = some c → f.savedAck name = some c.ack

/-- One handle at a time, and no accepted publication that writes another checkpoint. -/
def Disciplined [Sha256] (name : Bytes) (s : Session) : Operation → Prop
  | .publish p => (∃ f, p.val.apply s.file = .ok f) → s.file.WritesOwnCheckpoint name p.val.systemRecords
  | .createConsumer n _ _ => n = name → ∀ id, s.serves name id = false
  | .openConsumer n => n = name → ∀ id, s.serves name id = false
  | _ => True
def DisciplinedRun [Sha256] (name : Bytes) : Session → List Operation → Prop
  | _, [] => True
  | s, op::ops => Disciplined name s op ∧ DisciplinedRun name (s.step op) ops

theorem Publication.savedAck_after [Sha256] {p : Publication} (h : p.apply f = .ok f')
    (hkept : f.WritesOwnCheckpoint name p.systemRecords) (hsaved : f'.savedAck name = some saved) :
    f.savedAck name = some saved := by
  unfold File.savedAck at hsaved
  rcases Publication.directory_after h with hsame | hnone | ⟨m,hm,hkey,hdelete,hwritten⟩
  · rw [hsame] at hsaved
    exact hsaved
  · simp [hnone,findDurableConsumer] at hsaved
  rw [hwritten] at hsaved
  cases hcs : decodeDurableConsumerCheckpoints m.newValue with
  | error e => simp [hcs] at hsaved
  | ok cs =>
    simp only [hcs,Option.map_eq_some_iff] at hsaved
    obtain ⟨c,hc,rfl⟩ := hsaved
    exact hkept m hm hkey hdelete cs hcs c hc

/-! ### The invariant -/

def InSequence (log : ℕ → CommitBatch) (a b : ℕ) : Prop := ∀ q, a < q → q ≤ b → (log q).sequence = q

theorem InSequence.self (log : ℕ → CommitBatch) (a : ℕ) : InSequence log a a := fun _ hlo hhi => absurd hhi (not_le.mpr hlo)

theorem InSequence.snoc (h : InSequence log a b)
    (hnext : (log (b+1)).sequence = b+1) : InSequence log a (b+1) := by
  intro q hlo hhi
  rcases Nat.lt_or_ge b q with hq | hq
  · obtain rfl : q = b+1 := by omega
    exact hnext
  · exact h q hlo hq

/-- A consumer has acknowledged the commits up to `acked`; its handle has been given
those after it. -/
structure Follows (name : Bytes) (log : ℕ → CommitBatch) (s : Session) (v : ConsumerView) (acked : ℕ) : Prop where
  start_le : v.start ≤ acked
  acked_le : acked ≤ s.file.root.commitSequence
  in_sequence : InSequence log v.start acked
  acknowledged : v.acknowledged = commitsBetween log v.start acked
  saved : ∀ a, s.file.savedAck name = some a → a = acked
  handle : ∀ id c, s.consumers.find id = some c → c.name = name → c.checkpoint = acked ∧ acked ≤ c.stream.after ∧
    InSequence log acked c.stream.after ∧ v.pending id = commitsBetween log acked c.stream.after
  single : ∀ id id', s.serves name id = true → s.serves name id' = true → id = id'
  idle : ∀ id, s.serves name id = false → v.pending id = []

variable {s : Session}

theorem Session.serves_iff {id : ℕ} :
    s.serves name id = true ↔ ∃ c, s.consumers.find id = some c ∧ c.name = name := by
  unfold Session.serves
  cases s.consumers.find id <;> simp

theorem Session.serves_eq_false {id : ℕ} :
    s.serves name id = false ↔ ∀ c, s.consumers.find id = some c → c.name ≠ name := by
  rw [← Bool.not_eq_true,Session.serves_iff]
  push Not
  exact Iff.rfl

theorem Follows.create (name : Bytes) (log : ℕ → CommitBatch) (maxCommits maxBytes : ℕ) :
    Follows name log (Session.start (File.create maxCommits maxBytes)) .initial 0 := by
  have hnone : ∀ id, (Session.start (File.create maxCommits maxBytes)).consumers.find id = none := fun id => find_empty id
  refine ⟨le_rfl,Nat.zero_le _,.self log 0,(commitsBetween_self log 0).symm,?_,?_,?_,fun _ _ => rfl⟩
  · intro a ha
    cases ha
  · intro id c hfind
    rw [hnone] at hfind
    cases hfind
  intro id id' hid
  obtain ⟨c,hfind,-⟩ := Session.serves_iff.mp hid
  rw [hnone] at hfind
  cases hfind

/-- What leaves the handles of a consumer alone and saves nothing new for it. -/
theorem Follows.frame (h : Follows name log s v acked) (hseq : s.file.root.commitSequence ≤ s'.file.root.commitSequence)
    (hsaved : ∀ a, s'.file.savedAck name = some a → s.file.savedAck name = some a)
    (hhandles : ∀ id c, c.name = name → (s'.consumers.find id = some c ↔ s.consumers.find id = some c)) :
    Follows name log s' v acked := by
  have hserves : ∀ id, s'.serves name id = s.serves name id := by
    intro id
    rw [Bool.eq_iff_iff,Session.serves_iff,Session.serves_iff]
    constructor
    · rintro ⟨c,hfind,hname⟩
      exact ⟨c,(hhandles id c hname).mp hfind,hname⟩
    · rintro ⟨c,hfind,hname⟩
      exact ⟨c,(hhandles id c hname).mpr hfind,hname⟩
  refine ⟨h.start_le,h.acked_le.trans hseq,h.in_sequence,h.acknowledged,fun a ha => h.saved a (hsaved a ha),?_,?_,?_⟩
  · intro id c hfind hname
    exact h.handle id c ((hhandles id c hname).mp hfind) hname
  · intro id id' hid hid'
    rw [hserves] at hid hid'
    exact h.single id id' hid hid'
  intro id hid
  rw [hserves] at hid
  exact h.idle id hid

theorem Follows.fresh (hle : position ≤ s.file.root.commitSequence) (hsaved : s.file.savedAck name = some position)
    (hnone : ∀ id, s.serves name id = false) : Follows name log s ⟨position,[],fun _ => []⟩ position := by
  refine ⟨le_rfl,hle,.self log position,(commitsBetween_self log position).symm,?_,?_,?_,fun _ _ => rfl⟩
  · intro a ha
    rw [hsaved] at ha
    exact (Option.some.inj ha).symm
  · intro id c hfind hname
    exact absurd hname (Session.serves_eq_false.mp (hnone id) c hfind)
  intro id id' hid
  rw [hnone] at hid
  cases hid

theorem Follows.openHandle
    (h : Follows name log s v acked) (hnone : ∀ id, s.serves name id = false) (hroot : f.root = s.file.root) :
    Follows name log { s with file := f, consumers := s.consumers.insert pinID ⟨name,⟨acked,0⟩,acked,acked⟩ } v acked := by
  have hfind : ∀ id c, (s.consumers.insert pinID ⟨name,⟨acked,0⟩,acked,acked⟩).find id = some c → c.name = name →
      id = pinID ∧ c = ⟨name,⟨acked,0⟩,acked,acked⟩ := by
    intro id c hfind hname
    rw [find_insert] at hfind
    split_ifs at hfind with hid
    · exact ⟨hid,(Option.some.inj hfind).symm⟩
    · exact absurd hname (Session.serves_eq_false.mp (hnone id) c hfind)
  refine ⟨h.start_le,by rw [hroot]; exact h.acked_le,h.in_sequence,h.acknowledged,?_,?_,?_,?_⟩
  · intro a ha
    rw [File.savedAck_of_root hroot] at ha
    exact h.saved a ha
  · intro id c hc hname
    obtain ⟨rfl,rfl⟩ := hfind id c hc hname
    exact ⟨rfl,le_rfl,.self log acked,by rw [commitsBetween_self]; exact h.idle id (hnone id)⟩
  · intro id id' hid hid'
    obtain ⟨c,hc,hname⟩ := Session.serves_iff.mp hid
    obtain ⟨c',hc',hname'⟩ := Session.serves_iff.mp hid'
    rw [(hfind id c hc hname).1,(hfind id' c' hc' hname').1]
  · intro id _
    exact h.idle id (hnone id)

theorem handles_other {m : SortedMap ℕ DurableCommitConsumer}
    (hname : consumer.name ≠ name) (hold : ∀ c, m.find pinID = some c → c.name ≠ name) (id : ℕ)
    (c : DurableCommitConsumer) (hc : c.name = name) : (m.insert pinID consumer).find id = some c ↔ m.find id = some c := by
  rw [find_insert]
  split_ifs with hid
  · constructor
    · intro h
      exact absurd (Option.some.inj h ▸ hc) hname
    · intro h
      exact absurd hc (hold c (hid ▸ h))
  · exact Iff.rfl

theorem HandlesOk.new_unused {sequence : ℕ} (h : HandlesOk s)
    (hadd : s.file.addReaderPin sequence replay = .ok (f,pinID)) : s.consumers.find pinID = none := by
  rw [(addReaderPin_ok hadd).1]
  exact (h.pin_unused h.next_unused).2

section Steps
variable {name : Bytes} {log log0 : ℕ → CommitBatch} {s s' : Session} {v : ConsumerView} {acked : ℕ} {a : Answer}

section
variable (h : Follows name log s v acked)
include h

theorem Follows.reads [Sha256] (hp : s.perform op = .ok (s',a)) (hop : op.reads) : Follows name log s' v acked := by
  obtain ⟨hconsumers,hroot⟩ := Session.perform_reads hop hp
  refine h.frame (by rw [hroot]) ?_ ?_
  · intro saved hsaved
    rwa [File.savedAck_of_root hroot] at hsaved
  · intro id c _
    rw [hconsumers]

theorem Follows.createConsumer [Sha256] {after : ℕ}
    (hs : SessionLogged s log0) (hop : n = name → ∀ id, s.serves name id = false)
    (hmono : s.file.root.commitSequence ≤ s'.file.root.commitSequence)
    (hp : s.createConsumer n after transactionID = .ok (s',a)) :
    ∃ acked', Follows name log s' (if n = name then ⟨(s'.file.savedAck name).getD 0,[],fun _ => []⟩ else v) acked' := by
  obtain ⟨f,position,hcreate,hopen⟩ := Session.createConsumer_cases hp
  obtain ⟨hown,hothers⟩ := createDurableCommitConsumer_saved hs.file hcreate
  obtain ⟨hsaves,hreplay⟩ := createDurableCommitConsumer_ok hcreate
  rcases hopen with rfl | ⟨f1,pinID,hadd,rfl⟩
  · split_ifs with hn
    · subst hn
      refine ⟨position,?_⟩
      dsimp only
      rw [hown]
      exact Follows.fresh hreplay.1 hown (hop rfl)
    · exact ⟨acked,h.frame hmono (fun saved hsaved => by rwa [hothers name (Ne.symm hn)] at hsaved) (fun _ _ _ => Iff.rfl)⟩
  have hroot : f1.root = f.root := by rw [(addReaderPin_ok hadd).2]
  split_ifs with hn
  · subst hn
    refine ⟨position,?_⟩
    have hsaved : f1.savedAck n = some position := by rw [File.savedAck_of_root hroot,hown]
    have hfresh : Follows n log { s with file := f } ⟨position,[],fun _ => []⟩ position :=
      Follows.fresh hreplay.1 hown (hop rfl)
    show Follows n log _ ⟨(f1.savedAck n).getD 0,[],fun _ => []⟩ position
    rw [hsaved]
    exact hfresh.openHandle (s := { s with file := f }) (hop rfl) hroot
  refine ⟨acked,h.frame hmono ?_ (handles_other hn ?_)⟩
  · intro saved hsaved
    have hsame : f1.savedAck name = s.file.savedAck name := by
      rw [File.savedAck_of_root hroot,hothers name (Ne.symm hn)]
    rw [← hsame]
    exact hsaved
  intro c hc
  obtain ⟨_,hs1,-⟩ := hs.move hsaves
  rw [hs1.handles.new_unused hadd] at hc
  cases hc

theorem Follows.openConsumer [Sha256] {n : Bytes} (hs : SessionLogged s log0)
    (hop : n = name → ∀ id, s.serves name id = false) (hp : s.openConsumer n = .ok (s',a)) :
    Follows name log s' v acked := by
  obtain ⟨position,hposition,hp⟩ := bind_eq_ok.mp hp
  obtain ⟨opened,hopen,hp⟩ := bind_eq_ok.mp hp
  cases hp
  obtain ⟨⟨f,pinID⟩,hadd,hopen⟩ := bind_eq_ok.mp hopen
  cases hopen
  have hroot : f.root = s.file.root := by rw [(addReaderPin_ok hadd).2]
  by_cases hn : n = name
  · subst hn
    obtain rfl := h.saved position (durableConsumerPosition_saved hposition)
    exact h.openHandle (hop rfl) hroot
  refine h.frame (le_of_eq (congrArg _ hroot.symm)) ?_ (handles_other hn ?_)
  · intro saved hsaved
    rw [← File.savedAck_of_root hroot]
    exact hsaved
  intro c hc
  rw [hs.handles.new_unused hadd] at hc
  cases hc

theorem Follows.setHandle {id acked' : ℕ}
     (hc : s.consumers.find id = some c) (hname : c.name = name)
    (hname' : c'.name = name) (hstart : v'.start = v.start) (hle : acked ≤ acked') (hacked : acked' ≤ c'.stream.after)
    (hbound : acked' ≤ f.root.commitSequence) (hin : InSequence log v.start acked')
    (hacknowledged : v'.acknowledged = commitsBetween log v.start acked')
    (hsaved : ∀ saved, f.savedAck name = some saved → saved = acked') (hcheckpoint : c'.checkpoint = acked')
    (hin' : InSequence log acked' c'.stream.after)
    (hpending : v'.pending = update v.pending id (commitsBetween log acked' c'.stream.after)) :
    Follows name log { s with file := f, consumers := s.consumers.insert id c' } v' acked' := by
  have hown : s.serves name id = true := Session.serves_iff.mpr ⟨c,hc,hname⟩
  have honly : ∀ id1 c1, (s.consumers.insert id c').find id1 = some c1 → c1.name = name → id1 = id ∧ c1 = c' := by
    intro id1 c1 hfind hname1
    rw [find_insert] at hfind
    split_ifs at hfind with hid
    · exact ⟨hid,(Option.some.inj hfind).symm⟩
    · exact absurd (h.single id1 id (Session.serves_iff.mpr ⟨c1,hfind,hname1⟩) hown) hid
  refine ⟨?_,hbound,?_,?_,hsaved,?_,?_,?_⟩
  · rw [hstart]
    exact h.start_le.trans hle
  · rw [hstart]
    exact hin
  · rw [hstart]
    exact hacknowledged
  · intro id1 c1 hfind hname1
    obtain ⟨rfl,rfl⟩ := honly id1 c1 hfind hname1
    refine ⟨hcheckpoint,hacked,hin',?_⟩
    rw [hpending,update_self]
  · intro id1 id2 hid1 hid2
    obtain ⟨c1,hc1,hn1⟩ := Session.serves_iff.mp hid1
    obtain ⟨c2,hc2,hn2⟩ := Session.serves_iff.mp hid2
    rw [(honly id1 c1 hc1 hn1).1,(honly id2 c2 hc2 hn2).1]
  intro id1 hid1
  have hne : id1 ≠ id := by
    rintro rfl
    have := Session.serves_eq_false.mp hid1 c' (by dsimp only; rw [find_insert,if_pos rfl])
    exact this hname'
  rw [hpending,update_of_ne hne]
  refine h.idle id1 (Session.serves_eq_false.mpr ?_)
  intro c1 hc1
  refine Session.serves_eq_false.mp hid1 c1 ?_
  dsimp only
  rw [find_insert,if_neg hne]
  exact hc1

end

theorem Session.consumerNext_cases [Sha256] {id : ℕ} (hs : SessionLogged s log0) (hrec : s.Records log)
    (hp : s.consumerNext id = .ok (s',a)) :
    ∃ c, s.consumers.find id = some c ∧ ((s' = s ∧ a = .waiting) ∨
      (c.stream.after < s.file.root.commitSequence ∧ a = .batch (log (c.stream.after+1)) ∧
        (log (c.stream.after+1)).sequence = c.stream.after+1 ∧ ∃ f, f.root = s.file.root ∧
        s' = { s with file := f, consumers := s.consumers.insert id { c with
          stream := ⟨c.stream.after+1,c.stream.after+1⟩, delivered := c.stream.after+1 } })) := by
  unfold Session.consumerNext at hp
  split at hp
  · cases hp
  rename_i c hc
  obtain ⟨hreader,hdelivered⟩ := hs.handles.consumers id c hc
  refine ⟨c,hc,?_⟩
  rcases consumerNext_spec (hs.file.serves hreader) hreader hdelivered.le with ⟨-,hnext⟩ | ⟨hlt,hnext⟩
  · rw [hnext,ok_bind] at hp
    cases hp
    exact .inl ⟨rfl,rfl⟩
  obtain ⟨hsame,hseq⟩ := hs.next_recorded hrec hreader hlt
  rw [hnext,ok_bind,hsame] at hp
  cases hp
  exact .inr ⟨hlt,rfl,hseq,{ s.file with readers := s.file.readers.insert id ⟨c.stream.after+1,true⟩ },rfl,rfl⟩

theorem Follows.consumerNext [Sha256] {id : ℕ} (h : Follows name log s v acked) (hs : SessionLogged s log0)
    (hrec : s.Records log) (hp : s.perform (.consumerNext id) = .ok (s',a)) :
    Follows name log s' (v.observe name s (.consumerNext id)) acked := by
  unfold ConsumerView.observe
  rw [hp]
  obtain ⟨c,hc,⟨rfl,rfl⟩ | ⟨hlt,rfl,hseq,f,hroot,rfl⟩⟩ := Session.consumerNext_cases hs hrec hp
  · exact h
  dsimp only
  have hsaved : ∀ saved, f.savedAck name = some saved → s.file.savedAck name = some saved := by
    intro saved hsaved
    rwa [File.savedAck_of_root hroot] at hsaved
  split_ifs with hown
  · have hname : c.name = name := by
      obtain ⟨c1,hc1,hname⟩ := Session.serves_iff.mp hown
      rw [hc] at hc1
      cases hc1
      exact hname
    obtain ⟨hcheckpoint,hacked,hin,hpending⟩ := h.handle id c hc hname
    refine h.setHandle hc hname hname rfl le_rfl (hacked.trans (Nat.le_succ _)) (by rw [hroot]; exact h.acked_le)
      h.in_sequence h.acknowledged (fun saved hf => h.saved saved (hsaved saved hf)) hcheckpoint (hin.snoc hseq) ?_
    dsimp only
    rw [hpending,commitsBetween_snoc log hacked]
  have hother : c.name ≠ name := Session.serves_eq_false.mp (by simpa using hown) c hc
  refine h.frame (le_of_eq (congrArg _ hroot.symm)) hsaved (handles_other hother ?_)
  intro c1 hc1
  rw [hc] at hc1
  cases hc1
  exact hother

theorem Follows.ack [Sha256] {id sequence : ℕ} (h : Follows name log s v acked) (hs : SessionLogged s log0)
    (hp : s.perform (.ack id sequence) = .ok (s',a)) :
    ∃ acked', Follows name log s' (v.observe name s (.ack id sequence)) acked' := by
  unfold ConsumerView.observe
  rw [hp]
  obtain ⟨c,f,c',hc,hack,rfl⟩ := Session.ack_cases hp
  obtain ⟨hreader,hdelivered⟩ := hs.handles.consumers id c hc
  have hafter := (hs.file.logged.pins id _ hreader rfl).1
  dsimp only at hafter
  obtain ⟨saved,hacked⟩ := ackDurableConsumer_ok (by have := hs.file.sequence_le; omega) hack
  dsimp only
  split_ifs with hown
  · have hname : c.name = name := by
      obtain ⟨c1,hc1,hname⟩ := Session.serves_iff.mp hown
      rw [hc] at hc1
      cases hc1
      exact hname
    obtain ⟨hcheckpoint,hle,hin,hpending⟩ := h.handle id c hc hname
    subst hname
    obtain rfl := h.saved saved hacked.before
    have hlower : saved ≤ sequence := hcheckpoint ▸ hacked.lower
    have hupper : sequence ≤ c.stream.after := hdelivered ▸ hacked.upper
    have hmax : max saved sequence = sequence := max_eq_right hlower
    have hafter' := hacked.after
    have hhandle := hacked.handle
    rw [hmax] at hafter' hhandle
    obtain ⟨hlow,hhigh⟩ := filter_commitsBetween hlower hupper hin
    subst hhandle
    refine ⟨sequence,h.setHandle hc rfl rfl rfl hlower hupper ?_ ?_ ?_ ?_ rfl ?_ ?_⟩
    · rw [hacked.sequence_eq]
      omega
    · intro q hlo hhi
      rcases Nat.lt_or_ge saved q with hq | hq
      · exact hin q hq (hhi.trans hupper)
      · exact h.in_sequence q hlo hq
    · dsimp only
      rw [hpending,hlow,h.acknowledged,commitsBetween_append log h.start_le hlower]
    · intro b hb
      rw [hafter'] at hb
      exact (Option.some.inj hb).symm
    · intro q hlo hhi
      exact hin q (hlower.trans_lt hlo) hhi
    · dsimp only
      rw [hpending,hhigh]
  have hother : c.name ≠ name := Session.serves_eq_false.mp (by simpa using hown) c hc
  refine ⟨acked,h.frame (le_of_eq hacked.sequence_eq.symm) ?_ (handles_other ?_ ?_)⟩
  · intro b hb
    rw [← hacked.others name (Ne.symm hother)]
    exact hb
  · rw [hacked.handle]
    exact hother
  intro c1 hc1
  rw [hc] at hc1
  cases hc1
  exact hother

/-- Closing a handle forgets what it was given and did not acknowledge. -/
theorem Follows.close (h : Follows name log s v acked) (id : ℕ) :
    Follows name log (s.close id) { v with pending := update v.pending id [] } acked := by
  have hconsumers : (s.close id).consumers = s.consumers.erase id := rfl
  have hroot : (s.close id).file.root = s.file.root := rfl
  have hkept : ∀ id1 c, (s.close id).consumers.find id1 = some c → id1 ≠ id ∧ s.consumers.find id1 = some c := by
    intro id1 c hfind
    rw [hconsumers,find_erase] at hfind
    split_ifs at hfind with hid
    exact ⟨hid,hfind⟩
  refine ⟨h.start_le,h.acked_le,h.in_sequence,h.acknowledged,?_,?_,?_,?_⟩
  · intro saved hsaved
    rw [File.savedAck_of_root hroot] at hsaved
    exact h.saved saved hsaved
  · intro id1 c hfind hname
    obtain ⟨hid,hfind⟩ := hkept id1 c hfind
    dsimp only
    rw [update_of_ne hid]
    exact h.handle id1 c hfind hname
  · intro id1 id2 h1 h2
    obtain ⟨c1,hc1,hn1⟩ := Session.serves_iff.mp h1
    obtain ⟨c2,hc2,hn2⟩ := Session.serves_iff.mp h2
    exact h.single id1 id2 (Session.serves_iff.mpr ⟨c1,(hkept id1 c1 hc1).2,hn1⟩)
      (Session.serves_iff.mpr ⟨c2,(hkept id2 c2 hc2).2,hn2⟩)
  intro id1 hid1
  dsimp only
  by_cases hid : id1 = id
  · rw [hid,update_self]
  rw [update_of_ne hid]
  refine h.idle id1 (Session.serves_eq_false.mpr ?_)
  intro c hc
  refine Session.serves_eq_false.mp hid1 c ?_
  rw [hconsumers,find_erase,if_neg hid]
  exact hc

section
variable (h : Follows name log s v acked)
include h

theorem Follows.reopen (hroot : f.root = s.file.root) :
    Follows name log (Session.start f) { v with pending := fun _ => [] } acked := by
  have hnone : ∀ id, (Session.start f).consumers.find id = none := fun id => find_empty id
  have hfile : (Session.start f).file = f := rfl
  refine ⟨h.start_le,?_,h.in_sequence,h.acknowledged,?_,?_,?_,fun _ _ => rfl⟩
  · rw [hfile,hroot]
    exact h.acked_le
  · intro saved hsaved
    rw [hfile,File.savedAck_of_root hroot] at hsaved
    exact h.saved saved hsaved
  · intro id c hfind
    rw [hnone] at hfind
    cases hfind
  intro id id' hid
  obtain ⟨c,hfind,-⟩ := Session.serves_iff.mp hid
  rw [hnone] at hfind
  cases hfind

theorem Follows.published (hmono : s.file.root.commitSequence ≤ f.root.commitSequence)
    (hsaved : ∀ saved, f.savedAck name = some saved → s.file.savedAck name = some saved) :
    Follows name log { s with file := f } v acked :=
  h.frame hmono hsaved (fun _ _ _ => Iff.rfl)

theorem Follows.perform [Sha256] (hs : SessionLogged s log0)
    (hrec : s.Records log) (hop : Disciplined name s op)
    (hmono : s.file.root.commitSequence ≤ s'.file.root.commitSequence) (hp : s.perform op = .ok (s',a)) :
    ∃ acked', Follows name log s' (v.observe name s op) acked' := by
  cases op with
  | publish p =>
    obtain ⟨f,happly,hp⟩ := bind_eq_ok.mp hp
    cases hp
    exact ⟨acked,h.published hmono fun _ => Publication.savedAck_after happly (hop ⟨f,happly⟩)⟩
  | createConsumer n after transactionID =>
    unfold ConsumerView.observe
    rw [hp]
    exact h.createConsumer hs hop hmono hp
  | openConsumer n => exact ⟨acked,h.openConsumer hs hop hp⟩
  | consumerNext id => exact ⟨acked,h.consumerNext hs hrec hp⟩
  | ack id sequence => exact h.ack hs hp
  | deleteConsumer n =>
    obtain ⟨f,hdelete,hp⟩ := bind_eq_ok.mp hp
    cases hp
    obtain ⟨hown,hothers⟩ := deleteDurableCommitConsumer_saved hdelete
    refine ⟨acked,h.published hmono ?_⟩
    intro saved hsaved
    by_cases hn : name = n
    · rw [hn,hown] at hsaved
      cases hsaved
    · rwa [hothers name hn] at hsaved
  | close id =>
    cases hp
    exact ⟨acked,h.close id⟩
  | reopen maxCommits maxBytes =>
    unfold ConsumerView.observe
    rw [hp]
    obtain ⟨f,hreopen,hp⟩ := bind_eq_ok.mp hp
    cases hp
    obtain ⟨-,-,hroot,-⟩ := hs.file.reopen hreopen
    exact ⟨acked,h.reopen hroot⟩
  | _ => exact ⟨acked,h.reads hp trivial⟩

end

theorem ConsumerView.observe_error [Sha256] (hp : s.perform op = .error e) : v.observe name s op = v := by
  unfold ConsumerView.observe
  rw [hp]
  cases op with
  | close id => cases hp
  | _ => rfl

theorem Follows.step [Sha256] (h : Follows name log s v acked) (hs : SessionLogged s log0) (hrec : s.Records log)
    (hop : Disciplined name s op) :
    ∃ acked', Follows name log (s.step op) (v.observe name s op) acked' := by
  obtain ⟨_,-,hext⟩ := hs.moves (s.step_moves op)
  have hmono := hext.sequence_mono
  cases hp : s.perform op with
  | error e =>
    have hstep : s.step op = s := by
      unfold Session.step
      rw [hp]
    rw [hstep,ConsumerView.observe_error hp]
    exact ⟨acked,h⟩
  | ok r =>
    have hstep : s.step op = r.1 := by
      unfold Session.step
      rw [hp]
    rw [hstep] at hmono ⊢
    exact h.perform hs hrec hop hmono hp

theorem Follows.run [Sha256] (h : Follows name log s v acked) (hs : SessionLogged s log0)
    (hrun : RunRecord log s ops) (hops : DisciplinedRun name s ops) :
    ∃ acked', Follows name log (follow name (s,v) ops).1 (follow name (s,v) ops).2 acked' := by
  induction ops generalizing s log0 v acked with
  | nil => exact ⟨acked,h⟩
  | cons op ops ih =>
    obtain ⟨_,hs1,-⟩ := hs.moves (s.step_moves op)
    obtain ⟨_,h1⟩ := h.step hs hrun.1 hops.1
    exact ih h1 hs1 hrun.2 hops.2

end Steps

/-! ### Exactly once -/

structure ConsumerExact [Sha256] (name : Bytes) (log : ℕ → CommitBatch) (s : Session) (v : ConsumerView) : Prop where
  acknowledged : ∃ acked, v.acknowledged = commitsBetween log v.start acked ∧
    ∀ saved, s.file.savedAck name = some saved → saved = acked
  redelivery : ∀ id s' batch, s.serves name id = true → s.perform (.consumerNext id) = .ok (s',.batch batch) →
    batch ∉ v.acknowledged

theorem Follows.exact [Sha256] {log0 : ℕ → CommitBatch}
    (h : Follows name log s v acked) (hs : SessionLogged s log0) (hrec : s.Records log) : ConsumerExact name log s v := by
  refine ⟨⟨acked,h.acknowledged,h.saved⟩,?_⟩
  intro id s' batch hown hp hmem
  obtain ⟨c,hc,⟨-,hwait⟩ | ⟨-,hbatch,hseq,-⟩⟩ := Session.consumerNext_cases hs hrec hp
  · cases hwait
  cases hbatch
  obtain ⟨c1,hc1,hname⟩ := Session.serves_iff.mp hown
  rw [hc] at hc1
  cases hc1
  obtain ⟨-,hacked,-⟩ := h.handle id c hc hname
  rw [h.acknowledged] at hmem
  obtain ⟨q,hlo,hhi,hq⟩ := mem_commitsBetween.mp hmem
  have hsequence := h.in_sequence q hlo hhi
  rw [hq,hseq] at hsequence
  omega

/-- A stream has delivered the commits after its position at the start of a run, and
its next answer is the one that follows. -/
def StreamExact [Sha256] (log : ℕ → CommitBatch) (s : Session) (ops : List Operation) (pinID after : ℕ) : Prop :=
  ∃ position, after ≤ position ∧ s.deliveries pinID ops = commitsBetween log after position ∧
    ((position = (ops.foldl Session.step s).file.root.commitSequence ∧
        (ops.foldl Session.step s).perform (.streamNext pinID) = .ok (ops.foldl Session.step s,.waiting)) ∨
      (position < (ops.foldl Session.step s).file.root.commitSequence ∧
        ∃ s', (ops.foldl Session.step s).perform (.streamNext pinID) = .ok (s',.batch (log (position+1)))))

theorem RunRecord.append [Sha256] (h : RunRecord log s (pre ++ post)) : RunRecord log (pre.foldl Session.step s) post := by
  induction pre generalizing s with
  | nil => exact h
  | cons op pre ih => exact ih h.2

theorem RunRecord.last [Sha256] (h : RunRecord log s ops) : (ops.foldl Session.step s).Records log := by
  rw [← append_nil ops] at h
  exact h.append

theorem SessionLogged.foldl [Sha256] (h : SessionLogged s log) (ops : List Operation) :
    ∃ log', SessionLogged (ops.foldl Session.step s) log' := by
  induction ops generalizing s log with
  | nil => exact ⟨log,h⟩
  | cons op ops ih =>
    obtain ⟨_,h1,-⟩ := h.moves (s.step_moves op)
    exact ih h1

theorem SessionLogged.streamExact [Sha256] {log0 : ℕ → CommitBatch}
    (h : SessionLogged s log0) (hrun : RunRecord log s ops)
    (hs : s.streams.find pinID = some stream) (hends : ∀ op ∈ ops, ¬ op.ends pinID) :
    StreamExact log s ops pinID stream.after := by
  obtain ⟨stream',hs',hle,hdel⟩ := h.stream_run hrun hs hends
  obtain ⟨_,hlast⟩ := h.foldl ops
  refine ⟨stream'.after,hle,hdel,?_⟩
  rcases hlast.streamNext hrun.last hs' with hwait | ⟨hlt,s',hnext,-⟩
  · exact .inl hwait
  · exact .inr ⟨hlt,s',hnext⟩

/-- In every run there is one sequence of commits, of which each open stream
returns those after its start in order, and of which each consumer that is opened
by one handle at a time and whose checkpoint nobody else writes acknowledges a
prefix without being given an acknowledged commit again. -/
theorem delivery_exactly_once [Sha256] (maxCommits maxBytes : ℕ) (ops : List Operation) :
    ∃ log, RunRecord log (Session.start (File.create maxCommits maxBytes)) ops ∧
      (∀ pre post pinID stream, ops = pre ++ post →
        (pre.foldl Session.step (Session.start (File.create maxCommits maxBytes))).streams.find pinID = some stream →
        (∀ op ∈ post, ¬ op.ends pinID) →
        StreamExact log (pre.foldl Session.step (Session.start (File.create maxCommits maxBytes))) post pinID stream.after) ∧
      ∀ name, DisciplinedRun name (Session.start (File.create maxCommits maxBytes)) ops →
        ConsumerExact name log (ops.foldl Session.step (Session.start (File.create maxCommits maxBytes)))
          (follow name (Session.start (File.create maxCommits maxBytes),.initial) ops).2 := by
  have hcreate := SessionLogged.create maxCommits maxBytes (fun _ => ⟨0,zeroIdentifier,0,none,[]⟩)
  obtain ⟨log,hrun,-⟩ := hcreate.exists_runRecord ops
  refine ⟨log,hrun,?_,?_⟩
  · intro pre post pinID stream hops hs hends
    subst hops
    obtain ⟨_,hpre⟩ := hcreate.foldl pre
    exact hpre.streamExact hrun.append hs hends
  intro name hops
  obtain ⟨acked,hfollows⟩ := (Follows.create name log maxCommits maxBytes).run hcreate hrun hops
  obtain ⟨_,hlast⟩ := hcreate.foldl ops
  rw [follow_fst] at hfollows
  exact hfollows.exact hlast hrun.last

/-- The first consumer `a` of a file, a commit after its creation, and its delivery
and acknowledgement through the first handle. -/
def acknowledgedOnce : List Operation :=
  [.createConsumer [97] 0 exampleTransaction,createLetter 98,.consumerNext 1,.ack 1 2]
def resumedRun : List Operation := acknowledgedOnce ++ [.close 1,createLetter 99,.reopen 0 0,.openConsumer [97]]
def twoHandles : List Operation :=
  [.createConsumer [97] 0 exampleTransaction,createLetter 98,.openConsumer [97],.consumerNext 1,.ack 1 2]

/-- The directory written back through the record interface after the acknowledgement. -/
def rewoundRun : List Operation := acknowledgedOnce ++
  [.publish ⟨.systemRecord exampleTransaction 0 ⟨durableConsumerKey,false,none,staleDirectory,false,true⟩,rfl⟩,
    .reopen 0 0,.openConsumer [97]]

/-- What `Next` on a handle delivers. -/
def Session.nextSequence [Sha256] (s : Session) (pinID : ℕ) : Option ℕ :=
  match s.perform (.consumerNext pinID) with
  | .ok (_,.batch b) => some b.sequence
  | _ => none

theorem createLetter_disciplined [Sha256] (letter : Byte) : Disciplined name s (createLetter letter) := by
  intro _ m hm
  simp [Publication.systemRecords] at hm

theorem serves_of_no_consumers (h : s.consumers.entries = []) (name : Bytes) (id : ℕ) :
    s.serves name id = false := by
  rw [Session.serves_eq_false]
  intro c hfind
  have hmem := mem_entries.mpr hfind
  rw [h] at hmem
  cases hmem

open scoped OwnDigest

theorem resumedRun_disciplined : DisciplinedRun [97] (Session.start (File.create 0 0)) resumedRun :=
  ⟨fun _ id => serves_of_no_consumers rfl _ id,createLetter_disciplined _,trivial,trivial,trivial,
    createLetter_disciplined _,trivial,fun _ id => serves_of_no_consumers rfl _ id,trivial⟩

theorem delivery_exactly_once_resumed :
    (follow [97] (Session.start (File.create 0 0),.initial) resumedRun).2.acknowledged.map CommitBatch.sequence = [2] ∧
      ∃ log, ConsumerExact [97] log (resumedRun.foldl Session.step (Session.start (File.create 0 0)))
        (follow [97] (Session.start (File.create 0 0),.initial) resumedRun).2 := by
  obtain ⟨log,-,-,hconsumer⟩ := delivery_exactly_once 0 0 resumedRun
  exact ⟨by decide +kernel,log,hconsumer [97] resumedRun_disciplined⟩

example : (follow [97] (Session.start (File.create 0 0),.initial) resumedRun).2.acknowledged.map CommitBatch.sequence = [2] ∧
    (resumedRun.foldl Session.step (Session.start (File.create 0 0))).nextSequence 1 = some 3 := by decide +kernel

theorem acknowledged_commit_redelivered :
    (follow [97] (Session.start (File.create 0 0),.initial) twoHandles).2.acknowledged.map CommitBatch.sequence = [2] ∧
      (twoHandles.foldl Session.step (Session.start (File.create 0 0))).nextSequence 2 = some 2 ∧
      (follow [97] (Session.start (File.create 0 0),.initial) rewoundRun).2.acknowledged.map CommitBatch.sequence = [2] ∧
      (rewoundRun.foldl Session.step (Session.start (File.create 0 0))).nextSequence 1 = some 2 := by
  decide +kernel

end Meldbase.Logical
