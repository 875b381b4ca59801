import Meldbase.Logical.GroupCommit
import Meldbase.Logical.Versions

/-! # Optimistic transactions are serializable

Clients run their programs against snapshots and submit what they read as
preconditions.  The transactions that commit could have been run one after another
in commit order: each would have read the same and left the same file.
-/
namespace Meldbase.Logical
open List Outcome

deriving instance DecidableEq for DocumentPrecondition
deriving instance DecidableEq for CollectionPrecondition

/-! ### Client programs -/

/-- What a client does at its snapshot: it reads documents and scans collections,
each step depending on what was read before, and ends with its mutations. -/
inductive Program where
  | read (collection : Bytes) (documentID : Identifier) (next : Option Bytes → Program)
  | scan (collection : Bytes) (next : Option CollectionMeta → Program)
  | submit (mutations : List DocumentMutation)

inductive Observation where
  | document (collection : Bytes) (documentID : Identifier) (value : Option Bytes)
  | collection (name : Bytes) (record : Option CollectionMeta)

/-- `GetDocument` over the collections of a catalog. -/
def readDocument (collections : SortedMap Bytes CollectionMeta) (c : Bytes) (id : Identifier) : Option Bytes :=
  ((collections.find c).bind (fun header => (openTree header.primaryRoot).find id)).map DocumentRecord.document
def Program.observe (collections : SortedMap Bytes CollectionMeta) : Program → List Observation
  | .read c id next =>
    .document c id (readDocument collections c id) :: (next (readDocument collections c id)).observe collections
  | .scan c next => .collection c (collections.find c) :: (next (collections.find c)).observe collections
  | .submit _ => []
def Program.mutations (collections : SortedMap Bytes CollectionMeta) : Program → List DocumentMutation
  | .read c id next => (next (readDocument collections c id)).mutations collections
  | .scan c next => (next (collections.find c)).mutations collections
  | .submit mutations => mutations
def Observation.documentPrecondition [Sha256] : Observation → Option DocumentPrecondition
  | .document c id value => some ⟨c,id,value.isSome,value.bind sha256⟩
  | .collection _ _ => none
def Observation.collectionPrecondition : Observation → Option CollectionPrecondition
  | .document _ _ _ => none
  | .collection c record => some ⟨c,record.isSome,(record.map CollectionMeta.id).getD 0,
      (record.map CollectionMeta.updatedSequence).getD 0⟩

structure Submission where
  program : Program
  transactionID : Identifier
  committedAt : ℕ

def Submission.transaction [Sha256] (submission : Submission) (collections : SortedMap Bytes CollectionMeta) :
    DocumentTransaction where
  transactionID := submission.transactionID
  committedAt := submission.committedAt
  preconditions := ((submission.program.observe collections).filterMap Observation.documentPrecondition).dedup
  collectionPreconditions := ((submission.program.observe collections).filterMap Observation.collectionPrecondition).dedup
  mutations := submission.program.mutations collections

theorem Program.stable (p : Program) (old new : SortedMap Bytes CollectionMeta)
    (hdocuments : ∀ c id value, Observation.document c id value ∈ p.observe old → readDocument new c id = value)
    (hcollections : ∀ c record, Observation.collection c record ∈ p.observe old → new.find c = record) :
    p.observe new = p.observe old ∧ p.mutations new = p.mutations old := by
  induction p with
  | read c id next ih =>
    have hvalue := hdocuments c id _ (mem_cons_self)
    obtain ⟨hobserve,hmutations⟩ := ih (readDocument old c id)
      (fun c' id' value h => hdocuments c' id' value (mem_cons_of_mem _ h))
      (fun c' record h => hcollections c' record (mem_cons_of_mem _ h))
    rw [Program.observe,Program.observe,Program.mutations,Program.mutations,hvalue,hobserve,hmutations]
    exact ⟨rfl,rfl⟩
  | scan c next ih =>
    have hrecord := hcollections c _ (mem_cons_self)
    obtain ⟨hobserve,hmutations⟩ := ih (old.find c)
      (fun c' id' value h => hdocuments c' id' value (mem_cons_of_mem _ h))
      (fun c' record h => hcollections c' record (mem_cons_of_mem _ h))
    rw [Program.observe,Program.observe,Program.mutations,Program.mutations,hrecord,hobserve,hmutations]
    exact ⟨rfl,rfl⟩
  | submit mutations => exact ⟨rfl,rfl⟩

/-! ### What the checks establish -/

variable {catalog : Catalog} {s : Session} {log : ℕ → CommitBatch}

theorem validateDocumentPreconditions_ok [Sha256] (h : validateDocumentPreconditions catalog ps = .ok ()) (hp : p ∈ ps) :
    (readDocument catalog.collections p.collection p.documentID).isSome = p.expectedExists ∧
      ∀ d, readDocument catalog.collections p.collection p.documentID = some d → sha256 d = p.expectedHash := by
  unfold validateDocumentPreconditions at h
  obtain ⟨seen,hseen,-⟩ := bind_eq_ok.mp h
  obtain ⟨c,c',hc⟩ := foldlM_mem hseen p hp
  unfold checkDocumentPrecondition at hc
  obtain ⟨-,hc⟩ := guard_eq_ok.mp hc
  obtain ⟨-,hc⟩ := guard_eq_ok.mp hc
  unfold readDocument
  dsimp only at hc
  split at hc
  · rename_i hnone
    obtain ⟨hexists,-⟩ := guard_eq_ok.mp hc
    rw [hnone]
    exact ⟨by simpa using hexists,by simp⟩
  rename_i record hsome
  obtain ⟨hmatch,-⟩ := guard_eq_ok.mp hc
  simp only [Bool.or_eq_true,Bool.not_eq_true',decide_eq_true_eq,not_or,not_not] at hmatch
  rw [hsome]
  refine ⟨by simpa using hmatch.1,?_⟩
  rintro d hd
  cases hd
  exact hmatch.2

theorem validateCollectionPreconditions_ok (h : validateCollectionPreconditions catalog ps = .ok ()) (hp : p ∈ ps) :
    (catalog.collections.find p.collection).isSome = p.expectedExists ∧
      ∀ header, catalog.collections.find p.collection = some header →
        header.id = p.expectedID ∧ header.updatedSequence = p.expectedUpdatedSequence := by
  unfold validateCollectionPreconditions at h
  obtain ⟨seen,hseen,-⟩ := bind_eq_ok.mp h
  obtain ⟨c,c',hc⟩ := foldlM_mem hseen p hp
  unfold checkCollectionPrecondition at hc
  obtain ⟨-,hc⟩ := guard_eq_ok.mp hc
  obtain ⟨-,hc⟩ := guard_eq_ok.mp hc
  split at hc
  · rename_i hnone
    obtain ⟨hexists,-⟩ := guard_eq_ok.mp hc
    rw [hnone]
    exact ⟨by simpa using hexists,by simp⟩
  rename_i header hsome
  obtain ⟨hexists,hc⟩ := guard_eq_ok.mp hc
  obtain ⟨hmatch,-⟩ := guard_eq_ok.mp hc
  simp only [Bool.or_eq_true,decide_eq_true_eq,not_or,not_not] at hmatch
  rw [hsome]
  refine ⟨by simpa using hexists,?_⟩
  rintro header' hheader'
  cases hheader'
  exact hmatch

def SameVersions (old new : SortedMap Bytes CollectionMeta) : Prop :=
  ∀ name header header', old.find name = some header → new.find name = some header' →
    header'.updatedSequence = header.updatedSequence → header' = header

theorem Program.observed_collection {p : Program}
    (h : Observation.collection c record ∈ p.observe collections) :
    record = collections.find c := by
  induction p with
  | read c' id next ih =>
    rcases mem_cons.mp h with heq | h
    · cases heq
    · exact ih _ h
  | scan c' next ih =>
    rcases mem_cons.mp h with heq | h
    · cases heq
      rfl
    · exact ih _ h
  | submit mutations => cases h

theorem read_unchanged [Sha256] [CollisionFree] {id : Identifier}
    (hexists : (readDocument catalog.collections c id).isSome = value.isSome)
    (hhash : ∀ d, readDocument catalog.collections c id = some d → sha256 d = value.bind sha256) :
    readDocument catalog.collections c id = value := by
  cases hread : readDocument catalog.collections c id with
  | none =>
    rw [hread] at hexists
    cases value with
    | none => rfl
    | some d => cases hexists
  | some d =>
    rw [hread] at hexists
    obtain ⟨old,rfl⟩ := Option.isSome_iff_exists.mp hexists.symm
    rw [CollisionFree.injective (hhash d hread)]

theorem scan_unchanged (hversions : SameVersions old new)
    (hexists : (new.find c).isSome = (old.find c).isSome)
    (hsequence : ∀ header, new.find c = some header →
      header.updatedSequence = ((old.find c).map CollectionMeta.updatedSequence).getD 0) : new.find c = old.find c := by
  cases hold : old.find c with
  | none =>
    rw [hold] at hexists
    exact Option.not_isSome_iff_eq_none.mp (by rw [hexists]; simp)
  | some header =>
    rw [hold] at hexists hsequence
    obtain ⟨header',hnew⟩ := Option.isSome_iff_exists.mp hexists
    rw [hnew,hversions c header header' hold hnew (hsequence header' hnew)]

/-- A transaction whose preconditions hold is the one its client would submit now. -/
theorem Submission.stable [Sha256] [CollisionFree] {submission : Submission} {old : SortedMap Bytes CollectionMeta}
    (hversions : SameVersions old catalog.collections)
    (hcollections : validateCollectionPreconditions catalog (submission.transaction old).collectionPreconditions = .ok ())
    (hdocuments : validateDocumentPreconditions catalog (submission.transaction old).preconditions = .ok ()) :
    submission.program.observe catalog.collections = submission.program.observe old ∧
      submission.transaction catalog.collections = submission.transaction old := by
  obtain ⟨hobserve,hmutations⟩ := submission.program.stable old catalog.collections (by
    intro c id value hmem
    obtain ⟨hexists,hhash⟩ := validateDocumentPreconditions_ok hdocuments
      (mem_dedup.mpr (mem_filterMap.mpr ⟨_,hmem,rfl⟩))
    exact read_unchanged hexists hhash) (by
    intro c record hmem
    obtain ⟨hexists,hmatch⟩ := validateCollectionPreconditions_ok hcollections
      (mem_dedup.mpr (mem_filterMap.mpr ⟨_,hmem,rfl⟩))
    obtain rfl := Program.observed_collection hmem
    exact scan_unchanged hversions hexists (fun header hheader => (hmatch header hheader).2))
  refine ⟨hobserve,?_⟩
  unfold Submission.transaction
  rw [hobserve,hmutations]

/-! ### Concurrent clients -/

structure Clients where
  session : Session
  snapshots : List Catalog

/-- Clients begin at the current or at a retained version and commit later, alone or
in a group, while anything else may happen in between. -/
inductive ClientEvent where
  | begin
  | beginAt (sequence : ℕ)
  | commit (snapshot : ℕ) (submission : Submission) (records : List SystemRecordMutation)
  | commitGroup (members : List (ℕ × Submission))
  | other (op : Operation)

def Clients.members (c : Clients) (members : List (ℕ × Submission)) : Option (List (Submission × Catalog)) :=
  members.mapM (fun m => c.snapshots[m.1]?.map (fun catalog => (m.2,catalog)))
def commitOperation (t : DocumentTransaction) (records : List SystemRecordMutation) : Operation :=
  .publish ⟨.documents t records,rfl⟩
def groupOperation [Sha256] (members : List (Submission × Catalog)) : Operation :=
  .publish ⟨.group (members.map (fun m => m.1.transaction m.2.collections)),rfl⟩
def Clients.step [Sha256] (c : Clients) : ClientEvent → Clients
  | .begin => { c with snapshots := c.snapshots ++ [openCatalog c.session.file.root.catalogRoot] }
  | .beginAt sequence =>
    match historicalRoot c.session.file.root sequence with
    | .ok root => { c with snapshots := c.snapshots ++ [openCatalog root.catalogRoot] }
    | .error _ => c
  | .commit snapshot submission records =>
    match c.snapshots[snapshot]? with
    | some catalog => { c with
        session := c.session.step (commitOperation (submission.transaction catalog.collections) records) }
    | none => c
  | .commitGroup members =>
    match c.members members with
    | some members => { c with session := c.session.step (groupOperation members) }
    | none => c
  | .other op => { c with session := c.session.step op }

/-! ### The serial run -/

/-- A committed transaction with what it read, or another operation. -/
inductive SerialStep where
  | transaction (submission : Submission) (records : List SystemRecordMutation) (reads : List Observation)
  | operation (op : Operation)

def committed [Sha256] (s : Session) (op : Operation) (steps : List SerialStep) : List SerialStep :=
  match s.perform op with
  | .ok _ => steps
  | .error _ => []
def Clients.commits [Sha256] (c : Clients) : ClientEvent → List SerialStep
  | .begin => []
  | .beginAt _ => []
  | .commit snapshot submission records =>
    match c.snapshots[snapshot]? with
    | some catalog => committed c.session (commitOperation (submission.transaction catalog.collections) records)
        [.transaction submission records (submission.program.observe catalog.collections)]
    | none => []
  | .commitGroup members =>
    match c.members members with
    | some members => committed c.session (groupOperation members)
        (members.map (fun m => .transaction m.1 [] (m.1.program.observe m.2.collections)))
    | none => []
  | .other op => [.operation op]
def Clients.history [Sha256] : Clients → List ClientEvent → List SerialStep
  | _, [] => []
  | c, e::es => c.commits e ++ Clients.history (c.step e) es

/-- One transaction after another: each runs its program on the file as it is, reads
what the history says it read, and commits. -/
inductive SerialRun [Sha256] : Session → List SerialStep → Session → Prop
  | nil (s : Session) : SerialRun s [] s
  | transaction {s s' s'' : Session} {submission : Submission} {records : List SystemRecordMutation} {a : Answer}
      {steps : List SerialStep}
      (commits : s.perform (commitOperation
        (submission.transaction (openCatalog s.file.root.catalogRoot).collections) records) = .ok (s',a))
      (rest : SerialRun s' steps s'') :
      SerialRun s (.transaction submission records
        (submission.program.observe (openCatalog s.file.root.catalogRoot).collections) :: steps) s''
  | operation {s s'' : Session} {op : Operation} {steps : List SerialStep} (rest : SerialRun (s.step op) steps s'') :
      SerialRun s (.operation op::steps) s''

theorem SerialRun.append [Sha256] (h : SerialRun s steps s')
    (h' : SerialRun s' steps' s'') : SerialRun s (steps ++ steps') s'' := by
  induction h with
  | nil s => exact h'
  | transaction commits rest ih => exact .transaction commits (ih h')
  | operation rest ih => exact .operation (ih h')

/-! ### The invariant -/

def Taken (s : Session) (log : ℕ → CommitBatch) (catalog : Catalog) : Prop :=
  ∃ q ≤ s.file.root.commitSequence, catalog.collections = collectionsAt log q

theorem Taken.mono {log' : ℕ → CommitBatch} (h : Taken s log catalog)
    (hext : LogExtends s log s' log') : Taken s' log' catalog := by
  obtain ⟨q,hq,heq⟩ := h
  exact ⟨q,hq.trans hext.sequence_mono,by rw [collectionsAt_congr (hext.agree q hq)]; exact heq⟩

theorem Taken.versions [Sha256] (h : Taken s log catalog)
    (hs : SessionLogged s log) : SameVersions catalog.collections (openCatalog s.file.root.catalogRoot).collections := by
  obtain ⟨q,hq,heq⟩ := h
  intro name header header' hold hnew hsequence
  rw [heq] at hold
  rw [hs.file.written.current] at hnew
  exact hs.file.written.same_version hq le_rfl hold hnew hsequence

theorem commit_serial [Sha256] [CollisionFree] {f : File} (hs : SessionLogged s log) (htaken : Taken s log catalog)
    (h : s.file.applyDocumentTransaction (submission.transaction catalog.collections) records = .ok f) :
    SerialRun s [.transaction submission records (submission.program.observe catalog.collections)] { s with file := f } := by
  obtain ⟨tx,root,work,states,published,newCatalog,changes,-,-,happlied⟩ := applyDocumentTransaction_ok h
  obtain ⟨hobserve,htransaction⟩ := Submission.stable (htaken.versions hs) happlied.collections_read happlied.documents_read
  rw [← hobserve]
  refine .transaction (a := .done) ?_ (.nil _)
  rw [htransaction]
  exact bind_eq_ok.mpr ⟨f,h,rfl⟩

theorem members_serial [Sha256] [CollisionFree] {members : List (Submission × Catalog)}
    (hs : SessionLogged s log) (htaken : ∀ m ∈ members, Taken s log m.2)
    (h : (members.map (fun m => m.1.transaction m.2.collections)).foldlM commitMember (s.file,sequences) =
      .ok (g,sequences')) :
    SerialRun s (members.map (fun m => .transaction m.1 [] (m.1.program.observe m.2.collections))) { s with file := g } := by
  induction members generalizing s log sequences with
  | nil =>
    cases h
    exact .nil s
  | cons m members ih =>
    rw [map_cons,foldlM_cons] at h
    obtain ⟨⟨f,sequences1⟩,hfirst,h⟩ := bind_eq_ok.mp h
    unfold commitMember at hfirst
    obtain ⟨f1,happly,hfirst⟩ := bind_eq_ok.mp hfirst
    cases hfirst
    have hmove : s.Move { s with file := f } :=
      .publish (p := .documents (m.1.transaction m.2.collections) []) happly
    obtain ⟨log',hs',hext⟩ := hs.move hmove
    have hfirst := commit_serial hs (htaken m mem_cons_self) happly
    exact hfirst.append (ih (s := { s with file := f }) hs'
      (fun m' hm' => (htaken m' (mem_cons_of_mem _ hm')).mono hext) h)

structure ClientsOk [Sha256] (c : Clients) (log : ℕ → CommitBatch) : Prop where
  session : SessionLogged c.session log
  taken : ∀ catalog ∈ c.snapshots, Taken c.session log catalog

theorem ClientsOk.start [Sha256] (maxCommits maxBytes : ℕ) (log : ℕ → CommitBatch) :
    ClientsOk ⟨Session.start (File.create maxCommits maxBytes),[]⟩ log :=
  ⟨.create maxCommits maxBytes log,fun _ hmem => by cases hmem⟩

variable {c : Clients}

theorem ClientsOk.operation [Sha256] (h : ClientsOk c log) (op : Operation) :
    ∃ log', ClientsOk { c with session := c.session.step op } log' := by
  obtain ⟨log',hs,hext⟩ := h.session.moves (c.session.step_moves op)
  exact ⟨log',hs,fun catalog hmem => (h.taken catalog hmem).mono hext⟩

theorem ClientsOk.snapshot [Sha256] (h : ClientsOk c log)
    (htaken : Taken c.session log catalog) : ClientsOk { c with snapshots := c.snapshots ++ [catalog] } log := by
  refine ⟨h.session,?_⟩
  intro catalog' hmem
  rcases mem_append.mp hmem with hmem | hmem
  · exact h.taken catalog' hmem
  · rw [mem_singleton.mp hmem]
    exact htaken

/-- A retained version has the collections of its commit. -/
theorem historicalRoot_taken [Sha256] {sequence : ℕ}
    (hs : SessionLogged s log) (h : historicalRoot s.file.root sequence = .ok root) :
    Taken s log (openCatalog root.catalogRoot) := by
  obtain ⟨hle,-⟩ := historicalRoot_ok h
  refine ⟨sequence,hle,?_⟩
  unfold historicalRoot at h
  obtain ⟨-,h⟩ := guard_eq_ok.mp h
  split_ifs at h with hcurrent hzero hold hold
  · cases h
    rw [hcurrent]
    exact hs.file.written.current
  · cases h
    rw [hzero]
    rfl
  obtain ⟨batch,hread,h⟩ := bind_eq_ok.mp h
  cases h
  simp only [Bool.or_eq_true,decide_eq_true_eq,not_or] at hold
  rw [hs.file.logged.holds.readCommit_eq (by omega) (by omega) hle] at hread
  cases hread
  unfold collectionsAt
  rw [if_neg hzero]

theorem ClientsOk.step [Sha256] (h : ClientsOk c log) (e : ClientEvent) : ∃ log', ClientsOk (c.step e) log' := by
  cases e with
  | begin => exact ⟨log,h.snapshot ⟨_,le_rfl,h.session.file.written.current⟩⟩
  | beginAt sequence =>
    unfold Clients.step
    dsimp only
    cases hroot : historicalRoot c.session.file.root sequence with
    | error e => exact ⟨log,h⟩
    | ok root => exact ⟨log,h.snapshot (historicalRoot_taken h.session hroot)⟩
  | commit snapshot submission records =>
    unfold Clients.step
    dsimp only
    cases c.snapshots[snapshot]? with
    | none => exact ⟨log,h⟩
    | some catalog => exact h.operation _
  | commitGroup members =>
    unfold Clients.step
    dsimp only
    cases c.members members with
    | none => exact ⟨log,h⟩
    | some members => exact h.operation _
  | other op => exact h.operation op

theorem Clients.members_taken [Sha256] (h : ClientsOk c log)
    {members : List (ℕ × Submission)} (hm : c.members members = some resolved) :
    ∀ m ∈ resolved, Taken c.session log m.2 := by
  unfold Clients.members at hm
  induction members generalizing resolved with
  | nil =>
    cases hm
    simp
  | cons m members ih =>
    rw [mapM_cons] at hm
    obtain ⟨first,hfirst,hm⟩ := Option.bind_eq_some_iff.mp hm
    obtain ⟨rest,hrest,hm⟩ := Option.bind_eq_some_iff.mp hm
    cases hm
    obtain ⟨catalog,hcatalog,rfl⟩ := Option.map_eq_some_iff.mp hfirst
    exact forall_mem_cons.mpr ⟨h.taken catalog (mem_of_getElem? hcatalog),ih hrest⟩

theorem ClientsOk.serial [Sha256] [CollisionFree] (h : ClientsOk c log) (e : ClientEvent) :
    SerialRun c.session (c.commits e) (c.step e).session := by
  cases e with
  | begin => exact .nil _
  | beginAt sequence =>
    unfold Clients.step Clients.commits
    dsimp only
    cases historicalRoot c.session.file.root sequence <;> exact .nil _
  | commit snapshot submission records =>
    unfold Clients.step Clients.commits
    dsimp only
    cases hsnapshot : c.snapshots[snapshot]? with
    | none => exact .nil _
    | some catalog =>
      dsimp only
      unfold committed Session.step
      cases hperform : c.session.perform (commitOperation (submission.transaction catalog.collections) records) with
      | error e => exact .nil _
      | ok r =>
        obtain ⟨f,happly,hr⟩ := bind_eq_ok.mp hperform
        cases hr
        exact commit_serial h.session (h.taken catalog (mem_of_getElem? hsnapshot)) happly
  | commitGroup members =>
    unfold Clients.step Clients.commits
    dsimp only
    cases hmembers : c.members members with
    | none => exact .nil _
    | some resolved =>
      dsimp only
      unfold committed Session.step
      cases hperform : c.session.perform (groupOperation resolved) with
      | error e => exact .nil _
      | ok r =>
        obtain ⟨f,happly,hr⟩ := bind_eq_ok.mp hperform
        cases hr
        obtain ⟨sequences,hgroup⟩ := exists_commitGroup happly
        obtain ⟨-,hturn⟩ := in_turn_of_commitGroup hgroup
        exact members_serial h.session (Clients.members_taken h hmembers) hturn
  | other op => exact .operation (.nil _)

/-- Without collisions every history of clients is serializable in commit order: run
one after another on the file as it then is, the committed transactions read what
they read at their snapshots, commit, and leave the same file. -/
theorem optimistic_transactions_serializable [Sha256] [CollisionFree] (maxCommits maxBytes : ℕ) (events : List ClientEvent) :
    SerialRun (Session.start (File.create maxCommits maxBytes))
      (Clients.history ⟨Session.start (File.create maxCommits maxBytes),[]⟩ events)
      (events.foldl Clients.step ⟨Session.start (File.create maxCommits maxBytes),[]⟩).session := by
  have hrun : ∀ (c : Clients) log, ClientsOk c log →
      SerialRun c.session (c.history events) (events.foldl Clients.step c).session := by
    induction events with
    | nil => exact fun c log _ => .nil _
    | cons e events ih =>
      intro c log h
      obtain ⟨log',h'⟩ := h.step e
      exact (h.serial e).append (ih (c.step e) log' h')
  exact hrun _ _ (.start maxCommits maxBytes (fun _ => ⟨0,zeroIdentifier,0,none,[]⟩))

def scanThenInsert (transaction document : Byte) : Submission :=
  ⟨.scan [97] (fun _ => .submit (insertOne transaction document).mutations),.filled transaction,0⟩

open scoped OwnDigest

/-- Two clients scan the missing collection; the insert of the first is a phantom to the second. -/
def phantomEvents : List ClientEvent := [.begin,.begin,.commit 0 (scanThenInsert 1 1) [],.commit 1 (scanThenInsert 2 2) []]

theorem phantom_refused : (Clients.history ⟨Session.start (File.create 0 0),[]⟩ phantomEvents).length = 1 ∧
    SerialRun (Session.start (File.create 0 0)) (Clients.history ⟨Session.start (File.create 0 0),[]⟩ phantomEvents)
      (phantomEvents.foldl Clients.step ⟨Session.start (File.create 0 0),[]⟩).session :=
  ⟨by decide +kernel,optimistic_transactions_serializable 0 0 phantomEvents⟩

end Meldbase.Logical
