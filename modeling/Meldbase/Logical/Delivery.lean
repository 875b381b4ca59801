import Meldbase.Logical.Moves

/-! # Delivery to streams

The log of a run is one sequence of commits.  A stream returns those after its
starting point, each once and in order, for as long as it is open.
-/
namespace Meldbase.Logical
open List SortedMap
open Outcome (bind_eq_ok guard_eq_ok ok_bind)

/-! ### Runs of commits -/

variable (log : ℕ → CommitBatch)

def commitsBetween (a b : ℕ) : List CommitBatch := (List.range' (a+1) (b - a)).map log

@[simp] theorem commitsBetween_self (a : ℕ) : commitsBetween log a a = [] := by
  simp [commitsBetween]

theorem commitsBetween_snoc (h : a ≤ b) :
    commitsBetween log a (b+1) = commitsBetween log a b ++ [log (b+1)] := by
  unfold commitsBetween
  rw [show b + 1 - a = (b - a) + 1 by omega,range'_1_concat,map_append,map_singleton,
    show a+1 + (b - a) = b+1 by omega]

theorem commitsBetween_append (hab : a ≤ b) (hbc : b ≤ c) :
    commitsBetween log a b ++ commitsBetween log b c = commitsBetween log a c := by
  induction c, hbc using Nat.le_induction with
  | base => rw [commitsBetween_self,append_nil]
  | succ c hbc ih =>
    rw [commitsBetween_snoc log hbc,commitsBetween_snoc log (hab.trans hbc),← ih,append_assoc]

variable {log : ℕ → CommitBatch}

theorem mem_commitsBetween :
    batch ∈ commitsBetween log a b ↔ ∃ q, a < q ∧ q ≤ b ∧ log q = batch := by
  unfold commitsBetween
  rw [mem_map]
  constructor
  · rintro ⟨q,hq,rfl⟩
    rw [mem_range'_1] at hq
    exact ⟨q,by omega,by omega,rfl⟩
  · rintro ⟨q,hlo,hhi,rfl⟩
    exact ⟨q,mem_range'_1.mpr (by omega),rfl⟩

theorem filter_commitsBetween (hab : a ≤ b) (hbc : b ≤ c)
    (hseq : ∀ q, a < q → q ≤ c → (log q).sequence = q) :
    (commitsBetween log a c).filter (fun batch => batch.sequence ≤ b) = commitsBetween log a b ∧
      (commitsBetween log a c).filter (fun batch => b < batch.sequence) = commitsBetween log b c := by
  have hlow : ∀ batch ∈ commitsBetween log a b, batch.sequence ≤ b := by
    intro batch hmem
    obtain ⟨q,hlo,hhi,rfl⟩ := mem_commitsBetween.mp hmem
    rw [hseq q hlo (hhi.trans hbc)]
    exact hhi
  have hhigh : ∀ batch ∈ commitsBetween log b c, b < batch.sequence := by
    intro batch hmem
    obtain ⟨q,hlo,hhi,rfl⟩ := mem_commitsBetween.mp hmem
    rw [hseq q (by omega) hhi]
    exact hlo
  rw [← commitsBetween_append log hab hbc,filter_append,filter_append]
  constructor
  · rw [filter_eq_self.mpr (fun batch hm => by simpa using hlow batch hm),
      filter_eq_nil_iff.mpr (fun batch hm => by simpa using hhigh batch hm),append_nil]
  · rw [filter_eq_nil_iff.mpr (fun batch hm => by simpa using hlow batch hm),
      filter_eq_self.mpr (fun batch hm => by simpa using hhigh batch hm),nil_append]

/-! ### The commits of a run -/

def Session.Records (s : Session) (log : ℕ → CommitBatch) : Prop :=
  ∀ q, 0 < q → s.file.root.oldestRetainedSequence ≤ q → q ≤ s.file.root.commitSequence →
    readCommit (openTree s.file.root.commitLogRoot) q = .ok (log q)
def RunRecord [Sha256] (log : ℕ → CommitBatch) : Session → List Operation → Prop
  | s, [] => s.Records log
  | s, op::ops => s.Records log ∧ RunRecord log (s.step op) ops

variable {s : Session} {log0 : ℕ → CommitBatch} {pinID : ℕ} {stream : LiveCommitStream}

theorem SessionLogged.records [Sha256] (h : SessionLogged s log) : s.Records log :=
  fun _ hpos hlo hhi => h.file.logged.holds.readCommit_eq hpos hlo hhi

theorem SessionLogged.exists_runRecord [Sha256] (h : SessionLogged s log)
    (ops : List Operation) : ∃ log', RunRecord log' s ops ∧ ∀ q ≤ s.file.root.commitSequence, log' q = log q := by
  induction ops generalizing s log with
  | nil => exact ⟨log,h.records,fun _ _ => rfl⟩
  | cons op ops ih =>
    obtain ⟨log1,h1,hext⟩ := h.moves (s.step_moves op)
    obtain ⟨log2,hrun,hagree⟩ := ih h1
    have hsame : ∀ q ≤ s.file.root.commitSequence, log2 q = log q :=
      fun q hq => (hagree q (hq.trans hext.sequence_mono)).trans (hext.agree q hq)
    refine ⟨log2,⟨?_,hrun⟩,hsame⟩
    intro q hpos hlo hhi
    rw [hsame q hhi]
    exact h.records q hpos hlo hhi

theorem SessionLogged.next_recorded [Sha256] (h : SessionLogged s log0)
    (hrec : s.Records log) {id after : ℕ} (hreader : s.file.readers.find id = some ⟨after,true⟩)
    (hlt : after < s.file.root.commitSequence) : log0 (after+1) = log (after+1) ∧ (log (after+1)).sequence = after+1 := by
  obtain ⟨-,hold⟩ := h.file.logged.pins id _ hreader rfl
  dsimp only at hold
  have hread := hrec (after+1) (by omega) hold (by omega)
  have hholds := h.file.logged.holds
  rw [hholds.readCommit_eq (by omega) hold (by omega)] at hread
  have hsame : log0 (after+1) = log (after+1) := Except.ok.inj hread
  refine ⟨hsame,?_⟩
  rw [← hsame]
  exact (hholds.batch (after+1) (by omega) hold (by omega)).sequence_eq

/-! ### Streams -/

def Session.delivered [Sha256] (s : Session) (pinID : ℕ) (op : Operation) : List CommitBatch :=
  match op, s.perform op with
  | .streamNext id, .ok (_,.batch b) => if id = pinID then [b] else []
  | _, _ => []
def Session.deliveries [Sha256] (pinID : ℕ) : Session → List Operation → List CommitBatch
  | _, [] => []
  | s, op::ops => s.delivered pinID op ++ Session.deliveries pinID (s.step op) ops
def Operation.ends (pinID : ℕ) : Operation → Prop
  | .close id => id = pinID
  | .reopen _ _ => True
  | _ => False
def Operation.reads : Operation → Prop
  | .openSnapshot | .openSnapshotAndStream | .openSnapshotAndStreamAt _ | .openStream _ | .openCursor _ => True
  | .openIterator _ | .openIndexBuildScan _ | .openIndexBuildCatchUp _ | .streamNext _ => True
  | _ => False

theorem HandlesOk.find_addStream (h : HandlesOk s) {id : ℕ}
    (hs : s.streams.find id = some stream) (hnew : s.file.nextPin < pinID) :
    (s.streams.insert pinID new).find id = some stream := by
  have hle := h.fresh id _ (h.streams id stream hs)
  rw [find_insert,if_neg (by omega)]
  exact hs

variable {a : Answer} {s' : Session}

theorem Session.openAt_ok {sequence : ℕ} (h : s.openAt sequence = .ok (s',a)) :
    s'.streams = s.streams.insert (s.file.nextPin+2) ⟨sequence,0⟩ ∧ s'.consumers = s.consumers ∧
      s'.file.root = s.file.root := by
  unfold Session.openAt at h
  obtain ⟨⟨f,snapshotPin,streamPin,historical,opened⟩,hopen,h⟩ := bind_eq_ok.mp h
  cases h
  unfold File.openSnapshotAndStreamAt at hopen
  obtain ⟨root,-,hopen⟩ := bind_eq_ok.mp hopen
  obtain ⟨⟨f1,pin1⟩,hadd1,hopen⟩ := bind_eq_ok.mp hopen
  obtain ⟨⟨f2,pin2⟩,hadd2,hopen⟩ := bind_eq_ok.mp hopen
  cases hopen
  obtain ⟨rfl,rfl⟩ := addReaderPin_ok hadd1
  obtain ⟨rfl,rfl⟩ := addReaderPin_ok hadd2
  exact ⟨rfl,rfl,rfl⟩

theorem Session.openIterator_ok (h : s.openIterator snapshot = .ok (s',a)) :
    s'.streams = s.streams ∧ s'.consumers = s.consumers ∧ s'.file.root = s.file.root := by
  unfold Session.openIterator at h
  split at h
  · obtain ⟨⟨f,pinID⟩,hadd,h⟩ := bind_eq_ok.mp h
    cases h
    obtain ⟨rfl,rfl⟩ := addReaderPin_ok hadd
    exact ⟨rfl,rfl,rfl⟩
  · cases h
  · cases h

theorem File.streamNext_root {f f' : File}
    (h : f.streamNext pinID stream = .ok (some (f',stream',batch))) : f'.root = f.root := by
  unfold File.streamNext at h
  obtain ⟨-,h⟩ := guard_eq_ok.mp h
  split_ifs at h
  · obtain ⟨_,-,h⟩ := bind_eq_ok.mp h
    split at h
    · cases h
    · cases h
      rfl
  · cases h

theorem Session.streamNext_cases (h : s.streamNext pinID = .ok (s',a)) :
    ∃ stream, s.streams.find pinID = some stream ∧
      ((s' = s ∧ a = .waiting) ∨ ∃ f stream' batch, s.file.streamNext pinID stream = .ok (some (f,stream',batch)) ∧
        s' = { s with file := f, streams := s.streams.insert pinID stream' } ∧ a = .batch batch) := by
  unfold Session.streamNext at h
  split at h
  · cases h
  rename_i stream hstream
  obtain ⟨next,hnext,h⟩ := bind_eq_ok.mp h
  refine ⟨stream,hstream,?_⟩
  split at h
  · cases h
    exact .inl ⟨rfl,rfl⟩
  · cases h
    exact .inr ⟨_,_,_,hnext,rfl,rfl⟩

theorem Session.perform_reads [Sha256] {op : Operation} (hop : op.reads)
    (h : s.perform op = .ok (s',a)) : s'.consumers = s.consumers ∧ s'.file.root = s.file.root := by
  cases op with
  | openSnapshot =>
    obtain ⟨⟨f,pinID⟩,hadd,h⟩ := bind_eq_ok.mp h
    cases h
    exact ⟨rfl,by rw [(addReaderPin_ok hadd).2]⟩
  | openSnapshotAndStream => exact (Session.openAt_ok h).2
  | openSnapshotAndStreamAt sequence => exact (Session.openAt_ok h).2
  | openStream after =>
    obtain ⟨⟨f,pinID,stream⟩,hopen,h⟩ := bind_eq_ok.mp h
    cases h
    obtain ⟨_,-,hopen⟩ := bind_eq_ok.mp hopen
    obtain ⟨⟨f1,pin⟩,hadd,hopen⟩ := bind_eq_ok.mp hopen
    cases hopen
    exact ⟨rfl,by rw [(addReaderPin_ok hadd).2]⟩
  | openCursor after =>
    obtain ⟨⟨f,pinID⟩,hopen,h⟩ := bind_eq_ok.mp h
    cases h
    obtain ⟨_,-,hadd⟩ := bind_eq_ok.mp hopen
    exact ⟨rfl,by rw [(addReaderPin_ok hadd).2]⟩
  | openIterator snapshot => exact (Session.openIterator_ok h).2
  | openIndexBuildScan buildID =>
    obtain ⟨⟨f,pinID,build⟩,hopen,h⟩ := bind_eq_ok.mp h
    cases h
    obtain ⟨_,hadd⟩ := openIndexBuildScan_pin hopen
    exact ⟨rfl,by rw [(addReaderPin_ok hadd).2]⟩
  | openIndexBuildCatchUp buildID =>
    obtain ⟨⟨f,pinID,build⟩,hopen,h⟩ := bind_eq_ok.mp h
    cases h
    obtain ⟨_,hadd⟩ := openIndexBuildCatchUpSnapshot_pin hopen
    exact ⟨rfl,by rw [(addReaderPin_ok hadd).2]⟩
  | streamNext pinID =>
    obtain ⟨stream,-,⟨rfl,-⟩ | ⟨f,stream',batch,hnext,rfl,-⟩⟩ := Session.streamNext_cases h
    · exact ⟨rfl,rfl⟩
    · exact ⟨rfl,File.streamNext_root hnext⟩
  | _ => exact hop.elim

theorem Session.createConsumer_streams [Sha256] {after : ℕ}
    (h : s.createConsumer name after transactionID = .ok (s',a)) : s'.streams = s.streams := by
  obtain ⟨f,position,-,rfl | ⟨f1,pinID,-,rfl⟩⟩ := Session.createConsumer_cases h
  · rfl
  · rfl

theorem Session.perform_stream_kept [Sha256] {op : Operation} {id : ℕ}
    (hh : HandlesOk s) (hs : s.streams.find id = some stream) (hnext : op ≠ .streamNext id) (hends : ¬ op.ends id)
    (h : s.perform op = .ok (s',a)) : s'.streams.find id = some stream := by
  cases op with
  | publish p =>
    obtain ⟨f,-,h⟩ := bind_eq_ok.mp h
    cases h
    exact hs
  | openSnapshot =>
    obtain ⟨_,-,h⟩ := bind_eq_ok.mp h
    cases h
    exact hs
  | openSnapshotAndStream =>
    rw [(Session.openAt_ok h).1]
    exact hh.find_addStream hs (by omega)
  | openSnapshotAndStreamAt sequence =>
    rw [(Session.openAt_ok h).1]
    exact hh.find_addStream hs (by omega)
  | openStream after =>
    obtain ⟨⟨f,pinID,opened⟩,hopen,h⟩ := bind_eq_ok.mp h
    cases h
    obtain ⟨_,-,hopen⟩ := bind_eq_ok.mp hopen
    obtain ⟨⟨f1,pin⟩,hadd,hopen⟩ := bind_eq_ok.mp hopen
    cases hopen
    exact hh.find_addStream hs (by rw [(addReaderPin_ok hadd).1]; omega)
  | openCursor after =>
    obtain ⟨_,-,h⟩ := bind_eq_ok.mp h
    cases h
    exact hs
  | openIterator snapshot =>
    rw [(Session.openIterator_ok h).1]
    exact hs
  | openIndexBuildScan buildID =>
    obtain ⟨_,-,h⟩ := bind_eq_ok.mp h
    cases h
    exact hs
  | openIndexBuildCatchUp buildID =>
    obtain ⟨_,-,h⟩ := bind_eq_ok.mp h
    cases h
    exact hs
  | streamNext pinID =>
    have hid : id ≠ pinID := fun heq => hnext (heq ▸ rfl)
    obtain ⟨other,-,⟨rfl,-⟩ | ⟨f,stream',batch,-,rfl,-⟩⟩ := Session.streamNext_cases h
    · exact hs
    dsimp only
    rw [find_insert,if_neg hid]
    exact hs
  | createConsumer name after transactionID =>
    rw [Session.createConsumer_streams h]
    exact hs
  | openConsumer name =>
    obtain ⟨_,-,h⟩ := bind_eq_ok.mp h
    obtain ⟨_,-,h⟩ := bind_eq_ok.mp h
    cases h
    exact hs
  | consumerNext pinID =>
    unfold Session.perform Session.consumerNext at h
    dsimp only at h
    split at h
    · cases h
    obtain ⟨_,-,h⟩ := bind_eq_ok.mp h
    split at h
    · cases h
      exact hs
    · cases h
      exact hs
  | ack pinID sequence =>
    unfold Session.perform Session.ack at h
    dsimp only at h
    split at h
    · cases h
    obtain ⟨_,-,h⟩ := bind_eq_ok.mp h
    cases h
    exact hs
  | deleteConsumer name =>
    obtain ⟨_,-,h⟩ := bind_eq_ok.mp h
    cases h
    exact hs
  | close pinID =>
    cases h
    have hid : id ≠ pinID := fun heq => hends heq.symm
    show (s.streams.erase pinID).find id = some stream
    rw [find_erase,if_neg hid]
    exact hs
  | reopen maxCommits maxBytes => exact absurd trivial hends

theorem Session.delivered_other [Sha256] (h : op ≠ .streamNext pinID) : s.delivered pinID op = [] := by
  cases op with
  | streamNext id =>
    have hid : id ≠ pinID := fun heq => h (heq ▸ rfl)
    unfold Session.delivered
    split
    · rename_i heq _
      cases heq
      rw [if_neg hid]
    · rfl
  | _ => rfl

theorem SessionLogged.streamNext [Sha256] (h : SessionLogged s log0)
    (hrec : s.Records log) (hs : s.streams.find pinID = some stream) :
    (stream.after = s.file.root.commitSequence ∧ s.perform (.streamNext pinID) = .ok (s,.waiting)) ∨
      (stream.after < s.file.root.commitSequence ∧ ∃ s', s.perform (.streamNext pinID) =
        .ok (s',.batch (log (stream.after+1))) ∧
        s'.streams.find pinID = some ⟨stream.after+1,stream.after+1⟩) := by
  have hreader := h.handles.streams pinID stream hs
  have hperform : s.perform (.streamNext pinID) = s.streamNext pinID := rfl
  rw [hperform,Session.streamNext,hs]
  rcases streamNext_spec (h.file.serves hreader) hreader with ⟨hseq,hnext⟩ | ⟨hlt,hnext⟩
  · left
    refine ⟨hseq,?_⟩
    dsimp only
    rw [hnext,ok_bind]
  right
  dsimp only
  rw [hnext,ok_bind,(h.next_recorded hrec hreader hlt).1]
  refine ⟨hlt,_,rfl,?_⟩
  dsimp only
  rw [find_insert,if_pos rfl]

/-- One operation moves a stream by exactly what it delivers to it. -/
theorem SessionLogged.stream_step [Sha256] (h : SessionLogged s log0)
    (hrec : s.Records log) (hs : s.streams.find pinID = some stream)
    (hends : ¬ op.ends pinID) :
    ∃ stream', (s.step op).streams.find pinID = some stream' ∧ stream.after ≤ stream'.after ∧
      s.delivered pinID op = commitsBetween log stream.after stream'.after := by
  by_cases hop : op = .streamNext pinID
  · subst hop
    unfold Session.step Session.delivered
    rcases h.streamNext hrec hs with ⟨-,hnext⟩ | ⟨-,s',hnext,hs'⟩
    · refine ⟨stream,?_,le_rfl,?_⟩
      · rw [hnext]
        exact hs
      · rw [hnext,commitsBetween_self]
    refine ⟨_,by rw [hnext]; exact hs',Nat.le_succ _,?_⟩
    rw [hnext,commitsBetween_snoc log le_rfl,commitsBetween_self]
    dsimp only
    rw [if_pos rfl,nil_append]
  refine ⟨stream,?_,le_rfl,by rw [Session.delivered_other hop,commitsBetween_self]⟩
  unfold Session.step
  split
  · rename_i s' a hperform
    exact Session.perform_stream_kept h.handles hs hop hends hperform
  · exact hs

theorem SessionLogged.stream_run [Sha256] (h : SessionLogged s log0) (hrun : RunRecord log s ops)
    (hs : s.streams.find pinID = some stream) (hends : ∀ op ∈ ops, ¬ op.ends pinID) :
    ∃ stream', (ops.foldl Session.step s).streams.find pinID = some stream' ∧ stream.after ≤ stream'.after ∧
      s.deliveries pinID ops = commitsBetween log stream.after stream'.after := by
  induction ops generalizing s log0 stream with
  | nil => exact ⟨stream,hs,le_rfl,by rw [Session.deliveries,commitsBetween_self]⟩
  | cons op ops ih =>
    obtain ⟨log1,h1,-⟩ := h.moves (s.step_moves op)
    obtain ⟨stream1,hs1,hle1,hdel1⟩ := h.stream_step hrun.1 hs (hends op mem_cons_self)
    obtain ⟨stream2,hs2,hle2,hdel2⟩ := ih h1 hrun.2 hs1 (fun op' hop' => hends op' (mem_cons_of_mem _ hop'))
    refine ⟨stream2,hs2,hle1.trans hle2,?_⟩
    rw [Session.deliveries,hdel1,hdel2,commitsBetween_append log hle1 hle2]

end Meldbase.Logical
