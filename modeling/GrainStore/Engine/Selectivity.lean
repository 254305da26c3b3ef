import Mathlib
import GrainStore.Engine.Writes

/-!
# What the selectivity catalog counts

`put_vector` counts the header byte before the committer has decided about the write.  So a repeated
key and a failed commit are counted too, and the counts are those of the committed versions exactly
as long as every call commits one (`tracks_iff`).
-/

namespace GrainStore

/-- Whether the committer would commit a request: it runs, the key is new, and there is a timestamp
left. -/
def TruthStore.Takes (t : TruthStore) (req : WriteReq) : Prop :=
  t.running ∧ t.committer.idem[req.idemKey]? = none ∧ t.committer.hlc.last.toNat + 1 < 2 ^ 64

instance (t : TruthStore) (req : WriteReq) : Decidable (t.Takes req) :=
  inferInstanceAs (Decidable (_ ∧ _ ∧ _))

/-- The counts are those of some versions, in total and for each first byte of a value. -/
structure SelectivityCatalog.Tracks (c : SelectivityCatalog) (versions : List CdcRecord) :
    Prop where
  total : c.total = versions.length
  byValue : ∀ b, c.byValue b = versions.countP fun r => r.val.head? == some b

namespace GrainEngine

variable {I : Type*}

/-- The versions that a call commits. -/
def committed (e : GrainEngine I) (w : EngineWrite) (failure : Option (IoError × ℕ)) :
    List CdcRecord :=
  (e.write w failure).1.stream.drop e.stream.length

/-- The versions that the `put_vector` calls of a history commit. -/
def committedVectors (e : GrainEngine I) : WriteHistory → List CdcRecord
  | [] => []
  | w :: hist =>
    (match w.1 with
      | .putVector _ => e.committed w.1 w.2
      | .putRaw .. => []
      | .delete .. => []) ++ committedVectors (e.write w.1 w.2).1 hist

/-- Every `put_vector` call of a history finds a committer that takes its request, and meets no
failure. -/
def AllCommit (e : GrainEngine I) : WriteHistory → Prop
  | [] => True
  | w :: hist =>
    (∀ p, w.1 = .putVector p → e.truth.Takes p.write ∧ w.2 = none) ∧
      AllCommit (e.write w.1 w.2).1 hist

end GrainEngine

/-! ## One call -/

section Call

variable {disk : Bytes} {t : TruthStore} {s : LogStore}

lemma TruthStore.Shows.takes_iff (h : t.Shows disk s) (req : WriteReq) :
    t.Takes req ↔ s.Takes req := by
  unfold Takes LogStore.Takes
  rw [h.running]
  refine and_congr_right ?_
  intro hrun
  rw [h.idem hrun, h.clock hrun]

/-- A key that was committed, or was refused, is not taken again. -/
lemma TruthStore.not_takes_commit (t : TruthStore) (req : WriteReq)
    (failure : Option (IoError × ℕ)) : ¬(t.commit req failure).1.Takes req := by
  have hstep := t.commitStep req failure
  generalize (t.commit req failure).1 = t' at hstep ⊢
  generalize (t.commit req failure).2 = answer at hstep
  rintro ⟨hrun', hkey', -⟩
  cases hstep with
  | closed _ hrun => exact absurd hrun' (by simp [hrun])
  | repeated _ _ _ _ hkey _ => simp [hkey] at hkey'
  | panicked _ _ _ _ => simp at hrun'
  | committed _ _ _ _ _ _ => simp at hkey'
  | failed _ _ _ _ _ _ => simp at hrun'

variable {I : Type*} {e : GrainEngine I}

/-- A call commits the record of its request, or nothing. -/
lemma GrainEngine.committed_eq (h : e.truth.Shows disk s) (w : EngineWrite)
    (failure : Option (IoError × ℕ)) :
    e.committed w failure =
      if e.truth.Takes w.req ∧ failure = none then [(s.next w.req).cdc] else [] := by
  have hstream : e.stream = s.added.map WalRecord.cdc := h.received
  have hstream' : (e.write w failure).1.stream =
      (s.commit w.req failure).1.added.map WalRecord.cdc := by
    rw [stream, truth_write]
    exact (h.commit w.req failure).1.received
  rw [committed, hstream', hstream, (s.commit_log w.req failure).2,
    if_congr (and_congr_left' (h.takes_iff w.req)) rfl rfl]
  split
  · rw [List.map_append, List.drop_left]
    rfl
  · rw [List.drop_length]

/-- The first byte of a value is header byte 0. -/
lemma head?_val_next (s : LogStore) {p : VectorPut} {b : FixedWidth.Byte}
    (h : p.header.head? = some b) : (s.next p.write).cdc.val.head? = some b := by
  have hval : (s.next p.write).cdc.val = p.header ++ p.vector.flatMap FixedWidth.toLeBytes := rfl
  rw [hval, List.head?_append, h]
  rfl

end Call

/-! ## A history -/

namespace GrainEngine

variable {I : Type*} {disk : Bytes} {e : GrainEngine I} {s : LogStore}

/-- The headers of the `put_vector` calls of a history are not empty. -/
def HeadersGiven (hist : WriteHistory) : Prop :=
  ∀ w ∈ hist, match w.1 with
    | .putVector p => p.header ≠ []
    | .putRaw .. => True
    | .delete .. => True

lemma vector_or_other (w : EngineWrite) : (∃ p, w = .putVector p) ∨ ∀ p, w ≠ .putVector p := by
  cases w with
  | putVector p => exact Or.inl ⟨p, rfl⟩
  | putRaw sid pred value wmeta => exact Or.inr nofun
  | delete sid pred wmeta => exact Or.inr nofun

/-- The store behind a call shows the log behind it. -/
lemma shows_write (h : e.truth.Shows disk s) (w : EngineWrite) (failure : Option (IoError × ℕ)) :
    (e.write w failure).1.truth.Shows disk (s.commit w.req failure).1 := by
  rw [truth_write]
  exact (h.commit w.req failure).1

/-- A call of another kind is neither counted nor a version of a vector. -/
lemma counts_other (w : EngineWrite) (failure : Option (IoError × ℕ)) (hist : WriteHistory)
    (hw : ∀ p, w ≠ .putVector p) :
    (e.write w failure).1.catalog = e.catalog ∧
      e.committedVectors ((w, failure) :: hist) = (e.write w failure).1.committedVectors hist ∧
      (e.AllCommit ((w, failure) :: hist) ↔ (e.write w failure).1.AllCommit hist) := by
  have hall : (∀ p, w = .putVector p → e.truth.Takes p.write ∧ failure = none) :=
    fun p hp => absurd hp (hw p)
  refine ⟨?_, ?_, and_iff_right hall⟩
  · cases w with
    | putVector p => exact absurd rfl (hw p)
    | putRaw sid pred value wmeta => rfl
    | delete sid pred wmeta => rfl
  · cases w with
    | putVector p => exact absurd rfl (hw p)
    | putRaw sid pred value wmeta => rfl
    | delete sid pred wmeta => rfl

/-- A `put_vector` call is counted, and its version is committed when it is taken and meets no
failure. -/
lemma counts_putVector (h : e.truth.Shows disk s) {p : VectorPut} {b : FixedWidth.Byte}
    (hb : p.header.head? = some b) (failure : Option (IoError × ℕ)) (hist : WriteHistory) :
    (e.write (.putVector p) failure).1.catalog = e.catalog.observe b ∧
      e.committedVectors ((.putVector p, failure) :: hist) =
        (if e.truth.Takes p.write ∧ failure = none then [(s.next p.write).cdc] else []) ++
          (e.write (.putVector p) failure).1.committedVectors hist ∧
      (e.AllCommit ((.putVector p, failure) :: hist) ↔
        (e.truth.Takes p.write ∧ failure = none) ∧
          (e.write (.putVector p) failure).1.AllCommit hist) := by
  refine ⟨?_, ?_, and_congr_left fun _ => ?_⟩
  · rw [catalog_write, EngineWrite.headerByte, hb]
    rfl
  · exact congrArg (· ++ _) (committed_eq h (.putVector p) failure)
  · exact ⟨fun hall => hall p rfl, fun hp q hq => EngineWrite.putVector.inj hq ▸ hp⟩

/-- The calls that are counted and commit no version: there are none exactly when all calls
commit one. -/
lemma exists_uncommitted (h : e.truth.Shows disk s) {hist : WriteHistory}
    (hheaders : HeadersGiven hist) :
    ∃ uncommitted : ℕ,
      (e.writeAll hist).catalog.total =
        e.catalog.total + (e.committedVectors hist).length + uncommitted ∧
      (uncommitted = 0 ↔ e.AllCommit hist) := by
  induction hist generalizing e s with
  | nil => exact ⟨0, rfl, iff_of_true rfl trivial⟩
  | cons w hist ih =>
    obtain ⟨w, failure⟩ := w
    obtain ⟨uncommitted, htotal, hzero⟩ := ih (shows_write h w failure) fun w' hw' =>
      hheaders w' (List.mem_cons_of_mem _ hw')
    have hcons : e.writeAll ((w, failure) :: hist) = (e.write w failure).1.writeAll hist := rfl
    rw [hcons, htotal]
    rcases vector_or_other w with ⟨p, rfl⟩ | hother
    · obtain ⟨b, hb⟩ : ∃ b, p.header.head? = some b :=
        ⟨_, List.head?_eq_some_head (hheaders _ List.mem_cons_self)⟩
      obtain ⟨hcatalog, hversions, hall⟩ := counts_putVector h hb failure hist
      have hobserve : (e.catalog.observe b).total = e.catalog.total + 1 := rfl
      rw [hcatalog, hversions, hall, List.length_append, hobserve]
      by_cases hcommit : e.truth.Takes p.write ∧ failure = none
      · rw [if_pos hcommit, and_iff_right hcommit]
        exact ⟨uncommitted, by rw [List.length_singleton]; omega, hzero⟩
      · rw [if_neg hcommit]
        refine ⟨uncommitted + 1, by rw [List.length_nil]; omega, ?_⟩
        exact iff_of_false (Nat.succ_ne_zero _) fun h => hcommit h.1
    · obtain ⟨hcatalog, hversions, hall⟩ := counts_other (e := e) w failure hist hother
      rw [hcatalog, hversions, hall]
      exact ⟨uncommitted, rfl, hzero⟩

/-- When all calls commit a version, each is counted under the first byte of its value. -/
lemma byValue_of_allCommit (h : e.truth.Shows disk s) {hist : WriteHistory}
    (hheaders : HeadersGiven hist) (hall : e.AllCommit hist) (b : FixedWidth.Byte) :
    (e.writeAll hist).catalog.byValue b = e.catalog.byValue b +
      (e.committedVectors hist).countP fun r => r.val.head? == some b := by
  induction hist generalizing e s with
  | nil => rfl
  | cons w hist ih =>
    obtain ⟨w, failure⟩ := w
    have hrest := ih (shows_write h w failure)
      (fun w' hw' => hheaders w' (List.mem_cons_of_mem _ hw')) hall.2
    have hcons : e.writeAll ((w, failure) :: hist) = (e.write w failure).1.writeAll hist := rfl
    rw [hcons, hrest]
    rcases vector_or_other w with ⟨p, rfl⟩ | hother
    · obtain ⟨b', hb'⟩ : ∃ b, p.header.head? = some b :=
        ⟨_, List.head?_eq_some_head (hheaders _ List.mem_cons_self)⟩
      obtain ⟨hcatalog, hversions, hsplit⟩ := counts_putVector h hb' failure hist
      rw [hcatalog, hversions, if_pos (hsplit.mp hall).1, List.countP_append,
        List.countP_singleton, head?_val_next s hb', SelectivityCatalog.observe]
      dsimp only
      by_cases heq : b' = b
      · subst heq
        rw [Function.update_self, if_pos (beq_self_eq_true _)]
        omega
      · rw [Function.update_of_ne (Ne.symm heq), if_neg (by simpa using heq), Nat.zero_add]
    · obtain ⟨hcatalog, hversions, -⟩ := counts_other (e := e) w failure hist hother
      rw [hcatalog, hversions]

/-- Counts that are right leave no call uncommitted. -/
lemma allCommit_of_tracks (disk : Bytes) (index : I) {hist : WriteHistory}
    (hheaders : HeadersGiven hist)
    (h : ((openWith disk index).writeAll hist).catalog.Tracks
      ((openWith disk index).committedVectors hist)) : (openWith disk index).AllCommit hist := by
  obtain ⟨uncommitted, htotal, hzero⟩ := exists_uncommitted
    (e := openWith disk index) (TruthStore.shows_start disk) hheaders
  have hstart : (openWith disk index).catalog.total = 0 := rfl
  have heq := h.total
  exact hzero.mp (by omega)

/-- Take any log file, and any history of calls on an engine opened on it, with any repeated keys
and any failures, whose `put_vector` calls have headers.  The catalog counts the versions that these
calls committed, in total and for each header byte, exactly when every one of them found the
committer running, its key new and a timestamp left, and met no failure. -/
theorem tracks_iff (disk : Bytes) (index : I) {hist : WriteHistory}
    (hheaders : HeadersGiven hist) :
    let e := openWith disk index
    (e.writeAll hist).catalog.Tracks (e.committedVectors hist) ↔ e.AllCommit hist := by
  refine ⟨allCommit_of_tracks disk index hheaders, ?_⟩
  intro hall
  have hshows : (openWith disk index).truth.Shows disk (LogStore.opened disk) :=
    TruthStore.shows_start disk
  obtain ⟨uncommitted, htotal, hzero⟩ := exists_uncommitted hshows hheaders
  have hstart : (openWith disk index).catalog.total = 0 := rfl
  have hnone := hzero.mpr hall
  refine ⟨by omega, ?_⟩
  intro b
  rw [byValue_of_allCommit hshows hheaders hall]
  exact Nat.zero_add _

end GrainEngine

namespace SelectivityExample

/-- A call with header byte 7. -/
def seven : VectorPut := ⟨1, 0, [7], [], ⟨0, 0, 5⟩⟩

/-- A call with header byte 8 and another key. -/
def eight : VectorPut := ⟨2, 0, [8], [], ⟨0, 0, 6⟩⟩

/-- A vector, and another one with a retry of its call. -/
def retried : WriteHistory :=
  [(.putVector seven, none), (.putVector eight, none), (.putVector eight, none)]

/-- A vector, and another one that the disk refuses. -/
def refused : WriteHistory :=
  [(.putVector seven, none), (.putVector eight, some (⟨.other, "disk full"⟩, 0))]

lemma headersGiven_retried : GrainEngine.HeadersGiven retried := by
  simp [GrainEngine.HeadersGiven, retried, seven, eight]

lemma headersGiven_refused : GrainEngine.HeadersGiven refused := by
  simp [GrainEngine.HeadersGiven, refused, seven, eight]

end SelectivityExample

namespace GrainEngine

open SelectivityExample

/-- A retry is counted: of three calls two commit a version, and half of these have the header byte
7 where the estimate is a third.  A refused call is counted too. -/
theorem not_tracks :
    let e := openWith [] ()
    ((e.writeAll retried).catalog.total = 3 ∧
      (e.writeAll retried).catalog.selectivity 7 =
        some (roundF64 (roundF64 (1 : ℕ) / roundF64 (3 : ℕ))) ∧
      ¬(e.writeAll retried).catalog.Tracks (e.committedVectors retried)) ∧
    ¬(e.writeAll refused).catalog.Tracks (e.committedVectors refused) := by
  intro e
  refine ⟨⟨rfl, rfl, fun h => ?_⟩, fun h => ?_⟩
  · have hall := allCommit_of_tracks [] () headersGiven_retried h
    exact TruthStore.not_takes_commit _ _ _ (hall.2.2.1 eight rfl).1
  · have hall := allCommit_of_tracks [] () headersGiven_refused h
    cases (hall.2.1 eight rfl).2

theorem tracks_iff_retried :
    let e := openWith [] ()
    (e.writeAll retried).catalog.Tracks (e.committedVectors retried) ↔ e.AllCommit retried :=
  tracks_iff [] () headersGiven_retried

end GrainEngine

end GrainStore
