import Mathlib
import GrainStore.Wal.Committer

/-!
# Group commit

What the committer does to a sequence of requests does not depend on how it is batched.  The
decisions are made by the ledger alone, the clock with the dedup map: `Ledger.fresh` lists the
requests that get a timestamp and `Ledger.answers` the timestamp every request is answered with.

`Committed` states the effect of a sequence of requests in these terms, `committed_of_runBatches`
proves it of every batching, and `runBatches_eq_single` compares a batching with the run that
takes the requests one at a time.
-/

namespace GrainStore

open FixedWidth

/-- The state that decides what happens to a request: the dedup map and the clock. -/
structure Ledger where
  idem : IdemMap
  clock : U64

namespace Ledger

/-- A new key is bound to the next timestamp. -/
def assign (l : Ledger) (key : U128) : Ledger :=
  match l.idem[key]? with
  | some _ => l
  | none => ⟨l.idem.insert key (l.clock + 1), l.clock + 1⟩

/-- The ledger after a sequence of requests. -/
def after (l : Ledger) (reqs : List Pending) : Ledger :=
  reqs.foldl (fun l pw => l.assign pw.req.idemKey) l

/-- The requests that are given a timestamp, with it. -/
def fresh (l : Ledger) : List Pending → List (Pending × U64)
  | [] => []
  | pw :: rest =>
    match l.idem[pw.req.idemKey]? with
    | some _ => (l.assign pw.req.idemKey).fresh rest
    | none => (pw, l.clock + 1) :: (l.assign pw.req.idemKey).fresh rest

/-- The requests that repeat a key, with the timestamp on record. -/
def repeats (l : Ledger) : List Pending → List (Pending × U64)
  | [] => []
  | pw :: rest =>
    match l.idem[pw.req.idemKey]? with
    | some orig => (pw, orig) :: (l.assign pw.req.idemKey).repeats rest
    | none => (l.assign pw.req.idemKey).repeats rest

/-- The timestamp each request is answered with, in the order of the requests. -/
def answers (l : Ledger) : List Pending → List (Pending × U64)
  | [] => []
  | pw :: rest =>
    (pw, l.idem[pw.req.idemKey]?.getD (l.clock + 1)) :: (l.assign pw.req.idemKey).answers rest

/-- The records of the requests that are given a timestamp. -/
def records (l : Ledger) (reqs : List Pending) : List WalRecord := recordsOf (l.fresh reqs)

/-- The keys of a sequence of requests that are new to the ledger, each once. -/
def newKeys (l : Ledger) (reqs : List Pending) : List U128 :=
  ((reqs.map fun pw => pw.req.idemKey).filter fun key => l.idem[key]? = none).dedup

/-! ## One request -/

variable {l : Ledger} {pw : Pending} {rest reqs : List Pending}

@[simp] lemma after_nil : l.after [] = l := rfl

@[simp] lemma after_cons : l.after (pw :: rest) = (l.assign pw.req.idemKey).after rest := rfl

@[simp] lemma fresh_nil : l.fresh [] = [] := rfl

@[simp] lemma repeats_nil : l.repeats [] = [] := rfl

@[simp] lemma answers_nil : l.answers [] = [] := rfl

lemma assign_of_some {key : U128} {orig : U64} (h : l.idem[key]? = some orig) :
    l.assign key = l := by
  unfold assign
  rw [h]

lemma assign_of_none {key : U128} (h : l.idem[key]? = none) :
    l.assign key = ⟨l.idem.insert key (l.clock + 1), l.clock + 1⟩ := by
  unfold assign
  rw [h]

lemma fresh_cons_of_some {orig : U64} (h : l.idem[pw.req.idemKey]? = some orig) :
    l.fresh (pw :: rest) = l.fresh rest := by
  rw [fresh, h, assign_of_some h]

lemma fresh_cons_of_none (h : l.idem[pw.req.idemKey]? = none) :
    l.fresh (pw :: rest) = (pw, l.clock + 1) :: (l.assign pw.req.idemKey).fresh rest := by
  rw [fresh, h]

lemma repeats_cons_of_some {orig : U64} (h : l.idem[pw.req.idemKey]? = some orig) :
    l.repeats (pw :: rest) = (pw, orig) :: l.repeats rest := by
  rw [repeats, h, assign_of_some h]

lemma repeats_cons_of_none (h : l.idem[pw.req.idemKey]? = none) :
    l.repeats (pw :: rest) = (l.assign pw.req.idemKey).repeats rest := by
  rw [repeats, h]

/-- What the map of an assigned key says about any key. -/
lemma idem_assign_eq_none_iff {key k : U128} :
    (l.assign key).idem[k]? = none ↔ l.idem[k]? = none ∧ k ≠ key := by
  cases h : l.idem[key]? with
  | some orig =>
    rw [assign_of_some h]
    refine ⟨fun hk => ⟨hk, ?_⟩, And.left⟩
    rintro rfl
    simp [h] at hk
  | none =>
    rw [assign_of_none h, OrderedMap.getElem?_insert_eq]
    by_cases hk : key = k
    · simp [hk]
    · simp [hk, Ne.symm hk]

/-! ## Sequences of requests -/

@[simp] lemma after_append (ps qs : List Pending) :
    l.after (ps ++ qs) = (l.after ps).after qs := by
  rw [after, List.foldl_append]
  rfl

lemma fresh_append (ps qs : List Pending) :
    l.fresh (ps ++ qs) = l.fresh ps ++ (l.after ps).fresh qs := by
  induction ps generalizing l with
  | nil => rfl
  | cons pw ps ih =>
    cases h : l.idem[pw.req.idemKey]? with
    | some orig =>
      rw [List.cons_append, fresh_cons_of_some h, fresh_cons_of_some h, ih, after_cons,
        assign_of_some h]
    | none =>
      rw [List.cons_append, fresh_cons_of_none h, fresh_cons_of_none h, ih, after_cons,
        List.cons_append]

lemma answers_append (ps qs : List Pending) :
    l.answers (ps ++ qs) = l.answers ps ++ (l.after ps).answers qs := by
  induction ps generalizing l with
  | nil => rfl
  | cons pw ps ih => rw [List.cons_append, answers, ih, answers, after_cons, List.cons_append]

lemma records_append (ps qs : List Pending) :
    l.records (ps ++ qs) = l.records ps ++ (l.after ps).records qs := by
  rw [records, fresh_append, recordsOf, List.map_append]
  rfl

/-- Every request is answered once, as a repeat or with its new timestamp. -/
lemma answers_perm : (l.answers reqs).Perm (l.repeats reqs ++ l.fresh reqs) := by
  induction reqs generalizing l with
  | nil => exact List.Perm.refl _
  | cons pw rest ih =>
    rw [answers]
    cases h : l.idem[pw.req.idemKey]? with
    | some orig =>
      rw [repeats_cons_of_some h, fresh_cons_of_some h, assign_of_some h]
      exact ih.cons _
    | none =>
      rw [repeats_cons_of_none h, fresh_cons_of_none h]
      exact (ih.cons _).trans List.perm_middle.symm

/-- The answers are the answers of the requests, in their order. -/
lemma map_fst_answers : (l.answers reqs).map Prod.fst = reqs := by
  induction reqs generalizing l with
  | nil => rfl
  | cons pw rest ih => rw [answers, List.map_cons, ih]

/-- The requests that are given a timestamp are the requests of new keys, each key once. -/
lemma mem_fresh_keys {key : U128} :
    key ∈ (l.fresh reqs).map (fun a => a.1.req.idemKey) ↔
      key ∈ reqs.map (fun pw => pw.req.idemKey) ∧ l.idem[key]? = none := by
  induction reqs generalizing l with
  | nil => simp
  | cons pw rest ih =>
    cases h : l.idem[pw.req.idemKey]? with
    | some orig =>
      rw [fresh_cons_of_some h, ih, List.map_cons, List.mem_cons]
      constructor
      · rintro ⟨hmem, hnone⟩
        exact ⟨Or.inr hmem, hnone⟩
      · rintro ⟨rfl | hmem, hnone⟩
        · simp [h] at hnone
        · exact ⟨hmem, hnone⟩
    | none =>
      rw [fresh_cons_of_none h, List.map_cons, List.mem_cons, ih, idem_assign_eq_none_iff,
        List.map_cons, List.mem_cons]
      by_cases hkey : key = pw.req.idemKey
      · simp [hkey, h]
      · simp [hkey]

/-- The requests that are given a timestamp are requests of the sequence. -/
lemma fst_mem_of_mem_fresh {a : Pending × U64} (h : a ∈ l.fresh reqs) : a.1 ∈ reqs := by
  have hmem : a ∈ l.answers reqs :=
    answers_perm.mem_iff.mpr (List.mem_append_right _ h)
  have hfst : a.1 ∈ (l.answers reqs).map Prod.fst := List.mem_map_of_mem hmem
  rwa [map_fst_answers] at hfst

lemma nodup_fresh_keys : ((l.fresh reqs).map fun a => a.1.req.idemKey).Nodup := by
  induction reqs generalizing l with
  | nil => exact List.nodup_nil
  | cons pw rest ih =>
    cases h : l.idem[pw.req.idemKey]? with
    | some orig =>
      rw [fresh_cons_of_some h]
      exact ih
    | none =>
      rw [fresh_cons_of_none h, List.map_cons, List.nodup_cons, mem_fresh_keys,
        idem_assign_eq_none_iff]
      exact ⟨fun hmem => hmem.2.2 rfl, ih⟩

/-- As many requests are given a timestamp as there are new keys. -/
lemma length_fresh : (l.fresh reqs).length = (l.newKeys reqs).length := by
  rw [← List.length_map fun a : Pending × U64 => a.1.req.idemKey]
  refine List.Perm.length_eq ?_
  unfold newKeys
  rw [List.perm_ext_iff_of_nodup nodup_fresh_keys (List.nodup_dedup _)]
  intro key
  rw [mem_fresh_keys, List.mem_dedup, List.mem_filter]
  simp

/-- A new key moves the clock by one. -/
lemma toNat_clock_assign {k : U128} (h : l.idem[k]? = none) (hlt : l.clock.toNat + 1 < 2 ^ 64) :
    (l.assign k).clock.toNat = l.clock.toNat + 1 := by
  rw [assign_of_none h]
  exact toNat_add_one hlt

/-- The clock moves by one for each request that is given a timestamp. -/
lemma clock_after (hlt : l.clock.toNat + (l.newKeys reqs).length < 2 ^ 64) :
    (l.after reqs).clock.toNat = l.clock.toNat + (l.fresh reqs).length := by
  rw [← length_fresh] at hlt
  induction reqs generalizing l with
  | nil => rfl
  | cons pw rest ih =>
    cases h : l.idem[pw.req.idemKey]? with
    | some orig =>
      rw [fresh_cons_of_some h] at hlt ⊢
      rw [after_cons, assign_of_some h]
      exact ih hlt
    | none =>
      rw [fresh_cons_of_none h, List.length_cons] at hlt ⊢
      have hone := toNat_clock_assign h (by omega)
      rw [after_cons, ih (by omega), hone]
      omega

/-- The timestamps given are the ones that follow the clock, in order. -/
lemma seqs_fresh (hlt : l.clock.toNat + (l.newKeys reqs).length < 2 ^ 64) :
    (l.fresh reqs).map (fun a => a.2.toNat) =
      List.range' (l.clock.toNat + 1) (l.newKeys reqs).length := by
  rw [← length_fresh] at hlt ⊢
  induction reqs generalizing l with
  | nil => rfl
  | cons pw rest ih =>
    cases h : l.idem[pw.req.idemKey]? with
    | some orig =>
      rw [fresh_cons_of_some h] at hlt ⊢
      exact ih hlt
    | none =>
      rw [fresh_cons_of_none h, List.length_cons] at hlt ⊢
      have hone := toNat_clock_assign h (by omega)
      have hhead : (l.clock + 1).toNat = l.clock.toNat + 1 := toNat_add_one (by omega)
      rw [List.map_cons, ih (by omega), hone, List.range'_succ, hhead]

end Ledger

namespace Committer

/-- The ledger of a committer. -/
def ledger (s : Committer) : Ledger := ⟨s.idem, s.hlc.last⟩

@[simp] lemma ledger_clock (s : Committer) : s.ledger.clock = s.hlc.last := rfl

/-! ## The scan of a batch -/

/-- A scanned request changes the ledger by assigning its key. -/
lemma ledger_of_new {s : Committer} {pw : Pending} (h : s.idem[pw.req.idemKey]? = none) :
    s.ledger.assign pw.req.idemKey =
      ⟨s.idem.insert pw.req.idemKey (s.hlc.last + 1), s.hlc.last + 1⟩ :=
  Ledger.assign_of_none h

/-- A batch is scanned request by request. -/
lemma exists_of_scan_cons {s : Committer} {b : Batch} {pw : Pending} {rest : List Pending}
    {r : Committer × Batch} (h : s.scan b (pw :: rest) = some r) :
    ∃ s₁ b₁, s.scanReq b pw = some (s₁, b₁) ∧ s₁.scan b₁ rest = some r := by
  rw [scan] at h
  cases hreq : s.scanReq b pw with
  | none => simp [hreq] at h
  | some p =>
    rw [hreq] at h
    exact ⟨p.1, p.2, rfl, h⟩

/-- The scan of a batch leaves everything but the ledger and the acks alone: it answers the
repeats and collects the fresh requests, and its largest timestamp is the clock. -/
lemma scan_eq_some {s s' : Committer} {b b' : Batch} {reqs : List Pending}
    (h : s.scan b reqs = some (s', b')) (hb : b.maxSeq = s.hlc.last) :
    s' = { s with
      hlc := ⟨(s.ledger.after reqs).clock⟩
      idem := (s.ledger.after reqs).idem
      sent := s.sent ++ (s.ledger.repeats reqs).map fun a => (a.1, .ok a.2) } ∧
    b'.acks = b.acks ++ s.ledger.fresh reqs ∧ b'.maxSeq = s'.hlc.last := by
  induction reqs generalizing s b with
  | nil =>
    obtain ⟨rfl, rfl⟩ := Prod.mk.inj (Option.some.inj h)
    simp [ledger, hb]
  | cons pw rest ih =>
    obtain ⟨s₁, b₁, hreq, hrest⟩ := exists_of_scan_cons h
    rcases scanReq_cases hreq with ⟨orig, hidem, rfl, rfl⟩ | ⟨hidem, hlt, rfl, rfl⟩
    · -- a repeat leaves the ledger as it is
      obtain ⟨rfl, hacks, hmax⟩ := ih hrest hb
      rw [Ledger.after_cons, Ledger.assign_of_some hidem, Ledger.fresh_cons_of_some hidem,
        Ledger.repeats_cons_of_some hidem]
      refine ⟨?_, hacks, hmax⟩
      simp [ledger]
    · -- a new request moves the clock to its timestamp
      have hmax : (b.push pw (s.hlc.last + 1)).maxSeq = s.hlc.last + 1 := by
        rw [Batch.maxSeq_push, hb, max_eq_right]
        rw [BitVec.le_def, toNat_add_one hlt]
        exact Nat.le_succ _
      obtain ⟨rfl, hacks, hmax'⟩ := ih hrest hmax
      rw [Ledger.after_cons, ledger_of_new hidem, Ledger.fresh_cons_of_none hidem,
        ledger_of_new hidem, Ledger.repeats_cons_of_none hidem, ledger_of_new hidem]
      refine ⟨rfl, ?_, hmax'⟩
      rw [hacks, Batch.acks_push, List.append_assoc, List.singleton_append]
      rfl

/-- The scan of a batch moves the clock by one for each fresh request, without overflow. -/
lemma clock_of_scan {s s' : Committer} {b b' : Batch} {reqs : List Pending}
    (h : s.scan b reqs = some (s', b')) :
    s'.hlc.last.toNat = s.hlc.last.toNat + (s.ledger.fresh reqs).length := by
  induction reqs generalizing s b with
  | nil =>
    obtain ⟨rfl, -⟩ := Prod.mk.inj (Option.some.inj h)
    rfl
  | cons pw rest ih =>
    obtain ⟨s₁, b₁, hreq, hrest⟩ := exists_of_scan_cons h
    rcases scanReq_cases hreq with ⟨orig, hidem, rfl, rfl⟩ | ⟨hidem, hlt, rfl, rfl⟩
    · rw [ih hrest, Ledger.fresh_cons_of_some hidem]
      rfl
    · rw [ih hrest, Ledger.fresh_cons_of_none hidem, List.length_cons, ledger_of_new hidem]
      dsimp only
      rw [toNat_add_one hlt, Nat.add_assoc, Nat.add_comm 1]
      rfl

/-- The scan of a batch goes through while the clock stays below its end. -/
lemma isSome_scan {s : Committer} {reqs : List Pending}
    (hlt : s.hlc.last.toNat + (s.ledger.newKeys reqs).length < 2 ^ 64) (b : Batch) :
    (s.scan b reqs).isSome := by
  rw [← Ledger.length_fresh] at hlt
  induction reqs generalizing s b with
  | nil => rfl
  | cons pw rest ih =>
    rw [scan]
    cases hidem : s.idem[pw.req.idemKey]? with
    | some orig =>
      rw [scanReq_of_some hidem]
      rw [Ledger.fresh_cons_of_some hidem] at hlt
      exact ih (s := { s with sent := s.sent ++ [(pw, .ok orig)] }) hlt b
    | none =>
      rw [Ledger.fresh_cons_of_none hidem, List.length_cons, Ledger.assign_of_none hidem] at hlt
      have hone : (s.hlc.last + 1).toNat = s.hlc.last.toNat + 1 := toNat_add_one (by omega)
      rw [scanReq_of_none hidem (by omega)]
      refine ih ?_ _
      rw [hone]
      exact lt_of_eq_of_lt (by rw [ledger, Nat.add_assoc, Nat.add_comm 1]; rfl) hlt

/-! ## The effect of a sequence of requests -/

/-- The effect of a sequence of requests on everything the committer keeps: one frame, one KV
put and one published change for each fresh request, all in the order of the fresh requests;
the clock in the applied-sequence metadata; one answer for each request. -/
structure Committed (s : Committer) (reqs : List Pending) (s' : Committer) : Prop where
  file : s'.file = s.file ++ (s.ledger.records reqs).flatMap encodeFrame
  kv : s'.kv.grains =
    (s.ledger.records reqs).foldl (fun g r => g.insert r.key r.value) s.kv.grains
  metadata : s'.kv.metadata =
    if reqs = [] then s.kv.metadata
    else s.kv.metadata.insert META_APPLIED_SEQ (toBeBytes s'.hlc.last)
  ledger : s'.ledger = s.ledger.after reqs
  cdc : s'.cdc = ((s.ledger.records reqs).map WalRecord.cdc).foldl CdcPublisher.publish s.cdc
  sent : s'.sent.Perm (s.sent ++ (s.ledger.answers reqs).map fun a => (a.1, .ok a.2))
  tail : s'.tail = s.tail
  healthy : s'.healthy = s.healthy

/-- The puts of a batch, applied one by one. -/
lemma foldl_putGrain (recs : List WalRecord) (kv : MemKv) :
    (recs.map fun r => (r.key, r.value)).foldl (fun kv p => kv.putGrain p.1 p.2) kv =
      ⟨recs.foldl (fun g r => g.insert r.key r.value) kv.grains, kv.metadata⟩ := by
  induction recs generalizing kv with
  | nil => rfl
  | cons r recs ih => rw [List.map_cons, List.foldl_cons, ih, List.foldl_cons]; rfl

/-- The effect of one batch. -/
theorem committed_of_commitBatch {s s' : Committer} {batch : List Pending} (hne : batch ≠ [])
    (h : s.commitBatch batch = some s') : Committed s batch s' := by
  unfold commitBatch at h
  obtain ⟨⟨s₁, b⟩, hscan, rfl⟩ := Option.map_eq_some_iff.mp h
  obtain ⟨rfl, hacks, hmax⟩ := scan_eq_some hscan rfl
  rw [Batch.acks_start, List.nil_append] at hacks
  have hrecs : recordsOf b.acks = s.ledger.records batch := by rw [hacks, Ledger.records]
  dsimp only at hmax
  constructor
  · simp [finish, sync, applyBatch, publishBatch, ackBatch, b.buf_eq, hrecs]
  · simp [finish, sync, applyBatch, publishBatch, ackBatch, b.puts_eq, hrecs, foldl_putGrain]
  · rw [if_neg hne]
    simp [finish, sync, applyBatch, publishBatch, ackBatch, b.puts_eq, hrecs, foldl_putGrain,
      hmax]
  · rfl
  · simp [finish, sync, applyBatch, publishBatch, ackBatch, b.cdcRecs_eq, hrecs]
  · simp only [finish, sync, applyBatch, publishBatch, ackBatch, hacks, List.append_assoc,
      ← List.map_append]
    exact ((Ledger.answers_perm.map _).symm).append_left _
  · rfl
  · rfl

/-- No requests, no effect. -/
lemma Committed.refl (s : Committer) : Committed s [] s where
  file := by simp [Ledger.records, recordsOf]
  kv := by simp [Ledger.records, recordsOf]
  metadata := by simp
  ledger := rfl
  cdc := by simp [Ledger.records, recordsOf]
  sent := by simp
  tail := rfl
  healthy := rfl

/-- The effects of two sequences of requests, one after the other. -/
lemma Committed.trans {s₁ s₂ s₃ : Committer} {ps qs : List Pending}
    (h₁ : Committed s₁ ps s₂) (h₂ : Committed s₂ qs s₃) : Committed s₁ (ps ++ qs) s₃ where
  file := by
    rw [h₂.file, h₁.file, h₁.ledger, Ledger.records_append, List.flatMap_append,
      List.append_assoc]
  kv := by rw [h₂.kv, h₁.kv, h₁.ledger, Ledger.records_append, List.foldl_append]
  metadata := by
    rw [h₂.metadata, h₁.metadata]
    by_cases hqs : qs = []
    · have hlast : s₃.hlc.last = s₂.hlc.last := by
        have := h₂.ledger
        rw [hqs, Ledger.after_nil] at this
        exact congrArg Ledger.clock this
      simp [hqs, hlast]
    · by_cases hps : ps = []
      · simp [hqs, hps]
      · simp [hqs, hps, OrderedMap.insert_insert]
  ledger := by rw [h₂.ledger, h₁.ledger, Ledger.after_append]
  cdc := by
    rw [h₂.cdc, h₁.cdc, h₁.ledger, Ledger.records_append, List.map_append, List.foldl_append]
  sent := by
    refine h₂.sent.trans ?_
    rw [h₁.ledger, Ledger.answers_append, List.map_append, ← List.append_assoc]
    exact h₁.sent.append_right _
  tail := h₂.tail.trans h₁.tail
  healthy := h₂.healthy.trans h₁.healthy

/-- The effect of a run over non-empty batches is the effect of their requests in sequence. -/
theorem committed_of_runBatches {s s' : Committer} {batches : List (List Pending)}
    (hne : ∀ batch ∈ batches, batch ≠ []) (h : s.runBatches batches = some s') :
    Committed s batches.flatten s' := by
  induction batches generalizing s with
  | nil =>
    obtain rfl := Option.some.inj h
    exact Committed.refl s
  | cons batch rest ih =>
    rw [runBatches] at h
    cases hbatch : s.commitBatch batch with
    | none => simp [hbatch] at h
    | some s₁ =>
      rw [hbatch] at h
      have h₁ := committed_of_commitBatch (hne batch List.mem_cons_self) hbatch
      exact h₁.trans (ih (fun b hb => hne b (List.mem_cons_of_mem _ hb)) h)

/-- A run over non-empty batches goes through while the clock stays below its end. -/
lemma exists_runBatches {s : Committer} {batches : List (List Pending)}
    (hne : ∀ batch ∈ batches, batch ≠ [])
    (hlt : s.hlc.last.toNat + (s.ledger.newKeys batches.flatten).length < 2 ^ 64) :
    ∃ s', s.runBatches batches = some s' := by
  rw [← Ledger.length_fresh] at hlt
  induction batches generalizing s with
  | nil => exact ⟨s, rfl⟩
  | cons batch rest ih =>
    rw [List.flatten_cons, Ledger.fresh_append, List.length_append] at hlt
    have hbatch : s.ledger.clock.toNat + (s.ledger.newKeys batch).length < 2 ^ 64 := by
      rw [← Ledger.length_fresh]
      rw [ledger_clock]
      omega
    obtain ⟨p, hscan⟩ := Option.isSome_iff_exists.mp (isSome_scan hbatch (Batch.start s.hlc.now))
    have hcommit : s.commitBatch batch = some (p.1.finish p.2) := by
      rw [commitBatch, hscan, Option.map_some]
    have h₁ := committed_of_commitBatch (hne batch List.mem_cons_self) hcommit
    obtain ⟨s', hs'⟩ := ih (s := p.1.finish p.2)
      (fun b hb => hne b (List.mem_cons_of_mem _ hb)) (by
        have hclock : (p.1.finish p.2).hlc.last = (s.ledger.after batch).clock :=
          congrArg Ledger.clock h₁.ledger
        rw [h₁.ledger, hclock, Ledger.clock_after hbatch, ledger_clock]
        omega)
    exact ⟨s', by rw [runBatches, hcommit]; exact hs'⟩

/-- A run that goes through keeps the clock below its end. -/
lemma lt_of_runBatches {s s' : Committer} {batches : List (List Pending)}
    (hne : ∀ batch ∈ batches, batch ≠ []) (h : s.runBatches batches = some s') :
    s.hlc.last.toNat + (s.ledger.newKeys batches.flatten).length < 2 ^ 64 := by
  suffices hclock :
      s'.hlc.last.toNat = s.hlc.last.toNat + (s.ledger.fresh batches.flatten).length by
    rw [← Ledger.length_fresh, ← hclock]
    exact s'.hlc.last.isLt
  induction batches generalizing s with
  | nil =>
    obtain rfl := Option.some.inj h
    rfl
  | cons batch rest ih =>
    rw [runBatches] at h
    cases hbatch : s.commitBatch batch with
    | none => simp [hbatch] at h
    | some s₁ =>
      rw [hbatch] at h
      have hledger := (committed_of_commitBatch (hne batch List.mem_cons_self) hbatch).ledger
      have hclock : s₁.hlc.last.toNat = s.hlc.last.toNat + (s.ledger.fresh batch).length := by
        obtain ⟨⟨s₂, b⟩, hscan, rfl⟩ := Option.map_eq_some_iff.mp hbatch
        exact (clock_of_scan hscan :)
      rw [ih (fun b hb => hne b (List.mem_cons_of_mem _ hb)) h, hledger, hclock,
        List.flatten_cons, Ledger.fresh_append, List.length_append, Nat.add_assoc]

/-- A batch that goes through keeps the clock below its end. -/
lemma lt_of_commitBatch {s s' : Committer} {batch : List Pending} (hne : batch ≠ [])
    (h : s.commitBatch batch = some s') :
    s.hlc.last.toNat + (s.ledger.newKeys batch).length < 2 ^ 64 := by
  have hruns : s.runBatches [batch] = some s' := by
    rw [runBatches, h]
    rfl
  have hlt := lt_of_runBatches (fun b hb => List.mem_singleton.mp hb ▸ hne) hruns
  rwa [List.flatten_singleton] at hlt

/-! ## Batching does not matter -/

/-- The requests, one to a batch. -/
def singly (reqs : List Pending) : List (List Pending) := reqs.map fun pw => [pw]

@[simp] lemma flatten_singly (reqs : List Pending) : (singly reqs).flatten = reqs := by
  induction reqs with
  | nil => rfl
  | cons pw rest ih => exact congrArg (pw :: ·) ih

lemma singly_ne_nil (reqs : List Pending) : ∀ batch ∈ singly reqs, batch ≠ [] := by
  intro batch hbatch
  obtain ⟨pw, -, rfl⟩ := List.mem_map.mp hbatch
  exact List.cons_ne_nil pw []

/-- Two committers agree when they differ at most in the order their acks were sent. -/
structure Agree (s₁ s₂ : Committer) : Prop where
  file : s₁.file = s₂.file
  grains : s₁.kv.grains = s₂.kv.grains
  metadata : s₁.kv.metadata = s₂.kv.metadata
  hlc : s₁.hlc = s₂.hlc
  idem : s₁.idem = s₂.idem
  cdc : s₁.cdc = s₂.cdc
  sent : s₁.sent.Perm s₂.sent

/-- A sequence of requests has one effect. -/
lemma Committed.agree {s s₁ s₂ : Committer} {reqs : List Pending} (h₁ : Committed s reqs s₁)
    (h₂ : Committed s reqs s₂) : Agree s₁ s₂ := by
  have hledger : s₁.ledger = s₂.ledger := h₁.ledger.trans h₂.ledger.symm
  have hlast : s₁.hlc.last = s₂.hlc.last := congrArg Ledger.clock hledger
  exact
    { file := h₁.file.trans h₂.file.symm
      grains := h₁.kv.trans h₂.kv.symm
      metadata := by rw [h₁.metadata, h₂.metadata, hlast]
      hlc := HlcOracle.mk.injEq _ _ ▸ hlast
      idem := congrArg Ledger.idem hledger
      cdc := h₁.cdc.trans h₂.cdc.symm
      sent := h₁.sent.trans h₂.sent.symm }

/-- One version for each new key: the records of a sequence of requests, as they are appended
to the file, stored and published. -/
structure OneVersionEach (s : Committer) (reqs : List Pending) (recs : List WalRecord) : Prop where
  /-- No two records carry one key. -/
  nodup : (recs.map WalRecord.idemKey).Nodup
  /-- The keys recorded are the requested ones that are new. -/
  keys : ∀ key, key ∈ recs.map WalRecord.idemKey ↔
    key ∈ reqs.map (fun pw => pw.req.idemKey) ∧ s.idem[key]? = none
  /-- Every record is the record of one of the requests. -/
  origin : ∀ r ∈ recs, ∃ pw ∈ reqs, r = pw.req.record r.seq
  /-- The timestamps are the ones that follow the clock, in order. -/
  seqs : recs.map (fun r => r.seq.toNat) = List.range' (s.hlc.last.toNat + 1) recs.length

lemma oneVersionEach_records {s : Committer} {reqs : List Pending}
    (hlt : s.hlc.last.toNat + (s.ledger.newKeys reqs).length < 2 ^ 64) :
    OneVersionEach s reqs (s.ledger.records reqs) := by
  have hkeys : (s.ledger.records reqs).map WalRecord.idemKey =
      (s.ledger.fresh reqs).map fun a => a.1.req.idemKey := by
    simp [Ledger.records, recordsOf, WriteReq.record]
  constructor
  · rw [hkeys]
    exact Ledger.nodup_fresh_keys
  · intro key
    rw [hkeys]
    exact Ledger.mem_fresh_keys
  · intro r hr
    obtain ⟨a, ha, rfl⟩ := List.mem_map.mp hr
    refine ⟨a.1, ?_, rfl⟩
    exact Ledger.fst_mem_of_mem_fresh ha
  · have hseqs := Ledger.seqs_fresh (l := s.ledger) hlt
    rw [← Ledger.length_fresh] at hseqs
    simpa [Ledger.records, recordsOf, WriteReq.record, Function.comp_def] using hseqs

/-- Group commit is one-at-a-time commit.  While the clock stays below its end, every split of
a sequence of requests into non-empty batches leaves the same file, KV, dedup map, clock,
change stream and acks as taking the requests singly; and what is appended, stored and
published is one record for each distinct new key, numbered on from the clock, in one order. -/
theorem runBatches_eq_single (s : Committer) (batches : List (List Pending))
    (hne : ∀ batch ∈ batches, batch ≠ [])
    (hlt : s.hlc.last.toNat + (s.ledger.newKeys batches.flatten).length < 2 ^ 64) :
    ∃ s₁ s₂, s.runBatches batches = some s₁ ∧
      s.runBatches (singly batches.flatten) = some s₂ ∧ Agree s₁ s₂ ∧
      (∃ answers : List (Pending × U64), answers.map Prod.fst = batches.flatten ∧
        s₁.sent.Perm (s.sent ++ answers.map fun a => (a.1, .ok a.2))) ∧
      ∃ recs, OneVersionEach s batches.flatten recs ∧
        s₁.file = s.file ++ recs.flatMap encodeFrame ∧
        s₁.kv.grains = recs.foldl (fun g r => g.insert r.key r.value) s.kv.grains ∧
        s₁.cdc = (recs.map WalRecord.cdc).foldl CdcPublisher.publish s.cdc := by
  obtain ⟨s₁, hs₁⟩ := exists_runBatches hne hlt
  obtain ⟨s₂, hs₂⟩ := exists_runBatches (singly_ne_nil batches.flatten)
    (by rwa [flatten_singly])
  have h₁ := committed_of_runBatches hne hs₁
  have h₂ := committed_of_runBatches (singly_ne_nil batches.flatten) hs₂
  rw [flatten_singly] at h₂
  refine ⟨s₁, s₂, hs₁, hs₂, h₁.agree h₂, ?_, ?_⟩
  · exact ⟨_, Ledger.map_fst_answers, h₁.sent⟩
  · exact ⟨_, oneVersionEach_records hlt, h₁.file, h₁.kv, h₁.cdc⟩

/-- Three requests in two batches, the second repeating the first within its batch, and the
third a key that is on record. -/
theorem runBatches_eq_single_repeats :
    let s : Committer :=
      { file := [], tail := [], kv := MemKv.new, hlc := ⟨5⟩, idem := (∅ : IdemMap).insert 9 4
        healthy := true, cdc := CdcPublisher.new.subscribe, sent := [] }
    let batches : List (List Pending) :=
      [[⟨0, .put 1 1 [10] 0 0 7⟩, ⟨1, .put 2 1 [20] 0 0 7⟩], [⟨2, .delete 1 1 0 0 9⟩]]
    ∃ s₁ s₂, s.runBatches batches = some s₁ ∧
      s.runBatches (singly batches.flatten) = some s₂ ∧ Agree s₁ s₂ := by
  intro s batches
  obtain ⟨s₁, s₂, h₁, h₂, h, -⟩ := runBatches_eq_single s batches (by decide) (by decide)
  exact ⟨s₁, s₂, h₁, h₂, h⟩

end Committer

end GrainStore
