import Mathlib
import GrainStore.Engine.LogStore

/-!
# Batches of writes

The committer takes the requests that wait for it in one batch: it writes and syncs them together,
and then answers all of them.  `TruthStore.commitBatch` does to a batch what `TruthStore.commit` does
to one request (`commitBatch_singleton`).

`Shows.commitBatch` is what a batch of new keys does to the log: it is added as a whole, or not at
all.
-/

namespace GrainStore

open FixedWidth

/-! ## New keys -/

namespace Ledger

variable {l : Ledger} {reqs : List Pending}

/-- Requests of new keys, no two of them the same, are all given a timestamp. -/
lemma fresh_of_new (hnew : ∀ pw ∈ reqs, l.idem[pw.req.idemKey]? = none)
    (hnodup : (reqs.map fun pw => pw.req.idemKey).Nodup) :
    (l.fresh reqs).map Prod.fst = reqs ∧ l.repeats reqs = [] := by
  induction reqs generalizing l with
  | nil => exact ⟨rfl, rfl⟩
  | cons pw rest ih =>
    have hpw := hnew pw List.mem_cons_self
    obtain ⟨hhead, hrest⟩ := List.nodup_cons.mp hnodup
    obtain ⟨hfresh, hrepeats⟩ := ih (l := l.assign pw.req.idemKey)
      (fun pw' hpw' => idem_assign_eq_none_iff.mpr
        ⟨hnew pw' (List.mem_cons_of_mem _ hpw'), fun heq =>
          hhead (List.mem_map.mpr ⟨pw', hpw', heq⟩)⟩) hrest
    rw [fresh_cons_of_none hpw, repeats_cons_of_none hpw, List.map_cons, hfresh, hrepeats]
    exact ⟨rfl, rfl⟩

end Ledger

namespace TruthStore

/-! ## Committing a batch -/

/-- The requests of a batch, each with a channel of its own. -/
def pendings (t : TruthStore) (reqs : List WriteReq) : List Pending :=
  reqs.mapIdx fun i req => ⟨t.committer.sent.length + i, req⟩

/-- What the callers of a batch are told. -/
def answers (t : TruthStore) (s : Committer) (batch : List Pending) : List (Except Error U64) :=
  batch.map fun pw => ((s.sent.drop t.committer.sent.length).lookup pw).getD (.error .closed)

/-- Durably commit the writes of one batch. -/
def commitBatch (t : TruthStore) (reqs : List WriteReq) (failure : Option (IoError × ℕ)) :
    TruthStore × List (Except Error U64) :=
  let batch := t.pendings reqs
  if t.running then
    match t.committer.scan (Batch.start t.committer.hlc.now) batch with
    | none => ({ t with running := false }, batch.map fun _ => .error .closed)
    | some (s, b) =>
      match failure with
      | none => (⟨s.finish b, true⟩, t.answers (s.finish b) batch)
      | some (e, written) =>
        if b.buf = [] then (⟨s.finish b, true⟩, t.answers (s.finish b) batch)
        else (⟨s.failBatch b e written, false⟩, t.answers (s.failBatch b e written) batch)
  else (t, batch.map fun _ => .error .closed)

variable {disk : Bytes} {t : TruthStore} {s : LogStore} {reqs : List WriteReq}

lemma map_req_pendings (t : TruthStore) (reqs : List WriteReq) :
    (t.pendings reqs).map Pending.req = reqs := by
  refine List.ext_getElem (by simp [pendings]) ?_
  intro i _ _
  simp [pendings]

lemma pendings_ne_nil (hne : reqs ≠ []) : t.pendings reqs ≠ [] := by
  rw [← List.length_pos_iff] at hne ⊢
  simpa [pendings] using hne

/-- A caller is told what was sent to it. -/
lemma exists_of_mem_answers {s : Committer} {batch : List Pending}
    {sent : List (Pending × Except Error U64)} (hsent : s.sent = t.committer.sent ++ sent)
    (hall : batch ⊆ sent.map Prod.fst) {a : Except Error U64} (ha : a ∈ t.answers s batch) :
    ∃ p ∈ sent, a = p.2 := by
  obtain ⟨pw, hpw, rfl⟩ := List.mem_map.mp ha
  rw [hsent, List.drop_left]
  cases hlookup : sent.lookup pw with
  | none =>
    obtain ⟨p, hp, rfl⟩ := List.mem_map.mp (hall hpw)
    exact absurd (List.lookup_eq_none_iff.mp hlookup p hp) (by simp)
  | some a =>
    obtain ⟨l₁, l₂, rfl, -⟩ := List.lookup_eq_some_iff.mp hlookup
    exact ⟨(pw, a), by simp, rfl⟩

/-- Nothing is written for a key that is stored, or by a committer that has ended. -/
lemma commit_of_not_new {req : WriteReq}
    (h : ¬(t.running ∧ t.committer.idem[req.idemKey]? = none))
    (failure : Option (IoError × ℕ)) : t.commit req failure = t.commit req none := by
  unfold commit
  by_cases hrun : t.running
  · rw [if_pos hrun, if_pos hrun]
    cases hkey : t.committer.idem[req.idemKey]? with
    | none => exact absurd ⟨hrun, hkey⟩ h
    | some orig =>
      have hkey' : t.committer.idem[(Pending.mk t.committer.sent.length req).req.idemKey]? =
          some orig := hkey
      rw [Committer.scan, Committer.scanReq_of_some hkey']
      cases failure with
      | none => rfl
      | some f => exact if_pos rfl
  · rw [if_neg hrun, if_neg hrun]

/-- A batch of one request is a commit of it. -/
theorem commitBatch_singleton (t : TruthStore) (req : WriteReq)
    (failure : Option (IoError × ℕ)) :
    t.commitBatch [req] failure = ((t.commit req failure).1, [(t.commit req failure).2]) := by
  have hpendings : t.pendings [req] = [⟨t.committer.sent.length, req⟩] := rfl
  unfold commitBatch commit
  rw [hpendings]
  dsimp only
  by_cases hrun : t.running
  · rw [if_pos hrun, if_pos hrun]
    cases hscan : t.committer.scan (Batch.start t.committer.hlc.now)
        [⟨t.committer.sent.length, req⟩] with
    | none => rfl
    | some p =>
      obtain ⟨s, b⟩ := p
      obtain ⟨s₁, b₁, hreq, hrest⟩ := Committer.exists_of_scan_cons hscan
      obtain ⟨rfl, rfl⟩ := Prod.mk.inj (Option.some.inj hrest)
      -- the one request is answered in the scan or at the end of its batch
      have hfinish : t.answers (s₁.finish b₁) [⟨t.committer.sent.length, req⟩] =
          [answer (s₁.finish b₁)] := by
        rcases Committer.scanReq_cases hreq with ⟨orig, -, rfl, rfl⟩ | ⟨-, -, rfl, rfl⟩
        · simp [answers, answer, Committer.finish, Committer.sync, Committer.applyBatch,
            Committer.publishBatch, Committer.ackBatch, Batch.start]
        · simp [answers, answer, Committer.finish, Committer.sync, Committer.applyBatch,
            Committer.publishBatch, Committer.ackBatch]
      cases failure with
      | none =>
        dsimp only
        rw [hfinish]
      | some f =>
        dsimp only
        by_cases hbuf : b₁.buf = []
        · rw [if_pos hbuf, if_pos hbuf, hfinish]
        · rw [if_neg hbuf, if_neg hbuf]
          have hfail : t.answers (s₁.failBatch b₁ f.1 f.2) [⟨t.committer.sent.length, req⟩] =
              [answer (s₁.failBatch b₁ f.1 f.2)] := by
            rcases Committer.scanReq_cases hreq with ⟨orig, -, rfl, rfl⟩ | ⟨-, -, rfl, rfl⟩
            · exact absurd rfl hbuf
            · simp [answers, answer, Committer.failBatch]
          rw [hfail]
  · rw [if_neg hrun, if_neg hrun]
    rfl

/-! ## What a batch does -/

/-- A batch that the scan goes through represents its records. -/
lemma Shows.finish (h : t.Shows disk s) (hrun : s.running = true) {batch : List Pending}
    (hne : batch ≠ []) {s₁ : Committer} {b : Batch}
    (hscan : t.committer.scan (Batch.start t.committer.hlc.now) batch = some (s₁, b)) :
    WalLog.Extends s.log ((Ledger.ofLog s.log).records batch) ∧
      (⟨s₁.finish b, true⟩ : TruthStore).Shows disk
        { s with added := s.added ++ (Ledger.ofLog s.log).records batch } := by
  have hledger : t.committer.ledger = Ledger.ofLog s.log := by
    rw [Committer.ledger, h.idem hrun, h.clock hrun, Ledger.ofLog]
  have hcommit : t.committer.commitBatch batch = some (s₁.finish b) := by
    rw [Committer.commitBatch, hscan, Option.map_some]
  have hcommitted := Committer.committed_of_commitBatch hne hcommit
  -- the scan has found a timestamp for each of them
  have hroom : (WalLog.clock s.log).toNat + ((Ledger.ofLog s.log).newKeys batch).length <
      2 ^ 64 := by
    have hclock := Committer.clock_of_scan hscan
    rw [hledger, Ledger.length_fresh, h.clock hrun] at hclock
    exact hclock ▸ s₁.hlc.last.isLt
  have hext := (Ledger.records_ofLog hroom).1
  have hafter := Ledger.after_ofLog hroom
  have hlog : ({ s with added := s.added ++ (Ledger.ofLog s.log).records batch } : LogStore).log =
      s.log ++ (Ledger.ofLog s.log).records batch := (List.append_assoc _ _ _).symm
  have hend : (s₁.finish b).ledger = Ledger.ofLog (s.log ++ (Ledger.ofLog s.log).records batch) := by
    rw [hcommitted.ledger, hledger, hafter]
  have hlast : (s₁.finish b).hlc.last =
      WalLog.clock (s.log ++ (Ledger.ofLog s.log).records batch) := congrArg Ledger.clock hend
  refine ⟨hext, ⟨h.base, hrun.symm, ?_, fun _ => hcommitted.tail.trans (h.tail hrun), ?_, ?_,
    h.grown.append hext, ?_, fun _ => ?_, fun _ => ?_⟩⟩
  · rw [hcommitted.file, hledger, h.file, List.flatMap_append, List.append_assoc]
  · rw [hlog, hcommitted.kv, hledger, h.grains, ← WalLog.grains_append]
  · rw [hcommitted.cdc, hledger, h.cdc]
    generalize (Ledger.ofLog s.log).records batch = recs
    generalize s.added = added
    induction recs generalizing added with
    | nil => rw [List.append_nil]; rfl
    | cons r recs ih =>
      rw [List.map_cons, List.foldl_cons, List.append_cons, ← ih, List.map_append,
        List.map_singleton]
      rfl
  · rw [hlog]
    exact hlast.ge
  · rw [hlog]
    exact congrArg Ledger.idem hend
  · rw [hlog]
    exact hlast

/-- A write that fails ends the store. -/
lemma Shows.failBatch (h : t.Shows disk s) {batch : List Pending} {s₁ : Committer} {b : Batch}
    (hscan : t.committer.scan (Batch.start t.committer.hlc.now) batch = some (s₁, b)) (e : IoError)
    (written : ℕ) :
    (⟨s₁.failBatch b e written, false⟩ : TruthStore).Shows disk { s with running := false } := by
  have hclock := Committer.clock_of_scan hscan
  obtain ⟨hs₁, -, -⟩ := Committer.scan_eq_some hscan rfl
  have hle : WalLog.clock s.log ≤ s₁.hlc.last := by
    refine h.clock_le.trans (BitVec.le_def.mpr ?_)
    rw [hclock]
    exact Nat.le_add_right _ _
  refine ⟨h.base, rfl, ?_, nofun, ?_, ?_, h.grown, hle, nofun, nofun⟩
  · exact (congrArg Committer.file hs₁).trans h.file
  · exact (congrArg (fun c => c.kv.grains) hs₁).trans h.grains
  · exact (congrArg Committer.cdc hs₁).trans h.cdc

/-- Whatever is in a batch, the store shows some log behind it, with all that was in the log. -/
theorem Shows.exists_commitBatch (h : t.Shows disk s) (hne : reqs ≠ [])
    (failure : Option (IoError × ℕ)) :
    ∃ s', (t.commitBatch reqs failure).1.Shows disk s' ∧ s.added <+: s'.added := by
  unfold TruthStore.commitBatch
  dsimp only
  by_cases hrunning : t.running
  swap
  · rw [if_neg hrunning]
    exact ⟨s, h, List.prefix_rfl⟩
  rw [if_pos hrunning]
  have hrun : s.running = true := h.running ▸ hrunning
  cases hscan : t.committer.scan (Batch.start t.committer.hlc.now) (t.pendings reqs) with
  | none =>
    exact ⟨{ s with running := false },
      ⟨h.base, rfl, h.file, nofun, h.grains, h.cdc, h.grown, h.clock_le, nofun, nofun⟩,
      List.prefix_rfl⟩
  | some p =>
    obtain ⟨s₁, b⟩ := p
    have hfinish := h.finish hrun (pendings_ne_nil hne) hscan
    dsimp only
    cases failure with
    | none => exact ⟨_, hfinish.2, List.prefix_append _ _⟩
    | some f =>
      dsimp only
      split
      · exact ⟨_, hfinish.2, List.prefix_append _ _⟩
      · exact ⟨_, h.failBatch hscan f.1 f.2, List.prefix_rfl⟩

/-- What the scan of a batch of new keys collects and answers. -/
lemma scan_of_new (h : t.Shows disk s) (hrun : s.running = true)
    (hnew : ∀ req ∈ reqs, (WalLog.idem s.log)[req.idemKey]? = none)
    (hnodup : (reqs.map WriteReq.idemKey).Nodup) {s₁ : Committer} {b : Batch}
    (hscan : t.committer.scan (Batch.start t.committer.hlc.now) (t.pendings reqs) =
      some (s₁, b)) :
    s₁.sent = t.committer.sent ∧ b.acks = (Ledger.ofLog s.log).fresh (t.pendings reqs) ∧
      b.acks.map Prod.fst = t.pendings reqs := by
  have hledger : t.committer.ledger = Ledger.ofLog s.log := by
    rw [Committer.ledger, h.idem hrun, h.clock hrun, Ledger.ofLog]
  have hkeys : (t.pendings reqs).map (fun pw => pw.req.idemKey) = reqs.map WriteReq.idemKey := by
    conv_rhs => rw [← map_req_pendings t reqs, List.map_map]
    rfl
  have hnone : ∀ pw ∈ t.pendings reqs, (Ledger.ofLog s.log).idem[pw.req.idemKey]? = none := by
    intro pw hpw
    have hmem := List.mem_map_of_mem (f := Pending.req) hpw
    rw [map_req_pendings] at hmem
    exact hnew _ hmem
  obtain ⟨hfresh, hrepeats⟩ := Ledger.fresh_of_new hnone (hkeys ▸ hnodup)
  obtain ⟨hs₁, hacks, -⟩ := Committer.scan_eq_some hscan rfl
  rw [hledger, Batch.acks_start, List.nil_append] at hacks
  refine ⟨?_, hacks, hacks ▸ hfresh⟩
  rw [hs₁, hledger, hrepeats]
  exact List.append_nil _

/-- A batch of new keys, no two of them the same, is added to the log as a whole, and its callers
are told so; or nothing is added, the store ends, and they are all given an error. -/
theorem Shows.commitBatch (h : t.Shows disk s) (hne : reqs ≠ [])
    (hnew : ∀ req ∈ reqs, (WalLog.idem s.log)[req.idemKey]? = none)
    (hnodup : (reqs.map WriteReq.idemKey).Nodup) (failure : Option (IoError × ℕ)) :
    (∃ recs, WalLog.Extends s.log recs ∧
      List.Forall₂ (fun req r => r = req.record r.seq) reqs recs ∧
      (t.commitBatch reqs failure).1.Shows disk { s with added := s.added ++ recs } ∧
      ∀ a ∈ (t.commitBatch reqs failure).2, ∃ seq, a = .ok seq) ∨
    (t.commitBatch reqs failure).1.Shows disk { s with running := false } ∧
      ∀ a ∈ (t.commitBatch reqs failure).2, ∃ e, a = .error e := by
  have hclosed : ∀ a ∈ (t.pendings reqs).map fun _ => (.error .closed : Except Error U64),
      ∃ e, a = .error e := by
    intro a ha
    obtain ⟨-, -, rfl⟩ := List.mem_map.mp ha
    exact ⟨_, rfl⟩
  unfold TruthStore.commitBatch
  dsimp only
  by_cases hrunning : t.running
  swap
  · rw [if_neg hrunning]
    have hrun : s.running = false := by rw [← h.running]; exact Bool.eq_false_iff.mpr hrunning
    have hsame : { s with running := false } = s := by rw [← hrun]
    exact Or.inr ⟨hsame.symm ▸ h, hclosed⟩
  rw [if_pos hrunning]
  have hrun : s.running = true := h.running ▸ hrunning
  cases hscan : t.committer.scan (Batch.start t.committer.hlc.now) (t.pendings reqs) with
  | none =>
    exact Or.inr ⟨⟨h.base, rfl, h.file, nofun, h.grains, h.cdc, h.grown, h.clock_le, nofun, nofun⟩,
      hclosed⟩
  | some p =>
    obtain ⟨s₁, b⟩ := p
    have hbatch := pendings_ne_nil (t := t) hne
    obtain ⟨hsent, hacks, hfst⟩ := scan_of_new h hrun hnew hnodup hscan
    have hmap : ∀ f : Pending × U64 → Except Error U64,
        t.pendings reqs ⊆ (b.acks.map fun a => (a.1, f a)).map Prod.fst := by
      intro f
      rw [List.map_map, ← hfst]
      exact List.Subset.refl _
    dsimp only
    cases failure with
    | none =>
      obtain ⟨hext, hshows⟩ := h.finish hrun hbatch hscan
      refine Or.inl ⟨_, hext, ?_, hshows, fun a ha => ?_⟩
      · have hreqs : reqs = b.acks.map fun a => a.1.req := by
          rw [← map_req_pendings t reqs, ← hfst, List.map_map]
          rfl
        have hrecs : (Ledger.ofLog s.log).records (t.pendings reqs) =
            b.acks.map fun a => a.1.req.record a.2 := by rw [Ledger.records, ← hacks, recordsOf]
        rw [hrecs]
        conv_lhs => rw [hreqs]
        rw [List.forall₂_map_left_iff, List.forall₂_map_right_iff]
        exact List.forall₂_same.mpr fun _ _ => rfl
      · have hfinish : (s₁.finish b).sent = t.committer.sent ++ b.acks.map fun a => (a.1, .ok a.2) := by
          simp [Committer.finish, Committer.sync, Committer.applyBatch, Committer.publishBatch,
            Committer.ackBatch, hsent]
        obtain ⟨p, hp, rfl⟩ := exists_of_mem_answers hfinish (hmap _) ha
        obtain ⟨a, -, rfl⟩ := List.mem_map.mp hp
        exact ⟨a.2, rfl⟩
    | some f =>
      obtain ⟨e, written⟩ := f
      have hbuf : b.buf ≠ [] := by
        have hne' : (recordsOf b.acks) ≠ [] := by
          intro hnil
          rw [recordsOf, List.map_eq_nil_iff] at hnil
          rw [hnil, List.map_nil] at hfst
          exact hbatch hfst.symm
        obtain ⟨r, recs, hrecs⟩ := List.exists_cons_of_ne_nil hne'
        rw [b.buf_eq, hrecs, List.flatMap_cons]
        refine List.ne_nil_of_length_pos ?_
        rw [List.length_append, length_encodeFrame]
        omega
      dsimp only
      rw [if_neg hbuf]
      refine Or.inr ⟨h.failBatch hscan e written, fun a ha => ?_⟩
      have hfail : (s₁.failBatch b e written).sent =
          t.committer.sent ++ b.acks.map fun a => (a.1, .error (.io e)) := by
        simp [Committer.failBatch, hsent]
      obtain ⟨p, hp, rfl⟩ := exists_of_mem_answers hfail (hmap _) ha
      obtain ⟨a, -, rfl⟩ := List.mem_map.mp hp
      exact ⟨.io e, rfl⟩

end TruthStore

end GrainStore
