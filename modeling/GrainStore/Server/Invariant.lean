import Mathlib
import GrainStore.Server.Handle

/-!
# What the daemon keeps

A sid is the idempotency key of its record, so of all records loaded with it one is stored, once and
for all (`Once`).  No request under way can therefore see a record change, and no two workers of the
materializer ever apply changes of the same sid.

`Service.Good` is the invariant of the daemon, whatever its threads and workers do in between:
everything a thread has in hand, everything that was answered and everything in the index is about a
record of the log.  `Good.step` says that every step keeps it, and that the log only grows.
-/

namespace GrainStore

open FixedWidth

/-! ## The log -/

/-- Every record's idempotency key is in the dedup map. -/
lemma WalLog.exists_idem_of_mem {log : List WalRecord} {w : WalRecord} (h : w ∈ log) :
    ∃ seq, (WalLog.idem log)[w.idemKey]? = some seq := by
  induction log using List.reverseRecOn with
  | nil => cases h
  | append_singleton log w' ih =>
    rw [WalLog.idem_concat, Std.ExtTreeMap.getElem?_insertIfNew]
    split
    · exact ⟨_, rfl⟩
    · rename_i hne
      rcases List.mem_append.mp h with h | h
      · exact ih h
      · obtain rfl := List.mem_singleton.mp h
        rw [not_and, not_not, Std.ExtTreeMap.mem_iff_isSome_getElem?] at hne
        exact Option.isSome_iff_exists.mp (hne Std.ReflCmp.compare_self)

/-- A log of some of the records submitted, one for each sid. -/
structure Once (recs : List GrainRec) (log : List WalRecord) : Prop where
  origin : ∀ w ∈ log, ∃ g ∈ recs, ∃ seq, w = g.req.record seq
  nodup : (log.map WalRecord.sid).Nodup

section Once

variable {recs recs' : List GrainRec} {log : List WalRecord} {w w' : WalRecord}

lemma once_nil (recs : List GrainRec) : Once recs [] := ⟨nofun, List.nodup_nil⟩

lemma Once.mono (h : Once recs log) (hsub : recs ⊆ recs') : Once recs' log := by
  refine ⟨?_, h.nodup⟩
  intro w hw
  obtain ⟨g, hg, seq, rfl⟩ := h.origin w hw
  exact ⟨g, hsub hg, seq, rfl⟩

/-- There is one record for each sid. -/
lemma Once.eq_of_sid (h : Once recs log) (hw : w ∈ log) (hw' : w' ∈ log) (hsid : w.sid = w'.sid) :
    w = w' := List.inj_on_of_nodup_map h.nodup hw hw' hsid

/-- Every record is a put under its sid. -/
lemma Once.fields (h : Once recs log) (hw : w ∈ log) :
    w.pred = PRED ∧ w.idemKey = w.sid ∧ WalLog.grainOf w =
      some ⟨w.sid, PRED, .bytes w.val, w.c, w.tValid, w.seq⟩ := by
  obtain ⟨g, -, seq, rfl⟩ := h.origin w hw
  exact ⟨rfl, rfl, rfl⟩

/-- A record is read back under its sid. -/
lemma Once.read {s : LogStore} (h : Once recs s.log) (hw : w ∈ s.log) :
    s.read w.sid PRED = some ⟨w.sid, PRED, .bytes w.val, w.c, w.tValid, w.seq⟩ := by
  cases hnewest : WalLog.newest s.log w.sid PRED with
  | none =>
    refine absurd ?_ (WalLog.visible_eq_none_iff.mp hnewest w hw)
    exact ⟨rfl, (h.fields hw).1, WalLog.seq_le_clock hw⟩
  | some w' =>
    obtain ⟨hw', hsid, -⟩ := WalLog.mem_of_newest hnewest
    obtain rfl := h.eq_of_sid hw' hw hsid
    rw [LogStore.read, hnewest, Option.bind_some, (h.fields hw).2.2]

/-- What is read is a record. -/
lemma LogStore.exists_of_read {s : LogStore} {sid : Sid} {pred : PredId} {g : Grain}
    (h : s.read sid pred = some g) : ∃ w ∈ s.log, w.sid = sid ∧ WalLog.grainOf w = some g := by
  obtain ⟨w, hw, hg⟩ := Option.bind_eq_some_iff.mp h
  obtain ⟨hmem, hsid, -⟩ := WalLog.mem_of_newest hw
  exact ⟨w, hmem, hsid, hg⟩

/-- The records of new sids can be added. -/
lemma Once.append (h : Once recs log) {added : List GrainRec} (hsub : added ⊆ recs)
    (hnew : ∀ g ∈ added, (WalLog.idem log)[g.req.idemKey]? = none)
    (hnodup : (added.map GrainRec.sid).Nodup) {ws : List WalRecord}
    (hws : List.Forall₂ (fun req w => w = req.record w.seq) (added.map GrainRec.req) ws) :
    Once recs (log ++ ws) ∧ ∀ g ∈ added, ∃ w ∈ ws, w.sid = g.sid.setWidth 128 := by
  rw [List.forall₂_map_left_iff] at hws
  have hsids : ws.map WalRecord.sid = (added.map GrainRec.sid).map (BitVec.setWidth 128) := by
    clear hsub hnew hnodup
    induction hws with
    | nil => rfl
    | cons hw _ ih =>
      rw [List.map_cons, List.map_cons, List.map_cons, ← ih, hw]
      rfl
  have horigin : ∀ w ∈ ws, ∃ g ∈ added, ∃ seq, w = g.req.record seq := by
    clear hsub hnew hnodup hsids
    induction hws with
    | nil => exact nofun
    | @cons g w _ _ hw _ ih =>
      intro w' hw'
      rcases List.mem_cons.mp hw' with rfl | hw'
      · exact ⟨g, List.mem_cons_self, _, hw⟩
      · obtain ⟨g', hg', hseq⟩ := ih w' hw'
        exact ⟨g', List.mem_cons_of_mem _ hg', hseq⟩
  refine ⟨⟨fun w hw => ?_, ?_⟩, fun g hg => ?_⟩
  · rcases List.mem_append.mp hw with hw | hw
    · exact h.origin w hw
    · obtain ⟨g, hg, hseq⟩ := horigin w hw
      exact ⟨g, hsub hg, hseq⟩
  · rw [List.map_append]
    refine List.nodup_append.mpr ⟨h.nodup, ?_, fun sid hsid sid' hsid' heq => ?_⟩
    · rw [hsids]
      exact hnodup.map fun _ _ => Store.setWidth_inj.mp
    · obtain ⟨w, hw, rfl⟩ := List.mem_map.mp hsid
      obtain ⟨w', hw', rfl⟩ := List.mem_map.mp hsid'
      obtain ⟨g, hg, seq, rfl⟩ := horigin w' hw'
      obtain ⟨seq', hseq'⟩ := WalLog.exists_idem_of_mem hw
      rw [(h.fields hw).2.1, heq] at hseq'
      have hkey : g.req.idemKey = (g.req.record seq).sid := rfl
      rw [← hkey, hnew g hg] at hseq'
      cases hseq'
  · have hmem : g.sid.setWidth 128 ∈ ws.map WalRecord.sid := by
      rw [hsids]
      exact List.mem_map_of_mem (List.mem_map_of_mem hg)
    obtain ⟨w, hw, hsid⟩ := List.mem_map.mp hmem
    exact ⟨w, hw, hsid⟩

end Once

/-! ## Rows -/

/-- What a row says of a record. -/
def QueryHit.content {D : Type*} (h : QueryHit D) : Byte × Int64 × String :=
  (h.category, h.amount, h.text)

/-- A row is within the filter of a query. -/
def QueryArgs.admits {D : Type*} (args : QueryArgs) (h : QueryHit D) : Prop :=
  (∀ c ∈ args.category, h.category = c) ∧ (∀ lo ∈ args.minAmount, lo ≤ h.amount) ∧
    ∀ hi ∈ args.maxAmount, h.amount ≤ hi

namespace Service

variable {I V D : Type*} [LinearOrder D] {b : Backend I V D} {dist : V → V → D} {route : Sid → ℕ}
  {Holds : I → VectorMap V → Prop} {recs recs' : List GrainRec} {log log' : List WalRecord}

section Definitions

variable (b : Backend I V D) (dist : V → V → D) (log : List WalRecord)

/-- There is a record behind a candidate. -/
def Found (q : V) (c : Candidate D) : Prop :=
  ∃ w ∈ log, w.sid = c.sid ∧ ∃ v, b.embed w.val = some v ∧ c.dist = dist q v

/-- There is a record behind a joined candidate, and it is within the filter. -/
def Joined (args : QueryArgs) (r : Ranked D) : Prop :=
  ∃ w ∈ log, WalLog.grainOf w = some r.grain ∧ args.passes r.grain ∧
    ∃ v, b.embed w.val = some v ∧ r.dist = dist (b.embedText args.text) v

/-- What a query has in hand is in the log, and what a load has in hand was submitted. -/
def ThreadOk (route : Sid → ℕ) (recs : List GrainRec) : Thread D → Prop
  | .loading _ rest _ => rest ⊆ recs
  | .committing _ _ rest _ => rest ⊆ recs
  | .searching args found => found.length = b.index.parts ∧ ∀ p part, found[p]? = some (some part) →
    (part.map Candidate.sid).Nodup ∧
      ∀ c ∈ part, route c.sid = p ∧ Found b dist log (b.embedText args.text) c
  | .joining args rest out =>
    (out.map (fun r => r.grain.sid) ++ rest.map Candidate.sid).Nodup ∧
      (∀ c ∈ rest, Found b dist log (b.embedText args.text) c) ∧ ∀ r ∈ out, Joined b dist log args r
  | _ => True

/-- What a query was answered is in the log. -/
def AnswerOk : Job × Answer D → Prop
  | (.query args, .rows hits) =>
    hits.length ≤ args.k ∧ (hits.map QueryHit.sid).Nodup ∧
      (hits.Pairwise fun a b => a.distance ≤ b.distance) ∧
      ∀ h ∈ hits, (∃ w ∈ log, w.sid = h.sid.setWidth 128 ∧ decodeVal (.bytes w.val) = h.content) ∧
        args.admits h ∧ h.distance = dist (b.embedText args.text) (b.embedText h.text)
  | _ => True

/-- The index has vectors of records in the log only, and those of all records that it was rebuilt
from or that were applied to it. -/
def Indexed (Holds : I → VectorMap V → Prop) (s : LogStore) (applied : List ℕ) (index : I) : Prop :=
  ∃ m, Holds index m ∧
    (∀ sid v, m[sid]? = some v → ∃ w ∈ s.log, w.sid = sid ∧ b.embed w.val = some v) ∧
    (∀ w ∈ s.base, m[w.sid]? = b.embed w.val) ∧
    ∀ i ∈ applied, ∃ w, s.added[i]? = some w ∧ m[w.sid]? = b.embed w.val

/-- The batch of the committer has new records, one for each sid. -/
structure Batched (recs : List GrainRec) (batch : List (ℕ × GrainRec)) : Prop where
  new : ∀ p ∈ batch, p.2 ∈ recs ∧ (WalLog.idem log)[p.2.req.idemKey]? = none
  nodup : (batch.map fun p => p.2.sid).Nodup

/-- The invariant of the daemon. -/
structure Good (route : Sid → ℕ) (Holds : I → VectorMap V → Prop) (recs : List GrainRec)
    (x : Service I D) (disk : Bytes) (s : LogStore) : Prop where
  shows : x.store.engine.truth.Shows disk s
  disk : disk = s.base.flatMap encodeFrame
  once : Once recs s.log
  index : Indexed b Holds s x.applied x.store.engine.index
  batch : Batched s.log recs x.batch
  threads : ∀ t, ThreadOk b dist s.log route recs (x.threads t)
  answered : ∀ a ∈ x.answered, AnswerOk b dist s.log a

end Definitions

/-! ### A growing log -/

omit [LinearOrder D] in
lemma Found.mono (hsub : log ⊆ log') {q : V} {c : Candidate D} (h : Found b dist log q c) :
    Found b dist log' q c := by
  obtain ⟨w, hw, hc⟩ := h
  exact ⟨w, hsub hw, hc⟩

omit [LinearOrder D] in
lemma Joined.mono (hsub : log ⊆ log') {args : QueryArgs} {r : Ranked D}
    (h : Joined b dist log args r) : Joined b dist log' args r := by
  obtain ⟨w, hw, hr⟩ := h
  exact ⟨w, hsub hw, hr⟩

omit [LinearOrder D] in
lemma ThreadOk.mono (hsub : log ⊆ log') (hrecs : recs ⊆ recs') {th : Thread D}
    (h : ThreadOk b dist log route recs th) : ThreadOk b dist log' route recs' th := by
  cases th with
  | idle => trivial
  | gone => trivial
  | loading all rest maxSeq => exact List.Subset.trans h hrecs
  | committing all r rest maxSeq => exact List.Subset.trans h hrecs
  | searching args found =>
    obtain ⟨hlen, hfound⟩ := h
    refine ⟨hlen, fun p part hp => ⟨(hfound p part hp).1, fun c hc => ?_⟩⟩
    obtain ⟨hroute, hc⟩ := (hfound p part hp).2 c hc
    exact ⟨hroute, hc.mono hsub⟩
  | joining args rest out =>
    obtain ⟨hnodup, hrest, hout⟩ := h
    exact ⟨hnodup, fun c hc => (hrest c hc).mono hsub, fun r hr => (hout r hr).mono hsub⟩

lemma AnswerOk.mono (hsub : log ⊆ log') {a : Job × Answer D} (h : AnswerOk b dist log a) :
    AnswerOk b dist log' a := by
  unfold AnswerOk at h ⊢
  split at h
  · obtain ⟨hlen, hnodup, hsorted, hrows⟩ := h
    refine ⟨hlen, hnodup, hsorted, ?_⟩
    intro r hr
    obtain ⟨⟨w, hw, hrow⟩, hrest⟩ := hrows r hr
    exact ⟨⟨w, hsub hw, hrow⟩, hrest⟩
  · trivial

/-! ### Threads -/

variable {x : Service I D} {disk : Bytes} {s : LogStore}

lemma Good.mono (h : Good b dist route Holds recs x disk s) (hsub : recs ⊆ recs') :
    Good b dist route Holds recs' x disk s :=
  ⟨h.shows, h.disk, h.once.mono hsub, h.index, ⟨fun p hp => ⟨hsub (h.batch.new p hp).1,
    (h.batch.new p hp).2⟩, h.batch.nodup⟩, fun t => (h.threads t).mono (List.Subset.refl _) hsub,
    h.answered⟩

/-- A thread goes on to something that is in the log. -/
lemma Good.goto (h : Good b dist route Holds recs x disk s) {t : ℕ} {th : Thread D}
    (hth : ThreadOk b dist s.log route recs th) :
    Good b dist route Holds recs (x.goto t th) disk s := by
  refine ⟨h.shows, h.disk, h.once, h.index, h.batch, ?_, h.answered⟩
  intro t'
  by_cases ht : t' = t
  · subst ht
    have hself : (x.goto t' th).threads t' = th := Function.update_self _ _ _
    rwa [hself]
  · have hother : (x.goto t th).threads t' = x.threads t' := Function.update_of_ne ht _ _
    rw [hother]
    exact h.threads t'

/-- A thread answers what is in the log. -/
lemma Good.answer (h : Good b dist route Holds recs x disk s) {t : ℕ} {job : Job} {a : Answer D}
    (ha : AnswerOk b dist s.log (job, a)) :
    Good b dist route Holds recs (x.answer t job a) disk s := by
  obtain ⟨hshows, hdisk, honce, hindex, hbatch, hthreads, hanswered⟩ := h.goto (t := t)
    (show ThreadOk b dist s.log route recs .idle from trivial)
  refine ⟨hshows, hdisk, honce, hindex, hbatch, hthreads, ?_⟩
  intro p hp
  rcases List.mem_append.mp hp with hp | hp
  · exact hanswered p hp
  · exact List.mem_singleton.mp hp ▸ ha

/-! ### Loading -/

/-- Nothing is added for a key that is stored, or by a store that has ended. -/
lemma commit_eq_self {req : WriteReq} (hnew : ¬(s.running ∧ (WalLog.idem s.log)[req.idemKey]? = none)) :
    (s.commit req none).1 = s := by
  have htakes : ¬s.Takes req := fun h => hnew ⟨h.1, h.2.1⟩
  unfold LogStore.commit
  rw [if_neg htakes]
  split
  · rename_i hrun
    split
    · rfl
    · rename_i hkey
      exact absurd ⟨hrun, hkey⟩ hnew
  · rfl

/-- A record is answered for without being written. -/
lemma Good.repeated (h : Good b dist route Holds recs x disk s) {r : GrainRec}
    (hnew : ¬(x.store.engine.truth.running ∧
      x.store.engine.truth.committer.idem[r.req.idemKey]? = none)) :
    Good b dist route Holds recs (x.withEngine (putRec x.store.engine r none).1) disk s ∧
      ∀ seq, (putRec x.store.engine r none).2 = .ok seq →
        ∃ w ∈ s.log, w.sid = r.sid.setWidth 128 := by
  have hnot : ¬(s.running ∧ (WalLog.idem s.log)[r.req.idemKey]? = none) := by
    rintro ⟨hrun, hkey⟩
    exact hnew ⟨h.shows.running.trans hrun, by rw [h.shows.idem hrun]; exact hkey⟩
  obtain ⟨hshows, hanswer⟩ := h.shows.commit r.req none
  rw [commit_eq_self hnot] at hshows
  refine ⟨⟨hshows, h.disk, h.once, h.index, h.batch, h.threads, h.answered⟩, ?_⟩
  intro seq hseq
  rcases LogStore.commit_of_ok (hanswer.symm.trans hseq) with ⟨htakes, -, -⟩ | ⟨hkey, -⟩
  · exact absurd ⟨htakes.1, htakes.2.1⟩ hnot
  · obtain ⟨w, hw, hidem, -⟩ := WalLog.exists_of_idem hkey
    exact ⟨w, hw, (h.once.fields hw).2.1.symm.trans hidem⟩

/-- The records that a load has still to commit were submitted. -/
lemma Good.loading (h : Good b dist route Holds recs x disk s) {t : ℕ} {all rest : List GrainRec}
    {maxSeq : U64} (hth : x.threads t = .loading all rest maxSeq) : rest ⊆ recs := by
  have hok := h.threads t
  rw [hth] at hok
  exact hok

omit [LinearOrder D] in
lemma ne_of_early {r : GrainRec} (hearly : x.early r = none) : ∀ p ∈ x.batch, p.2.sid ≠ r.sid := by
  rw [early, Option.map_eq_none_iff, List.findIdx?_eq_none_iff] at hearly
  exact fun p hp hsid => absurd (hearly p hp) (by simp [hsid])

/-- The committer takes a record into its batch. -/
lemma Good.scan (h : Good b dist route Holds recs x disk s) {t : ℕ} {all rest : List GrainRec}
    {r : GrainRec} {maxSeq : U64} (hth : x.threads t = .loading all (r :: rest) maxSeq)
    (hrun : x.store.engine.truth.running = true)
    (hkey : x.store.engine.truth.committer.idem[r.req.idemKey]? = none) (hearly : x.early r = none) :
    Good b dist route Holds recs
      { x.goto t (.committing all r rest maxSeq) with batch := x.batch ++ [(t, r)] } disk s := by
  obtain ⟨hr, hrest⟩ := List.cons_subset.mp (h.loading hth)
  obtain ⟨hshows, hdisk, honce, hindex, hbatch, hthreads, hanswered⟩ := h.goto (t := t)
    (show ThreadOk b dist s.log route recs (.committing all r rest maxSeq) from hrest)
  refine ⟨hshows, hdisk, honce, hindex, ⟨fun p hp => ?_, ?_⟩, hthreads, hanswered⟩
  · rcases List.mem_append.mp hp with hp | hp
    · exact hbatch.new p hp
    · obtain rfl := List.mem_singleton.mp hp
      refine ⟨hr, ?_⟩
      rw [← h.shows.idem (h.shows.running.symm.trans hrun)]
      exact hkey
  · rw [List.map_append, List.map_singleton]
    refine List.nodup_append.mpr ⟨hbatch.nodup, List.nodup_singleton _, fun sid hsid sid' hsid' => ?_⟩
    obtain ⟨p, hp, rfl⟩ := List.mem_map.mp hsid
    rw [List.mem_singleton.mp hsid']
    exact ne_of_early hearly p hp

/-- The committer panics. -/
lemma Good.ended (h : Good b dist route Holds recs x disk s) :
    Good b dist route Holds recs (x.withEngine { x.store.engine with
      truth := { x.store.engine.truth with running := false } }) disk { s with running := false } :=
  ⟨⟨h.shows.base, rfl, h.shows.file, nofun, h.shows.grains, h.shows.cdc, h.shows.grown,
    h.shows.clock_le, nofun, nofun⟩, h.disk, h.once, h.index, h.batch, h.threads, h.answered⟩

omit [LinearOrder D] in
/-- The index stays behind a log that grows. -/
lemma Indexed.append {applied : List ℕ} {index : I} (h : Indexed b Holds s applied index)
    (ws : List WalRecord) : Indexed b Holds { s with added := s.added ++ ws } applied index := by
  obtain ⟨m, hm, hsound, hbase, happlied⟩ := h
  refine ⟨m, hm, ?_, hbase, ?_⟩
  · intro sid v hv
    obtain ⟨w, hw, hrest⟩ := hsound sid v hv
    rw [LogStore.log, ← List.append_assoc]
    exact ⟨w, List.mem_append_left _ hw, hrest⟩
  · intro i hi
    obtain ⟨w, hw, hentry⟩ := happlied i hi
    refine ⟨w, ?_, hentry⟩
    rw [List.getElem?_append_left (List.getElem?_eq_some_iff.mp hw).1, hw]

/-- One who waits for the committer is told. -/
lemma Good.ack (h : Good b dist route Holds recs x disk s) (t : ℕ) (a : Except Error U64) :
    Good b dist route Holds recs (x.ack t a) disk s := by
  have hok := h.threads t
  cases hth : x.threads t with
  | committing all r rest maxSeq =>
    rw [ack_of_committing hth]
    rw [hth] at hok
    cases a with
    | ok seq => exact h.goto hok
    | error err => exact h.answer trivial
  | _ =>
    unfold Service.ack
    rw [hth]
    exact h

lemma Good.acks (h : Good b dist route Holds recs x disk s)
    (told : List ((ℕ × GrainRec) × Except Error U64)) :
    Good b dist route Holds recs (x.acks told) disk s := by
  induction told generalizing x with
  | nil => exact h
  | cons p told ih => exact ih (h.ack p.1.1 p.2)

/-- The write of the batch fails, and all who wait for it are told so. -/
def Fails (x : Service I D) (failure : Option (IoError × ℕ)) : Prop :=
  ∀ a ∈ (x.store.engine.truth.commitBatch (x.batch.map fun p => p.2.req) failure).2,
    ∃ e, a = .error e

/-- The batch is written as a whole, or not at all. -/
lemma Good.written (h : Good b dist route Holds recs x disk s) (hne : x.batch ≠ [])
    (failure : Option (IoError × ℕ)) :
    ∃ s', Good b dist route Holds recs (x.written failure) disk s' ∧ s.log ⊆ s'.log ∧
      ((∀ p ∈ x.batch, ∃ w ∈ s'.log, w.sid = p.2.sid.setWidth 128) ∨ x.Fails failure) := by
  have hreqs : (x.batch.map fun p => p.2.req) ≠ [] := by simpa using hne
  have hmap : (x.batch.map fun p => p.2.req) = (x.batch.map Prod.snd).map GrainRec.req := by
    rw [List.map_map]
    rfl
  have hnew : ∀ g ∈ x.batch.map Prod.snd, g ∈ recs ∧ (WalLog.idem s.log)[g.req.idemKey]? = none := by
    intro g hg
    obtain ⟨p, hp, rfl⟩ := List.mem_map.mp hg
    exact h.batch.new p hp
  have hsids : ((x.batch.map Prod.snd).map GrainRec.sid).Nodup := by
    rw [List.map_map]
    exact h.batch.nodup
  have hkeys : ((x.batch.map fun p => p.2.req).map WriteReq.idemKey).Nodup := by
    have hkey : ((x.batch.map Prod.snd).map GrainRec.sid).map (BitVec.setWidth 128) =
        (x.batch.map fun p => p.2.req).map WriteReq.idemKey := by
      rw [List.map_map, List.map_map, List.map_map]
      rfl
    rw [← hkey]
    exact hsids.map fun _ _ => Store.setWidth_inj.mp
  have hempty : ∀ log, Batched log recs ([] : List (ℕ × GrainRec)) := fun log =>
    ⟨nofun, List.nodup_nil⟩
  set committed := x.store.engine.truth.commitBatch (x.batch.map fun p => p.2.req) failure
    with hcommitted
  set y : Service I D := { x.withEngine { x.store.engine with truth := committed.1 } with
    batch := [] } with hy
  have hwritten : x.written failure = y.acks (x.batch.zip committed.2) := rfl
  have hstep := h.shows.commitBatch hreqs (fun req hreq => by
    obtain ⟨p, hp, rfl⟩ := List.mem_map.mp hreq
    exact (h.batch.new p hp).2) hkeys failure
  rw [← hcommitted] at hstep
  rcases hstep with ⟨ws, hext, hws, hshows, -⟩ | ⟨hshows, herror⟩
  · set s' : LogStore := { s with added := s.added ++ ws } with hs'
    have hlog : s'.log = s.log ++ ws := (List.append_assoc _ _ _).symm
    have hsub : s.log ⊆ s'.log := hlog ▸ List.subset_append_left _ _
    rw [hmap] at hws
    obtain ⟨honce, hstored⟩ := h.once.append (fun g hg => (hnew g hg).1) (fun g hg => (hnew g hg).2)
      hsids hws
    rw [← hlog] at honce
    have hgood : Good b dist route Holds recs y disk s' :=
      ⟨hshows, h.disk, honce, h.index.append ws, hempty _,
        fun t => (h.threads t).mono hsub (List.Subset.refl _),
        fun a ha => (h.answered a ha).mono hsub⟩
    refine ⟨s', hwritten ▸ hgood.acks _, hsub, Or.inl fun p hp => ?_⟩
    obtain ⟨w, hw, hsid⟩ := hstored p.2 (List.mem_map_of_mem hp)
    exact ⟨w, hlog ▸ List.mem_append_right _ hw, hsid⟩
  · have hgood : Good b dist route Holds recs y disk { s with running := false } :=
      ⟨hshows, h.disk, h.once, h.index, hempty _, h.threads, h.answered⟩
    exact ⟨{ s with running := false }, hwritten ▸ hgood.acks _, List.Subset.refl _, Or.inr herror⟩

/-! ### Indexing -/

section Indexing

omit [LinearOrder D]

variable (hix : b.index.Lawful dist route Holds)
include hix

/-- A worker applies a change. -/
lemma Indexed.apply (honce : Once recs s.log) {applied : List ℕ} {index : I}
    (h : Indexed b Holds s applied index) {i : ℕ} {w : WalRecord} (hw : s.added[i]? = some w) :
    Indexed b Holds s (i :: applied) (b.index.writer.apply b.embed index w.cdc) := by
  obtain ⟨m, hm, hsound, hbase, happlied⟩ := h
  have hmem : ∀ {i w}, s.added[i]? = some w → w ∈ s.log := fun hi =>
    List.mem_append_right _ (List.mem_of_getElem? hi)
  have heffect : effect b.embed w.cdc = b.embed w.val := by
    obtain ⟨g, -, seq, rfl⟩ := honce.origin w (hmem hw)
    rfl
  -- no other record has the sid of the change
  have hentry : ∀ w' ∈ s.log, m[w'.sid]? = b.embed w'.val →
      (applyChange b.embed m w.cdc)[w'.sid]? = b.embed w'.val := by
    intro w' hw' hold
    rw [getElem?_applyChange]
    split
    · rename_i hsid
      rw [heffect, honce.eq_of_sid (hmem hw) hw' hsid]
    · exact hold
  refine ⟨applyChange b.embed m w.cdc, hix.apply b.embed hm w.cdc, ?_,
    fun w' hw' => hentry w' (List.mem_append_left _ hw') (hbase w' hw'), ?_⟩
  · intro sid v hv
    rw [getElem?_applyChange] at hv
    split at hv
    · rename_i hsid
      exact ⟨w, hmem hw, hsid, heffect.symm.trans hv⟩
    · exact hsound sid v hv
  · intro j hj
    rcases List.mem_cons.mp hj with rfl | hj
    · refine ⟨w, hw, ?_⟩
      rw [getElem?_applyChange]
      exact (if_pos rfl).trans heffect
    · obtain ⟨w', hw', hold⟩ := happlied j hj
      exact ⟨w', hw', hentry w' (hmem hw') hold⟩

/-- Rebuilding an index rebuilds the map it stands for. -/
lemma holds_rebuildFrom {index : I} {m : VectorMap V} (hm : Holds index m) (n : ℕ)
    (live : List Grain) : Holds (GrainEngine.rebuildFrom b.index.writer b.embed index n live).1
      (GrainEngine.rebuildFrom BruteForceIndex.writer b.embed m n live).1 := by
  induction live generalizing index m n with
  | nil => exact hm
  | cons g rest ih =>
    unfold GrainEngine.rebuildFrom
    cases g.val with
    | tombstone => exact ih hm n
    | bytes value =>
      dsimp only
      cases b.embed value with
      | none => exact ih hm n
      | some v => exact ih (hix.insert g.sid v hm) (n + 1)

/-- A daemon that was just started has the vectors of all records. -/
lemma indexed_opened {disk : Bytes} (honce : Once recs (logOf disk)) {store : Store I}
    {restored : ℕ} (hopen : b.openOn disk = .ok (store, restored)) :
    Indexed b Holds (LogStore.opened disk) [] store.engine.index := by
  obtain ⟨live, hlive, hmem, -⟩ := TruthStore.scanLive_ok (TruthStore.shows_start disk).grains
  rw [show (LogStore.opened disk).log = logOf disk from List.append_nil _] at hmem
  have hindex : store.engine.index =
      (GrainEngine.rebuildFrom b.index.writer b.embed b.index.fresh 0 live).1 := by
    have hscan : TruthStore.scanLive
        (GrainEngine.openWith disk b.index.fresh).truth.committer.kv = .ok live := hlive
    unfold Backend.openOn Store.openOn GrainEngine.rebuildIndexFromTruth at hopen
    dsimp only at hopen
    rw [hscan] at hopen
    obtain ⟨rfl, -⟩ := Prod.mk.inj (Except.ok.inj hopen)
    rfl
  -- a live grain is a record, and every record is a live grain
  have hrecord : ∀ g ∈ live, ∃ w ∈ logOf disk, w.sid = g.sid ∧ g.embedding b.embed = b.embed w.val := by
    intro g hg
    obtain ⟨w, hw, hgrain⟩ := Option.bind_eq_some_iff.mp ((hmem g).mp hg)
    obtain ⟨hw, hsid, -⟩ := WalLog.mem_of_newest hw
    rw [(honce.fields hw).2.2] at hgrain
    exact ⟨w, hw, hsid, by rw [← Option.some.inj hgrain]; rfl⟩
  have hgrain : ∀ w ∈ logOf disk, ∃ g ∈ live, g.sid = w.sid ∧ g.embedding b.embed = b.embed w.val := by
    intro w hw
    have hopened : Once recs (LogStore.opened disk).log := by
      rwa [show (LogStore.opened disk).log = logOf disk from List.append_nil _]
    have hread := hopened.read (List.mem_append_left _ hw)
    rw [LogStore.read, show (LogStore.opened disk).log = logOf disk from List.append_nil _] at hread
    exact ⟨⟨w.sid, PRED, .bytes w.val, w.c, w.tValid, w.seq⟩, (hmem _).mpr hread, rfl, rfl⟩
  refine ⟨_, hindex ▸ holds_rebuildFrom hix hix.fresh 0 live, ?_, ?_, ?_⟩
  · intro sid v hv
    rw [getElem?_rebuildFrom, Std.ExtTreeMap.getElem?_empty, Option.or_none,
      Option.bind_eq_some_iff] at hv
    obtain ⟨g, hlast, hv⟩ := hv
    obtain ⟨hg, rfl, -⟩ := mem_embeddable.mp (List.mem_of_getLast? hlast)
    obtain ⟨w, hw, hsid, hembed⟩ := hrecord g hg
    exact ⟨w, List.mem_append_left _ hw, hsid, hembed.symm.trans hv⟩
  · intro w hw
    have hw : w ∈ logOf disk := hw
    rw [getElem?_rebuildFrom, Std.ExtTreeMap.getElem?_empty, Option.or_none]
    cases hlast : (embeddable b.embed w.sid live).getLast? with
    | some g =>
      obtain ⟨hg, hsid, -⟩ := mem_embeddable.mp (List.mem_of_getLast? hlast)
      obtain ⟨w', hw', hsid', hembed⟩ := hrecord g hg
      rw [Option.bind_some, hembed, honce.eq_of_sid hw' hw (hsid'.trans hsid)]
    | none =>
      obtain ⟨g, hg, hsid, hembed⟩ := hgrain w hw
      have hnot : g ∉ embeddable b.embed w.sid live := by
        rw [List.getLast?_eq_none_iff.mp hlast]
        exact List.not_mem_nil
      rw [mem_embeddable, not_and, not_and, not_not] at hnot
      rw [Option.bind_none, ← hembed, hnot hg hsid]
  · intro i hi
    cases hi

end Indexing

section Steps

variable (hix : b.index.Lawful dist route Holds)
include hix

/-- A worker applies a change of the stream. -/
lemma Good.apply (h : Good b dist route Holds recs x disk s) {i : ℕ} {r : CdcRecord}
    (hr : x.store.engine.stream[i]? = some r) :
    Good b dist route Holds recs { x.withEngine { x.store.engine with
      index := b.index.writer.apply b.embed x.store.engine.index r } with
        applied := i :: x.applied } disk s := by
  have hstream : x.store.engine.stream = s.added.map WalRecord.cdc := h.shows.received
  rw [hstream, List.getElem?_map, Option.map_eq_some_iff] at hr
  obtain ⟨w, hw, rfl⟩ := hr
  exact ⟨h.shows, h.disk, h.once, h.index.apply hix h.once hw, h.batch, h.threads, h.answered⟩

/-- The daemon is started on the log file, with nothing of a failed write behind the log. -/
lemma Good.restart (h : Good b dist route Holds recs x disk s) (hfits : ∀ r ∈ recs, Store.Fits r)
    (htail : x.store.engine.truth.committer.tail = []) {store : Store I} {restored : ℕ}
    (hopen : b.openOn x.store.engine.disk = .ok (store, restored)) :
    (LogStore.opened x.store.engine.disk).log = s.log ∧ Good b dist route Holds recs
      { store, applied := [], batch := [], threads := fun _ => .idle, answered := x.answered }
      x.store.engine.disk (LogStore.opened x.store.engine.disk) := by
  have hall : x.store.engine.disk = s.log.flatMap encodeFrame := by
    rw [GrainEngine.disk, htail, List.append_nil, h.shows.file, h.disk, LogStore.log,
      List.flatMap_append]
  have hlog : logOf x.store.engine.disk = s.log := by
    rw [hall, logOf_flatMap fun w hw => ?_]
    obtain ⟨g, hg, seq, rfl⟩ := h.once.origin w hw
    exact hfits g hg
  have hopened : (LogStore.opened x.store.engine.disk).log = s.log :=
    (List.append_nil _).trans hlog
  have hempty : Batched (LogStore.opened x.store.engine.disk).log recs [] :=
    ⟨fun p hp => absurd hp List.not_mem_nil, List.nodup_nil⟩
  refine ⟨hopened, ?_, ?_, by rw [hopened]; exact h.once, ?_, hempty, fun _ => trivial,
    ?_⟩
  · have htruth : store.engine.truth = (TruthStore.start x.store.engine.disk).subscribe :=
      Store.truth_of_openOn hopen
    rw [htruth]
    exact TruthStore.shows_start _
  · rw [LogStore.opened, hlog]
    exact hall
  · exact indexed_opened hix (hlog.symm ▸ h.once) hopen
  · intro a ha
    rw [hopened]
    exact h.answered a ha

/-! ### Queries -/

/-- A part is searched. -/
lemma Good.probe (h : Good b dist route Holds recs x disk s) {t p : ℕ} {args : QueryArgs}
    {found : List (Option (List (Candidate D)))} (hth : x.threads t = .searching args found)
    (hp : found[p]? = some none) (k ef : ℕ) :
    ThreadOk b dist s.log route recs (.searching args (found.set p (some (b.index.probe
      x.store.engine.index p (b.embedText args.text) k ef)))) := by
  have hok := h.threads t
  rw [hth] at hok
  obtain ⟨hlen, hfound⟩ := hok
  obtain ⟨m, hm, hsound, -⟩ := h.index
  have hlt : p < found.length := (List.getElem?_eq_some_iff.mp hp).1
  refine ⟨by rw [List.length_set, hlen], ?_⟩
  intro p' part hpart
  rw [List.getElem?_set] at hpart
  split at hpart
  · rename_i heq
    obtain rfl := heq
    obtain rfl := Option.some.inj (Option.some.inj hpart)
    refine ⟨hix.nodup hm, fun c hc => ⟨hix.routed hm (hlen ▸ hlt) hc, ?_⟩⟩
    obtain ⟨v, hv, hdist⟩ := hix.sound hm hc
    obtain ⟨w, hw, hsid, hembed⟩ := hsound c.sid v hv
    exact ⟨w, hw, hsid, v, hembed, hdist⟩
  · exact hfound p' part hpart

end Steps

/-- All parts are there. -/
lemma exists_map_some {α : Type*} {found : List (Option α)} (hall : found.all Option.isSome) :
    ∃ parts : List α, found = parts.map some := by
  refine ⟨found.filterMap id, ?_⟩
  induction found with
  | nil => rfl
  | cons part found ih =>
    rw [List.all_cons, Bool.and_eq_true] at hall
    obtain ⟨part, rfl⟩ := Option.isSome_iff_exists.mp hall.1
    exact congrArg (some part :: ·) (ih hall.2)

lemma filterMap_id_map_some {α : Type*} (parts : List α) : (parts.map some).filterMap id = parts := by
  rw [List.filterMap_map, Function.id_comp]
  exact List.filterMap_some

/-- The parts are merged. -/
lemma ThreadOk.merge {args : QueryArgs} {found : List (Option (List (Candidate D)))}
    (h : ThreadOk b dist log route recs (.searching args found)) (hall : found.all Option.isSome)
    (k : ℕ) :
    ThreadOk b dist log route recs (.joining args (mergeParts k (found.filterMap id)) []) := by
  obtain ⟨-, hfound⟩ := h
  obtain ⟨parts, rfl⟩ := exists_map_some hall
  have hpart : ∀ {p part}, parts[p]? = some part → (parts.map some)[p]? = some (some part) :=
    fun {p part} hp => by rw [List.getElem?_map, hp]; rfl
  rw [filterMap_id_map_some]
  refine ⟨?_, ?_, fun r hr => by cases hr⟩
  · refine SplitIndex.nodup_mergeParts route k (fun part hmem => ?_) fun p part hp c hc => ?_
    · obtain ⟨p, hp⟩ := List.getElem?_of_mem hmem
      exact (hfound p part (hpart hp)).1
    · exact ((hfound p part (hpart hp)).2 c hc).1
  · intro c hc
    obtain ⟨part, hmem, hc⟩ := SplitIndex.exists_of_mem_mergeParts hc
    obtain ⟨p, hp⟩ := List.getElem?_of_mem hmem
    exact ((hfound p part (hpart hp)).2 c hc).2

omit [LinearOrder D] in
/-- A candidate is dropped. -/
lemma ThreadOk.drop {args : QueryArgs} {c : Candidate D} {rest : List (Candidate D)}
    {out : List (Ranked D)} (h : ThreadOk b dist log route recs (.joining args (c :: rest) out)) :
    ThreadOk b dist log route recs (.joining args rest out) := by
  obtain ⟨hnodup, hrest, hout⟩ := h
  refine ⟨hnodup.sublist ?_, fun c' hc' => hrest c' (List.mem_cons_of_mem _ hc'), hout⟩
  exact (List.Sublist.refl _).append (List.sublist_cons_self _ _)

omit [LinearOrder D] in
/-- A candidate is joined to the grain that the store has under its sid. -/
lemma ThreadOk.join (honce : Once recs s.log) {args : QueryArgs} {c : Candidate D}
    {rest : List (Candidate D)} {out : List (Ranked D)} {g : Grain}
    (h : ThreadOk b dist s.log route recs (.joining args (c :: rest) out))
    (hread : s.read c.sid PRED = some g) :
    ThreadOk b dist s.log route recs
      (.joining args rest (if args.passes g then out ++ [⟨g, c.dist⟩] else out)) := by
  by_cases hpass : args.passes g
  · rw [if_pos hpass]
    obtain ⟨hnodup, hrest, hout⟩ := h
    refine ⟨?_, fun c' hc' => hrest c' (List.mem_cons_of_mem _ hc'), ?_⟩
    · rw [List.map_append, List.map_singleton, (LogStore.key_of_read hread).1, List.append_assoc]
      exact hnodup
    · intro r hr
      rcases List.mem_append.mp hr with hr | hr
      · exact hout r hr
      · obtain rfl := List.mem_singleton.mp hr
        obtain ⟨w, hw, hsid, v, hembed, hdist⟩ := hrest c List.mem_cons_self
        obtain ⟨w', hw', hsid', hgrain⟩ := LogStore.exists_of_read hread
        obtain rfl := honce.eq_of_sid hw' hw (hsid'.trans hsid.symm)
        exact ⟨w', hw, hgrain, hpass, v, hembed, hdist⟩
  · rw [if_neg hpass]
    exact h.drop

/-! ### Answers -/

omit [LinearOrder D] in
/-- The vector of a record is that of its text, if it has one. -/
lemma embed_value (r : GrainRec) :
    b.embed r.value = if r.text = "" then none else some (b.embedText r.text) := by
  have hlayout : r.value = ([r.category] ++ toBeBytes r.amount.toBitVec) ++ utf8 r.text := rfl
  have hhead : ([r.category] ++ toBeBytes r.amount.toBitVec).length = TEXT_OFFSET := by
    rw [List.length_append, length_toBeBytes]
    rfl
  have htext : r.value.drop TEXT_OFFSET = utf8 r.text := by
    rw [hlayout]
    exact List.drop_left' hhead
  have hempty : r.value.length ≤ TEXT_OFFSET ↔ r.text = "" := by
    rw [hlayout, List.length_append, hhead]
    constructor
    · intro hlen
      have hnil : utf8 r.text = [] := List.eq_nil_of_length_eq_zero (by omega)
      rw [← fromUtf8Lossy_utf8 r.text, hnil]
      rfl
    · intro htext
      rw [htext]
      exact le_rfl
  unfold Backend.embed
  rw [htext]
  by_cases h : r.text = ""
  · rw [if_pos (hempty.mpr h), if_pos h]
  · rw [if_neg (hempty.not.mpr h), if_neg h]
    rfl

omit [LinearOrder D] in
/-- The row of a joined candidate says what its record says. -/
lemma Joined.row (honce : Once recs log) {args : QueryArgs} {r : Ranked D}
    (h : Joined b dist log args r) :
    (∃ w ∈ log, w.sid = (hitOf r).sid.setWidth 128 ∧
        decodeVal (.bytes w.val) = (hitOf r).content) ∧ args.admits (hitOf r) ∧
      (hitOf r).distance = dist (b.embedText args.text) (b.embedText (hitOf r).text) ∧
      r.grain.sid = (hitOf r).sid.setWidth 128 := by
  obtain ⟨w, hw, hgrain, hpass, v, hembed, hdist⟩ := h
  obtain ⟨g, -, seq, rfl⟩ := honce.origin w hw
  have hr : r.grain = ⟨g.sid.setWidth 128, PRED, .bytes g.value, _, _, _⟩ :=
    (Option.some.inj hgrain).symm
  have hdecode : decodeVal r.grain.val = (g.category, g.amount, g.text) := by
    rw [hr, GrainRec.value, decodeVal_encodeVal]
  have hcontent : (hitOf r).content = (g.category, g.amount, g.text) := hdecode
  have hsid : (hitOf r).sid = g.sid := by
    change r.grain.sid.setWidth 64 = g.sid
    rw [hr]
    bv_omega
  refine ⟨⟨_, hw, by rw [hsid]; rfl, ?_⟩, ?_, ?_, by rw [hsid, hr]⟩
  · rw [hcontent, ← hdecode, hr]
    rfl
  · rw [QueryArgs.passes, Store.passes, hdecode] at hpass
    simp only [Bool.and_eq_true, Option.all_eq_true, beq_iff_eq, decide_eq_true_eq] at hpass
    rw [QueryHit.content, Prod.mk.injEq, Prod.mk.injEq] at hcontent
    rw [QueryArgs.admits, hcontent.1, hcontent.2.1]
    exact ⟨hpass.1.1, hpass.1.2, hpass.2⟩
  · have hrow : (hitOf r).text = g.text := congrArg (fun c => c.2.2) hcontent
    have hv : b.embed g.value = some v := hembed
    rw [embed_value] at hv
    split at hv
    · cases hv
    · rw [hrow, Option.some.inj hv]
      exact hdist

/-- The joined candidates are ranked and answered. -/
lemma ThreadOk.rows (honce : Once recs log) {args : QueryArgs} {out : List (Ranked D)}
    (h : ThreadOk b dist log route recs (.joining args [] out)) :
    AnswerOk b dist log (.query args,
      .rows (((out.insertionSort fun a b => a.dist ≤ b.dist).take args.k).map hitOf)) := by
  obtain ⟨hnodup, -, hout⟩ := h
  rw [List.map_nil, List.append_nil] at hnodup
  set sorted := out.insertionSort fun a b => a.dist ≤ b.dist with hsorted
  have hperm : sorted.Perm out := List.perm_insertionSort _ out
  have hrow : ∀ r ∈ sorted.take args.k, Joined b dist log args r := fun r hr =>
    hout r (hperm.mem_iff.mp (List.mem_of_mem_take hr))
  refine ⟨?_, ?_, ?_, ?_⟩
  · rw [List.length_map]
    exact List.length_take_le _ _
  · have hsids : (sorted.take args.k).map (fun r => r.grain.sid) =
        (((sorted.take args.k).map hitOf).map QueryHit.sid).map (BitVec.setWidth 128) := by
      rw [List.map_map, List.map_map]
      exact List.map_congr_left fun r hr => ((hrow r hr).row honce).2.2.2
    have hgrains : ((sorted.take args.k).map fun r => r.grain.sid).Nodup :=
      ((hperm.map fun r => r.grain.sid).nodup_iff.mpr hnodup).sublist
        ((List.take_sublist _ _).map _)
    rw [hsids] at hgrains
    exact hgrains.of_map _
  · have hpairwise : sorted.Pairwise (DistLE Ranked.dist) :=
      List.pairwise_insertionSort (DistLE Ranked.dist) out
    exact List.pairwise_map.mpr (hpairwise.sublist (List.take_sublist _ _))
  · intro hit hhit
    obtain ⟨r, hr, rfl⟩ := List.mem_map.mp hhit
    obtain ⟨hcontent, hadmits, hdist, -⟩ := (hrow r hr).row honce
    exact ⟨hcontent, hadmits, hdist⟩

/-! ### Runs -/

/-- The records that a step takes in. -/
def Event.submits : Event → List GrainRec
  | .start _ (.load recs) => recs
  | _ => []

/-- All records taken in during a run. -/
def submitted (hist : List (Service I D × Event)) : List GrainRec :=
  hist.flatMap fun s => s.2.submits

/-- A thread takes a job. -/
lemma Good.begin (h : Good b dist route Holds recs x disk s) (t : ℕ) (job : Job)
    (hload : ∀ batch, job = .load batch → batch ⊆ recs) :
    Good b dist route Holds recs (x.begin b t job) disk s := by
  cases job with
  | health => exact h.answer trivial
  | stats => exact h.answer trivial
  | load batch => exact h.goto (hload batch rfl)
  | query args =>
    unfold Service.begin
    dsimp only
    split
    · refine h.goto ⟨List.length_replicate, fun p part hp => ?_⟩
      rw [List.getElem?_replicate] at hp
      split at hp
      · cases hp
      · cases hp
    · exact h.goto trivial
  | refuse code e => exact h.answer trivial

/-- What a step does to the log: nothing goes out of it, and a batch that is written goes into it. -/
structure Grows (x : Service I D) (e : Event) (log log' : List WalRecord) : Prop where
  sub : log ⊆ log'
  written : ∀ failure, e = .write failure →
    (∀ p ∈ x.batch, ∃ w ∈ log', w.sid = p.2.sid.setWidth 128) ∨ x.Fails failure

omit [LinearOrder D] in
lemma Grows.refl {e : Event} (hnot : ∀ failure, e ≠ .write failure) : Grows x e log log :=
  ⟨List.Subset.refl _, fun failure he => absurd he (hnot failure)⟩

/-- A step keeps the invariant. -/
lemma Good.step (hix : b.index.Lawful dist route Holds) {y : Service I D} {e : Event}
    (h : Good b dist route Holds recs x disk s) (hstep : Step b x e y)
    (hsubmits : e.submits ⊆ recs) (hfits : ∀ r ∈ recs, Store.Fits r)
    (htail : e = .restart → x.store.engine.truth.committer.tail = []) :
    ∃ disk' s', Good b dist route Holds recs y disk' s' ∧ Grows x e s.log s'.log := by
  have hok := fun t => h.threads t
  cases hstep with
  | @start t job hth =>
    refine ⟨disk, s, h.begin t _ fun batch hjob => ?_, Grows.refl nofun⟩
    obtain rfl := hjob
    exact hsubmits
  | scan hth hrun hkey hearly => exact ⟨disk, s, h.scan hth hrun hkey hearly, Grows.refl nofun⟩
  | @scanEarly t all rest r maxSeq seq hth hrun hearly =>
    have hrest := h.loading hth
    exact ⟨disk, s, h.goto (List.cons_subset.mp hrest).2, Grows.refl nofun⟩
  | scanPanicked hth => exact ⟨disk, _, h.ended.answer trivial, Grows.refl nofun⟩
  | @scanRepeated t all rest r maxSeq seq hth hnew hput =>
    have hrest := h.loading hth
    exact ⟨disk, s, (h.repeated hnew).1.goto (List.cons_subset.mp hrest).2, Grows.refl nofun⟩
  | scanClosed hth hnew hput => exact ⟨disk, s, (h.repeated hnew).1.answer trivial, Grows.refl nofun⟩
  | write failure hne =>
    obtain ⟨s', hgood, hlog, hwritten⟩ := h.written hne failure
    refine ⟨disk, s', hgood, hlog, ?_⟩
    intro failure' he
    obtain rfl := Event.write.inj he
    exact hwritten
  | @probe t p args found hth hp => exact ⟨disk, s, h.goto (h.probe hix hth hp _ _), Grows.refl nofun⟩
  | @merge t args found hth hall =>
    exact ⟨disk, s, h.goto ((hth ▸ hok t).merge hall _), Grows.refl nofun⟩
  | joinFailed hth hread => exact ⟨disk, s, h.answer trivial, Grows.refl nofun⟩
  | @joinNone t args c rest out hth hread =>
    exact ⟨disk, s, h.goto (hth ▸ hok t).drop, Grows.refl nofun⟩
  | @join t args c rest out g hth hread =>
    rw [h.shows.read, Except.ok.injEq] at hread
    exact ⟨disk, s, h.goto ((hth ▸ hok t).join h.once hread), Grows.refl nofun⟩
  | @loaded t all maxSeq hth =>
    have hgood : Good b dist route Holds recs
        { x with store := { x.store with lastSeq := max x.store.lastSeq maxSeq } } disk s :=
      ⟨h.shows, h.disk, h.once, h.index, h.batch, h.threads, h.answered⟩
    exact ⟨disk, s, hgood.answer trivial, Grows.refl nofun⟩
  | @rows t args out hth => exact ⟨disk, s, h.answer ((hth ▸ hok t).rows h.once), Grows.refl nofun⟩
  | @apply i r hi hr => exact ⟨disk, s, h.apply hix hr, Grows.refl nofun⟩
  | restart hopen =>
    obtain ⟨hlog, hgood⟩ := h.restart hix hfits (htail rfl) hopen
    exact ⟨_, _, hgood, by rw [hlog]; exact Grows.refl nofun⟩

/-- The daemon on an empty log file. -/
lemma good_fresh (hix : b.index.Lawful dist route Holds) (hfresh : fresh b = some x) :
    ∃ disk s, Good b dist route Holds [] x disk s := by
  unfold fresh at hfresh
  split at hfresh
  · rename_i store restored hopen
    obtain rfl := Option.some.inj hfresh
    have hlog : logOf [] = [] := logOf_of_none rfl
    have hopened : (LogStore.opened []).log = [] := (List.append_nil _).trans hlog
    have htruth : store.engine.truth = (TruthStore.start []).subscribe :=
      Store.truth_of_openOn hopen
    refine ⟨[], LogStore.opened [], ?_, ?_, ?_, ?_, ⟨nofun, List.nodup_nil⟩, fun _ => trivial,
      fun a ha => by cases ha⟩
    · rw [htruth]
      exact TruthStore.shows_start []
    · rw [LogStore.opened, hlog]
      rfl
    · rw [hopened]
      exact once_nil []
    · exact indexed_opened hix (by rw [hlog]; exact once_nil []) hopen
  · cases hfresh

/-- What a store has recorded is read back from it. -/
lemma Good.read (h : Good b dist route Holds recs x disk s) {w : WalRecord} (hw : w ∈ s.log) :
    ∃ g, x.store.engine.truth.read w.sid PRED = .ok (some g) ∧ g.val = .bytes w.val := by
  refine ⟨⟨w.sid, PRED, .bytes w.val, w.c, w.tValid, w.seq⟩, ?_, rfl⟩
  rw [h.shows.read, h.once.read hw]

end Service

end GrainStore
