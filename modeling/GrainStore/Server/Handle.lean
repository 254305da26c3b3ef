import Mathlib
import GrainStore.Server.Service

/-!
# Requests one after the other

A thread that takes a job and carries it out with no other handler in between gives the answer, and
leaves the store, that `Backend.run` says (`exists_alone_of_run`).  The committer takes each record of
a load on its own then, and the workers apply what it has written before the load is answered.

`reaches_of_requests` connects the daemon with all its threads to the loop of one of them: whatever it
is asked, in order, is answered as `Backend.serve` answers it, up to a panic.
-/

namespace GrainStore

namespace Service

open Trace

variable {I V D : Type*} [LE D] [DecidableLE D] {b : Backend I V D} {x : Service I D} {t : ℕ}

section Threads

omit [LE D] [DecidableLE D]

variable (x t)

@[simp] lemma threads_goto (th : Thread D) : (x.goto t th).threads t = th :=
  Function.update_self _ _ _

@[simp] lemma store_goto (th : Thread D) : (x.goto t th).store = x.store := rfl

@[simp] lemma goto_goto (th th' : Thread D) : (x.goto t th).goto t th' = x.goto t th' := by
  simp only [goto, Function.update_idem]

@[simp] lemma answer_goto (th : Thread D) (job : Job) (a : Answer D) :
    (x.goto t th).answer t job a = x.answer t job a := by
  rw [answer, goto_goto]
  rfl

@[simp] lemma withEngine_goto (th : Thread D) (e : GrainEngine I) :
    (x.goto t th).withEngine e = (x.withEngine e).goto t th := rfl

@[simp] lemma withEngine_withEngine (e e' : GrainEngine I) :
    (x.withEngine e).withEngine e' = x.withEngine e' := rfl

@[simp] lemma engine_withEngine (e : GrainEngine I) : (x.withEngine e).store.engine = e := rfl

/-- Being told changes nothing but what the thread is at, and what was answered. -/
lemma ack_fields (a : Except Error U64) :
    (x.ack t a).store = x.store ∧ (x.ack t a).applied = x.applied ∧ (x.ack t a).batch = x.batch := by
  unfold ack
  split
  · split
    · exact ⟨rfl, rfl, rfl⟩
    · exact ⟨rfl, rfl, rfl⟩
  · exact ⟨rfl, rfl, rfl⟩

lemma acks_fields (told : List ((ℕ × GrainRec) × Except Error U64)) :
    (x.acks told).store = x.store ∧ (x.acks told).applied = x.applied ∧
      (x.acks told).batch = x.batch := by
  induction told generalizing x with
  | nil => exact ⟨rfl, rfl, rfl⟩
  | cons p told ih =>
    obtain ⟨hstore, happlied, hbatch⟩ := ack_fields x p.1.1 p.2
    obtain ⟨hstore', happlied', hbatch'⟩ := ih (x.ack p.1.1 p.2)
    exact ⟨hstore'.trans hstore, happlied'.trans happlied, hbatch'.trans hbatch⟩

end Threads

/-! ## What the store shows -/

/-- What every state of the daemon has: the store shows some log, and the changes that are applied
were published. -/
structure Live (x : Service I D) : Prop where
  shows : ∃ disk s, x.store.engine.truth.Shows disk s
  applied : ∀ i ∈ x.applied, i < x.store.engine.stream.length

omit [LE D] [DecidableLE D] in
lemma Live.of_engine {y : Service I D} (h : Live x)
    (htruth : y.store.engine.truth = x.store.engine.truth) (happlied : y.applied = x.applied) :
    Live y := by
  refine ⟨htruth ▸ h.shows, ?_⟩
  rw [happlied, GrainEngine.stream, htruth]
  exact h.applied

omit [LE D] [DecidableLE D] in
/-- A store that shows a longer log has published as much. -/
lemma Live.stream_le {e : GrainEngine I} (h : Live x)
    (hgrow : ∀ disk s, x.store.engine.truth.Shows disk s →
      ∃ s', e.truth.Shows disk s' ∧ s.added <+: s'.added) :
    x.store.engine.stream.length ≤ e.stream.length := by
  obtain ⟨disk, s, hshows⟩ := h.shows
  obtain ⟨s', hshows', hprefix⟩ := hgrow disk s hshows
  rw [GrainEngine.stream, GrainEngine.stream, hshows.received, hshows'.received, List.length_map,
    List.length_map]
  exact hprefix.length_le

omit [LE D] [DecidableLE D] in
lemma Live.of_shows {y : Service I D} (h : Live x)
    (hgrow : ∀ disk s, x.store.engine.truth.Shows disk s →
      ∃ s', y.store.engine.truth.Shows disk s' ∧ s.added <+: s'.added)
    (happlied : y.applied = x.applied) : Live y := by
  obtain ⟨disk, s, hshows⟩ := h.shows
  obtain ⟨s', hshows', -⟩ := hgrow disk s hshows
  exact ⟨⟨disk, s', hshows'⟩, fun i hi =>
    (h.applied i (happlied ▸ hi)).trans_le (h.stream_le hgrow)⟩

/-- A commit of one record adds to the log at most. -/
lemma shows_putRec {e : GrainEngine I} {disk : Bytes} {s : LogStore} (h : e.truth.Shows disk s)
    (r : GrainRec) (failure : Option (IoError × ℕ)) :
    ∃ s', (putRec e r failure).1.truth.Shows disk s' ∧ s.added <+: s'.added := by
  refine ⟨_, (h.commit r.req failure).1, ?_⟩
  rw [(s.commit_log r.req failure).2]
  split
  · exact List.prefix_append _ _
  · exact List.prefix_rfl

omit [LE D] [DecidableLE D] in
lemma Live.put (h : Live x) (r : GrainRec) (failure : Option (IoError × ℕ)) :
    Live (x.withEngine (putRec x.store.engine r failure).1) :=
  h.of_shows (fun _ _ hshows => shows_putRec hshows r failure) rfl

/-- Every step keeps it. -/
lemma Live.step {y : Service I D} {e : Event} (h : Live x) (hstep : Step b x e y) : Live y := by
  cases hstep with
  | @start t job hth =>
    cases job with
    | query args =>
      unfold begin
      dsimp only
      split
      · exact h.of_engine rfl rfl
      · exact h.of_engine rfl rfl
    | _ => exact h.of_engine rfl rfl
  | scan hth hrun hkey hearly => exact h.of_engine rfl rfl
  | scanEarly hth hrun hearly => exact h.of_engine rfl rfl
  | scanPanicked hth =>
    refine h.of_shows (fun disk s hshows => ?_) rfl
    exact ⟨{ s with running := false }, ⟨hshows.base, rfl, hshows.file, nofun, hshows.grains,
      hshows.cdc, hshows.grown, hshows.clock_le, nofun, nofun⟩, List.prefix_rfl⟩
  | @scanRepeated t recs rest r maxSeq seq hth hnew hput =>
    exact (h.put r none).of_engine rfl rfl
  | @scanClosed t recs rest r maxSeq err hth hnew hput => exact (h.put r none).of_engine rfl rfl
  | write failure hne =>
    obtain ⟨hstore, happlied, -⟩ := acks_fields { x.withEngine { x.store.engine with
      truth := (x.store.engine.truth.commitBatch (x.batch.map fun p => p.2.req) failure).1 } with
        batch := [] } (x.batch.zip
          (x.store.engine.truth.commitBatch (x.batch.map fun p => p.2.req) failure).2)
    refine h.of_shows (fun disk s hshows => ?_) happlied
    have hreqs : (x.batch.map fun p => p.2.req) ≠ [] := by simpa using hne
    obtain ⟨s', hshows', hprefix⟩ := hshows.exists_commitBatch hreqs failure
    exact ⟨s', hstore ▸ hshows', hprefix⟩
  | probe hth hp => exact h.of_engine rfl rfl
  | merge hth hall => exact h.of_engine rfl rfl
  | joinFailed hth hread => exact h.of_engine rfl rfl
  | joinNone hth hread => exact h.of_engine rfl rfl
  | join hth hread => exact h.of_engine rfl rfl
  | loaded hth => exact h.of_engine rfl rfl
  | rows hth => exact h.of_engine rfl rfl
  | @apply i r hi hr =>
    refine ⟨h.shows, ?_⟩
    intro j hj
    rcases List.mem_cons.mp hj with rfl | hj
    · exact (List.getElem?_eq_some_iff.mp hr).1
    · exact h.applied j hj
  | @restart store restored hopen =>
    have htruth : store.engine.truth = (TruthStore.start x.store.engine.disk).subscribe :=
      Store.truth_of_openOn hopen
    exact ⟨⟨_, _, htruth ▸ TruthStore.shows_start _⟩, fun i hi => absurd hi List.not_mem_nil⟩

omit [LE D] [DecidableLE D] in
lemma live_fresh {x₀ : Service I D} (hfresh : fresh b = some x₀) : Live x₀ := by
  unfold fresh at hfresh
  split at hfresh
  · rename_i store restored hopen
    obtain rfl := Option.some.inj hfresh
    have htruth : store.engine.truth = (TruthStore.start []).subscribe :=
      Store.truth_of_openOn hopen
    exact ⟨⟨_, _, htruth ▸ TruthStore.shows_start _⟩, fun i hi => absurd hi List.not_mem_nil⟩
  · cases hfresh

lemma live_of_run {x₀ : Service I D} {hist : List (Service I D × Event)}
    (hfresh : fresh b = some x₀) (h : Run (next b) x₀ hist x) : Live x :=
  h.invariant (live_fresh hfresh) fun _ _ _ hlive hnext => hlive.step (step_of_next hnext)

/-! ## Loading -/

/-- What a thread is at when its record is committed. -/
def afterPut (x : Service I D) (t : ℕ) (recs rest : List GrainRec) (maxSeq : U64) :
    Except Error U64 → Service I D
  | .ok h => x.goto t (.loading recs rest (max maxSeq h))
  | .error err => x.answer t (.load recs) (.failed err)

omit [LE D] [DecidableLE D] in
/-- A thread is told what has become of its record. -/
lemma ack_of_committing {recs rest : List GrainRec} {r : GrainRec} {maxSeq : U64}
    (hth : x.threads t = .committing recs r rest maxSeq) (a : Except Error U64) :
    x.ack t a = x.afterPut t recs rest maxSeq a := by
  unfold ack
  rw [hth]
  cases a with
  | ok h => rfl
  | error err => rfl

omit [LE D] [DecidableLE D] in
/-- What becomes of a record is the same wherever its thread was. -/
lemma afterPut_goto (th : Thread D) (recs rest : List GrainRec) (maxSeq : U64)
    (a : Except Error U64) :
    (x.goto t th).afterPut t recs rest maxSeq a = x.afterPut t recs rest maxSeq a := by
  cases a with
  | ok h => exact goto_goto x t th _
  | error err => exact answer_goto x t th _ _

omit [LE D] [DecidableLE D] in
/-- A batch of one record is written. -/
lemma written_singleton (hbatch : x.batch = []) (recs rest : List GrainRec) (r : GrainRec)
    (maxSeq : U64) (failure : Option (IoError × ℕ)) :
    written { x.goto t (.committing recs r rest maxSeq) with batch := [(t, r)] } failure =
      afterPut (x.withEngine (putRec x.store.engine r failure).1) t recs rest maxSeq
        (putRec x.store.engine r failure).2 := by
  obtain ⟨store, applied, batch, threads, answered⟩ := x
  obtain rfl := hbatch
  set y : Service I D := ⟨store, applied, [], threads, answered⟩
  have hwritten : written { y.goto t (.committing recs r rest maxSeq) with batch := [(t, r)] }
      failure = acks ((y.withEngine { store.engine with
        truth := (store.engine.truth.commitBatch [r.req] failure).1 }).goto t
          (.committing recs r rest maxSeq)) ([(t, r)].zip
            (store.engine.truth.commitBatch [r.req] failure).2) := rfl
  rw [hwritten, TruthStore.commitBatch_singleton]
  exact (ack_of_committing (threads_goto _ _ _) _).trans (afterPut_goto _ _ _ _ _)

/-- A record that the committer takes on its own is committed. -/
lemma reaches_of_put (hbatch : x.batch = []) (recs rest : List GrainRec) (r : GrainRec)
    (maxSeq : U64) (failure : Option (IoError × ℕ)) :
    Reaches (next b) (x.goto t (.loading recs (r :: rest) maxSeq))
      (afterPut (x.withEngine (putRec x.store.engine r failure).1) t recs rest maxSeq
        (putRec x.store.engine r failure).2) := by
  have hput : ∀ failure, putRec x.store.engine r failure =
      ({ x.store.engine with truth := (x.store.engine.truth.commit r.req failure).1 },
        (x.store.engine.truth.commit r.req failure).2) := fun _ => rfl
  by_cases hnew : x.store.engine.truth.running ∧
      x.store.engine.truth.committer.idem[r.req.idemKey]? = none
  · have hearly : (x.goto t (.loading recs (r :: rest) maxSeq)).early r = none := by
      rw [early, show (x.goto t (.loading recs (r :: rest) maxSeq)).batch = [] from hbatch]
      rfl
    have hlen : (x.goto t (.loading recs (r :: rest) maxSeq)).batch.length = 0 :=
      congrArg List.length hbatch
    by_cases hroom : x.store.engine.truth.committer.hlc.now.toNat + 1 < 2 ^ 64
    · have hscan : next b (x.goto t (.loading recs (r :: rest) maxSeq)) (.scan t) =
          some { x.goto t (.committing recs r rest maxSeq) with batch := [(t, r)] } := by
        simp only [next, threads_goto, store_goto, hnew.1, hnew.2, and_self, if_true, hearly, hlen,
          Nat.add_zero, hroom, goto_goto]
        rw [show (x.goto t (.loading recs (r :: rest) maxSeq)).batch = [] from hbatch]
        rfl
      have hwrite := written_singleton (t := t) hbatch recs rest r maxSeq failure
      refine Reaches.head hscan (Reaches.head (e := .write failure) ?_ (Reaches.refl _))
      rw [← hwrite]
      rfl
    · have hscan : next b (x.goto t (.loading recs (r :: rest) maxSeq)) (.scan t) =
          some (afterPut (x.withEngine (putRec x.store.engine r failure).1) t recs rest maxSeq
            (putRec x.store.engine r failure).2) := by
        rw [hput, TruthStore.commit_of_full hnew.1 hnew.2 hroom failure]
        simp only [next, threads_goto, store_goto, hnew.1, hnew.2, and_self, if_true, hearly, hlen,
          Nat.add_zero, hroom, if_false, withEngine_goto, answer_goto, afterPut]
      exact Reaches.head hscan (Reaches.refl _)
  · have hsame : putRec x.store.engine r failure = putRec x.store.engine r none := by
      rw [hput, hput, TruthStore.commit_of_not_new hnew failure]
    have hscan : next b (x.goto t (.loading recs (r :: rest) maxSeq)) (.scan t) =
        some (afterPut (x.withEngine (putRec x.store.engine r failure).1) t recs rest maxSeq
          (putRec x.store.engine r failure).2) := by
      rw [hsame]
      simp only [next, threads_goto, store_goto, hnew, if_false]
      cases putRec x.store.engine r none with
      | mk e a =>
        cases a with
        | ok h => simp only [withEngine_goto, goto_goto, afterPut]
        | error err => simp only [withEngine_goto, answer_goto, afterPut]
    exact Reaches.head hscan (Reaches.refl _)

section Batches

omit [LE D] [DecidableLE D]

variable {e e' : GrainEngine I} {r : GrainRec} {failure : Option (IoError × ℕ)} {h : U64}
  {err : Error}

lemma putAll_of_ok (hput : putRec e r failure = (e', .ok h)) (maxSeq : U64)
    (batch : List (GrainRec × Option (IoError × ℕ))) :
    Store.putAll e maxSeq ((r, failure) :: batch) = Store.putAll e' (max maxSeq h) batch := by
  have hput' : e.putRaw (r.sid.setWidth 128) PRED (encodeVal r.category r.amount r.text)
      (WriteMeta.new (r.sid.setWidth 128)) failure = (e', .ok h) := hput
  rw [Store.putAll, hput']

lemma putAll_of_error (hput : putRec e r failure = (e', .error err)) (maxSeq : U64)
    (batch : List (GrainRec × Option (IoError × ℕ))) :
    Store.putAll e maxSeq ((r, failure) :: batch) = (e', .error err) := by
  have hput' : e.putRaw (r.sid.setWidth 128) PRED (encodeVal r.category r.amount r.text)
      (WriteMeta.new (r.sid.setWidth 128)) failure = (e', .error err) := hput
  rw [Store.putAll, hput']

/-- A batch adds to the log at most. -/
lemma shows_putAll {disk : Bytes} {s : LogStore} (hshows : e.truth.Shows disk s) (maxSeq : U64)
    (batch : List (GrainRec × Option (IoError × ℕ))) :
    ∃ s', (Store.putAll e maxSeq batch).1.truth.Shows disk s' ∧ s.added <+: s'.added := by
  induction batch generalizing e s maxSeq with
  | nil => exact ⟨s, hshows, List.prefix_rfl⟩
  | cons p batch ih =>
    obtain ⟨r, failure⟩ := p
    obtain ⟨s₁, hshows₁, hprefix⟩ := shows_putRec hshows r failure
    cases hput : putRec e r failure with
    | mk e₁ a =>
      rw [hput] at hshows₁
      cases a with
      | error err =>
        rw [putAll_of_error hput]
        exact ⟨s₁, hshows₁, hprefix⟩
      | ok h =>
        obtain ⟨s', hshows', hprefix'⟩ := ih hshows₁ (max maxSeq h)
        rw [putAll_of_ok hput]
        exact ⟨s', hshows', hprefix.trans hprefix'⟩

end Batches

/-- The loop over a batch. -/
lemma reaches_of_putAll (hbatch : x.batch = []) (recs : List GrainRec)
    (batch : List (GrainRec × Option (IoError × ℕ))) (maxSeq : U64) :
    match Store.putAll x.store.engine maxSeq batch with
    | (e, .ok seq) => Reaches (next b) (x.goto t (.loading recs (batch.map Prod.fst) maxSeq))
        ((x.withEngine e).goto t (.loading recs [] seq))
    | (e, .error err) => Reaches (next b) (x.goto t (.loading recs (batch.map Prod.fst) maxSeq))
        ((x.withEngine e).answer t (.load recs) (.failed err)) := by
  induction batch generalizing x maxSeq with
  | nil => exact Reaches.refl _
  | cons p batch ih =>
    obtain ⟨r, failure⟩ := p
    have hfirst := reaches_of_put (b := b) (t := t) hbatch recs (batch.map Prod.fst) r maxSeq failure
    cases hput : putRec x.store.engine r failure with
    | mk e answer =>
      rw [hput] at hfirst
      cases answer with
      | error err =>
        rw [putAll_of_error hput]
        exact hfirst
      | ok h =>
        have hrest := ih (x := x.withEngine e) hbatch (max maxSeq h)
        rw [engine_withEngine] at hrest
        rw [putAll_of_ok hput]
        cases hall : Store.putAll e (max maxSeq h) batch with
        | mk e' answer =>
          rw [hall] at hrest
          cases answer with
          | ok seq => exact hfirst.trans hrest
          | error err => exact hfirst.trans hrest

/-- The workers apply what was published from the `n`-th change on. -/
lemma reaches_of_applies (n k : ℕ) (hlen : n + k = x.store.engine.stream.length)
    (happlied : ∀ i ∈ x.applied, i < n) :
    Reaches (next b) x { x with
      store := b.materialize n x.store
      applied := (List.range' n k).reverse ++ x.applied } := by
  induction k generalizing x n with
  | zero =>
    have hstore : b.materialize n x.store = x.store := by
      have hle : x.store.engine.stream.length ≤ n := hlen.ge
      rw [Backend.materialize, List.drop_eq_nil_of_le hle]
      rfl
    rw [hstore]
    exact Reaches.refl _
  | succ k ih =>
    have hn : n < x.store.engine.stream.length := by omega
    set index := b.index.writer.apply b.embed x.store.engine.index x.store.engine.stream[n]
      with hindex
    have hstep : next b x (.apply n) = some { x.withEngine { x.store.engine with index } with
        applied := n :: x.applied } := by
      have hnot : n ∉ x.applied := fun hmem => absurd (happlied n hmem) (lt_irrefl n)
      simp only [next, hnot, if_false, List.getElem?_eq_getElem hn, ← hindex]
    have hstream : GrainEngine.stream { x.store.engine with index } = x.store.engine.stream := rfl
    have hrest := ih (x := { x.withEngine { x.store.engine with index } with
      applied := n :: x.applied }) (n + 1) (by rw [engine_withEngine, hstream]; omega)
        (fun i hi => by
          rcases List.mem_cons.mp hi with rfl | hi
          · exact Nat.lt_succ_self _
          · exact (happlied i hi).trans (Nat.lt_succ_self _))
    have hstore : b.materialize (n + 1) { x.store with engine := { x.store.engine with index } } =
        b.materialize n x.store := by
      unfold Backend.materialize
      dsimp only
      rw [hstream, List.drop_eq_getElem_cons hn, List.foldl_cons]
    have happ : (List.range' n (k + 1)).reverse ++ x.applied =
        (List.range' (n + 1) k).reverse ++ n :: x.applied := by
      rw [List.range'_succ, List.reverse_cons, List.append_assoc, List.singleton_append]
    rw [happ, ← hstore]
    exact Reaches.head hstep hrest

/-! ## Queries -/

/-- The parts of the index are searched one after the other. -/
lemma reaches_of_probes (args : QueryArgs) (n : ℕ) (parts : List (List (Candidate D)))
    (hparts : parts = (List.range parts.length).map fun p => b.index.probe x.store.engine.index p
      (mixed b args).query (mixed b args).fetch (mixed b args).ef) :
    Reaches (next b) (x.goto t (.searching args (parts.map some ++ List.replicate n none)))
      (x.goto t (.searching args ((List.range (parts.length + n)).map fun p =>
        some (b.index.probe x.store.engine.index p (mixed b args).query (mixed b args).fetch
          (mixed b args).ef)))) := by
  induction n generalizing parts with
  | zero =>
    have hall : parts.map some ++ List.replicate 0 none =
        (List.range (parts.length + 0)).map fun p => some (b.index.probe x.store.engine.index p
          (mixed b args).query (mixed b args).fetch (mixed b args).ef) := by
      rw [List.replicate_zero, List.append_nil]
      conv_lhs => rw [hparts]
      rw [List.map_map]
      rfl
    rw [hall]
    exact Reaches.refl _
  | succ n ih =>
    set part := b.index.probe x.store.engine.index parts.length (mixed b args).query
      (mixed b args).fetch (mixed b args).ef with hpart
    have hnone : (parts.map some ++ List.replicate (n + 1) none)[parts.length]? =
        some (none : Option (List (Candidate D))) := by
      rw [List.getElem?_append_right (by simp)]
      simp
    have hset : (parts.map some ++ List.replicate (n + 1) none).set parts.length (some part) =
        (parts ++ [part]).map some ++ List.replicate n none := by
      rw [List.set_append_right _ _ (by simp), List.replicate_succ]
      simp
    have hstep : next b (x.goto t (.searching args (parts.map some ++ List.replicate (n + 1) none)))
        (.probe t parts.length) =
          some (x.goto t (.searching args ((parts ++ [part]).map some ++ List.replicate n none))) := by
      simp only [next, threads_goto, store_goto, hnone, goto_goto, ← hpart, hset]
    have hlen : (parts ++ [part]).length + n = parts.length + (n + 1) := by
      rw [List.length_append, List.length_singleton]
      omega
    have hrest := ih (parts ++ [part]) (by
      rw [List.length_append, List.length_singleton, List.range_succ, List.map_append, ← hparts]
      rfl)
    rw [hlen] at hrest
    exact Reaches.head hstep hrest

/-- The candidates are joined one after the other. -/
lemma reaches_of_join_ok {args : QueryArgs} {cs : List (Candidate D)} {found : List (Ranked D)}
    (h : joinCandidates (fun sid => x.store.engine.truth.read sid PRED) args.passes cs = .ok found)
    (out : List (Ranked D)) :
    Reaches (next b) (x.goto t (.joining args cs out))
      (x.goto t (.joining args [] (out ++ found))) := by
  induction cs generalizing out found with
  | nil =>
    obtain rfl := Except.ok.inj h
    rw [List.append_nil]
    exact Reaches.refl _
  | cons c cs ih =>
    cases hread : x.store.engine.truth.read c.sid PRED with
    | error err => simp [joinCandidates, hread] at h
    | ok grain =>
      cases hrest : joinCandidates (fun sid => x.store.engine.truth.read sid PRED) args.passes
          cs with
      | error err => simp [joinCandidates, hread, hrest] at h
      | ok more =>
        cases grain with
        | none =>
          have hstep : next b (x.goto t (.joining args (c :: cs) out)) (.join t) =
              some (x.goto t (.joining args cs out)) := by
            simp [next, hread]
          obtain rfl : more = found := by simpa [joinCandidates, hread, hrest] using h
          exact Reaches.head hstep (ih hrest out)
        | some g =>
          by_cases hpass : args.passes g
          · have hstep : next b (x.goto t (.joining args (c :: cs) out)) (.join t) =
                some (x.goto t (.joining args cs (out ++ [⟨g, c.dist⟩]))) := by
              simp [next, hread, hpass]
            obtain rfl : ⟨g, c.dist⟩ :: more = found := by
              simpa [joinCandidates, hread, hrest, hpass] using h
            rw [List.append_cons]
            exact Reaches.head hstep (ih hrest _)
          · have hstep : next b (x.goto t (.joining args (c :: cs) out)) (.join t) =
                some (x.goto t (.joining args cs out)) := by
              simp [next, hread, hpass]
            obtain rfl : more = found := by simpa [joinCandidates, hread, hrest, hpass] using h
            exact Reaches.head hstep (ih hrest out)

/-- The first candidate that cannot be read ends the query. -/
lemma reaches_of_join_error {args : QueryArgs} {cs : List (Candidate D)} {err : Error}
    (h : joinCandidates (fun sid => x.store.engine.truth.read sid PRED) args.passes cs = .error err)
    (out : List (Ranked D)) :
    Reaches (next b) (x.goto t (.joining args cs out))
      (x.answer t (.query args) (.failed err)) := by
  induction cs generalizing out with
  | nil => cases h
  | cons c cs ih =>
    cases hread : x.store.engine.truth.read c.sid PRED with
    | error err' =>
      have hstep : next b (x.goto t (.joining args (c :: cs) out)) (.join t) =
          some (x.answer t (.query args) (.failed err')) := by
        simp [next, hread]
      obtain rfl : err' = err := by simpa [joinCandidates, hread] using h
      exact Reaches.head hstep (Reaches.refl _)
    | ok grain =>
      cases hrest : joinCandidates (fun sid => x.store.engine.truth.read sid PRED) args.passes
          cs with
      | ok more => cases grain <;> simp [joinCandidates, hread, hrest] at h
      | error err' =>
        obtain rfl : err' = err := by cases grain <;> simpa [joinCandidates, hread, hrest] using h
        cases grain with
        | none =>
          have hstep : next b (x.goto t (.joining args (c :: cs) out)) (.join t) =
              some (x.goto t (.joining args cs out)) := by
            simp [next, hread]
          exact Reaches.head hstep (ih hrest out)
        | some g =>
          have hstep : next b (x.goto t (.joining args (c :: cs) out)) (.join t) =
              some (x.goto t (.joining args cs
                (if args.passes g then out ++ [⟨g, c.dist⟩] else out))) := by
            simp [next, hread]
          exact Reaches.head hstep (ih hrest _)

section Rows

variable {store : Store I} {args : QueryArgs}

lemma query_of_room (hroom : (b.room args).isSome) :
    b.query store args = some (store.query b.index.vectors b.embedText args.text args.category
      args.minAmount args.maxAmount args.k) := by
  obtain ⟨n, hn⟩ := Option.isSome_iff_exists.mp hroom
  rw [Backend.query, hn, Option.map_some]

/-- A query without room panics. -/
lemma query_eq_none_iff : b.query store args = none ↔ b.room args = none := Option.map_eq_none_iff

/-- The rows of a query are what was selected. -/
lemma query_of_select {out : List (Ranked D)} (hroom : (b.room args).isSome)
    (h : nearJoinSelect store.engine.truth.read b.index.vectors store.engine.index (mixed b args)
      args.passes = .ok out) : b.query store args = some (.ok (out.map hitOf)) := by
  have hselect : nearJoinSelect store.engine.truth.read b.index.vectors store.engine.index
      (Store.mixedQuery b.embedText args.text args.k)
      (Store.passes args.category args.minAmount args.maxAmount) = .ok out := h
  rw [query_of_room hroom, Store.query, GrainEngine.query, hselect]
  rfl

lemma query_of_join_ok {out : List (Ranked D)} (hroom : (b.room args).isSome)
    (h : joinCandidates (fun sid => store.engine.truth.read sid PRED) args.passes
      (b.index.vectors.search store.engine.index (mixed b args).query (mixed b args).fetch
        (mixed b args).ef) = .ok out) :
    b.query store args =
      some (.ok (((out.insertionSort fun a b => a.dist ≤ b.dist).take args.k).map hitOf)) := by
  have hjoin : joinCandidates (fun sid => store.engine.truth.read sid (mixed b args).pred)
      args.passes _ = .ok out := h
  refine query_of_select hroom ?_
  unfold nearJoinSelect
  dsimp only
  rw [hjoin]
  rfl

lemma query_of_join_error {err : Error} (hroom : (b.room args).isSome)
    (h : joinCandidates (fun sid => store.engine.truth.read sid PRED) args.passes
      (b.index.vectors.search store.engine.index (mixed b args).query (mixed b args).fetch
        (mixed b args).ef) = .error err) : b.query store args = some (.error err) := by
  have hjoin : joinCandidates (fun sid => store.engine.truth.read sid
      (Store.mixedQuery b.embedText args.text args.k).pred)
      (Store.passes args.category args.minAmount args.maxAmount)
      (b.index.vectors.search store.engine.index
        (Store.mixedQuery b.embedText args.text args.k).query
        (Store.mixedQuery b.embedText args.text args.k).fetch
        (Store.mixedQuery b.embedText args.text args.k).ef) = .error err := h
  rw [query_of_room hroom, Store.query, GrainEngine.query]
  unfold nearJoinSelect
  dsimp only
  rw [hjoin]

end Rows

/-! ## Requests -/

/-- A thread that carries out jobs while the other handler threads do nothing: the daemon goes from
`x` to `y`, where the store is this one, these jobs have been answered, and the thread is at `th`.
Whatever was published meanwhile is applied. -/
structure Alone (b : Backend I V D) (t : ℕ) (x y : Service I D) (store : Store I)
    (done : List (Job × Answer D)) (th : Thread D) : Prop where
  reaches : Reaches (next b) x y
  store : y.store = store
  answered : y.answered = x.answered ++ done
  batch : y.batch = []
  thread : y.threads t = th
  others : ∀ u, u ≠ t → y.threads u = x.threads u
  applied : x.applied ⊆ y.applied
  caughtUp : ∀ i, x.store.engine.stream.length ≤ i → i < y.store.engine.stream.length →
    i ∈ y.applied

/-- Nothing has been carried out yet. -/
lemma Alone.refl (hidle : x.threads t = .idle) (hbatch : x.batch = []) :
    Alone b t x x x.store [] .idle := by
  refine ⟨Reaches.refl _, rfl, (List.append_nil _).symm, hbatch, hidle, fun _ _ => rfl,
    List.Subset.refl _, ?_⟩
  intro i hlow hhigh
  exact absurd hhigh (not_lt.mpr hlow)

omit [LE D] [DecidableLE D] in
lemma threads_goto_ne {u : ℕ} (hu : u ≠ t) (th : Thread D) : (x.goto t th).threads u = x.threads u :=
  Function.update_of_ne hu _ _

lemma Alone.trans {y z : Service I D} {store store' : Store I} {done done' : List (Job × Answer D)}
    {th th' : Thread D} (h : Alone b t x y store done th) (h' : Alone b t y z store' done' th') :
    Alone b t x z store' (done ++ done') th' := by
  refine ⟨h.reaches.trans h'.reaches, h'.store, ?_, h'.batch, h'.thread, ?_,
    fun i hi => h'.applied (h.applied hi), ?_⟩
  · rw [h'.answered, h.answered, List.append_assoc]
  · intro u hu
    rw [h'.others u hu, h.others u hu]
  · intro i hlow hhigh
    by_cases hi : i < y.store.engine.stream.length
    · exact h'.applied (h.caughtUp i hlow hi)
    · exact h'.caughtUp i (not_lt.mp hi) hhigh

lemma Live.reaches {y : Service I D} (h : Live x) (hreaches : Reaches (next b) x y) : Live y := by
  obtain ⟨hist, hrun⟩ := hreaches
  exact hrun.invariant h fun _ _ _ hlive hnext => hlive.step (step_of_next hnext)

/-- A thread that is answered at once, without a look at the log. -/
lemma alone_of_answer (hbatch : x.batch = []) {job : Job} {a : Answer D}
    (hreaches : Reaches (next b) x (x.answer t job a)) :
    Alone b t x (x.answer t job a) x.store [(job, a)] .idle :=
  ⟨hreaches, rfl, rfl, hbatch, threads_goto _ _ _, fun _ hu => threads_goto_ne hu _,
    List.Subset.refl _, fun _ hlow hhigh => absurd hhigh (not_lt.mpr hlow)⟩

/-- The changes of a load are applied, from the state `y` in which it has committed them. -/
lemma Live.materialize {y : Service I D} (h : Live x) (happlied : y.applied = x.applied)
    (hgrow : x.store.engine.stream.length ≤ y.store.engine.stream.length) :
    ∃ applied, Reaches (next b) y { y with
        store := b.materialize x.store.engine.stream.length y.store, applied } ∧
      x.applied ⊆ applied ∧ ∀ i, x.store.engine.stream.length ≤ i →
        i < y.store.engine.stream.length → i ∈ applied := by
  refine ⟨_, reaches_of_applies x.store.engine.stream.length
    (y.store.engine.stream.length - x.store.engine.stream.length) (by omega) ?_, ?_, ?_⟩
  · rw [happlied]
    exact h.applied
  · rw [happlied]
    exact List.subset_append_right _ _
  · intro i hlow hhigh
    refine List.mem_append_left _ (List.mem_reverse.mpr (List.mem_range'_1.mpr ⟨hlow, ?_⟩))
    omega

/-- A batch is loaded. -/
lemma exists_alone_of_load (hlive : Live x) (hidle : x.threads t = .idle) (hbatch : x.batch = [])
    (failure : ℕ → Option (IoError × ℕ)) (recs : List GrainRec) :
    ∃ y, Alone b t x y (b.run x.store failure (.load recs)).1
      ((b.run x.store failure (.load recs)).2.toList.map fun a => (.load recs, a)) .idle := by
  set batch := recs.mapIdx fun i r => (r, failure i) with hmap
  have hrecs : batch.map Prod.fst = recs := by
    refine List.ext_getElem (by simp [hmap]) ?_
    intro i _ _
    simp [hmap]
  have hlen : batch.length = recs.length := List.length_mapIdx
  have hstart : next b x (.start t (.load recs)) =
      some (x.goto t (.loading recs recs x.store.lastSeq)) := by
    simp only [next, hidle]
    rfl
  have hput := reaches_of_putAll (b := b) (t := t) hbatch recs batch x.store.lastSeq
  have hgrow : x.store.engine.stream.length ≤
      (Store.putAll x.store.engine x.store.lastSeq batch).1.stream.length :=
    hlive.stream_le fun _ _ hshows => shows_putAll hshows _ _
  rw [hrecs] at hput
  cases hall : Store.putAll x.store.engine x.store.lastSeq batch with
  | mk e answer =>
    rw [hall] at hput hgrow
    cases answer with
    | ok seq =>
      -- the load waits until the workers have applied its changes
      obtain ⟨applied, happlies, hsub, hcaught⟩ := hlive.materialize (b := b)
        (y := (x.withEngine e).goto t (.loading recs [] seq)) rfl hgrow
      set index := (b.materialize x.store.engine.stream.length ⟨e, x.store.lastSeq⟩).engine.index
        with hindex
      have hrun : b.run x.store failure (.load recs) =
          (⟨{ e with index }, max x.store.lastSeq seq⟩,
            some (.loaded recs.length (b.index.len index))) := by
        simp only [Backend.run, Backend.load, Store.load, ← hmap, hall, hlen]
        rfl
      rw [hrun]
      set y : Service I D := { (x.withEngine e).goto t (.loading recs [] seq) with
        store := b.materialize x.store.engine.stream.length ⟨e, x.store.lastSeq⟩, applied } with hy
      have hfinish : next b y (.finish t) = some ({ y with
          store := ⟨{ e with index }, max x.store.lastSeq seq⟩ }.answer t (.load recs)
            (.loaded recs.length (b.index.len index))) := by
        have hthread : y.threads t = .loading recs [] seq := threads_goto (x.withEngine e) t _
        simp only [next, hthread]
        rfl
      refine ⟨_, (Reaches.head hstart hput).trans (happlies.trans (Reaches.head hfinish
        (Reaches.refl _))), rfl, rfl, hbatch, threads_goto _ _ _, ?_, hsub, hcaught⟩
      intro u hu
      exact (threads_goto_ne hu _).trans (threads_goto_ne hu _)
    | error err =>
      obtain ⟨applied, happlies, hsub, hcaught⟩ := hlive.materialize (b := b)
        (y := (x.withEngine e).answer t (.load recs) (.failed err)) rfl hgrow
      have hrun : b.run x.store failure (.load recs) =
          (b.materialize x.store.engine.stream.length ⟨e, x.store.lastSeq⟩,
            some (.failed err)) := by
        simp only [Backend.run, Backend.load, Store.load, ← hmap, hall]
      rw [hrun]
      exact ⟨_, (Reaches.head hstart hput).trans happlies, rfl, rfl, hbatch, threads_goto _ _ _,
        fun u hu => threads_goto_ne hu _, hsub, hcaught⟩

/-- A query is carried out, or panics for want of room. -/
lemma exists_alone_of_query (hidle : x.threads t = .idle) (hbatch : x.batch = [])
    (failure : ℕ → Option (IoError × ℕ)) (args : QueryArgs) :
    ∃ y, Alone b t x y (b.run x.store failure (.query args)).1
      ((b.run x.store failure (.query args)).2.toList.map fun a => (.query args, a))
      (if (b.run x.store failure (.query args)).2.isSome then .idle else .gone) := by
  have hstart : next b x (.start t (.query args)) = some (x.begin b t (.query args)) := by
    simp only [next, hidle]
  cases hroom : b.room args with
  | none =>
    have hrun : b.run x.store failure (.query args) = (x.store, none) := by
      rw [Backend.run, query_eq_none_iff.mpr hroom]
    rw [begin, hroom] at hstart
    rw [hrun]
    exact ⟨_, Reaches.head hstart (Reaches.refl _), rfl, (List.append_nil _).symm, hbatch,
      threads_goto _ _ _, fun u hu => threads_goto_ne hu _, List.Subset.refl _,
      fun _ hlow hhigh => absurd hhigh (not_lt.mpr hlow)⟩
  | some n =>
    have hsome : (b.room args).isSome := hroom ▸ rfl
    rw [begin, hroom] at hstart
    have hprobes := reaches_of_probes (b := b) (x := x) (t := t) args b.index.parts [] rfl
    rw [List.length_nil, Nat.zero_add, List.map_nil, List.nil_append] at hprobes
    set parts := (List.range b.index.parts).map fun p => b.index.probe x.store.engine.index p
      (mixed b args).query (mixed b args).fetch (mixed b args).ef with hparts
    have hfound : ((List.range b.index.parts).map fun p => some (b.index.probe x.store.engine.index
        p (mixed b args).query (mixed b args).fetch (mixed b args).ef)) = parts.map some := by
      rw [hparts, List.map_map]
      rfl
    rw [hfound] at hprobes
    have hmerge : next b (x.goto t (.searching args (parts.map some))) (.merge t) =
        some (x.goto t (.joining args (mergeParts (mixed b args).fetch parts) [])) := by
      simp [next, List.filterMap_map]
    have hreaches := (Reaches.head hstart hprobes).trans (Reaches.head hmerge (Reaches.refl _))
    cases hjoin : joinCandidates (fun sid => x.store.engine.truth.read sid PRED) args.passes
        (mergeParts (mixed b args).fetch parts) with
    | error err =>
      have hrun : b.run x.store failure (.query args) = (x.store, some (.failed err)) := by
        rw [Backend.run, query_of_join_error hsome hjoin]
      rw [hrun]
      exact ⟨_, alone_of_answer hbatch (hreaches.trans (reaches_of_join_error hjoin []))⟩
    | ok out =>
      have hrun : b.run x.store failure (.query args) = (x.store,
          some (.rows (((out.insertionSort fun a b => a.dist ≤ b.dist).take args.k).map hitOf))) := by
        rw [Backend.run, query_of_join_ok hsome hjoin]
      rw [hrun]
      have hfinish : next b (x.goto t (.joining args [] out)) (.finish t) =
          some (x.answer t (.query args)
            (.rows (((out.insertionSort fun a b => a.dist ≤ b.dist).take args.k).map hitOf))) := by
        simp only [next, threads_goto, answer_goto]
      have hjoined := reaches_of_join_ok (b := b) (t := t) hjoin []
      rw [List.nil_append] at hjoined
      exact ⟨_, alone_of_answer hbatch (hreaches.trans (hjoined.trans (Reaches.head hfinish
        (Reaches.refl _))))⟩

/-- A job that a thread carries out with no other one under way ends as `Backend.run` says, for the
store and for the client. -/
theorem exists_alone_of_run (hlive : Live x) (hidle : x.threads t = .idle) (hbatch : x.batch = [])
    (failure : ℕ → Option (IoError × ℕ)) (job : Job) :
    ∃ y, Alone b t x y (b.run x.store failure job).1
      ((b.run x.store failure job).2.toList.map fun a => (job, a))
      (if (b.run x.store failure job).2.isSome then .idle else .gone) := by
  have hstart : next b x (.start t job) = some (x.begin b t job) := by
    simp only [next, hidle]
  cases job with
  | health => exact ⟨_, alone_of_answer hbatch (Reaches.head hstart (Reaches.refl _))⟩
  | stats => exact ⟨_, alone_of_answer hbatch (Reaches.head hstart (Reaches.refl _))⟩
  | refuse code e => exact ⟨_, alone_of_answer hbatch (Reaches.head hstart (Reaches.refl _))⟩
  | load recs =>
    obtain ⟨y, hy⟩ := exists_alone_of_load (b := b) hlive hidle hbatch failure recs
    have hanswered : (b.run x.store failure (.load recs)).2.isSome := by
      rw [Backend.run]
      split
      · rfl
      · rfl
    rw [if_pos hanswered]
    exact ⟨y, hy⟩
  | query args => exact exists_alone_of_query hidle hbatch failure args

/-- A thread that is asked all the requests, with the others doing nothing, is a run of the daemon:
it answers the jobs of the requests in order, up to a panic, the responses are those of `serve`, one
request after the other, and so is the store that is left. -/
theorem reaches_of_requests {x₀ : Service I D} {hist : List (Service I D × Event)}
    (hfresh : fresh b = some x₀) (hrun : Run (next b) x₀ hist x) (distance : D → JsonValue)
    (hidle : x.threads t = .idle) (hbatch : x.batch = [])
    (requests : List (Request × (ℕ → Option (IoError × ℕ)))) :
    ∃ y done, Alone b t x y (b.serve distance x.store requests).1 done
        (if done.length = requests.length then .idle else .gone) ∧
      done.map Prod.fst = (requests.map fun rq => rq.1.job b.fromStr).take done.length ∧
      done.map (fun a => a.2.response distance) = (b.serve distance x.store requests).2 := by
  have hlive := live_of_run hfresh hrun
  clear hrun
  induction requests generalizing x with
  | nil => exact ⟨x, [], Alone.refl hidle hbatch, rfl, rfl⟩
  | cons rq rest ih =>
    obtain ⟨rq, failure⟩ := rq
    obtain ⟨y, hy⟩ := exists_alone_of_run (b := b) hlive hidle hbatch failure (rq.job b.fromStr)
    cases hended : b.run x.store failure (rq.job b.fromStr) with
    | mk store answer =>
      rw [hended] at hy
      cases answer with
      | none =>
        have hserve : b.serve distance x.store ((rq, failure) :: rest) = (store, []) := by
          simp only [Backend.serve, Backend.handle, hended, Option.map_none]
        rw [hserve]
        exact ⟨y, [], hy, rfl, rfl⟩
      | some a =>
        obtain ⟨z, done, hz, hjobs, hresponses⟩ := ih (x := y) hy.thread hy.batch
          (hlive.reaches hy.reaches)
        rw [hy.store] at hz hresponses
        have hserve : b.serve distance x.store ((rq, failure) :: rest) =
            ((b.serve distance store rest).1,
              a.response distance :: (b.serve distance store rest).2) := by
          simp only [Backend.serve, Backend.handle, hended, Option.map_some]
        rw [hserve]
        refine ⟨z, (rq.job b.fromStr, a) :: done, ?_, ?_, ?_⟩
        · have hlen : ((rq.job b.fromStr, a) :: done).length = ((rq, failure) :: rest).length ↔
              done.length = rest.length := by simp
          simp only [hlen]
          exact hy.trans hz
        · rw [List.map_cons, hjobs, List.map_cons, List.length_cons, List.take_succ_cons]
        · rw [List.map_cons, hresponses]

omit [LE D] [DecidableLE D] in
/-- No thread of a fresh daemon is at work, and no record is on its way. -/
lemma idle_fresh {x₀ : Service I D} (hfresh : fresh b = some x₀) :
    (∀ t, x₀.threads t = .idle) ∧ x₀.batch = [] := by
  unfold fresh at hfresh
  split at hfresh
  · obtain rfl := Option.some.inj hfresh
    exact ⟨fun _ => rfl, rfl⟩
  · cases hfresh

namespace DaemonExample

def grains : JsonValue :=
  .object [("grains", .array
    [.object [("sid", .number (.posInt 1)), ("text", .string "abcd")],
      .object [("sid", .number (.posInt 2)), ("text", .string "a")]])]

/-- A parser that knows three texts: two grains, a query, and a call of a tool with the grains. -/
def fromStr : String → Except String JsonValue
  | "grains" => .ok grains
  | "load" => .ok (.object [("id", .number (.posInt 1)), ("method", .string "tools/call"),
      ("params", .object [("name", .string "grain_load"), ("arguments", grains)])])
  | "query" => .ok (.object [("text", .string "ab"), ("k", .number (.posInt 2))])
  | _ => .error "expected value"

/-- A daemon with the exact index; the vector of a text is its length. -/
def backend : Backend (VectorMap ℕ) ℕ ℕ where
  fromStr
  index := SplitIndex.brute Std.ExtTreeMap.toList fun q v => (q - v) + (v - q)
  embedBytes := List.length
  dim := 1

def grainRecs : List GrainRec := [⟨1, 0, 0, "abcd"⟩, ⟨2, 0, 0, "a"⟩]

def queryArgs : QueryArgs := ⟨"ab", none, none, none, 2⟩

def session : List (Request × (ℕ → Option (IoError × ℕ))) :=
  [(⟨.post, "/grains", some "grains"⟩, fun _ => none),
    (⟨.post, "/query", some "query"⟩, fun _ => none), (⟨.get, "/", none⟩, fun _ => none)]

/-- The sids of the rows of a response. -/
def sids (r : HttpResponse) : List (Option U64) :=
  (((r.body.get "matches").bind JsonValue.asArray).getD []).map fun row =>
    (row.get "sid").bind JsonValue.asU64

end DaemonExample

open DaemonExample in
/-- Two grains are loaded, a query finds them, and a path is not found. -/
theorem reaches_of_requests_load : ∃ x₀ y done, fresh backend = some x₀ ∧
    Alone backend 0 x₀ y (backend.serve jsonUsize x₀.store session).1 done .idle ∧
    done.map Prod.fst = [.load grainRecs, .query queryArgs, .refuse 404 "not found"] ∧
    done.map (fun a => (a.2.response jsonUsize).status) = [200, 200, 404] ∧
    done.map (fun a => sids (a.2.response jsonUsize)) = [[], [some 2, some 1], []] := by
  have hfresh : (fresh backend).map (fun x => ((backend.serve jsonUsize x.store session).2.map
      HttpResponse.status, (backend.serve jsonUsize x.store session).2.map sids)) =
        some ([200, 200, 404], [[], [some 2, some 1], []]) := by decide +kernel
  obtain ⟨x₀, hx₀, heq⟩ := Option.map_eq_some_iff.mp hfresh
  obtain ⟨hstatus, hsids⟩ := Prod.mk.inj heq
  obtain ⟨hidle, hbatch⟩ := idle_fresh hx₀
  obtain ⟨y, done, halone, hjobs, hresponses⟩ := reaches_of_requests (b := backend) hx₀ Run.start
    jsonUsize (hidle 0) hbatch session
  have hlen : done.length = session.length := by
    have hlen := congrArg List.length hresponses
    rw [List.length_map] at hlen
    rw [hlen, ← List.length_map (f := HttpResponse.status), hstatus]
    rfl
  refine ⟨x₀, y, done, hx₀, ?_, ?_, ?_, ?_⟩
  · rw [if_pos hlen] at halone
    exact halone
  · rw [hjobs, hlen]
    decide +kernel
  · rw [← hstatus, ← hresponses, List.map_map]
    rfl
  · rw [← hsids, ← hresponses, List.map_map]
    rfl

end Service

end GrainStore
