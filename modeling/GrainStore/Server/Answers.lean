import Mathlib
import GrainStore.Server.Invariant

/-!
# What the daemon answers

Whatever its threads and workers do at the same time, and however often it is restarted, the answers
of the daemon agree with each other and with the store: `answers_sound` is about queries,
`reads_stable` about the store itself.  `caught_up` says that an index to which all changes were
applied, in any order, is the index of what is stored, and `query_complete` what a query then
returns.

A run starts on an empty log file, and is looked at as long as the store does not lose what it has:
the records fit the log format, and no restart finds what a failed write has left (`Clean`).
Otherwise a record that was answered for may be gone after the next restart.
-/

namespace GrainStore

open FixedWidth

namespace Service

variable {I V D : Type*} [LinearOrder D] {b : Backend I V D} {dist : V → V → D} {route : Sid → ℕ}
  {Holds : I → VectorMap V → Prop} {recs : List GrainRec} {x x₀ : Service I D}
  {hist : List (Service I D × Event)} {disk : Bytes} {s : LogStore}

/-- The records of a run fit the log format, and no restart finds what a failed write has left. -/
structure Clean (hist : List (Service I D × Event)) : Prop where
  fits : ∀ r ∈ submitted hist, Store.Fits r
  tail : ∀ y ∈ hist, y.2 = .restart → y.1.store.engine.truth.committer.tail = []

omit [LinearOrder D] in
lemma submitted_concat (y : Service I D) (e : Event) :
    submitted (hist ++ [(y, e)]) = submitted hist ++ e.submits := by
  rw [submitted, List.flatMap_append, List.flatMap_singleton, submitted]

omit [LinearOrder D] in
lemma Clean.of_concat {y : Service I D} {e : Event} (h : Clean (hist ++ [(y, e)])) :
    Clean hist := by
  refine ⟨fun r hr => h.fits r ?_, fun s hs => h.tail s (List.mem_append_left _ hs)⟩
  rw [submitted_concat]
  exact List.mem_append_left _ hr

/-- The last step of a run keeps the invariant. -/
lemma good_of_concat (hix : b.index.Lawful dist route Holds) {y z : Service I D} {e : Event}
    (hclean : Clean (hist ++ [(y, e)])) (hnext : y.next b e = some z)
    (hgood : Good b dist route Holds (submitted hist) y disk s) :
    ∃ disk' s', Good b dist route Holds (submitted (hist ++ [(y, e)])) z disk' s' ∧
      Grows y e s.log s'.log := by
  rw [submitted_concat]
  refine (hgood.mono (List.subset_append_left _ _)).step hix (step_of_next hnext)
    (List.subset_append_right _ _) ?_ fun he => ?_
  · rw [← submitted_concat]
    exact hclean.fits
  · exact hclean.tail (y, e) (List.mem_append_right _ (List.mem_singleton_self _)) he

/-- The invariant holds throughout a run, and every state of it has a part of the last log.  What
holds of the first state and is kept by steps that keep the invariant holds as well. -/
lemma good_and_of_run (hix : b.index.Lawful dist route Holds)
    {P : List (Service I D × Event) → LogStore → Service I D → Prop} (hfresh : fresh b = some x₀)
    (hstart : ∀ s, P [] s x₀)
    (hstep : ∀ {hist recs y z e disk disk' s s'}, Good b dist route Holds recs y disk s →
      Good b dist route Holds recs z disk' s' → Grows y e s.log s'.log → Step b y e z →
        P hist s y → P (hist ++ [(y, e)]) s' z)
    (h : Trace.Run (next b) x₀ hist x) (hclean : Clean hist) :
    ∃ disk s, Good b dist route Holds (submitted hist) x disk s ∧
      (∀ y ∈ Trace.states hist x, ∃ disk' s',
        Good b dist route Holds (submitted hist) y disk' s' ∧ s'.log ⊆ s.log) ∧
      P hist s x := by
  induction h with
  | start =>
    obtain ⟨disk, s, hgood⟩ := good_fresh hix hfresh
    refine ⟨disk, s, hgood, ?_, hstart s⟩
    intro y hy
    obtain rfl := List.mem_singleton.mp hy
    exact ⟨disk, s, hgood, List.Subset.refl _⟩
  | @step hist y z e hrun hnext ih =>
    obtain ⟨disk, s, hgood, hstates, hP⟩ := ih hclean.of_concat
    obtain ⟨disk', s', hgood', hlog⟩ := good_of_concat hix hclean hnext hgood
    have hsub : submitted hist ⊆ submitted (hist ++ [(y, e)]) := by
      rw [submitted_concat]
      exact List.subset_append_left _ _
    rw [Trace.states_concat]
    refine ⟨disk', s', hgood', ?_, hstep (hgood.mono hsub) hgood' hlog
      (step_of_next hnext) hP⟩
    intro w hw
    rcases List.mem_append.mp hw with hw | hw
    · obtain ⟨diskw, sw, hgoodw, hlogw⟩ := hstates w hw
      exact ⟨diskw, sw, hgoodw.mono hsub, List.Subset.trans hlogw hlog.sub⟩
    · obtain rfl := List.mem_singleton.mp hw
      exact ⟨disk', s', hgood', List.Subset.refl _⟩

/-- The invariant holds throughout a run, and every state of it has a part of the last log. -/
lemma good_of_run (hix : b.index.Lawful dist route Holds) (hfresh : fresh b = some x₀)
    (h : Trace.Run (next b) x₀ hist x) (hclean : Clean hist) :
    ∃ disk s, Good b dist route Holds (submitted hist) x disk s ∧
      ∀ y ∈ Trace.states hist x, ∃ disk' s',
        Good b dist route Holds (submitted hist) y disk' s' ∧ s'.log ⊆ s.log := by
  obtain ⟨disk, s, hgood, hstates, -⟩ := good_and_of_run (P := fun _ _ _ => True) hix hfresh
    (fun _ => trivial) (fun _ _ _ _ _ => trivial) h hclean
  exact ⟨disk, s, hgood, hstates⟩

namespace DaemonExample

/-- Another load of one of the grains, with a grain that has no text. -/
def otherRecs : List GrainRec := [⟨1, 0, 0, "x"⟩, ⟨3, 0, 0, ""⟩]

/-- Two threads load at the same time, and the second one is told of its first record while that is
still in the batch; a third thread takes a query; a worker applies the last change first, and the
daemon is restarted after the answers. -/
def events : List Event :=
  [.start 0 (.load grainRecs), .start 2 (.load otherRecs), .scan 0, .scan 2, .scan 2,
    .start 1 (.query queryArgs), .write none, .scan 0, .write none, .apply 2, .apply 0, .apply 1,
    .finish 0, .finish 2, .probe 1 0, .merge 1, .join 1, .join 1, .finish 1, .restart,
    .start 0 (.query queryArgs), .probe 0 0, .merge 0, .join 0]

def hits : List (QueryHit ℕ) := [⟨2, 0, 0, "a", 1⟩, ⟨1, 0, 0, "abcd", 2⟩]

lemma lawful : backend.index.Lawful (fun q v => (q - v) + (v - q)) (fun _ => 0) Eq :=
  SplitIndex.lawful_brute (fun _ => List.Perm.refl _) _

/-- The events can be carried out. -/
lemma exists_run : ∃ x₀ hist x, fresh backend = some x₀ ∧ Trace.Run (next backend) x₀ hist x ∧
    Clean hist ∧ submitted hist = grainRecs ++ otherRecs ∧
    (.query queryArgs, .rows hits) ∈ x.answered ∧
    ((.load grainRecs, .loaded 2 2) ∈ x.answered ∧ (.load otherRecs, .loaded 2 2) ∈ x.answered) ∧
    (∀ i < x.store.engine.stream.length, i ∈ x.applied) ∧ x.store.engine.index.size = 2 := by
  have hexec : ((fresh backend).bind fun x₀ => (Trace.exec (next backend) x₀ events).map fun p =>
      (decide ((.query queryArgs, .rows hits) ∈ p.2.answered),
        decide ((.load grainRecs, .loaded 2 2) ∈ p.2.answered),
        decide ((.load otherRecs, .loaded 2 2) ∈ p.2.answered),
        p.1.all fun y => decide (y.1.store.engine.truth.committer.tail = []),
        p.2.store.engine.stream.length, p.2.store.engine.index.size)) =
      some (true, true, true, true, 0, 2) := by decide +kernel
  obtain ⟨x₀, hfresh, hexec⟩ := Option.bind_eq_some_iff.mp hexec
  obtain ⟨⟨hist, x⟩, hrun, heq⟩ := Option.map_eq_some_iff.mp hexec
  simp only [Prod.mk.injEq, decide_eq_true_eq, List.all_eq_true] at heq
  obtain ⟨hquery, hload, hother, htail, hstream, hsize⟩ := heq
  have hsubmitted : submitted hist = grainRecs ++ otherRecs := by
    have hevents := congrArg (List.flatMap Event.submits) (Trace.map_snd_of_exec hrun)
    rw [List.flatMap_map] at hevents
    exact hevents.trans (by decide +kernel)
  refine ⟨x₀, hist, x, hfresh, Trace.run_of_exec hrun, ⟨?_, fun y hy _ => htail y hy⟩, hsubmitted,
    hquery, ⟨hload, hother⟩, by simp [hstream], hsize⟩
  rw [hsubmitted]
  decide +kernel

end DaemonExample

/-- Whatever a query has answered, at any time of a run with any number of threads and workers and
with restarts: there are at most `k` rows, no sid twice, nearest first; every row is within the
filter, its distance is that of its text to the query, and it is what was once loaded with its
sid and what the store still has. -/
theorem answers_sound (hix : b.index.Lawful dist route Holds) (hfresh : fresh b = some x₀)
    (h : Trace.Run (next b) x₀ hist x) (hclean : Clean hist) {args : QueryArgs}
    {hits : List (QueryHit D)} (hmem : (.query args, .rows hits) ∈ x.answered) :
    hits.length ≤ args.k ∧ (hits.map QueryHit.sid).Nodup ∧
      (hits.Pairwise fun a b => a.distance ≤ b.distance) ∧
      ∀ hit ∈ hits, args.admits hit ∧
        hit.distance = dist (b.embedText args.text) (b.embedText hit.text) ∧
        (∃ r ∈ submitted hist, r.sid = hit.sid ∧ r.content = hit.content) ∧
        ∃ g, x.store.engine.truth.read (hit.sid.setWidth 128) PRED = .ok (some g) ∧
          decodeVal g.val = hit.content := by
  obtain ⟨disk, s, hgood, -⟩ := good_of_run hix hfresh h hclean
  obtain ⟨hlen, hnodup, hsorted, hrows⟩ := hgood.answered _ hmem
  refine ⟨hlen, hnodup, hsorted, ?_⟩
  intro hit hhit
  obtain ⟨⟨w, hw, hsid, hcontent⟩, hadmits, hdist⟩ := hrows hit hhit
  refine ⟨hadmits, hdist, ?_, ?_⟩
  · obtain ⟨r, hr, seq, rfl⟩ := hgood.once.origin w hw
    exact ⟨r, hr, Store.setWidth_inj.mp hsid, (decodeVal_encodeVal _ _ _).symm.trans hcontent⟩
  · obtain ⟨g, hread, hval⟩ := hgood.read hw
    exact ⟨g, hsid ▸ hread, hval ▸ hcontent⟩

open DaemonExample in
/-- A query that was taken while the grains were loaded, and looked at after a restart. -/
theorem answers_sound_restarted : ∃ x₀ hist x, fresh backend = some x₀ ∧
    Trace.Run (next backend) x₀ hist x ∧ (.query queryArgs, .rows hits) ∈ x.answered ∧
    ∀ hit ∈ hits, ∃ g, x.store.engine.truth.read (hit.sid.setWidth 128) PRED = .ok (some g) ∧
      decodeVal g.val = hit.content := by
  obtain ⟨x₀, hist, x, hfresh, hrun, hclean, -, hquery, -, -⟩ := exists_run
  obtain ⟨-, -, -, hrows⟩ := answers_sound lawful hfresh hrun hclean hquery
  exact ⟨x₀, hist, x, hfresh, hrun, hquery, fun hit hhit => (hrows hit hhit).2.2.2⟩

/-- What a read has once returned, it returns from then on. -/
theorem reads_stable (hix : b.index.Lawful dist route Holds) (hfresh : fresh b = some x₀)
    (h : Trace.Run (next b) x₀ hist x) (hclean : Clean hist) {y : Service I D}
    (hy : y ∈ Trace.states hist x) {sid : Sid} {g : Grain}
    (hread : y.store.engine.truth.read sid PRED = .ok (some g)) :
    x.store.engine.truth.read sid PRED = .ok (some g) := by
  obtain ⟨disk, s, hgood, hstates⟩ := good_of_run hix hfresh h hclean
  obtain ⟨disk', s', hgood', hlog⟩ := hstates y hy
  rw [hgood'.shows.read, Except.ok.injEq] at hread
  obtain ⟨w, hw, rfl, hgrain⟩ := LogStore.exists_of_read hread
  rw [hgood.shows.read, hgood.once.read (hlog hw), ← (hgood'.once.fields hw).2.2, hgrain]

open DaemonExample in
/-- The whole of a run is read after its restart. -/
theorem reads_stable_restarted : ∃ x₀ hist x, fresh backend = some x₀ ∧
    Trace.Run (next backend) x₀ hist x ∧ x.answered ≠ [] ∧
    ∀ y ∈ Trace.states hist x, ∀ sid g, y.store.engine.truth.read sid PRED = .ok (some g) →
      x.store.engine.truth.read sid PRED = .ok (some g) := by
  obtain ⟨x₀, hist, x, hfresh, hrun, hclean, -, hquery, -, -⟩ := exists_run
  exact ⟨x₀, hist, x, hfresh, hrun, List.ne_nil_of_mem hquery, fun y hy sid g hread =>
    reads_stable lawful hfresh hrun hclean hy hread⟩

/-! ## An index that has caught up -/

/-- In an index to which all changes were applied, the vector of a sid is that of its record. -/
lemma Good.vectors_of_applied (h : Good b dist route Holds recs x disk s)
    (hall : ∀ i < x.store.engine.stream.length, i ∈ x.applied) :
    ∃ m, Holds x.store.engine.index m ∧
      ∀ sid, m[sid]? = (s.read sid PRED).bind (Grain.embedding b.embed) := by
  obtain ⟨m, hm, hsound, hbase, happlied⟩ := h.index
  have hstream : x.store.engine.stream = s.added.map WalRecord.cdc := h.shows.received
  rw [hstream, List.length_map] at hall
  have hentry : ∀ w ∈ s.log, m[w.sid]? = b.embed w.val := by
    intro w hw
    rcases List.mem_append.mp hw with hw | hw
    · exact hbase w hw
    · obtain ⟨i, hi, hget⟩ := List.getElem_of_mem hw
      obtain ⟨w', hw', hentry⟩ := happlied i (hall i hi)
      rw [List.getElem?_eq_getElem hi, hget] at hw'
      exact Option.some.inj hw' ▸ hentry
  refine ⟨m, hm, ?_⟩
  intro sid
  cases hread : s.read sid PRED with
  | some g =>
    obtain ⟨w, hw, rfl, hgrain⟩ := LogStore.exists_of_read hread
    rw [(h.once.fields hw).2.2] at hgrain
    rw [hentry w hw, ← Option.some.inj hgrain]
    rfl
  | none =>
    cases hv : m[sid]? with
    | none => rfl
    | some v =>
      obtain ⟨w, hw, rfl, -⟩ := hsound sid v hv
      rw [h.once.read hw] at hread
      cases hread

/-- The workers may apply the changes in any order: once all are applied, the index stands for
exactly the vectors of what is stored. -/
theorem caught_up (hix : b.index.Lawful dist route Holds) (hfresh : fresh b = some x₀)
    (h : Trace.Run (next b) x₀ hist x) (hclean : Clean hist)
    (hall : ∀ i < x.store.engine.stream.length, i ∈ x.applied) :
    ∃ m, Holds x.store.engine.index m ∧ ∀ sid, ∃ found,
      x.store.engine.truth.read sid PRED = .ok found ∧
        m[sid]? = found.bind (Grain.embedding b.embed) := by
  obtain ⟨disk, s, hgood, -⟩ := good_of_run hix hfresh h hclean
  obtain ⟨m, hm, hentry⟩ := hgood.vectors_of_applied hall
  exact ⟨m, hm, fun sid => ⟨_, hgood.shows.read sid PRED, hentry sid⟩⟩

open DaemonExample in
/-- The changes of two grains are applied in reverse order. -/
theorem caught_up_reversed : ∃ x₀ hist x, fresh backend = some x₀ ∧
    Trace.Run (next backend) x₀ hist x ∧ x.store.engine.index.size = 2 ∧
    ∀ sid, ∃ found, x.store.engine.truth.read sid PRED = .ok found ∧
      x.store.engine.index[sid]? = found.bind (Grain.embedding backend.embed) := by
  obtain ⟨x₀, hist, x, hfresh, hrun, hclean, -, -, -, hall, hsize⟩ := exists_run
  obtain ⟨m, rfl, hentry⟩ := caught_up lawful hfresh hrun hclean hall
  exact ⟨x₀, hist, x, hfresh, hrun, hsize, hentry⟩

/-! ## The exact index -/

section Exact

variable {iter : VectorMap V → List (Sid × V)} {b : Backend (VectorMap V) V D}
  {Holds : VectorMap V → VectorMap V → Prop} {x x₀ : Service (VectorMap V) D}
  {hist : List (Service (VectorMap V) D × Event)}

/-- Over the exact index, with candidates enough to cover it, a query returns the first of all
matches. -/
lemma Good.query (hiter : ∀ m, (iter m).Perm m.toList) (hb : b.index = SplitIndex.brute iter dist)
    (h : Good b dist route Holds recs x disk s) (args : QueryArgs)
    (hcover : x.store.engine.index.size ≤ (mixed b args).fetch) :
    b.query x.store args = some (.ok (((matching iter dist x.store.engine.index
      (fun sid => s.read sid PRED) (b.embedText args.text) args.passes).take args.k).map hitOf)) := by
  have hlen : (iter x.store.engine.index).length ≤ (mixed b args).fetch := by
    rwa [(hiter _).length_eq, Std.ExtTreeMap.length_toList]
  have hroom : b.room args = some 0 := by rw [Backend.room, hb, SplitIndex.brute]
  refine query_of_select (hroom ▸ rfl) ?_
  rw [hb, SplitIndex.vectors_brute]
  exact nearJoinSelect_of_covered iter dist x.store.engine.index args.passes (mixed b args)
    (fun sid => h.shows.read sid PRED) hlen

/-- Once the changes are applied, in any order, a query over the exact index misses nothing: of the
stored grains within its filter that have a text, each one is answered, or the answer has `k` rows
that are no farther away. -/
theorem query_complete (hiter : ∀ m, (iter m).Perm m.toList)
    (hb : b.index = SplitIndex.brute iter dist) (hfresh : fresh b = some x₀)
    (h : Trace.Run (next b) x₀ hist x) (hclean : Clean hist)
    (hall : ∀ i < x.store.engine.stream.length, i ∈ x.applied) (args : QueryArgs)
    (hcover : x.store.engine.index.size ≤ (mixed b args).fetch) :
    ∃ hits, b.query x.store args = some (.ok hits) ∧ hits.length ≤ args.k ∧
      ∀ sid g, x.store.engine.truth.read sid PRED = .ok (some g) → args.passes g →
        (decodeVal g.val).2.2 ≠ "" →
          (∃ hit ∈ hits, hit.sid.setWidth 128 = sid) ∨
            hits.length = args.k ∧ ∀ hit ∈ hits, hit.distance ≤
              dist (b.embedText args.text) (b.embedText (decodeVal g.val).2.2) := by
  have hix : b.index.Lawful dist (fun _ => 0) Eq := hb ▸ SplitIndex.lawful_brute hiter dist
  obtain ⟨disk, s, hgood, -⟩ := good_of_run hix hfresh h hclean
  obtain ⟨m, hm, hentry⟩ := hgood.vectors_of_applied hall
  subst hm
  refine ⟨_, hgood.query hiter hb args hcover, ?_, fun sid g hread hpass htext => ?_⟩
  · rw [List.length_map]
    exact List.length_take_le _ _
  set found := matching iter dist x.store.engine.index (fun sid => s.read sid PRED)
    (b.embedText args.text) args.passes with hfound
  rw [hgood.shows.read, Except.ok.injEq] at hread
  obtain ⟨w, hw, hsid, hgrain⟩ := LogStore.exists_of_read hread
  obtain ⟨r, -, seq, rfl⟩ := hgood.once.origin w hw
  have hg : g.sid = r.sid.setWidth 128 := (WalLog.key_of_grainOf hgrain).1
  have hval : g.val = .bytes r.value := by
    rw [← Option.some.inj hgrain]
    rfl
  have hdecode : (decodeVal g.val).2.2 = r.text := by
    rw [hval, GrainRec.value, decodeVal_encodeVal]
  rw [hdecode] at htext ⊢
  have hembed : g.embedding b.embed = some (b.embedText r.text) := by
    rw [Grain.embedding, hval]
    exact (embed_value r).trans (if_neg htext)
  have hmem : (⟨g, dist (b.embedText args.text) (b.embedText r.text)⟩ : Ranked D) ∈ found := by
    refine (mem_matching (hiter _)).mpr ⟨sid, _, ?_, hread, hpass, rfl⟩
    rw [hentry, hread, Option.bind_some, hembed]
  rw [← List.take_append_drop args.k found] at hmem
  rcases List.mem_append.mp hmem with hmem | hmem
  · refine Or.inl ⟨_, List.mem_map_of_mem hmem, ?_⟩
    change (g.sid.setWidth 64).setWidth 128 = sid
    have hsid' : r.sid.setWidth 128 = sid := hsid
    rw [hg, ← hsid']
    bv_omega
  · refine Or.inr ⟨?_, fun hit hhit => ?_⟩
    · have hlt : args.k < found.length := by
        by_contra hle
        rw [List.drop_eq_nil_of_le (not_lt.mp hle)] at hmem
        cases hmem
      rw [List.length_map, List.length_take_of_le hlt.le]
    · obtain ⟨r, hr, rfl⟩ := List.mem_map.mp hhit
      have hpairwise : found.Pairwise (DistLE Ranked.dist) := pairwise_matching
      rw [← List.take_append_drop args.k found, List.pairwise_append] at hpairwise
      exact hpairwise.2.2 r hr _ hmem

open DaemonExample in
/-- A query after the restart of a run. -/
theorem query_complete_restarted : ∃ x₀ hist x out, fresh backend = some x₀ ∧
    Trace.Run (next backend) x₀ hist x ∧ backend.query x.store queryArgs = some (.ok out) ∧
    ∀ sid g, x.store.engine.truth.read sid PRED = .ok (some g) → queryArgs.passes g →
      (decodeVal g.val).2.2 ≠ "" →
        (∃ hit ∈ out, hit.sid.setWidth 128 = sid) ∨
          out.length = 2 ∧ ∀ hit ∈ out, hit.distance ≤
            (2 - (utf8 (decodeVal g.val).2.2).length) + ((utf8 (decodeVal g.val).2.2).length - 2) := by
  obtain ⟨x₀, hist, x, hfresh, hrun, hclean, -, -, -, hall, hsize⟩ := exists_run
  have hcover : x.store.engine.index.size ≤ (mixed backend queryArgs).fetch := by
    rw [hsize]
    decide
  obtain ⟨out, hquery, -, hcomplete⟩ := query_complete (fun _ => List.Perm.refl _) rfl hfresh hrun
    hclean hall queryArgs hcover
  exact ⟨x₀, hist, x, out, hfresh, hrun, hquery, hcomplete⟩

end Exact

end Service

end GrainStore
