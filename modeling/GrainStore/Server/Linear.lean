import Mathlib
import GrainStore.Server.Answers

/-!
# Queries in one moment

A query is not carried out at a stroke: the parts of the index are searched one after the other, and
the candidates are joined to the store one by one, while loads and workers go on.  Its answer is
nevertheless the one that it would have had at once, each part of the index taken as it was when it
was searched (`answers_from_parts`).  An index of one part is searched in one moment, and the answer
is that of the whole daemon at that moment (`answers_atomic`).
-/

namespace GrainStore

namespace Service

variable {I V D : Type*} [LinearOrder D] {b : Backend I V D} {dist : V → V → D} {route : Sid → ℕ}
  {Holds : I → VectorMap V → Prop} {recs : List GrainRec} {x x₀ : Service I D}
  {hist : List (Service I D × Event)} {disk : Bytes} {s s' : LogStore} {past past' : List (Service I D)}

section Definitions

/-- The candidates of a query whose parts are searched in the states `ys`. -/
def candidates (b : Backend I V D) (args : QueryArgs) (ys : ℕ → Service I D) : List (Candidate D) :=
  mergeParts (mixed b args).fetch ((List.range b.index.parts).map fun p =>
    b.index.probe (ys p).store.engine.index p (mixed b args).query (mixed b args).fetch
      (mixed b args).ef)

/-- The rows of a query with these joined candidates. -/
def ranked (args : QueryArgs) (out : List (Ranked D)) : List (QueryHit D) :=
  ((out.insertionSort fun a b => a.dist ≤ b.dist).take args.k).map hitOf

/-- What joining some candidates gives, as the store is. -/
def joined (s : LogStore) (args : QueryArgs) (done : List (Candidate D)) : List (Ranked D) :=
  done.filterMap fun c => ((s.read c.sid PRED).filter args.passes).map fun g => ⟨g, c.dist⟩

variable (b : Backend I V D) (dist : V → V → D) (past : List (Service I D)) (s : LogStore)

/-- What a query has in hand was found in states of the past, and there was room for it. -/
def ThreadFrom : Thread D → Prop
  | .searching args found => (b.room args).isSome ∧
    ∀ p part, found[p]? = some (some part) → ∃ y ∈ past, part = b.index.probe
      y.store.engine.index p (mixed b args).query (mixed b args).fetch (mixed b args).ef
  | .joining args rest out => (b.room args).isSome ∧
    ∃ ys : ℕ → Service I D, (∀ p < b.index.parts, ys p ∈ past) ∧
    ∃ done, candidates b args ys = done ++ rest ∧ out = joined s args done ∧
      ∀ c ∈ done, Found b dist s.log (b.embedText args.text) c
  | _ => True

/-- What a query was answered was found in states of the past. -/
def AnswerFrom : Job × Answer D → Prop
  | (.query args, .rows hits) => (b.room args).isSome ∧
    ∃ ys : ℕ → Service I D, (∀ p < b.index.parts, ys p ∈ past) ∧
    (∀ c ∈ candidates b args ys, Found b dist s.log (b.embedText args.text) c) ∧
      hits = ranked args (joined s args (candidates b args ys))
  | _ => True

/-- Everything was found in states of the past. -/
structure Traced (x : Service I D) : Prop where
  threads : ∀ t, ThreadFrom b dist past s (x.threads t)
  answered : ∀ a ∈ x.answered, AnswerFrom b dist past s a

end Definitions

/-! ## A growing log -/

omit [LinearOrder D] in
/-- Candidates with a record are joined to the same grains from then on. -/
lemma joined_mono (honce : Once recs s.log) (honce' : Once recs s'.log) (hlog : s.log ⊆ s'.log)
    (args : QueryArgs) {q : V} {done : List (Candidate D)}
    (hdone : ∀ c ∈ done, Found b dist s.log q c) : joined s args done = joined s' args done := by
  refine List.filterMap_congr ?_
  intro c hc
  obtain ⟨w, hw, hsid, -⟩ := hdone c hc
  rw [← hsid, honce.read hw, honce'.read (hlog hw)]

lemma ThreadFrom.mono (honce : Once recs s.log) (honce' : Once recs s'.log)
    (hlog : s.log ⊆ s'.log) (hpast : past ⊆ past') {th : Thread D}
    (h : ThreadFrom b dist past s th) : ThreadFrom b dist past' s' th := by
  cases th with
  | searching args found =>
    obtain ⟨hroom, hfound⟩ := h
    refine ⟨hroom, ?_⟩
    intro p part hp
    obtain ⟨y, hy, hpart⟩ := hfound p part hp
    exact ⟨y, hpast hy, hpart⟩
  | joining args rest out =>
    obtain ⟨hroom, ys, hys, done, hcandidates, hout, hdone⟩ := h
    exact ⟨hroom, ys, fun p hp => hpast (hys p hp), done, hcandidates,
      hout.trans (joined_mono honce honce' hlog args hdone), fun c hc => (hdone c hc).mono hlog⟩
  | _ => trivial

lemma AnswerFrom.mono (honce : Once recs s.log) (honce' : Once recs s'.log)
    (hlog : s.log ⊆ s'.log) (hpast : past ⊆ past') {a : Job × Answer D}
    (h : AnswerFrom b dist past s a) : AnswerFrom b dist past' s' a := by
  unfold AnswerFrom at h ⊢
  split at h
  · obtain ⟨hroom, ys, hys, hfound, hhits⟩ := h
    refine ⟨hroom, ys, fun p hp => hpast (hys p hp), fun c hc => (hfound c hc).mono hlog, ?_⟩
    rw [← joined_mono honce honce' hlog _ hfound]
    exact hhits
  · trivial

lemma Traced.mono (honce : Once recs s.log) (honce' : Once recs s'.log)
    (hlog : s.log ⊆ s'.log) (hpast : past ⊆ past') (h : Traced b dist past s x) :
    Traced b dist past' s' x :=
  ⟨fun t => (h.threads t).mono honce honce' hlog hpast,
    fun a ha => (h.answered a ha).mono honce honce' hlog hpast⟩

/-! ## Steps -/

/-- A thread goes on to something that was found in states of the past. -/
lemma Traced.goto (h : Traced b dist past s x) {t : ℕ} {th : Thread D}
    (hth : ThreadFrom b dist past s th) : Traced b dist past s (x.goto t th) := by
  refine ⟨?_, h.answered⟩
  intro t'
  by_cases ht : t' = t
  · subst ht
    have hself : (x.goto t' th).threads t' = th := Function.update_self _ _ _
    rwa [hself]
  · have hother : (x.goto t th).threads t' = x.threads t' := Function.update_of_ne ht _ _
    rw [hother]
    exact h.threads t'

/-- A thread answers what was found in states of the past. -/
lemma Traced.answer (h : Traced b dist past s x) {t : ℕ} {job : Job} {a : Answer D}
    (ha : AnswerFrom b dist past s (job, a)) : Traced b dist past s (x.answer t job a) := by
  refine ⟨(h.goto (t := t) (show ThreadFrom b dist past s .idle from trivial)).threads, ?_⟩
  intro p hp
  rcases List.mem_append.mp hp with hp | hp
  · exact h.answered p hp
  · exact List.mem_singleton.mp hp ▸ ha

/-- A part is searched in the present state. -/
lemma Traced.probe (h : Traced b dist past s x) (hx : x ∈ past) {t p : ℕ} {args : QueryArgs}
    {found : List (Option (List (Candidate D)))} (hth : x.threads t = .searching args found) :
    ThreadFrom b dist past s (.searching args (found.set p (some (b.index.probe
      x.store.engine.index p (mixed b args).query (mixed b args).fetch (mixed b args).ef)))) := by
  have hfound := h.threads t
  rw [hth] at hfound
  refine ⟨hfound.1, ?_⟩
  intro p' part hpart
  rw [List.getElem?_set] at hpart
  split at hpart
  · rename_i heq
    obtain rfl := heq
    split at hpart
    · exact ⟨x, hx, (Option.some.inj (Option.some.inj hpart)).symm⟩
    · cases hpart
  · exact hfound.2 p' part hpart

/-- All parts were searched. -/
lemma Traced.merge (h : Traced b dist past s x) {t : ℕ} {args : QueryArgs}
    {found : List (Option (List (Candidate D)))} (hth : x.threads t = .searching args found)
    (hlen : found.length = b.index.parts) (hall : found.all Option.isSome) :
    ThreadFrom b dist past s
      (.joining args (mergeParts (mixed b args).fetch (found.filterMap id)) []) := by
  have hfound := h.threads t
  rw [hth] at hfound
  obtain ⟨parts, rfl⟩ := exists_map_some hall
  rw [List.length_map] at hlen
  have hparts : ∀ p, ∃ y, ∀ part, parts[p]? = some part → y ∈ past ∧
      part = b.index.probe y.store.engine.index p (mixed b args).query (mixed b args).fetch
        (mixed b args).ef := by
    intro p
    cases hp : parts[p]? with
    | none => exact ⟨x, fun part hpart => by cases hpart⟩
    | some part =>
      obtain ⟨y, hy, hpart⟩ := hfound.2 p part (by rw [List.getElem?_map, hp]; rfl)
      exact ⟨y, fun part' hpart' => Option.some.inj hpart' ▸ ⟨hy, hpart⟩⟩
  choose ys hys using hparts
  have hmap : parts = (List.range b.index.parts).map fun p =>
      b.index.probe (ys p).store.engine.index p (mixed b args).query (mixed b args).fetch
        (mixed b args).ef := by
    refine List.ext_getElem (by rw [List.length_map, List.length_range, hlen]) ?_
    intro p hp _
    rw [List.getElem_map, List.getElem_range]
    exact (hys p _ (List.getElem?_eq_getElem hp)).2
  refine ⟨hfound.1, ys, ?_, [], ?_, rfl, fun c hc => by cases hc⟩
  · intro p hp
    exact (hys p _ (List.getElem?_eq_getElem (hlen ▸ hp))).1
  · rw [filterMap_id_map_some, List.nil_append, candidates, ← hmap]

omit [LinearOrder D] in
lemma joined_concat (args : QueryArgs) (done : List (Candidate D)) (c : Candidate D) :
    joined s args (done ++ [c]) = joined s args done ++
      (((s.read c.sid PRED).filter args.passes).map fun g => (⟨g, c.dist⟩ : Ranked D)).toList := by
  rw [joined, List.filterMap_append, joined, List.filterMap_cons]
  cases ((s.read c.sid PRED).filter args.passes).map fun g => (⟨g, c.dist⟩ : Ranked D) with
  | none => rfl
  | some r => rfl

/-- A candidate is joined. -/
lemma Traced.join (h : Traced b dist past s x) {t : ℕ} {args : QueryArgs} {c : Candidate D}
    {rest : List (Candidate D)} {out : List (Ranked D)}
    (hth : x.threads t = .joining args (c :: rest) out)
    (hc : Found b dist s.log (b.embedText args.text) c) :
    ThreadFrom b dist past s (.joining args rest (out ++
      (((s.read c.sid PRED).filter args.passes).map fun g => ⟨g, c.dist⟩).toList)) := by
  have hfrom := h.threads t
  rw [hth] at hfrom
  obtain ⟨hroom, ys, hys, done, hcandidates, rfl, hdone⟩ := hfrom
  refine ⟨hroom, ys, hys, done ++ [c], by rw [hcandidates, List.append_assoc]; rfl,
    (joined_concat args done c).symm, ?_⟩
  intro c' hc'
  rcases List.mem_append.mp hc' with hc' | hc'
  · exact hdone c' hc'
  · exact List.mem_singleton.mp hc' ▸ hc

/-- All candidates are joined. -/
lemma Traced.rows (h : Traced b dist past s x) {t : ℕ} {args : QueryArgs} {out : List (Ranked D)}
    (hth : x.threads t = .joining args [] out) :
    AnswerFrom b dist past s (.query args, .rows (ranked args out)) := by
  have hfrom := h.threads t
  rw [hth] at hfrom
  obtain ⟨hroom, ys, hys, done, hcandidates, rfl, hdone⟩ := hfrom
  rw [List.append_nil] at hcandidates
  exact ⟨hroom, ys, hys, hcandidates ▸ hdone, by rw [hcandidates]⟩

/-- Those who wait for the committer are told. -/
lemma Traced.acks (h : Traced b dist past s x) (told : List ((ℕ × GrainRec) × Except Error U64)) :
    Traced b dist past s (x.acks told) := by
  induction told generalizing x with
  | nil => exact h
  | cons p told ih =>
    refine ih (x := x.ack p.1.1 p.2) ?_
    cases hth : x.threads p.1.1 with
    | committing all r rest maxSeq =>
      rw [ack_of_committing hth]
      cases p.2 with
      | ok seq => exact h.goto trivial
      | error err => exact h.answer trivial
    | _ =>
      unfold Service.ack
      rw [hth]
      exact h

/-- A step finds nothing elsewhere. -/
lemma Traced.step {y : Service I D} {e : Event} (hgood : Good b dist route Holds recs x disk s)
    (hstep : Step b x e y) (hx : x ∈ past) (h : Traced b dist past s x) :
    Traced b dist past s y := by
  cases hstep with
  | @start t job hth =>
    cases job with
    | health => exact h.answer trivial
    | stats => exact h.answer trivial
    | load batch => exact h.goto trivial
    | query args =>
      unfold begin
      dsimp only
      split
      · rename_i hroom
        refine h.goto ⟨hroom ▸ rfl, fun p part hp => ?_⟩
        rw [List.getElem?_replicate] at hp
        split at hp
        · cases hp
        · cases hp
      · exact h.goto trivial
    | refuse code e => exact h.answer trivial
  | @scan t all rest r maxSeq hth hrun hkey hearly =>
    have hwaits := h.goto (t := t)
      (show ThreadFrom b dist past s (.committing all r rest maxSeq) from trivial)
    exact ⟨hwaits.threads, hwaits.answered⟩
  | scanEarly hth hrun hearly => exact h.goto trivial
  | scanPanicked hth =>
    have hended : Traced b dist past s (x.withEngine { x.store.engine with
        truth := { x.store.engine.truth with running := false } }) := ⟨h.threads, h.answered⟩
    exact hended.answer trivial
  | @scanRepeated t all rest r maxSeq seq hth hnew hput =>
    have hput : Traced b dist past s (x.withEngine (putRec x.store.engine r none).1) :=
      ⟨h.threads, h.answered⟩
    exact hput.goto trivial
  | @scanClosed t all rest r maxSeq err hth hnew hput =>
    have hput : Traced b dist past s (x.withEngine (putRec x.store.engine r none).1) :=
      ⟨h.threads, h.answered⟩
    exact hput.answer trivial
  | write failure hne =>
    have hwritten : Traced b dist past s { x.withEngine { x.store.engine with
        truth := (x.store.engine.truth.commitBatch (x.batch.map fun p => p.2.req) failure).1 } with
          batch := [] } := ⟨h.threads, h.answered⟩
    exact hwritten.acks _
  | @probe t p args found hth hp => exact h.goto (h.probe hx hth)
  | @merge t args found hth hall =>
    have hok := hgood.threads t
    rw [hth] at hok
    exact h.goto (h.merge hth hok.1 hall)
  | joinFailed hth hread => exact h.answer trivial
  | @joinNone t args c rest out hth hread =>
    have hok := hgood.threads t
    rw [hth] at hok
    rw [hgood.shows.read, Except.ok.injEq] at hread
    have hjoin := h.join hth (hok.2.1 c List.mem_cons_self)
    rw [hread, Option.filter_none, Option.map_none, Option.toList_none, List.append_nil] at hjoin
    exact h.goto hjoin
  | @join t args c rest out g hth hread =>
    have hok := hgood.threads t
    rw [hth] at hok
    rw [hgood.shows.read, Except.ok.injEq] at hread
    have hjoin := h.join hth (hok.2.1 c List.mem_cons_self)
    rw [hread, Option.filter_some] at hjoin
    by_cases hpass : args.passes g
    · rw [if_pos hpass] at hjoin ⊢
      exact h.goto hjoin
    · rw [if_neg hpass, Option.map_none, Option.toList_none, List.append_nil] at hjoin
      rw [if_neg hpass]
      exact h.goto hjoin
  | @loaded t all maxSeq hth =>
    have hstore : Traced b dist past s
        { x with store := { x.store with lastSeq := max x.store.lastSeq maxSeq } } :=
      ⟨h.threads, h.answered⟩
    exact hstore.answer trivial
  | @rows t args out hth => exact h.answer (h.rows hth)
  | apply hi hr => exact ⟨h.threads, h.answered⟩
  | restart hopen => exact ⟨fun _ => trivial, h.answered⟩

/-! ## Runs -/

lemma traced_of_run (hix : b.index.Lawful dist route Holds) (hfresh : fresh b = some x₀)
    (h : Trace.Run (next b) x₀ hist x) (hclean : Clean hist) :
    ∃ disk s, Good b dist route Holds (submitted hist) x disk s ∧
      (∀ y ∈ Trace.states hist x, ∃ disk' s',
        Good b dist route Holds (submitted hist) y disk' s' ∧ s'.log ⊆ s.log) ∧
      Traced b dist (Trace.states hist x) s x := by
  refine good_and_of_run (P := fun hist s x => Traced b dist (Trace.states hist x) s x) hix hfresh
    (fun s => ?_) (fun {hist recs y z e disk disk' s s'} hgood hgood' hlog hstep htraced => ?_) h
      hclean
  · unfold fresh at hfresh
    split at hfresh
    · obtain rfl := Option.some.inj hfresh
      exact ⟨fun _ => trivial, fun a ha => by cases ha⟩
    · cases hfresh
  · rw [Trace.states_concat]
    exact (htraced.step hgood hstep Trace.mem_states_self).mono hgood.once hgood'.once hlog.sub
      (List.subset_append_left _ _)

omit [LinearOrder D] in
/-- Joining to a store joins to its log. -/
lemma joinCandidates_shows {t : TruthStore} (hshows : t.Shows disk s) (args : QueryArgs)
    (cs : List (Candidate D)) :
    joinCandidates (fun sid => t.read sid PRED) args.passes cs = .ok (joined s args cs) :=
  joinCandidates_ok (fun sid => hshows.read sid PRED) args.passes cs

/-- A query answers as if it had been carried out at once.  Whatever the other threads, the workers
and restarts did in between, each part of the index was searched in one state of the run, and the
answer is the ranked join of what the parts found, to the store as it is now or at any later
time. -/
theorem answers_from_parts (hix : b.index.Lawful dist route Holds) (hfresh : fresh b = some x₀)
    (h : Trace.Run (next b) x₀ hist x) (hclean : Clean hist) {args : QueryArgs}
    {hits : List (QueryHit D)} (hmem : (.query args, .rows hits) ∈ x.answered) :
    ∃ ys : ℕ → Service I D, (∀ p < b.index.parts, ys p ∈ Trace.states hist x) ∧ ∃ out,
      joinCandidates (fun sid => x.store.engine.truth.read sid PRED) args.passes
        (candidates b args ys) = .ok out ∧ hits = ranked args out := by
  obtain ⟨disk, s, hgood, -, htraced⟩ := traced_of_run hix hfresh h hclean
  obtain ⟨-, ys, hys, -, hhits⟩ := htraced.answered _ hmem
  exact ⟨ys, hys, _, joinCandidates_shows hgood.shows args _, hhits⟩

open DaemonExample in
/-- The query of a run: the one part of its index was searched in a state of the run. -/
theorem answers_from_parts_overtaken : ∃ x₀ hist x, fresh backend = some x₀ ∧
    Trace.Run (next backend) x₀ hist x ∧ (.query queryArgs, .rows hits) ∈ x.answered ∧
    ∃ ys : ℕ → Service (VectorMap ℕ) ℕ, (∀ p < 1, ys p ∈ Trace.states hist x) ∧ ∃ out,
      joinCandidates (fun sid => x.store.engine.truth.read sid PRED) queryArgs.passes
        (candidates backend queryArgs ys) = .ok out ∧ hits = ranked queryArgs out := by
  obtain ⟨x₀, hist, x, hfresh, hrun, hclean, -, hquery, -, -⟩ := exists_run
  exact ⟨x₀, hist, x, hfresh, hrun, hquery,
    answers_from_parts lawful hfresh hrun hclean hquery⟩

/-- Over an index of one part every answer to a query is the one that the whole daemon would have
given at some moment of the run. -/
theorem answers_atomic (hix : b.index.Lawful dist route Holds) (hone : b.index.parts = 1)
    (hfresh : fresh b = some x₀) (h : Trace.Run (next b) x₀ hist x) (hclean : Clean hist)
    {args : QueryArgs} {hits : List (QueryHit D)} (hmem : (.query args, .rows hits) ∈ x.answered) :
    ∃ y ∈ Trace.states hist x, b.query y.store args = some (.ok hits) := by
  obtain ⟨disk, s, hgood, hstates, htraced⟩ := traced_of_run hix hfresh h hclean
  obtain ⟨hroom, ys, hys, -, hhits⟩ := htraced.answered _ hmem
  have hy := hys 0 (by rw [hone]; exact Nat.one_pos)
  obtain ⟨disk', s', hgood', hlog⟩ := hstates _ hy
  have hsearch : b.index.vectors.search (ys 0).store.engine.index (mixed b args).query
      (mixed b args).fetch (mixed b args).ef = candidates b args ys := by
    rw [candidates, hone]
    change mergeParts _ ((List.range b.index.parts).map _) = _
    rw [hone]
    rfl
  -- all that was found then had a record then
  obtain ⟨m, hm, hsound, -⟩ := hgood'.index
  have hfound : ∀ c ∈ candidates b args ys,
      Found b dist s'.log (b.embedText args.text) c := by
    intro c hc
    rw [← hsearch] at hc
    obtain ⟨v, hv, hdist⟩ := (hix.search hm _ _ _).2.2.2 c hc
    obtain ⟨w, hw, hsid, hembed⟩ := hsound c.sid v hv
    exact ⟨w, hw, hsid, v, hembed, hdist⟩
  refine ⟨ys 0, hy, ?_⟩
  rw [hhits, ← joined_mono hgood'.once hgood.once hlog args hfound]
  refine query_of_join_ok hroom ?_
  rw [hsearch]
  exact joinCandidates_shows hgood'.shows args _

open DaemonExample in
/-- The query of a run, as it was answered and as the daemon would have answered it. -/
theorem answers_atomic_overtaken : ∃ x₀ hist x, fresh backend = some x₀ ∧
    Trace.Run (next backend) x₀ hist x ∧ (.query queryArgs, .rows hits) ∈ x.answered ∧
    ∃ y ∈ Trace.states hist x, backend.query y.store queryArgs = some (.ok hits) := by
  obtain ⟨x₀, hist, x, hfresh, hrun, hclean, -, hquery, -, -⟩ := exists_run
  exact ⟨x₀, hist, x, hfresh, hrun, hquery,
    answers_atomic lawful rfl hfresh hrun hclean hquery⟩

end Service

end GrainStore
