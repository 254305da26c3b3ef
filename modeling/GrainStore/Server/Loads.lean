import Mathlib
import GrainStore.Server.Answers

/-!
# What a load has loaded

A load is answered with a count once the committer has answered for each of its records.  For a new
record that is when it is written.  For a record whose sid is in the store it is at once, and so it
is for one whose sid is still in the batch of the committer, before anything is written: if that
batch is lost, then so is the record.

`loads_kept` says that this is the only way to lose what was answered for.
-/

namespace GrainStore

namespace Service

variable {I V D : Type*} [LinearOrder D] {b : Backend I V D} {dist : V → V → D} {route : Sid → ℕ}
  {Holds : I → VectorMap V → Prop} {recs : List GrainRec} {x x₀ : Service I D}
  {hist : List (Service I D × Event)} {disk disk' : Bytes} {s s' : LogStore} {sid : U64}

section Definitions

/-- A record with this sid is in the batch of the committer. -/
def InBatch (x : Service I D) (sid : U64) : Prop := ∃ p ∈ x.batch, p.2.sid = sid

/-- At this step a record is answered for as a repeat of one that is in the batch. -/
def ToldEarly (step : Service I D × Event) (sid : U64) : Prop :=
  ∃ t all r rest maxSeq, step.2 = .scan t ∧ step.1.threads t = .loading all (r :: rest) maxSeq ∧
    step.1.store.engine.truth.running = true ∧ (step.1.early r).isSome ∧ r.sid = sid

/-- At this step the batch is lost: its write fails, or the daemon is restarted before it. -/
def Loses (step : Service I D × Event) : Prop :=
  step.2 = .restart ∨ ∃ failure, step.2 = .write failure ∧ step.1.Fails failure

/-- A repeat of a record with this sid was answered for, and the batch that the record was in then
was lost, or has still to be written. -/
def Unwritten (hist : List (Service I D × Event)) (x : Service I D) (sid : U64) : Prop :=
  ∃ before step after, hist = before ++ step :: after ∧ ToldEarly step sid ∧
    (x.InBatch sid ∨ ∃ lost ∈ after, lost.1.InBatch sid ∧ Loses lost)

/-- A record with this sid is in the log, or it was answered for before it was written. -/
def Stored (hist : List (Service I D × Event)) (log : List WalRecord) (x : Service I D)
    (sid : U64) : Prop :=
  (∃ w ∈ log, w.sid = sid.setWidth 128) ∨ Unwritten hist x sid

variable (P : U64 → Prop)

/-- What a load has in hand: `P` holds of the sids that it is done with. -/
def ThreadKept : Thread D → Prop
  | .loading all rest _ => ∃ done, all = done ++ rest ∧ ∀ r ∈ done, P r.sid
  | .committing all r rest _ => ∃ done, all = done ++ r :: rest ∧ ∀ r ∈ done, P r.sid
  | _ => True

/-- What a load was answered: `P` holds of all of its sids. -/
def AnswerKept : Job × Answer D → Prop
  | (.load recs, .loaded n _) => n = recs.length ∧ ∀ r ∈ recs, P r.sid
  | _ => True

/-- What all loads have in hand, and what they were answered. -/
structure Kept (x : Service I D) : Prop where
  /-- Those in the batch wait for it. -/
  waiting : ∀ p ∈ x.batch, ∃ all rest maxSeq, x.threads p.1 = .committing all p.2 rest maxSeq
  threads : ∀ t, ThreadKept P (x.threads t)
  answered : ∀ a ∈ x.answered, AnswerKept P a

end Definitions

/-! ## Keeping what is stored -/

omit [LinearOrder D] in
/-- A record that is repeated in the batch is in the batch. -/
lemma inBatch_of_early {r : GrainRec} {seq : U64} (hearly : x.early r = some seq) :
    x.InBatch r.sid := by
  obtain ⟨i, hi, -⟩ := Option.map_eq_some_iff.mp hearly
  obtain ⟨hlt, hsid, -⟩ := List.findIdx?_eq_some_iff_getElem.mp hi
  exact ⟨x.batch[i], List.getElem_mem hlt, of_decide_eq_true hsid⟩

/-- A sid stays in the batch until the batch is written or lost. -/
lemma InBatch.step {y : Service I D} {e : Event} (h : x.InBatch sid) (hstep : Step b x e y) :
    y.InBatch sid ∨ Loses (x, e) ∨ ∃ failure, e = .write failure ∧ ¬x.Fails failure := by
  obtain ⟨p, hp, hsid⟩ := h
  cases hstep with
  | @start t job hth =>
    refine Or.inl ?_
    cases job with
    | query args =>
      unfold begin
      dsimp only
      split
      · exact ⟨p, hp, hsid⟩
      · exact ⟨p, hp, hsid⟩
    | _ => exact ⟨p, hp, hsid⟩
  | scan hth hrun hkey hearly => exact Or.inl ⟨p, List.mem_append_left _ hp, hsid⟩
  | write failure hne =>
    by_cases hfails : x.Fails failure
    · exact Or.inr (Or.inl (Or.inr ⟨failure, rfl, hfails⟩))
    · exact Or.inr (Or.inr ⟨failure, rfl, hfails⟩)
  | restart hopen => exact Or.inr (Or.inl (Or.inl rfl))
  | _ => exact Or.inl ⟨p, hp, hsid⟩

/-- What is stored stays stored. -/
lemma Stored.step {y : Service I D} {e : Event} (h : Stored hist s.log x sid)
    (hstep : Step b x e y) (hgrows : Grows x e s.log s'.log) :
    Stored (hist ++ [(x, e)]) s'.log y sid := by
  rcases h with ⟨w, hw, hsid⟩ | ⟨before, step, after, rfl, htold, hbatch⟩
  · exact Or.inl ⟨w, hgrows.sub hw, hsid⟩
  have hsplit : before ++ step :: after ++ [(x, e)] = before ++ step :: (after ++ [(x, e)]) := by
    rw [List.append_assoc, List.cons_append]
  rcases hbatch with hbatch | ⟨lost, hlost, hloses⟩
  · rcases hbatch.step hstep with hbatch' | hloses | ⟨failure, rfl, hfails⟩
    · exact Or.inr ⟨before, step, _, hsplit, htold, Or.inl hbatch'⟩
    · exact Or.inr ⟨before, step, _, hsplit, htold, Or.inr ⟨(x, e),
        List.mem_append_right _ (List.mem_singleton_self _), hbatch, hloses⟩⟩
    · obtain ⟨p, hp, rfl⟩ := hbatch
      exact Or.inl ((hgrows.written failure rfl).resolve_right hfails p hp)
  · exact Or.inr ⟨before, step, _, hsplit, htold,
      Or.inr ⟨lost, List.mem_append_left _ hlost, hloses⟩⟩

/-! ## Threads -/

variable {P Q : U64 → Prop}

omit [LinearOrder D] in
lemma Kept.mono (h : Kept P x) (hPQ : ∀ sid, P sid → Q sid) : Kept Q x := by
  refine ⟨h.waiting, ?_, ?_⟩
  · intro t
    have hkept := h.threads t
    cases hth : x.threads t with
    | loading all rest maxSeq =>
      rw [hth] at hkept
      obtain ⟨done, heq, hdone⟩ := hkept
      exact ⟨done, heq, fun r hr => hPQ _ (hdone r hr)⟩
    | committing all r rest maxSeq =>
      rw [hth] at hkept
      obtain ⟨done, heq, hdone⟩ := hkept
      exact ⟨done, heq, fun r hr => hPQ _ (hdone r hr)⟩
    | _ => trivial
  · intro a ha
    have hkept := h.answered a ha
    unfold AnswerKept at hkept ⊢
    split at hkept
    · exact ⟨hkept.1, fun r hr => hPQ _ (hkept.2 r hr)⟩
    · trivial

omit [LinearOrder D] in
/-- A thread that is not committing has nothing in the batch. -/
lemma Kept.free (h : Kept P x) {t : ℕ} {th : Thread D} (hth : x.threads t = th)
    (hnot : ∀ all r rest maxSeq, th ≠ .committing all r rest maxSeq) :
    ∀ p ∈ x.batch, p.1 ≠ t := by
  rintro p hp rfl
  obtain ⟨all, rest, maxSeq, hwaits⟩ := h.waiting p hp
  exact hnot _ _ _ _ (hth.symm.trans hwaits)

omit [LinearOrder D] in
/-- A thread that has nothing in the batch goes on to something else. -/
lemma Kept.goto (h : Kept P x) {t : ℕ} {th : Thread D} (hfree : ∀ p ∈ x.batch, p.1 ≠ t)
    (hth : ThreadKept P th) : Kept P (x.goto t th) := by
  refine ⟨?_, ?_, h.answered⟩
  · intro p hp
    obtain ⟨all, rest, maxSeq, hwaits⟩ := h.waiting p hp
    exact ⟨all, rest, maxSeq, (threads_goto_ne (hfree p hp) th).trans hwaits⟩
  · intro u
    by_cases hu : u = t
    · subst hu
      rw [threads_goto]
      exact hth
    · rw [threads_goto_ne hu]
      exact h.threads u

omit [LinearOrder D] in
lemma Kept.answer (h : Kept P x) {t : ℕ} {job : Job} {a : Answer D}
    (hfree : ∀ p ∈ x.batch, p.1 ≠ t) (ha : AnswerKept P (job, a)) : Kept P (x.answer t job a) := by
  have hidle := h.goto hfree (show ThreadKept P (.idle : Thread D) from trivial)
  refine ⟨hidle.waiting, hidle.threads, ?_⟩
  intro p hp
  rcases List.mem_append.mp hp with hp | hp
  · exact h.answered p hp
  · exact List.mem_singleton.mp hp ▸ ha

omit [LinearOrder D] in
/-- A load is done with the record that it is told `Ok` for. -/
lemma ThreadKept.committed {all rest : List GrainRec} {r : GrainRec} {maxSeq : U64}
    (h : ThreadKept P (.committing all r rest maxSeq : Thread D)) (hr : P r.sid) (seq : U64) :
    ThreadKept P (.loading all rest seq : Thread D) := by
  obtain ⟨done, rfl, hdone⟩ := h
  refine ⟨done ++ [r], by rw [List.append_assoc, List.singleton_append], ?_⟩
  intro r' hr'
  rcases List.mem_append.mp hr' with hr' | hr'
  · exact hdone r' hr'
  · rw [List.mem_singleton.mp hr']
    exact hr

omit [LinearOrder D] in
/-- Whoever is told `Ok` waited for a record of which `P` holds. -/
lemma Kept.acks {told : List ((ℕ × GrainRec) × Except Error U64)} (h : Kept P x)
    (hempty : x.batch = []) (htold : ∀ p ∈ told, ∀ seq, p.2 = .ok seq → ∀ all r rest maxSeq,
      x.threads p.1.1 = .committing all r rest maxSeq → P r.sid) : Kept P (x.acks told) := by
  induction told generalizing x with
  | nil => exact h
  | cons p told ih =>
    have hfree : ∀ q ∈ x.batch, q.1 ≠ p.1.1 := by
      rw [hempty]
      exact nofun
    have hrest := fun q hq => htold q (List.mem_cons_of_mem p hq)
    cases hth : x.threads p.1.1 with
    | committing all r rest maxSeq =>
      have hthread := h.threads p.1.1
      rw [hth] at hthread
      -- whatever the thread goes on to, it does not wait any more
      have hothers : ∀ th : Thread D, (∀ all r rest maxSeq, th ≠ .committing all r rest maxSeq) →
          ∀ q ∈ told, ∀ seq, q.2 = .ok seq → ∀ all r rest maxSeq,
            (x.goto p.1.1 th).threads q.1.1 = .committing all r rest maxSeq → P r.sid := by
        intro th hnot q hq seq hseq all' r' rest' maxSeq' hwaits
        by_cases hsame : q.1.1 = p.1.1
        · rw [hsame, threads_goto] at hwaits
          exact absurd hwaits (hnot _ _ _ _)
        · rw [threads_goto_ne hsame] at hwaits
          exact hrest q hq seq hseq _ _ _ _ hwaits
      have hacks : x.acks (p :: told) = (x.ack p.1.1 p.2).acks told := rfl
      rw [hacks, ack_of_committing hth]
      cases ha : p.2 with
      | ok seq =>
        refine ih (h.goto hfree (hthread.committed ?_ _)) hempty (hothers _ nofun)
        exact htold p List.mem_cons_self seq ha _ _ _ _ hth
      | error err => exact ih (h.answer hfree trivial) hempty (hothers .idle nofun)
    | _ =>
      have hsame : x.ack p.1.1 p.2 = x := by
        unfold ack
        rw [hth]
      have hacks : x.acks (p :: told) = x.acks told := congrArg (fun y => acks y told) hsame
      rw [hacks]
      exact ih h hempty hrest

omit [LinearOrder D] in
/-- A thread takes a job. -/
lemma Kept.begin (h : Kept P x) {t : ℕ} (hth : x.threads t = .idle) (job : Job) :
    Kept P (x.begin b t job) := by
  have hfree := h.free hth nofun
  cases job with
  | load batch => exact h.goto hfree ⟨[], rfl, nofun⟩
  | query args =>
    unfold Service.begin
    dsimp only
    split
    · exact h.goto hfree trivial
    · exact h.goto hfree trivial
  | _ => exact h.answer hfree trivial

omit [LinearOrder D] in
/-- The committer takes a record into its batch. -/
lemma Kept.scan (h : Kept P x) {t : ℕ} {all rest : List GrainRec} {r : GrainRec} {maxSeq : U64}
    (hth : x.threads t = .loading all (r :: rest) maxSeq) :
    Kept P { x.goto t (.committing all r rest maxSeq) with batch := x.batch ++ [(t, r)] } := by
  have hthread := h.threads t
  rw [hth] at hthread
  have hwaits : Kept P (x.goto t (.committing all r rest maxSeq)) :=
    h.goto (h.free hth nofun) hthread
  refine ⟨?_, hwaits.threads, hwaits.answered⟩
  intro p hp
  rcases List.mem_append.mp hp with hp | hp
  · exact hwaits.waiting p hp
  · obtain rfl := List.mem_singleton.mp hp
    exact ⟨all, rest, maxSeq, threads_goto _ _ _⟩

omit [LinearOrder D] in
/-- A load is answered for a record without waiting for the committer. -/
lemma Kept.told (h : Kept P x) {t : ℕ} {all rest : List GrainRec} {r : GrainRec} {maxSeq : U64}
    (hth : x.threads t = .loading all (r :: rest) maxSeq) (hr : P r.sid) (seq : U64) :
    Kept P (x.goto t (.loading all rest seq)) := by
  have hthread := h.threads t
  rw [hth] at hthread
  have hcommitting : ThreadKept P (.committing all r rest maxSeq : Thread D) := hthread
  exact h.goto (h.free hth nofun) (hcommitting.committed hr seq)

/-- A step keeps what the loads have. -/
lemma Kept.step {y : Service I D} {e : Event} (hgood : Good b dist route Holds recs x disk s)
    (hstep : Step b x e y) (hgrows : Grows x e s.log s'.log)
    (h : Kept (Stored hist s.log x) x) : Kept (Stored (hist ++ [(x, e)]) s'.log y) y := by
  have hlater : Kept (Stored (hist ++ [(x, e)]) s'.log y) x :=
    h.mono fun sid hsid => hsid.step hstep hgrows
  -- a thread that goes on or ends by itself is not waiting for the committer
  cases hstep with
  | start job hth => exact hlater.begin hth job
  | scan hth hrun hkey hearly => exact hlater.scan hth
  | @scanEarly t all rest r maxSeq seq hth hrun hearly =>
    refine hlater.told hth (Or.inr ⟨hist, _, [], rfl, ?_, Or.inl (inBatch_of_early hearly)⟩) _
    exact ⟨t, all, r, rest, maxSeq, rfl, hth, hrun, hearly ▸ rfl, rfl⟩
  | @scanPanicked t all rest r maxSeq hth =>
    have hended : Kept _ (x.withEngine { x.store.engine with
        truth := { x.store.engine.truth with running := false } }) :=
      ⟨hlater.waiting, hlater.threads, hlater.answered⟩
    exact hended.answer (h.free hth nofun) trivial
  | @scanRepeated t all rest r maxSeq seq hth hnew hput =>
    have hput' : Kept _ (x.withEngine (putRec x.store.engine r none).1) :=
      ⟨hlater.waiting, hlater.threads, hlater.answered⟩
    obtain ⟨w, hw, hsid⟩ := (hgood.repeated hnew).2 seq hput
    exact hput'.told hth (Or.inl ⟨w, hgrows.sub hw, hsid⟩) _
  | @scanClosed t all rest r maxSeq err hth hnew hput =>
    have hput' : Kept _ (x.withEngine (putRec x.store.engine r none).1) :=
      ⟨hlater.waiting, hlater.threads, hlater.answered⟩
    exact hput'.answer (h.free hth nofun) trivial
  | write failure hne =>
    have hwritten : Kept _ { x.withEngine { x.store.engine with
        truth := (x.store.engine.truth.commitBatch (x.batch.map fun p => p.2.req) failure).1 } with
          batch := [] } := ⟨nofun, hlater.threads, hlater.answered⟩
    refine hwritten.acks rfl ?_
    intro p hp seq hseq all r rest maxSeq hth
    obtain ⟨hmem, hanswer⟩ := List.of_mem_zip hp
    rcases hgrows.written failure rfl with hin | hfails
    · obtain ⟨all', rest', maxSeq', hwaits⟩ := h.waiting p.1 hmem
      obtain ⟨rfl, rfl, rfl, rfl⟩ := Thread.committing.inj (hwaits.symm.trans hth)
      exact Or.inl (hin p.1 hmem)
    · obtain ⟨err, herr⟩ := hfails p.2 hanswer
      rw [herr] at hseq
      cases hseq
  | @probe t p args found hth hp => exact hlater.goto (h.free hth nofun) trivial
  | @merge t args found hth hall => exact hlater.goto (h.free hth nofun) trivial
  | @joinFailed t args c rest out err hth hread => exact hlater.answer (h.free hth nofun) trivial
  | @joinNone t args c rest out hth hread => exact hlater.goto (h.free hth nofun) trivial
  | @join t args c rest out g hth hread => exact hlater.goto (h.free hth nofun) trivial
  | @loaded t all maxSeq hth =>
    have hthread := hlater.threads t
    rw [hth] at hthread
    obtain ⟨done, heq, hdone⟩ := hthread
    rw [List.append_nil] at heq
    have hstore : Kept _ { x with store := { x.store with lastSeq := max x.store.lastSeq maxSeq } } :=
      ⟨hlater.waiting, hlater.threads, hlater.answered⟩
    exact hstore.answer (h.free hth nofun) ⟨rfl, heq ▸ hdone⟩
  | @rows t args out hth => exact hlater.answer (h.free hth nofun) trivial
  | apply hi hr => exact ⟨hlater.waiting, hlater.threads, hlater.answered⟩
  | restart hopen => exact ⟨nofun, fun _ => trivial, hlater.answered⟩

/-! ## Runs -/

open DaemonExample in
/-- A load that is answered for a repeat in the batch, before the write of the batch fails. -/
example : ((fresh backend).bind fun x₀ => (Trace.exec (next backend) x₀ [.start 0 (.load grainRecs),
    .start 2 (.load [⟨1, 0, 0, "x"⟩]), .scan 0, .scan 2, .finish 2,
    .write (some (⟨.other, "disk full"⟩, 0))]).map fun p =>
      (decide ((.load [⟨1, 0, 0, "x"⟩], .loaded 1 0) ∈ p.2.answered),
        decide (p.2.store.engine.truth.read 1 PRED = .ok none))) = some (true, true) := by
  decide +kernel

end Service

end GrainStore
