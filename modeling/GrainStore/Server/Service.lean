import Mathlib
import GrainStore.Engine.Batches
import GrainStore.Foundation.Trace
import GrainStore.Server.Http
import GrainStore.Server.Load

/-!
# The daemon with all its threads

Any number of handler threads serve requests at the same time, while the committer takes the records
of their loads in batches, and the workers of the materializer apply the change stream to the index.
A step of the daemon is what the others can see of it as one: a thread takes a request, searches one
part of the index, joins one candidate to the store, answers; the committer takes one record into
its batch, or writes the batch and answers for it; or a worker applies one change.

The committer answers a record whose sid is in the store or in its batch at once, in the second case
before anything is written.  The workers may take the changes in any order, and a load may answer
before its changes are applied, as its wait for the index may time out.  A query without room for
its candidates panics, and its thread is gone.  The daemon may be restarted at any time; the requests
under way are then lost.
-/

namespace GrainStore

open FixedWidth

/-- What a handler thread is at. -/
inductive Thread (D : Type*) where
  | idle
  /-- In the loop over a batch, with `rest` still to be committed. -/
  | loading (recs rest : List GrainRec) (maxSeq : U64)
  /-- Its record `r` is in the batch of the committer. -/
  | committing (recs : List GrainRec) (r : GrainRec) (rest : List GrainRec) (maxSeq : U64)
  /-- The parts of the index are being searched. -/
  | searching (args : QueryArgs) (found : List (Option (List (Candidate D))))
  /-- The candidates are merged, with `rest` still to be joined. -/
  | joining (args : QueryArgs) (rest : List (Candidate D)) (out : List (Ranked D))
  /-- It has panicked. -/
  | gone

/-- The daemon: its store, which changes of the stream are applied to the index, the batch of the
committer with the threads that wait for it, what all threads are at, and the jobs answered so
far. -/
structure Service (I D : Type*) where
  store : Store I
  applied : List ℕ
  batch : List (ℕ × GrainRec)
  threads : ℕ → Thread D
  answered : List (Job × Answer D)

/-- A row of the answer to a query. -/
def hitOf {D : Type*} (r : Ranked D) : QueryHit D :=
  let (category, amount, text) := decodeVal r.grain.val
  { sid := r.grain.sid.setWidth 64, category, amount, text, distance := r.dist }

namespace Service

/-- What the environment chooses at a step. -/
inductive Event where
  /-- A thread takes a request that asks for this. -/
  | start (t : ℕ) (job : Job)
  /-- The committer takes its next record. -/
  | scan (t : ℕ)
  /-- The committer writes its batch; the write may fail. -/
  | write (failure : Option (IoError × ℕ))
  /-- It has searched a part of the index. -/
  | probe (t p : ℕ)
  /-- All parts are searched. -/
  | merge (t : ℕ)
  /-- It joins its next candidate. -/
  | join (t : ℕ)
  /-- It answers. -/
  | finish (t : ℕ)
  /-- A worker applies a change to the index. -/
  | apply (i : ℕ)
  /-- The daemon is started anew on its log file. -/
  | restart

variable {I V D : Type*}

/-- A thread goes on to something else. -/
def goto (x : Service I D) (t : ℕ) (th : Thread D) : Service I D :=
  { x with threads := Function.update x.threads t th }

/-- A thread answers. -/
def answer (x : Service I D) (t : ℕ) (job : Job) (a : Answer D) : Service I D :=
  { x.goto t .idle with answered := x.answered ++ [(job, a)] }

/-- Commit a record of a load. -/
def putRec (e : GrainEngine I) (r : GrainRec) (failure : Option (IoError × ℕ)) :
    GrainEngine I × Except Error Hlc :=
  e.putRaw (r.sid.setWidth 128) PRED (encodeVal r.category r.amount r.text)
    (WriteMeta.new (r.sid.setWidth 128)) failure

/-- A thread that waits for the committer is told what has become of its record. -/
def ack (x : Service I D) (t : ℕ) (a : Except Error U64) : Service I D :=
  match x.threads t with
  | .committing recs _ rest maxSeq =>
    match a with
    | .ok h => x.goto t (.loading recs rest (max maxSeq h))
    | .error err => x.answer t (.load recs) (.failed err)
  | _ => x

/-- All threads of a batch are told. -/
def acks (x : Service I D) (told : List ((ℕ × GrainRec) × Except Error U64)) : Service I D :=
  told.foldl (fun x p => x.ack p.1.1 p.2) x

/-- The timestamp of the record in the batch that has the key of this one. -/
def early (x : Service I D) (r : GrainRec) : Option U64 :=
  (x.batch.findIdx? fun p => p.2.sid = r.sid).map fun i =>
    x.store.engine.truth.committer.hlc.now + BitVec.ofNat 64 (i + 1)

/-- The mixed query of a request. -/
def mixed (b : Backend I V D) (args : QueryArgs) : MixedQuery V :=
  Store.mixedQuery b.embedText args.text args.k

section Steps

variable [LE D] [DecidableLE D] (b : Backend I V D) (x : Service I D)

/-- A thread takes a job. -/
def begin (t : ℕ) : Job → Service I D
  | .health => x.answer t .health (.health (b.index.len x.store.engine.index))
  | .stats => x.answer t .stats (.stats (b.index.len x.store.engine.index) b.dim)
  | .load recs => x.goto t (.loading recs recs x.store.lastSeq)
  | .query args =>
    match b.room args with
    | some _ => x.goto t (.searching args (List.replicate b.index.parts none))
    | none => x.goto t .gone
  | .refuse code e => x.answer t (.refuse code e) (.refused code e)

/-- The store with another engine. -/
def withEngine (e : GrainEngine I) : Service I D := { x with store := { x.store with engine := e } }

/-- The batch is written, and its callers are told what has become of it. -/
def written (failure : Option (IoError × ℕ)) : Service I D :=
  let committed := x.store.engine.truth.commitBatch (x.batch.map fun p => p.2.req) failure
  { x.withEngine { x.store.engine with truth := committed.1 } with batch := [] }.acks
    (x.batch.zip committed.2)

/-- One step of the daemon. -/
def next : Event → Option (Service I D)
  | .start t job =>
    match x.threads t with
    | .idle => some (x.begin b t job)
    | _ => none
  | .scan t =>
    match x.threads t with
    | .loading recs (r :: rest) maxSeq =>
      let truth := x.store.engine.truth
      if truth.running ∧ truth.committer.idem[r.req.idemKey]? = none then
        match x.early r with
        | some seq => some (x.goto t (.loading recs rest (max maxSeq seq)))
        | none =>
          if truth.committer.hlc.now.toNat + x.batch.length + 1 < 2 ^ 64 then
            some { x.goto t (.committing recs r rest maxSeq) with batch := x.batch ++ [(t, r)] }
          else
            -- the clock is at its end, and the committer panics
            some ((x.withEngine { x.store.engine with truth := { truth with running := false } }).answer
              t (.load recs) (.failed .closed))
      else
        -- nothing is written for a key that is stored, or by a committer that has ended
        match putRec x.store.engine r none with
        | (e, .ok h) => some ((x.withEngine e).goto t (.loading recs rest (max maxSeq h)))
        | (e, .error err) => some ((x.withEngine e).answer t (.load recs) (.failed err))
    | _ => none
  | .write failure => if x.batch = [] then none else some (x.written failure)
  | .probe t p =>
    match x.threads t with
    | .searching args found =>
      match found[p]? with
      | some none =>
        let q := mixed b args
        let part := b.index.probe x.store.engine.index p q.query q.fetch q.ef
        some (x.goto t (.searching args (found.set p (some part))))
      | _ => none
    | _ => none
  | .merge t =>
    match x.threads t with
    | .searching args found =>
      if found.all Option.isSome then
        some (x.goto t (.joining args (mergeParts (mixed b args).fetch (found.filterMap id)) []))
      else none
    | _ => none
  | .join t =>
    match x.threads t with
    | .joining args (c :: rest) out =>
      match x.store.engine.truth.read c.sid PRED with
      | .error err => some (x.answer t (.query args) (.failed err))
      | .ok none => some (x.goto t (.joining args rest out))
      | .ok (some g) =>
        some (x.goto t (.joining args rest (if args.passes g then out ++ [⟨g, c.dist⟩] else out)))
    | _ => none
  | .finish t =>
    match x.threads t with
    | .loading recs [] maxSeq =>
      let store := { x.store with lastSeq := max x.store.lastSeq maxSeq }
      some ({ x with store }.answer t (.load recs)
        (.loaded recs.length (b.index.len x.store.engine.index)))
    | .joining args [] out =>
      let ranked := (out.insertionSort fun a b => a.dist ≤ b.dist).take args.k
      some (x.answer t (.query args) (.rows (ranked.map hitOf)))
    | _ => none
  | .apply i =>
    if i ∈ x.applied then none
    else
      match x.store.engine.stream[i]? with
      | none => none
      | some r =>
        let index := b.index.writer.apply b.embed x.store.engine.index r
        some { x.withEngine { x.store.engine with index } with applied := i :: x.applied }
  | .restart =>
    match b.openOn x.store.engine.disk with
    | .ok (store, _) =>
      some { store, applied := [], batch := [], threads := fun _ => .idle, answered := x.answered }
    | .error _ => none

/-- The steps of the daemon, one constructor for each kind of step. -/
inductive Step : Service I D → Event → Service I D → Prop
  | start (x : Service I D) {t : ℕ} (job : Job) : x.threads t = .idle →
    Step x (.start t job) (x.begin b t job)
  | scan (x : Service I D) {t : ℕ} {recs rest : List GrainRec} {r : GrainRec} {maxSeq : U64} :
    x.threads t = .loading recs (r :: rest) maxSeq → x.store.engine.truth.running = true →
    x.store.engine.truth.committer.idem[r.req.idemKey]? = none → x.early r = none →
      Step x (.scan t)
        { x.goto t (.committing recs r rest maxSeq) with batch := x.batch ++ [(t, r)] }
  | scanEarly (x : Service I D) {t : ℕ} {recs rest : List GrainRec} {r : GrainRec}
    {maxSeq seq : U64} : x.threads t = .loading recs (r :: rest) maxSeq →
    x.store.engine.truth.running = true → x.early r = some seq →
      Step x (.scan t) (x.goto t (.loading recs rest (max maxSeq seq)))
  | scanPanicked (x : Service I D) {t : ℕ} {recs rest : List GrainRec} {r : GrainRec}
    {maxSeq : U64} : x.threads t = .loading recs (r :: rest) maxSeq →
      Step x (.scan t) ((x.withEngine { x.store.engine with
        truth := { x.store.engine.truth with running := false } }).answer t (.load recs)
          (.failed .closed))
  | scanRepeated (x : Service I D) {t : ℕ} {recs rest : List GrainRec} {r : GrainRec}
    {maxSeq h : U64} : x.threads t = .loading recs (r :: rest) maxSeq →
    ¬(x.store.engine.truth.running ∧
      x.store.engine.truth.committer.idem[r.req.idemKey]? = none) →
    (putRec x.store.engine r none).2 = .ok h →
      Step x (.scan t) ((x.withEngine (putRec x.store.engine r none).1).goto t
        (.loading recs rest (max maxSeq h)))
  | scanClosed (x : Service I D) {t : ℕ} {recs rest : List GrainRec} {r : GrainRec} {maxSeq : U64}
    {err : Error} : x.threads t = .loading recs (r :: rest) maxSeq →
    ¬(x.store.engine.truth.running ∧
      x.store.engine.truth.committer.idem[r.req.idemKey]? = none) →
    (putRec x.store.engine r none).2 = .error err →
      Step x (.scan t) ((x.withEngine (putRec x.store.engine r none).1).answer t (.load recs)
        (.failed err))
  | write (x : Service I D) (failure : Option (IoError × ℕ)) : x.batch ≠ [] →
      Step x (.write failure) (x.written failure)
  | probe (x : Service I D) {t p : ℕ} {args : QueryArgs}
    {found : List (Option (List (Candidate D)))} : x.threads t = .searching args found →
    found[p]? = some none →
      Step x (.probe t p) (x.goto t (.searching args (found.set p (some (b.index.probe
        x.store.engine.index p (mixed b args).query (mixed b args).fetch (mixed b args).ef)))))
  | merge (x : Service I D) {t : ℕ} {args : QueryArgs}
    {found : List (Option (List (Candidate D)))} : x.threads t = .searching args found →
    found.all Option.isSome →
      Step x (.merge t)
        (x.goto t (.joining args (mergeParts (mixed b args).fetch (found.filterMap id)) []))
  | joinFailed (x : Service I D) {t : ℕ} {args : QueryArgs} {c : Candidate D}
    {rest : List (Candidate D)} {out : List (Ranked D)} {err : Error} :
    x.threads t = .joining args (c :: rest) out → x.store.engine.truth.read c.sid PRED = .error err →
      Step x (.join t) (x.answer t (.query args) (.failed err))
  | joinNone (x : Service I D) {t : ℕ} {args : QueryArgs} {c : Candidate D}
    {rest : List (Candidate D)} {out : List (Ranked D)} :
    x.threads t = .joining args (c :: rest) out → x.store.engine.truth.read c.sid PRED = .ok none →
      Step x (.join t) (x.goto t (.joining args rest out))
  | join (x : Service I D) {t : ℕ} {args : QueryArgs} {c : Candidate D}
    {rest : List (Candidate D)} {out : List (Ranked D)} {g : Grain} :
    x.threads t = .joining args (c :: rest) out →
    x.store.engine.truth.read c.sid PRED = .ok (some g) →
      Step x (.join t)
        (x.goto t (.joining args rest (if args.passes g then out ++ [⟨g, c.dist⟩] else out)))
  | loaded (x : Service I D) {t : ℕ} {recs : List GrainRec} {maxSeq : U64} :
    x.threads t = .loading recs [] maxSeq →
      Step x (.finish t)
        ({ x with store := { x.store with lastSeq := max x.store.lastSeq maxSeq } }.answer t
          (.load recs) (.loaded recs.length (b.index.len x.store.engine.index)))
  | rows (x : Service I D) {t : ℕ} {args : QueryArgs} {out : List (Ranked D)} :
    x.threads t = .joining args [] out →
      Step x (.finish t) (x.answer t (.query args)
        (.rows (((out.insertionSort fun a b => a.dist ≤ b.dist).take args.k).map hitOf)))
  | apply (x : Service I D) {i : ℕ} {r : CdcRecord} : i ∉ x.applied →
    x.store.engine.stream[i]? = some r →
      Step x (.apply i) { x.withEngine { x.store.engine with
        index := b.index.writer.apply b.embed x.store.engine.index r } with
          applied := i :: x.applied }
  | restart (x : Service I D) {store : Store I} {restored : ℕ} :
    b.openOn x.store.engine.disk = .ok (store, restored) →
      Step x .restart
        { store, applied := [], batch := [], threads := fun _ => .idle, answered := x.answered }

variable {b x}

/-- Every step is one of these kinds. -/
theorem step_of_next {y : Service I D} {e : Event} (h : x.next b e = some y) : Step b x e y := by
  cases e with
  | start t job =>
    cases hth : x.threads t with
    | idle =>
      simp only [next, hth, Option.some.injEq] at h
      exact h ▸ Step.start x job hth
    | _ => simp [next, hth] at h
  | scan t =>
    cases hth : x.threads t with
    | loading recs rest maxSeq =>
      cases rest with
      | nil => simp [next, hth] at h
      | cons r rest =>
        simp only [next, hth] at h
        split at h
        · rename_i hnew
          split at h
          · rename_i seq hearly
            exact Option.some.inj h ▸ Step.scanEarly x hth hnew.1 hearly
          · rename_i hearly
            split at h
            · exact Option.some.inj h ▸ Step.scan x hth hnew.1 hnew.2 hearly
            · exact Option.some.inj h ▸ Step.scanPanicked x hth
        · rename_i hnew
          cases hput : putRec x.store.engine r none with
          | mk e answer =>
            rw [hput] at h
            cases answer with
            | ok seq =>
              have hstep := Step.scanRepeated (b := b) x hth hnew (by rw [hput])
              rw [hput] at hstep
              exact Option.some.inj h ▸ hstep
            | error err =>
              have hstep := Step.scanClosed (b := b) x hth hnew (by rw [hput])
              rw [hput] at hstep
              exact Option.some.inj h ▸ hstep
    | _ => simp [next, hth] at h
  | write failure =>
    simp only [next] at h
    split at h
    · cases h
    · rename_i hne
      exact Option.some.inj h ▸ Step.write x failure hne
  | probe t p =>
    cases hth : x.threads t with
    | searching args found =>
      cases hp : found[p]? with
      | none => simp [next, hth, hp] at h
      | some part =>
        cases part with
        | none =>
          simp only [next, hth, hp, Option.some.injEq] at h
          exact h ▸ Step.probe x hth hp
        | some part => simp [next, hth, hp] at h
    | _ => simp [next, hth] at h
  | merge t =>
    cases hth : x.threads t with
    | searching args found =>
      simp only [next, hth] at h
      split at h
      · rename_i hall
        exact Option.some.inj h ▸ Step.merge x hth hall
      · cases h
    | _ => simp [next, hth] at h
  | join t =>
    cases hth : x.threads t with
    | joining args rest out =>
      cases rest with
      | nil => simp [next, hth] at h
      | cons c rest =>
        cases hread : x.store.engine.truth.read c.sid PRED with
        | error err =>
          simp only [next, hth, hread, Option.some.injEq] at h
          exact h ▸ Step.joinFailed x hth hread
        | ok grain =>
          cases grain with
          | none =>
            simp only [next, hth, hread, Option.some.injEq] at h
            exact h ▸ Step.joinNone x hth hread
          | some g =>
            simp only [next, hth, hread, Option.some.injEq] at h
            exact h ▸ Step.join x hth hread
    | _ => simp [next, hth] at h
  | finish t =>
    cases hth : x.threads t with
    | loading recs rest maxSeq =>
      cases rest with
      | nil =>
        simp only [next, hth, Option.some.injEq] at h
        exact h ▸ Step.loaded x hth
      | cons r rest => simp [next, hth] at h
    | joining args rest out =>
      cases rest with
      | nil =>
        simp only [next, hth, Option.some.injEq] at h
        exact h ▸ Step.rows x hth
      | cons c rest => simp [next, hth] at h
    | _ => simp [next, hth] at h
  | apply i =>
    simp only [next] at h
    split at h
    · cases h
    · rename_i hi
      cases hr : x.store.engine.stream[i]? with
      | none => simp [hr] at h
      | some r =>
        simp only [hr, Option.some.injEq] at h
        exact h ▸ Step.apply x hi hr
  | restart =>
    cases hopen : b.openOn x.store.engine.disk with
    | error err => simp [next, hopen] at h
    | ok p =>
      simp only [next, hopen, Option.some.injEq] at h
      exact h ▸ Step.restart x hopen

end Steps

/-- The daemon on an empty log file. -/
def fresh (b : Backend I V D) : Option (Service I D) :=
  match b.openOn [] with
  | .ok (store, _) =>
    some { store, applied := [], batch := [], threads := fun _ => .idle, answered := [] }
  | .error _ => none

end Service

end GrainStore
