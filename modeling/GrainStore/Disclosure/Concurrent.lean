import Mathlib
import GrainStore.Disclosure
import GrainStore.Engine.Writes
import GrainStore.Foundation.Trace

/-!
# Staged queries at the same time

Any number of `query_staged` calls run at the same time here, beside writes and drills.  A call reads
the catalog and plans, searches the index, joins one candidate after the other to the store as it is
then, takes an id, and inserts its result later, under the lock of the cache; so calls may insert out
of the order of their ids.  The index may be anything at any step, so a search that finds the shards
of an index at different times is the search of some index too.

`Produced` says that a call has the list that its query found, at the steps it has made in the run.
`pinned` says what the cache holds after any interleaving: the results under the largest ids inserted
so far, each the list that its query produced.
-/

namespace GrainStore

open Largest

/-! ## Calls -/

/-- The arguments of a `query_staged` call. -/
structure StagedArgs (Q : Type*) where
  pred : PredId
  query : Q
  filter : Filter
  k : ℕ
  targetRecall : F64
  reps : ℕ

/-- A call that has its ranked result and has taken an id. -/
structure StagedCall (Q D : Type*) where
  id : U64
  args : StagedArgs Q
  ranked : List (Ranked D)

/-- What a call without an id is at. -/
inductive StagedQuery (Q D : Type*) where
  | planned (args : StagedArgs Q) (plan : Plan)
  /-- The candidates are found, with `rest` still to be joined. -/
  | joining (args : StagedArgs Q) (rest : List (Candidate D)) (out : List (Ranked D))

namespace StagedArgs

variable {I Q D : Type*} (args : StagedArgs Q)

/-- The plan of a call, from the catalog as it is. -/
def plan (e : GrainEngine I) : Plan :=
  Planner.plan (e.selectivity args.filter) args.k args.targetRecall

/-- The mixed query of a call. -/
def mixed (plan : Plan) : MixedQuery Q :=
  { pred := args.pred, query := args.query, k := args.k, ef := plan.ef, overFetch := plan.overFetch }

/-- The candidates of a call that plans in one engine and searches in another. -/
def candidates (vectors : VectorIndex I Q D) (planned searched : GrainEngine I) :
    List (Candidate D) :=
  let q := args.mixed (args.plan planned)
  vectors.search searched.index q.query q.fetch q.ef

/-- What a candidate adds to the result when its sid is read. -/
def kept (c : Candidate D) : Option Grain → List (Ranked D)
  | none => []
  | some g => if args.filter.eval g then [⟨g, c.dist⟩] else []

/-- The result, once all candidates are joined. -/
def rank [LE D] [DecidableLE D] (out : List (Ranked D)) : List (Ranked D) :=
  (out.insertionSort fun a b => a.dist ≤ b.dist).take args.k

end StagedArgs

section Calls

variable {Q D : Type*} [Zero D] [One D] [Sub D] [Div D] [Max D] [Min D] [LE D] [DecidableLE D]
  (eps : D)

/-- What a call pins. -/
def StagedCall.continuation (c : StagedCall Q D) : Continuation D :=
  { ranked := c.ranked, fullTokens := (buildSummary eps c.ranked c.args.reps).estFullTokens }

/-- What a call returns. -/
def StagedCall.answer (c : StagedCall Q D) : Staged D :=
  let summary := buildSummary eps c.ranked c.args.reps
  { stageIndex := 0, stage := .summary summary, estTokens := summaryTokens summary,
    continuation := some ⟨c.id⟩ }

/-- What drilling into a call returns. -/
def StagedCall.full (c : StagedCall Q D) : Staged D :=
  { stageIndex := 1, stage := .full c.ranked,
    estTokens := (c.ranked.map fun r => grainTokens r.grain).sum, continuation := none }

end Calls

/-! ## Steps -/

/-- The engine, the cache, the calls that are at their query, and those that have an id and wait for
the lock of the cache. -/
structure Disclosing (I Q D : Type*) where
  engine : GrainEngine I
  continuations : ContinuationCache D
  running : List (StagedQuery Q D)
  waiting : List (StagedCall Q D)

/-- A step of the engine or of one of its callers. -/
inductive DisclosureEvent (I Q : Type*) where
  /-- A write call. -/
  | write (w : EngineWrite) (failure : Option (IoError × ℕ))
  /-- The materializer goes on. -/
  | materialize (index : I)
  /-- A `query_staged` call begins, and plans. -/
  | plan (args : StagedArgs Q)
  /-- One of the running calls searches the index. -/
  | search (n : ℕ)
  /-- One of them joins its next candidate; a read that fails ends the call. -/
  | join (n : ℕ)
  /-- One of them has its result, and takes an id. -/
  | allocate (n : ℕ)
  /-- One of the waiting calls inserts its result and returns. -/
  | insert (n : ℕ)
  | drill (h : ContinuationHandle)

namespace Disclosing

section Steps

variable {I Q D : Type*} [Zero D] [One D] [Sub D] [Div D] [Max D] [Min D] [LE D] [DecidableLE D]

/-- An engine just opened, with an empty cache. -/
def start (cap : ℕ) (engine : GrainEngine I) : Disclosing I Q D :=
  { engine, continuations := ContinuationCache.new cap, running := [], waiting := [] }

variable (eps : D) (vectors : VectorIndex I Q D) (s : Disclosing I Q D)

/-- One step of the engine and its callers. -/
def next : DisclosureEvent I Q → Option (Disclosing I Q D)
  | .write w failure => some { s with engine := (s.engine.write w failure).1 }
  | .materialize index => some { s with engine := { s.engine with index } }
  | .plan args => some { s with running := s.running ++ [.planned args (args.plan s.engine)] }
  | .search n =>
    match s.running[n]? with
    | some (.planned args plan) =>
      let q := args.mixed plan
      let candidates := vectors.search s.engine.index q.query q.fetch q.ef
      some { s with running := s.running.set n (.joining args candidates []) }
    | _ => none
  | .join n =>
    match s.running[n]? with
    | some (.joining args (c :: rest) out) =>
      match s.engine.truth.read c.sid args.pred with
      | .error _ => some { s with running := s.running.eraseIdx n }
      | .ok grain =>
        some { s with running := s.running.set n (.joining args rest (out ++ args.kept c grain)) }
    | _ => none
  | .allocate n =>
    match s.running[n]? with
    | some (.joining args [] out) =>
      let taken := s.continuations.allocate
      some { s with
        continuations := taken.1
        running := s.running.eraseIdx n
        waiting := s.waiting ++ [⟨taken.2, args, args.rank out⟩] }
    | _ => none
  | .insert n =>
    match s.waiting[n]? with
    | none => none
    | some call =>
      some { s with
        continuations := s.continuations.insert call.id (call.continuation eps)
        waiting := s.waiting.eraseIdx n }
  | .drill _ => some s

/-- What drilling returns now. -/
def drill (h : ContinuationHandle) : Option (Staged D) := s.continuations.drill h

/-- The call that a step gives an id, if it does. -/
def allocation : Disclosing I Q D × DisclosureEvent I Q → Option (StagedCall Q D)
  | (s, .allocate n) =>
    match s.running[n]? with
    | some (.joining args [] out) => some ⟨s.continuations.next, args, args.rank out⟩
    | _ => none
  | _ => none

/-- The calls that have taken an id, in that order. -/
def allocated (hist : List (Disclosing I Q D × DisclosureEvent I Q)) : List (StagedCall Q D) :=
  hist.filterMap allocation

/-- The call that a step inserts, if it does. -/
def insertion : Disclosing I Q D × DisclosureEvent I Q → Option (StagedCall Q D)
  | (s, .insert n) => s.waiting[n]?
  | _ => none

/-- The calls that have inserted their results, in that order. -/
def inserted (hist : List (Disclosing I Q D × DisclosureEvent I Q)) : List (StagedCall Q D) :=
  hist.filterMap insertion

/-- The last call that inserted under an id. -/
def lastCall (calls : List (StagedCall Q D)) (id : U64) : Option (StagedCall Q D) :=
  calls.reverse.find? fun c => c.id = id

/-! ### The list that a query produces -/

/-- Joining these candidates one by one, each at a step of its own, keeps these grains. -/
inductive Joins (args : StagedArgs Q) : List (Disclosing I Q D × DisclosureEvent I Q) →
    List (Candidate D) → List (Ranked D) → Prop
  | nil : Joins args [] [] []
  | concat {steps : List (Disclosing I Q D × DisclosureEvent I Q)} {done : List (Candidate D)}
    {out : List (Ranked D)} {c : Candidate D} {grain : Option Grain} {n : ℕ}
    {s : Disclosing I Q D} :
    Joins args steps done out → s.engine.truth.read c.sid args.pred = .ok grain →
      Joins args (steps ++ [(s, .join n)]) (done ++ [c]) (out ++ args.kept c grain)

/-- A call has come this far: at steps of the run, one after the other, it has planned, searched, and
joined the candidates before `rest`. -/
def Searched (vectors : VectorIndex I Q D) (hist : List (Disclosing I Q D × DisclosureEvent I Q))
    (args : StagedArgs Q) (rest : List (Candidate D)) (out : List (Ranked D)) : Prop :=
  ∃ (planned searched : Disclosing I Q D) (n : ℕ)
    (joined : List (Disclosing I Q D × DisclosureEvent I Q)) (done : List (Candidate D)),
    ((planned, .plan args) :: (searched, .search n) :: joined).Sublist hist ∧
      args.candidates vectors planned.engine searched.engine = done ++ rest ∧
      Joins args joined done out

/-- A call has the list that its query found in the run. -/
def Produced (vectors : VectorIndex I Q D)
    (hist : List (Disclosing I Q D × DisclosureEvent I Q)) (call : StagedCall Q D) : Prop :=
  ∃ out, Searched vectors hist call.args [] out ∧ call.ranked = call.args.rank out

/-! ### Kinds of steps -/

/-- The steps, one constructor for each kind of step. -/
inductive Step : Disclosing I Q D → DisclosureEvent I Q → Disclosing I Q D → Prop
  | write (s : Disclosing I Q D) (w : EngineWrite) (failure : Option (IoError × ℕ)) :
    Step s (.write w failure) { s with engine := (s.engine.write w failure).1 }
  | materialize (s : Disclosing I Q D) (index : I) :
    Step s (.materialize index) { s with engine := { s.engine with index } }
  | plan (s : Disclosing I Q D) (args : StagedArgs Q) :
    Step s (.plan args) { s with running := s.running ++ [.planned args (args.plan s.engine)] }
  | search (s : Disclosing I Q D) {n : ℕ} {args : StagedArgs Q} {plan : Plan} :
    s.running[n]? = some (.planned args plan) →
      Step s (.search n) { s with
        running := s.running.set n (.joining args (vectors.search s.engine.index
          (args.mixed plan).query (args.mixed plan).fetch (args.mixed plan).ef) []) }
  | joinFailed (s : Disclosing I Q D) {n : ℕ} {args : StagedArgs Q} {c : Candidate D}
    {rest : List (Candidate D)} {out : List (Ranked D)} {err : Error} :
    s.running[n]? = some (.joining args (c :: rest) out) →
    s.engine.truth.read c.sid args.pred = .error err →
      Step s (.join n) { s with running := s.running.eraseIdx n }
  | join (s : Disclosing I Q D) {n : ℕ} {args : StagedArgs Q} {c : Candidate D}
    {rest : List (Candidate D)} {out : List (Ranked D)} {grain : Option Grain} :
    s.running[n]? = some (.joining args (c :: rest) out) →
    s.engine.truth.read c.sid args.pred = .ok grain →
      Step s (.join n)
        { s with running := s.running.set n (.joining args rest (out ++ args.kept c grain)) }
  | allocate (s : Disclosing I Q D) {n : ℕ} {args : StagedArgs Q} {out : List (Ranked D)} :
    s.running[n]? = some (.joining args [] out) →
      Step s (.allocate n) { s with
        continuations := s.continuations.allocate.1
        running := s.running.eraseIdx n
        waiting := s.waiting ++ [⟨s.continuations.next, args, args.rank out⟩] }
  | insert (s : Disclosing I Q D) {n : ℕ} {call : StagedCall Q D} :
    s.waiting[n]? = some call →
      Step s (.insert n) { s with
        continuations := s.continuations.insert call.id (call.continuation eps)
        waiting := s.waiting.eraseIdx n }
  | drill (s : Disclosing I Q D) (h : ContinuationHandle) : Step s (.drill h) s

variable {eps vectors s} {s' : Disclosing I Q D}

/-- Every step is one of these kinds. -/
theorem step_of_next {e : DisclosureEvent I Q} (h : s.next eps vectors e = some s') :
    Step eps vectors s e s' := by
  cases e with
  | write w failure => exact Option.some.inj h ▸ Step.write s w failure
  | materialize index => exact Option.some.inj h ▸ Step.materialize s index
  | plan args => exact Option.some.inj h ▸ Step.plan s args
  | drill handle => exact Option.some.inj h ▸ Step.drill s handle
  | search n =>
    simp only [next] at h
    split at h
    · rename_i args plan hget
      exact Option.some.inj h ▸ Step.search s hget
    · cases h
  | join n =>
    simp only [next] at h
    split at h
    · rename_i args c rest out hget
      cases hread : s.engine.truth.read c.sid args.pred with
      | error err =>
        rw [hread] at h
        exact Option.some.inj h ▸ Step.joinFailed s hget hread
      | ok grain =>
        rw [hread] at h
        exact Option.some.inj h ▸ Step.join s hget hread
    · cases h
  | allocate n =>
    simp only [next] at h
    split at h
    · rename_i args out hget
      exact Option.some.inj h ▸ Step.allocate s hget
    · cases h
  | insert n =>
    simp only [next] at h
    split at h
    · cases h
    · rename_i call hget
      exact Option.some.inj h ▸ Step.insert s hget

end Steps

section Runs

variable {I Q D : Type*} {eps : D} {vectors : VectorIndex I Q D} {cap : ℕ} {s s' : Disclosing I Q D}
  {hist : List (Disclosing I Q D × DisclosureEvent I Q)}

/-! ### What calls have found -/

/-- What a running call has found in the run. -/
def Ran (vectors : VectorIndex I Q D) (hist : List (Disclosing I Q D × DisclosureEvent I Q)) :
    StagedQuery Q D → Prop
  | .planned args plan =>
    ∃ planned : Disclosing I Q D, (planned, .plan args) ∈ hist ∧ plan = args.plan planned.engine
  | .joining args rest out => Searched vectors hist args rest out

lemma Searched.concat {args : StagedArgs Q} {rest : List (Candidate D)} {out : List (Ranked D)}
    (h : Searched vectors hist args rest out) (p : Disclosing I Q D × DisclosureEvent I Q) :
    Searched vectors (hist ++ [p]) args rest out := by
  obtain ⟨planned, searched, n, joined, done, hsteps, hsearch, hjoins⟩ := h
  exact ⟨planned, searched, n, joined, done, hsteps.trans (List.sublist_append_left _ _), hsearch,
    hjoins⟩

lemma Ran.concat {q : StagedQuery Q D} (h : Ran vectors hist q)
    (p : Disclosing I Q D × DisclosureEvent I Q) : Ran vectors (hist ++ [p]) q := by
  cases q with
  | planned args plan =>
    obtain ⟨planned, hmem, hplan⟩ := h
    exact ⟨planned, List.mem_append_left _ hmem, hplan⟩
  | joining args rest out => exact Searched.concat h p

/-- A call searches. -/
lemma Ran.search {args : StagedArgs Q} {plan : Plan} (h : Ran vectors hist (.planned args plan))
    (s : Disclosing I Q D) (n : ℕ) :
    Searched vectors (hist ++ [(s, .search n)]) args (vectors.search s.engine.index
      (args.mixed plan).query (args.mixed plan).fetch (args.mixed plan).ef) [] := by
  obtain ⟨planned, hmem, rfl⟩ := h
  exact ⟨planned, s, n, [], [], (List.singleton_sublist.mpr hmem).append (List.Sublist.refl [_]), rfl,
    Joins.nil⟩

/-- A call joins its next candidate. -/
lemma Searched.join {args : StagedArgs Q} {c : Candidate D} {rest : List (Candidate D)}
    {out : List (Ranked D)} (h : Searched vectors hist args (c :: rest) out) {grain : Option Grain}
    (hread : s.engine.truth.read c.sid args.pred = .ok grain) (n : ℕ) :
    Searched vectors (hist ++ [(s, .join n)]) args rest (out ++ args.kept c grain) := by
  obtain ⟨planned, searched, m, joined, done, hsteps, hsearch, hjoins⟩ := h
  refine ⟨planned, searched, m, joined ++ [(s, .join n)], done ++ [c], ?_, ?_, hjoins.concat hread⟩
  · exact hsteps.append (List.Sublist.refl [_])
  · rw [hsearch, List.append_assoc]
    rfl

variable [LE D] [DecidableLE D]

lemma Produced.concat {call : StagedCall Q D} (h : Produced vectors hist call)
    (p : Disclosing I Q D × DisclosureEvent I Q) : Produced vectors (hist ++ [p]) call := by
  obtain ⟨out, hsearched, hranked⟩ := h
  exact ⟨out, hsearched.concat p, hranked⟩

lemma mem_allocated_concat {call : StagedCall Q D} {p : Disclosing I Q D × DisclosureEvent I Q} :
    call ∈ allocated (hist ++ [p]) ↔ call ∈ allocated hist ∨ allocation p = some call := by
  rw [allocated, List.filterMap_append, List.mem_append, allocated]
  simp

variable [Zero D] [One D] [Sub D] [Div D] [Max D] [Min D]

/-- Every call under way has found what it has at steps of the run, and every call with an id has the
list that its query found. -/
lemma ran_of_run {e : GrainEngine I}
    (h : Trace.Run (next eps vectors) (Disclosing.start cap e) hist s) :
    (∀ q ∈ s.running, Ran vectors hist q) ∧ ∀ call ∈ allocated hist, Produced vectors hist call := by
  induction h with
  | start =>
    exact ⟨fun q hq => absurd hq List.not_mem_nil, fun call hcall => absurd hcall List.not_mem_nil⟩
  | @step hist s s' e hrun hnext ih =>
    obtain ⟨hran, hproduced⟩ := ih
    have hkeep : ∀ q ∈ s.running, Ran vectors (hist ++ [(s, e)]) q := fun q hq =>
      (hran q hq).concat _
    have hset : ∀ {n q}, Ran vectors (hist ++ [(s, e)]) q →
        ∀ q' ∈ s.running.set n q, Ran vectors (hist ++ [(s, e)]) q' := fun hq q' hq' =>
      (List.mem_or_eq_of_mem_set hq').elim (hkeep q') fun heq => heq ▸ hq
    have hproduced' : allocation (s, e) = none →
        ∀ call ∈ allocated (hist ++ [(s, e)]), Produced vectors (hist ++ [(s, e)]) call := by
      intro hnone call hcall
      rcases mem_allocated_concat.mp hcall with hcall | hcall
      · exact (hproduced call hcall).concat _
      · rw [hnone] at hcall
        cases hcall
    cases step_of_next hnext with
    | write w failure => exact ⟨hkeep, hproduced' rfl⟩
    | materialize index => exact ⟨hkeep, hproduced' rfl⟩
    | plan args =>
      refine ⟨?_, hproduced' rfl⟩
      intro q hq
      rcases List.mem_append.mp hq with hq | hq
      · exact hkeep q hq
      · obtain rfl := List.mem_singleton.mp hq
        exact ⟨s, List.mem_append_right _ (List.mem_singleton_self _), rfl⟩
    | search hget =>
      exact ⟨hset ((hran _ (List.mem_of_getElem? hget)).search s _), hproduced' rfl⟩
    | joinFailed hget hread =>
      exact ⟨fun q hq => hkeep q (List.mem_of_mem_eraseIdx hq), hproduced' rfl⟩
    | join hget hread =>
      exact ⟨hset (Searched.join (hran _ (List.mem_of_getElem? hget)) hread _), hproduced' rfl⟩
    | @allocate n args out hget =>
      refine ⟨fun q hq => hkeep q (List.mem_of_mem_eraseIdx hq), ?_⟩
      intro call hcall
      rcases mem_allocated_concat.mp hcall with hcall | hcall
      · exact (hproduced call hcall).concat _
      · rw [allocation, hget] at hcall
        obtain rfl := Option.some.inj hcall
        exact ⟨out, Searched.concat (hran _ (List.mem_of_getElem? hget)) _, rfl⟩
    | insert hget => exact ⟨hkeep, hproduced' rfl⟩
    | drill handle => exact ⟨hkeep, hproduced' rfl⟩

/-! ### What a run keeps of the cache -/

/-- What a run makes of the cache, the calls and their ids. -/
structure Pins (eps : D) (cap : ℕ) (hist : List (Disclosing I Q D × DisclosureEvent I Q))
    (s : Disclosing I Q D) : Prop where
  cap_eq : s.continuations.cap = max cap 1
  /-- The cache holds the last results under the largest ids. -/
  bounded : Bounded (max cap 1) ((inserted hist).map fun c => (c.id, c.continuation eps))
    s.continuations.map
  /-- Every call with an id has inserted its result or waits. -/
  calls : (inserted hist ++ s.waiting).Perm (allocated hist)
  /-- Ids are handed out one after the other. -/
  ids : (allocated hist).map StagedCall.id =
    (List.range (allocated hist).length).map fun i => BitVec.ofNat 64 (i + 1)
  next_eq : s.continuations.next = BitVec.ofNat 64 ((allocated hist).length + 1)

lemma Pins.start (eps : D) (cap : ℕ) (e : GrainEngine I) :
    Pins eps cap [] (Disclosing.start cap e : Disclosing I Q D) where
  cap_eq := rfl
  bounded := Bounded.empty
  calls := List.Perm.nil
  ids := rfl
  next_eq := rfl

omit [Zero D] [One D] [Sub D] [Div D] [Max D] [Min D] [LE D] [DecidableLE D] in
lemma inserted_concat (hist : List (Disclosing I Q D × DisclosureEvent I Q))
    (p : Disclosing I Q D × DisclosureEvent I Q) :
    inserted (hist ++ [p]) = inserted hist ++ (insertion p).toList := by
  rw [inserted, List.filterMap_append]
  cases hp : insertion p with
  | none => simp [hp, inserted]
  | some c => simp [hp, inserted]

omit [Zero D] [One D] [Sub D] [Div D] [Max D] [Min D] in
lemma allocated_concat (hist : List (Disclosing I Q D × DisclosureEvent I Q))
    (p : Disclosing I Q D × DisclosureEvent I Q) :
    allocated (hist ++ [p]) = allocated hist ++ (allocation p).toList := by
  rw [allocated, List.filterMap_append]
  cases hp : allocation p with
  | none => simp [hp, allocated]
  | some c => simp [hp, allocated]

/-- A step that neither takes an id nor inserts keeps everything. -/
lemma Pins.congr {p : Disclosing I Q D × DisclosureEvent I Q} (h : Pins eps cap hist s)
    (hinsert : insertion p = none) (halloc : allocation p = none)
    (hcache : s'.continuations = s.continuations) (hwaiting : s'.waiting = s.waiting) :
    Pins eps cap (hist ++ [p]) s' := by
  have hinserted : inserted (hist ++ [p]) = inserted hist := by
    rw [inserted_concat, hinsert]
    exact List.append_nil _
  have hallocated : allocated (hist ++ [p]) = allocated hist := by
    rw [allocated_concat, halloc]
    exact List.append_nil _
  exact ⟨by rw [hcache, h.cap_eq], by rw [hinserted, hcache]; exact h.bounded,
    by rw [hinserted, hallocated, hwaiting]; exact h.calls, by rw [hallocated]; exact h.ids,
    by rw [hallocated, hcache]; exact h.next_eq⟩

/-- A step keeps what a run makes of the cache. -/
lemma Pins.step {e : DisclosureEvent I Q} (h : Pins eps cap hist s)
    (hstep : s.next eps vectors e = some s') : Pins eps cap (hist ++ [(s, e)]) s' := by
  cases step_of_next hstep with
  | write w failure => exact h.congr rfl rfl rfl rfl
  | materialize index => exact h.congr rfl rfl rfl rfl
  | plan args => exact h.congr rfl rfl rfl rfl
  | search hget => exact h.congr rfl rfl rfl rfl
  | joinFailed hget hread => exact h.congr rfl rfl rfl rfl
  | join hget hread => exact h.congr rfl rfl rfl rfl
  | drill handle => exact h.congr rfl rfl rfl rfl
  | @allocate n args out hget =>
    set call : StagedCall Q D := ⟨s.continuations.next, args, args.rank out⟩ with hcall
    have hinserted : inserted (hist ++ [(s, .allocate n)]) = inserted hist := by
      rw [inserted_concat]
      exact List.append_nil _
    have hallocated : allocated (hist ++ [(s, .allocate n)]) = allocated hist ++ [call] := by
      rw [allocated_concat, allocation, hget]
      rfl
    refine ⟨h.cap_eq, ?_, ?_, ?_, ?_⟩
    · rw [hinserted]
      exact h.bounded
    · rw [hinserted, hallocated, ← List.append_assoc]
      exact h.calls.append_right _
    · rw [hallocated, List.map_append, h.ids, List.length_append, List.length_singleton,
        List.range_succ, List.map_append]
      exact congrArg (fun id => _ ++ [id]) h.next_eq
    · rw [hallocated, List.length_append, List.length_singleton]
      change s.continuations.next + 1 = _
      rw [h.next_eq]
      exact (BitVec.ofNat_add _ 1).symm
  | @insert n call hget =>
    have hinserted : inserted (hist ++ [(s, .insert n)]) = inserted hist ++ [call] := by
      rw [inserted_concat, insertion, hget]
      rfl
    have hallocated : allocated (hist ++ [(s, .insert n)]) = allocated hist := by
      rw [allocated_concat]
      exact List.append_nil _
    refine ⟨h.cap_eq, ?_, ?_, ?_, ?_⟩
    · rw [hinserted, List.map_append]
      have hmore := h.bounded.insert (call.id, call.continuation eps)
      rw [← h.cap_eq] at hmore ⊢
      exact hmore
    · -- the call is no longer waiting
      rw [hinserted, hallocated]
      refine List.Perm.trans ?_ h.calls
      rw [List.append_assoc]
      obtain ⟨hlt, rfl⟩ := List.getElem?_eq_some_iff.mp hget
      exact (List.getElem_cons_eraseIdx_perm hlt).append_left _
    · rw [hallocated]
      exact h.ids
    · rw [hallocated]
      exact h.next_eq

lemma pins_of_run {e : GrainEngine I}
    (h : Trace.Run (next eps vectors) (Disclosing.start cap e) hist s) : Pins eps cap hist s := by
  induction h with
  | start => exact Pins.start eps cap e
  | step _ hstep ih => exact ih.step hstep

omit [Zero D] [One D] [Sub D] [Div D] [Max D] [Min D] [LE D] [DecidableLE D] in
/-- The last call under an id is the only one when no two have the same. -/
lemma lastCall_of_nodup {calls : List (StagedCall Q D)} (h : (calls.map StagedCall.id).Nodup)
    {call : StagedCall Q D} (hcall : call ∈ calls) : lastCall calls call.id = some call := by
  cases hfind : lastCall calls call.id with
  | none =>
    have hnone := List.find?_eq_none.mp hfind call (List.mem_reverse.mpr hcall)
    simp at hnone
  | some c =>
    have hid : c.id = call.id := by simpa using List.find?_some hfind
    have hmem := List.mem_reverse.mp (List.mem_of_find?_eq_some hfind)
    rw [List.inj_on_of_nodup_map h hmem hcall hid]

/-- The ids of fewer than `2^64` calls are all different. -/
lemma Pins.nodup (h : Pins eps cap hist s) (hfew : (allocated hist).length ≤ 2 ^ 64) :
    ((inserted hist).map StagedCall.id).Nodup := by
  have hall : ((allocated hist).map StagedCall.id).Nodup := by
    rw [h.ids]
    refine List.Nodup.map_on (fun i hi j hj hij => ?_) List.nodup_range
    have hsame := congrArg BitVec.toNat hij
    rw [BitVec.toNat_ofNat, BitVec.toNat_ofNat] at hsame
    rw [List.mem_range] at hi hj
    omega
  have hcalls := (h.calls.map StagedCall.id).nodup_iff.mpr hall
  rw [List.map_append] at hcalls
  exact hcalls.of_append_left

/-! ### A call with nothing in between -/

variable (eps) (vectors) in
/-- Joining candidates with nothing in between joins them all to the same store. -/
lemma run_of_joinCandidates {args : StagedArgs Q} {cs : List (Candidate D)}
    {more : List (Ranked D)} (before : List (StagedQuery Q D)) (out : List (Ranked D))
    (hrunning : s.running = before ++ [.joining args cs out])
    (h : joinCandidates (fun sid => s.engine.truth.read sid args.pred) args.filter.eval cs =
      .ok more) :
    ∃ hist, Trace.Run (next eps vectors) s hist
        { s with running := before ++ [.joining args [] (out ++ more)] } ∧ inserted hist = [] := by
  induction cs generalizing s out more with
  | nil =>
    obtain rfl := Except.ok.inj h
    rw [List.append_nil, ← hrunning]
    exact ⟨[], Trace.Run.start, rfl⟩
  | cons c cs ih =>
    have hget : s.running[before.length]? = some (.joining args (c :: cs) out) := by
      rw [hrunning, List.getElem?_append_right le_rfl, Nat.sub_self]
      rfl
    rw [joinCandidates] at h
    cases hread : s.engine.truth.read c.sid args.pred with
    | error err => simp [hread] at h
    | ok grain =>
      cases hjoin : joinCandidates (fun sid => s.engine.truth.read sid args.pred)
          args.filter.eval cs with
      | error err => simp [hread, hjoin] at h
      | ok found =>
        have hmore : more = args.kept c grain ++ found := by
          simp only [hread, hjoin] at h
          cases grain with
          | none => exact (Except.ok.inj h).symm
          | some g =>
            rw [← Except.ok.inj h, StagedArgs.kept]
            split <;> rfl
        have hstep : s.next eps vectors (.join before.length) = some { s with
            running := before ++ [.joining args cs (out ++ args.kept c grain)] } := by
          simp only [next, hget, hread]
          rw [hrunning, List.set_append_right _ _ le_rfl, Nat.sub_self]
          rfl
        obtain ⟨hist, hrun, hnone⟩ := ih (s := { s with
          running := before ++ [.joining args cs (out ++ args.kept c grain)] }) _ rfl hjoin
        rw [List.append_assoc, ← hmore] at hrun
        exact ⟨_, (Trace.Run.start.step hstep).trans hrun, hnone⟩

omit [Zero D] [One D] [Sub D] [Div D] [Max D] [Min D] in
/-- The planned query of a call joins its candidates and ranks them. -/
lemma queryPlanned_eq_candidates (e : GrainEngine I) (args : StagedArgs Q) :
    e.queryPlanned vectors args.pred args.query args.filter args.k args.targetRecall =
      (joinCandidates (fun sid => e.truth.read sid args.pred) args.filter.eval
        (args.candidates vectors e e)).map fun out => (args.rank out, args.plan e) := by
  cases hjoin : joinCandidates (fun sid => e.truth.read sid args.pred) args.filter.eval
      (args.candidates vectors e e) with
  | error err =>
    simp only [StagedArgs.candidates, StagedArgs.mixed, StagedArgs.plan] at hjoin
    simp only [GrainEngine.queryPlanned, nearJoinSelect, hjoin]
    rfl
  | ok out =>
    simp only [StagedArgs.candidates, StagedArgs.mixed, StagedArgs.plan] at hjoin
    simp only [GrainEngine.queryPlanned, nearJoinSelect, hjoin]
    rfl

variable (eps) in
/-- A call with nothing in between, from its candidates to its insertion. -/
lemma run_of_candidates (s : Disclosing I Q D) {args : StagedArgs Q} {out : List (Ranked D)}
    (h : joinCandidates (fun sid => s.engine.truth.read sid args.pred) args.filter.eval
      (args.candidates vectors s.engine s.engine) = .ok out) :
    let call : StagedCall Q D := ⟨s.continuations.next, args, args.rank out⟩
    ∃ hist, Trace.Run (next eps vectors) s hist { s with
        continuations := s.continuations.allocate.1.insert call.id (call.continuation eps) } ∧
      inserted hist = [call] := by
  intro call
  have hplan : s.next eps vectors (.plan args) = some { s with
      running := s.running ++ [.planned args (args.plan s.engine)] } := rfl
  have hsearch : next eps vectors { s with
      running := s.running ++ [.planned args (args.plan s.engine)] } (.search s.running.length) =
      some { s with running := s.running ++
        [.joining args (args.candidates vectors s.engine s.engine) []] } := by
    simp [next, StagedArgs.candidates]
  obtain ⟨hist, hrun, hnone⟩ := run_of_joinCandidates eps vectors
    (s := { s with running := s.running ++
      [.joining args (args.candidates vectors s.engine s.engine) []] }) s.running [] rfl h
  have hallocate : next eps vectors { s with running := s.running ++ [.joining args [] out] }
      (.allocate s.running.length) = some { s with
        continuations := s.continuations.allocate.1
        waiting := s.waiting ++ [call] } := by
    simp [next, List.eraseIdx_append_of_length_le, ContinuationCache.allocate, call]
  have hinsert : next eps vectors { s with
      continuations := s.continuations.allocate.1
      waiting := s.waiting ++ [call] } (.insert s.waiting.length) = some { s with
        continuations := s.continuations.allocate.1.insert call.id (call.continuation eps) } := by
    simp [next, List.eraseIdx_append_of_length_le]
  refine ⟨_, ((((Trace.Run.start.step hplan).step hsearch).trans hrun).step hallocate).step hinsert,
    ?_⟩
  rw [inserted_concat, inserted_concat, inserted, List.filterMap_append]
  change ([] ++ inserted hist ++ [] ++ (insertion _).toList : List (StagedCall Q D)) = [call]
  rw [hnone, insertion, List.getElem?_append_right le_rfl, Nat.sub_self]
  rfl

/-- A call of the engine is a run of its steps that pins the result of its planned query. -/
lemma run_of_queryStaged (s : Disclosing I Q D) {args : StagedArgs Q} {staged : Staged D}
    (h : (StagedEngine.queryStaged eps vectors ⟨s.engine, s.continuations⟩ args.pred args.query
      args.filter args.k args.targetRecall args.reps).2 = .ok staged) :
    ∃ hist call,
      Trace.Run (next eps vectors) s hist { s with
        continuations := (StagedEngine.queryStaged eps vectors ⟨s.engine, s.continuations⟩
          args.pred args.query args.filter args.k args.targetRecall args.reps).1.continuations } ∧
      inserted hist = [call] ∧ call.args = args ∧ staged = call.answer eps ∧
      ∃ plan, s.engine.queryPlanned vectors args.pred args.query args.filter args.k
        args.targetRecall = .ok (call.ranked, plan) := by
  unfold StagedEngine.queryStaged at h ⊢
  rw [queryPlanned_eq_candidates] at h ⊢
  cases hjoin : joinCandidates (fun sid => s.engine.truth.read sid args.pred) args.filter.eval
      (args.candidates vectors s.engine s.engine) with
  | error err => simp [hjoin, Except.map] at h
  | ok out =>
    obtain ⟨hist, hrun, hinserted⟩ := run_of_candidates eps s hjoin
    rw [hjoin] at h
    exact ⟨hist, _, hrun, hinserted, rfl, (Except.ok.inj h).symm, _, rfl⟩

/-! ### Staged disclosure -/

/-- Staged disclosure is pinned.  After any interleaving of the steps of `query_staged` calls with
writes, steps of the materializer and drills, on an engine with any content: the cache has one entry
for each of the `cap` largest ids inserted so far; drilling into a handle returns the full result of
the last call that got it, with the tokens of its grains, and nothing exactly when no call inserted
under it or `cap` larger ids were inserted; that result is the list which the query of the call
produced, and the call was answered with its length and its tokens; a call that nothing comes between
pins what the planned query of the engine returns; the calls have different handles as long as at
most `2^64` were made; and no step other than an insertion changes what any handle returns. -/
theorem pinned {e : GrainEngine I}
    (h : Trace.Run (next eps vectors) (Disclosing.start cap e) hist s) :
    let calls := inserted hist
    let ids := (calls.map StagedCall.id).toFinset
    s.continuations.map.size = min ids.card (max cap 1) ∧
    (∀ id, id ∈ s.continuations.map ↔ id ∈ keep (max cap 1) ids) ∧
    (∀ handle, s.drill handle =
      if handle.id ∈ keep (max cap 1) ids then (lastCall calls handle.id).map StagedCall.full
      else none) ∧
    (∀ handle, s.drill handle = none ↔
      handle.id ∉ calls.map StagedCall.id ∨ max cap 1 ≤ (above ids handle.id).card) ∧
    (∀ call ∈ calls, Produced vectors hist call ∧
      (call.answer eps).continuation = some ⟨call.id⟩ ∧
      ∃ summary, (call.answer eps).stage = .summary summary ∧
        summary.totalMatches = call.ranked.length ∧ summary.estFullTokens = call.full.estTokens) ∧
    (∀ args staged, (StagedEngine.queryStaged eps vectors ⟨s.engine, s.continuations⟩ args.pred
        args.query args.filter args.k args.targetRecall args.reps).2 = .ok staged →
      ∃ hist' call,
        Trace.Run (next eps vectors) s hist' { s with
          continuations := (StagedEngine.queryStaged eps vectors ⟨s.engine, s.continuations⟩
            args.pred args.query args.filter args.k args.targetRecall
            args.reps).1.continuations } ∧
        inserted hist' = [call] ∧ call.args = args ∧ staged = call.answer eps ∧
        ∃ plan, s.engine.queryPlanned vectors args.pred args.query args.filter args.k
          args.targetRecall = .ok (call.ranked, plan)) ∧
    ((allocated hist).length ≤ 2 ^ 64 → ∀ call ∈ calls, lastCall calls call.id = some call) ∧
    ∀ event s', s.next eps vectors event = some s' → insertion (s, event) = none →
      ∀ handle, s'.drill handle = s.drill handle := by
  intro calls ids
  have hpins := pins_of_run h
  have hids : ((calls.map fun c => (c.id, c.continuation eps)).map Prod.fst) =
      calls.map StagedCall.id := by
    rw [List.map_map]
    rfl
  have hbounded := hpins.bounded
  have hdrill : ∀ handle, s.drill handle =
      if handle.id ∈ keep (max cap 1) ids then (lastCall calls handle.id).map StagedCall.full
      else none := by
    intro handle
    rw [drill, ContinuationCache.drill, ContinuationCache.getFull, hbounded handle.id, hids]
    split
    · rw [latest_map, Option.map_map, Option.map_map]
      rfl
    · rfl
  have hnone := hbounded.eq_none_iff
  have hkeys := hbounded.keys_eq
  have hsize := hbounded.size_eq
  rw [hids] at hnone hkeys hsize
  refine ⟨hsize, fun id => ?_, hdrill, fun handle => ?_, fun call hcall => ⟨?_, rfl, _, rfl, rfl, rfl⟩,
    fun args staged hstaged => run_of_queryStaged s hstaged, fun hfew call hcall => ?_,
    fun event s' hstep hinsert handle => ?_⟩
  · rw [← mem_keys, hkeys]
  · rw [← hnone handle.id, drill, ContinuationCache.drill, ContinuationCache.getFull,
      Option.map_eq_none_iff, Option.map_eq_none_iff]
  · exact (ran_of_run h).2 call (hpins.calls.subset (List.mem_append_left _ hcall))
  · exact lastCall_of_nodup (hpins.nodup hfew) hcall
  · cases step_of_next hstep with
    | insert hget =>
      rw [insertion, hget] at hinsert
      cases hinsert
    | _ => rfl

end Runs

namespace DisclosureExample

def vectors : VectorIndex Unit Unit ℤ := ⟨fun _ _ _ _ => [⟨1, 5⟩]⟩

def args : StagedArgs Unit := ⟨0, (), .any, 1, .finite 0.9, 1⟩

/-- Two calls find a grain, the second one before it is overwritten and the first one afterwards; the
one that inserts first has the larger id. -/
def events : List (DisclosureEvent Unit Unit) :=
  [.write (.putRaw 1 0 [7] ⟨0, 0, 1⟩) none, .plan args, .plan args, .search 0, .search 1, .join 1,
    .write (.putRaw 1 0 [8, 9] ⟨0, 0, 2⟩) none, .join 0, .allocate 0, .allocate 0, .insert 1,
    .insert 0, .write (.delete 1 0 ⟨0, 0, 3⟩) none]

lemma exists_run : ∃ hist, ∃ s : Disclosing Unit Unit ℤ,
    Trace.Run (next 1 vectors) (start 1 (GrainEngine.openWith [] ())) hist s ∧
    (inserted hist).map (fun call => (call.id, call.ranked.map fun r => r.grain.val)) =
      [(2, [.bytes [7]]), (1, [.bytes [8, 9]])] := by
  have hexec : (Trace.exec (next 1 vectors) (start 1 (GrainEngine.openWith [] ())) events).map
      (fun p => (inserted p.1).map fun call => (call.id, call.ranked.map fun r => r.grain.val)) =
      some [(2, [.bytes [7]]), (1, [.bytes [8, 9]])] := by decide +kernel
  obtain ⟨⟨hist, s⟩, hrun, hinserted⟩ := Option.map_eq_some_iff.mp hexec
  exact ⟨hist, s, Trace.run_of_exec hrun, hinserted⟩

end DisclosureExample

open DisclosureExample in
/-- Two calls in a cache for one result, behind a later deletion of their grain: the one with the
larger id stays, with the value that it has read. -/
theorem pinned_out_of_order :
    ∃ hist, ∃ s : Disclosing Unit Unit ℤ,
      Trace.Run (next 1 vectors) (start 1 (GrainEngine.openWith [] ())) hist s ∧
      s.continuations.map.size = 1 ∧ s.drill ⟨1⟩ = none ∧
      ∃ call, call.ranked.map (fun r => r.grain.val) = [.bytes [7]] ∧
        s.drill ⟨2⟩ = some call.full ∧ Produced vectors hist call := by
  obtain ⟨hist, s, hrun, hinserted⟩ := exists_run
  obtain ⟨hsize, -, hdrill, hnone, hcalls, -⟩ := pinned hrun
  obtain ⟨second, first, hsecond, hfirst, heq⟩ : ∃ second first : StagedCall Unit ℤ,
      (second.id, second.ranked.map fun r => r.grain.val) = (2, [.bytes [7]]) ∧
      (first.id, first.ranked.map fun r => r.grain.val) = (1, [.bytes [8, 9]]) ∧
      inserted hist = [second, first] := by
    rcases hhist : inserted hist with _ | ⟨second, _ | ⟨first, _ | ⟨c, l⟩⟩⟩
    all_goals simp_all
  obtain ⟨hid₂, hval₂⟩ := Prod.mk.inj hsecond
  obtain ⟨hid₁, -⟩ := Prod.mk.inj hfirst
  have hids : (inserted hist).map StagedCall.id = [2, 1] := by
    rw [heq, List.map_cons, List.map_singleton, hid₁, hid₂]
  rw [hids] at hsize hdrill hnone
  refine ⟨hist, s, hrun, hsize.trans (by decide), (hnone ⟨1⟩).mpr (Or.inr (by decide)), second,
    hval₂, ?_, (hcalls second (heq ▸ List.mem_cons_self)).1⟩
  rw [hdrill, if_pos (by decide), heq, lastCall]
  simp [hid₁, hid₂]

end Disclosing

end GrainStore
