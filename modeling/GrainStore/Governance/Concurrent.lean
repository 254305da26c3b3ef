import Mathlib
import GrainStore.Engine.History
import GrainStore.Governance.Noninterference

/-!
# The governed engine with concurrent callers

Any number of calls, of any agents, are under way at the same time.  A call decides on what its
agent may see, a query pays for what it returns under the lock of the budgets, then the call takes
the number of its record, enters the record under the lock of the log, and answers; the steps of
other calls may come between any two of these.  A put goes to the engine after its record, and a
refused query reads the budget once more for its message.

What the query of the engine comes back with is left open, as the other calls write and the
materializer works while it runs.

`budget_kept` says that the budget is the ceiling of what the queries of an agent return in every
interleaving, `audit_kept` that the audit log accounts for every grain handed out, and `reaches_of_run`
that calls made one after the other are a run of this system.
-/

namespace GrainStore

open Trace

/-- What is disclosed of a grain on a decision. -/
def Decision.reveal : Decision → Grain → Option Grain
  | .deny, _ => none
  | .mask, g => some { g with val := redacted }
  | .allow, g => some g

/-- How a call comes out, fixed before it is recorded. -/
inductive Outcome (D : Type*) where
  /-- A put, with what the policy says of it. -/
  | put (agent : AgentId) (p : VectorPut) (d : Decision)
  /-- A `get` that found a grain, with what the policy says of it. -/
  | got (agent : AgentId) (sid : Sid) (pred : PredId) (d : Decision) (g : Grain)
  /-- A query that has paid for its results. -/
  | ranked (agent : AgentId) (pred : PredId) (out : List (Ranked D)) (plan : Plan)
  /-- A query that needs more than its agent has left. -/
  | refused (agent : AgentId) (pred : PredId) (need : ℕ)

/-- What a call is at. -/
inductive CallStage (D : Type*) where
  /-- The results of a query are filtered, and not paid yet. -/
  | paying (agent : AgentId) (pred : PredId) (out : List (Ranked D)) (plan : Plan)
  /-- The record has no number yet. -/
  | decided (o : Outcome D)
  /-- It has, and waits for the lock of the log. -/
  | entering (o : Outcome D) (seq : ℕ)
  /-- It is in the log. -/
  | recorded (o : Outcome D)

/-- A call that is over; there is no outcome where it returned before its record. -/
structure Answered (D : Type*) where
  agent : AgentId
  outcome : Option (Outcome D)
  response : Response D

/-- A governed engine, the calls under way, and those that are over. -/
structure Governing (I D : Type*) where
  engine : GovernedEngine I
  calls : List (CallStage D)
  answered : List (Answered D)

namespace Outcome

variable {D : Type*}

def agent : Outcome D → AgentId
  | .put agent _ _ => agent
  | .got agent _ _ _ _ => agent
  | .ranked agent _ _ _ => agent
  | .refused agent _ _ => agent

/-- The record of a call under its number. -/
def record (seq : ℕ) : Outcome D → AuditRecord
  | .put agent p d => ⟨seq, agent, .write, p.sid, p.pred, d, 0⟩
  | .got agent sid pred d g => ⟨seq, agent, .read, sid, pred, d, tokens (d.reveal g).toList⟩
  | .ranked agent pred out _ => ⟨seq, agent, .read, 0, pred, .allow, GovernedEngine.cost out⟩
  | .refused agent pred need => ⟨seq, agent, .read, 0, pred, .deny, need⟩

/-- The grains that the caller is handed. -/
def grains : Outcome D → List Grain
  | .got _ _ _ d g => (d.reveal g).toList
  | .ranked _ _ out _ => out.map Ranked.grain
  | _ => []

/-- What is debited to an agent. -/
def debit (a : AgentId) : Outcome D → ℕ
  | .ranked agent _ out _ => if agent = a then GovernedEngine.cost out else 0
  | _ => 0

end Outcome

/-- The answer of a recorded call: a put goes to the engine first, where its commit may fail. -/
def GovernedEngine.reply {I D : Type*} (e : GovernedEngine I) (failure : Option (IoError × ℕ)) :
    Outcome D → GovernedEngine I × Response D
  | .put agent p d =>
    if d = .deny then
      let target : GrainRef := { sid := p.sid, pred := p.pred, category := p.header.head? }
      (e, .wrote (.error (.denied s!"agent {agent.toNat} cannot write {target.debug}")))
    else
      let put := e.inner.putVector p.sid p.pred p.header p.vector p.wmeta failure
      ({ e with inner := put.1 }, .wrote put.2)
  | .got _ _ _ d g => (e, .got (.ok (d.reveal g)))
  | .ranked _ _ out plan => (e, .ranked (.ok (out, plan)))
  | .refused agent _ need =>
    let remaining := e.remainingBudget agent
    (e, .ranked (.error
      (.denied s!"token budget exceeded: need {need}, remaining {remaining}")))

namespace Governing

/-- What the environment chooses at a step; a call under way is named by its place. -/
inductive Event (I D : Type*) where
  | put (agent : AgentId) (p : VectorPut)
  | get (agent : AgentId) (sid : Sid) (pred : PredId)
  /-- The query of the engine, made for a call of this agent, comes back. -/
  | found (agent : AgentId) (pred : PredId) (r : Except Error (List (Ranked D) × Plan))
  /-- A query pays, under the lock of the budgets. -/
  | pay (i : ℕ)
  /-- A call takes the number of its record. -/
  | number (i : ℕ)
  /-- It enters the record, under the lock of the log. -/
  | enter (i : ℕ)
  /-- It answers; the commit of a put may meet a failing write. -/
  | reply (i : ℕ) (failure : Option (IoError × ℕ))
  /-- The materializer goes on. -/
  | materialize (index : I)

variable {I D : Type*}

def start (inner : GrainEngine I) (policy : Policy) (budget : ℕ) : Governing I D :=
  ⟨GovernedEngine.new inner policy budget, [], []⟩

/-- A new call is under way. -/
def call (x : Governing I D) (c : CallStage D) : Governing I D := { x with calls := c :: x.calls }

/-- The `i`-th call goes on. -/
def goOn (x : Governing I D) (i : ℕ) (engine : GovernedEngine I) (c : CallStage D) : Governing I D :=
  { x with engine, calls := c :: x.calls.eraseIdx i }

/-- A call is over. -/
def answer (x : Governing I D) (a : Answered D) : Governing I D :=
  { x with answered := x.answered ++ [a] }

/-- The `i`-th call is over. -/
def finish (x : Governing I D) (i : ℕ) (engine : GovernedEngine I) (a : Answered D) :
    Governing I D :=
  ⟨engine, x.calls.eraseIdx i, x.answered ++ [a]⟩

/-- How the payment of a query comes out. -/
def paid (agent : AgentId) (pred : PredId) (out : List (Ranked D)) (plan : Plan) (spent : Bool) :
    Outcome D :=
  if spent then .ranked agent pred out plan else .refused agent pred (GovernedEngine.cost out)

/-- One step of one of the calls. -/
def next (x : Governing I D) : Event I D → Option (Governing I D)
  | .put agent p =>
    let d := x.engine.policy agent .write { sid := p.sid, pred := p.pred, category := p.header.head? }
    some (x.call (.decided (.put agent p d)))
  | .get agent sid pred =>
    match x.engine.inner.truth.read sid pred with
    | .error err => some (x.answer ⟨agent, none, .got (.error err)⟩)
    | .ok none => some (x.answer ⟨agent, none, .got (.ok none)⟩)
    | .ok (some g) =>
      let d := x.engine.policy agent .read { sid, pred, category := categoryOf g }
      some (x.call (.decided (.got agent sid pred d g)))
  | .found agent pred r =>
    match r with
    | .error err => some (x.answer ⟨agent, none, .ranked (.error err)⟩)
    | .ok (ranked, plan) =>
      let out := GovernedEngine.readable x.engine.policy agent pred ranked
      some (x.call (.paying agent pred out plan))
  | .pay i =>
    match x.calls[i]? with
    | some (.paying agent pred out plan) =>
      let spent := x.engine.trySpend agent (GovernedEngine.cost out)
      some (x.goOn i spent.1 (.decided (paid agent pred out plan spent.2)))
    | _ => none
  | .number i =>
    match x.calls[i]? with
    | some (.decided o) =>
      let taken := x.engine.allocateSeq
      some (x.goOn i taken.1 (.entering o taken.2))
    | _ => none
  | .enter i =>
    match x.calls[i]? with
    | some (.entering o seq) => some (x.goOn i (x.engine.pushRecord (o.record seq)) (.recorded o))
    | _ => none
  | .reply i failure =>
    match x.calls[i]? with
    | some (.recorded o) =>
      let r := x.engine.reply failure o
      some (x.finish i r.1 ⟨o.agent, some o, r.2⟩)
    | _ => none
  | .materialize index =>
    some { x with engine := { x.engine with inner := { x.engine.inner with index } } }

/-- The steps of the system, one constructor for each kind of step. -/
inductive Step (x : Governing I D) : Event I D → Governing I D → Prop
  | put (agent : AgentId) (p : VectorPut) :
      Step x (.put agent p) (x.call (.decided (.put agent p
        (x.engine.policy agent .write ⟨p.sid, p.pred, p.header.head?⟩))))
  | getFailed {agent : AgentId} {sid : Sid} {pred : PredId} {err : Error} :
    x.engine.inner.truth.read sid pred = .error err →
      Step x (.get agent sid pred) (x.answer ⟨agent, none, .got (.error err)⟩)
  | getNone {agent : AgentId} {sid : Sid} {pred : PredId} :
    x.engine.inner.truth.read sid pred = .ok none →
      Step x (.get agent sid pred) (x.answer ⟨agent, none, .got (.ok none)⟩)
  | get {agent : AgentId} {sid : Sid} {pred : PredId} {g : Grain} :
    x.engine.inner.truth.read sid pred = .ok (some g) →
      Step x (.get agent sid pred) (x.call (.decided (.got agent sid pred
        (x.engine.policy agent .read ⟨sid, pred, categoryOf g⟩) g)))
  | foundFailed (agent : AgentId) (pred : PredId) (err : Error) :
      Step x (.found agent pred (.error err)) (x.answer ⟨agent, none, .ranked (.error err)⟩)
  | found (agent : AgentId) (pred : PredId) (ranked : List (Ranked D)) (plan : Plan) :
      Step x (.found agent pred (.ok (ranked, plan))) (x.call (.paying agent pred
        (GovernedEngine.readable x.engine.policy agent pred ranked) plan))
  | pay {i : ℕ} {agent : AgentId} {pred : PredId} {out : List (Ranked D)} {plan : Plan} :
    x.calls[i]? = some (.paying agent pred out plan) →
      Step x (.pay i) (x.goOn i (x.engine.trySpend agent (GovernedEngine.cost out)).1 (.decided
        (paid agent pred out plan (x.engine.trySpend agent (GovernedEngine.cost out)).2)))
  | number {i : ℕ} {o : Outcome D} : x.calls[i]? = some (.decided o) →
      Step x (.number i) (x.goOn i x.engine.allocateSeq.1 (.entering o x.engine.auditSeq))
  | enter {i seq : ℕ} {o : Outcome D} : x.calls[i]? = some (.entering o seq) →
      Step x (.enter i) (x.goOn i (x.engine.pushRecord (o.record seq)) (.recorded o))
  | reply {i : ℕ} {o : Outcome D} (failure : Option (IoError × ℕ)) :
    x.calls[i]? = some (.recorded o) →
      Step x (.reply i failure) (x.finish i (x.engine.reply failure o).1
        ⟨o.agent, some o, (x.engine.reply failure o).2⟩)
  | materialize (index : I) :
      Step x (.materialize index)
        { x with engine := { x.engine with inner := { x.engine.inner with index } } }

variable {x y : Governing I D} {e : Event I D}

/-- Every step is one of these kinds. -/
theorem step_of_next (h : x.next e = some y) : Step x e y := by
  cases e with
  | put agent p => exact Option.some.inj h ▸ Step.put agent p
  | get agent sid pred =>
    cases hread : x.engine.inner.truth.read sid pred with
    | error err =>
      simp only [next, hread, Option.some.injEq] at h
      exact h ▸ Step.getFailed hread
    | ok found =>
      cases found with
      | none =>
        simp only [next, hread, Option.some.injEq] at h
        exact h ▸ Step.getNone hread
      | some g =>
        simp only [next, hread, Option.some.injEq] at h
        exact h ▸ Step.get hread
  | found agent pred r =>
    cases r with
    | error err => exact Option.some.inj h ▸ Step.foundFailed agent pred err
    | ok r => exact Option.some.inj h ▸ Step.found agent pred r.1 r.2
  | pay i =>
    simp only [next] at h
    split at h
    · rename_i hcall
      exact Option.some.inj h ▸ Step.pay hcall
    · cases h
  | number i =>
    simp only [next] at h
    split at h
    · rename_i hcall
      exact Option.some.inj h ▸ Step.number hcall
    · cases h
  | enter i =>
    simp only [next] at h
    split at h
    · rename_i hcall
      exact Option.some.inj h ▸ Step.enter hcall
    · cases h
  | reply i failure =>
    simp only [next] at h
    split at h
    · rename_i hcall
      exact Option.some.inj h ▸ Step.reply failure hcall
    · cases h
  | materialize index => exact Option.some.inj h ▸ Step.materialize index

/-! ## What the calls have with them -/

section Content

variable {β : Type*}

/-- What the calls under way and those that are over have of some kind. -/
def content (x : Governing I D) (f : CallStage D → Option β) (g : Answered D → Option β) : List β :=
  x.calls.filterMap f ++ x.answered.filterMap g

variable (f : CallStage D → Option β) (g : Answered D → Option β) (engine : GovernedEngine I)

/-- One of the calls and the others. -/
lemma calls_perm {i : ℕ} {c : CallStage D} (h : x.calls[i]? = some c) :
    ((f c).toList ++ (x.calls.eraseIdx i).filterMap f).Perm (x.calls.filterMap f) := by
  obtain ⟨hlt, rfl⟩ := List.getElem?_eq_some_iff.mp h
  have hperm := (List.getElem_cons_eraseIdx_perm hlt).filterMap f
  rw [List.filterMap_cons] at hperm
  cases hc : f x.calls[i] with
  | none => simpa [hc] using hperm
  | some b => simpa [hc] using hperm

lemma content_call (c : CallStage D) : (x.call c).content f g = (f c).toList ++ x.content f g := by
  rw [content, call, List.filterMap_cons]
  cases f c <;> rfl

lemma content_answer (a : Answered D) :
    ((x.answer a).content f g).Perm ((g a).toList ++ x.content f g) := by
  rw [content, answer, List.filterMap_append, ← List.append_assoc]
  refine List.perm_append_comm.trans (List.Perm.append_right _ ?_)
  cases hg : g a <;> simp [hg]

lemma content_goOn {i : ℕ} {c : CallStage D} (h : x.calls[i]? = some c) (c' : CallStage D) :
    ((f c).toList ++ (x.goOn i engine c').content f g).Perm ((f c').toList ++ x.content f g) := by
  have hnew : (x.goOn i engine c').content f g =
      (f c').toList ++ ((x.calls.eraseIdx i).filterMap f ++ x.answered.filterMap g) := by
    rw [content, goOn, List.filterMap_cons]
    cases f c' <;> rfl
  rw [hnew, content]
  refine (List.perm_append_comm_assoc _ _ _).trans (List.Perm.append_left _ ?_)
  rw [← List.append_assoc]
  exact (calls_perm f h).append_right _

lemma content_finish {i : ℕ} {c : CallStage D} (h : x.calls[i]? = some c) (a : Answered D) :
    ((f c).toList ++ (x.finish i engine a).content f g).Perm
      ((g a).toList ++ x.content f g) := by
  rw [content, content, finish, List.filterMap_append, ← List.append_assoc, ← List.append_assoc]
  refine ((calls_perm f h).append_right _).append_right _ |>.trans ?_
  refine List.perm_append_comm.trans (List.Perm.append_right _ ?_)
  cases hg : g a <;> simp [hg]

end Content

end Governing

/-- The outcome of a call under way, once it is fixed. -/
def CallStage.outcome {D : Type*} : CallStage D → Option (Outcome D)
  | .paying _ _ _ _ => none
  | .decided o => some o
  | .entering o _ => some o
  | .recorded o => some o

/-- The outcome of a call whose record is in the log. -/
def CallStage.logged {D : Type*} : CallStage D → Option (Outcome D)
  | .recorded o => some o
  | _ => none

/-- What a call may come out as. -/
def CallStage.claim {D : Type*} : CallStage D → Option (Outcome D)
  | .paying agent pred out plan => some (.ranked agent pred out plan)
  | .decided o => some o
  | .entering o _ => some o
  | .recorded o => some o

/-- The number of a record that waits for the lock. -/
def CallStage.seq {D : Type*} : CallStage D → Option ℕ
  | .entering _ seq => some seq
  | _ => none

/-- A call is decided as the policy says. -/
def Outcome.Lawful {D : Type*} (policy : Policy) : Outcome D → Prop
  | .put agent p d => policy agent .write ⟨p.sid, p.pred, p.header.head?⟩ = d
  | .got agent sid pred d g => policy agent .read ⟨sid, pred, categoryOf g⟩ = d
  | .ranked agent pred out _ => ∃ ranked, out = GovernedEngine.readable policy agent pred ranked
  | .refused _ _ _ => True

/-- What a response has cost the budget. -/
def Response.debit {D : Type*} : Response D → ℕ
  | .ranked (.ok (out, _)) => GovernedEngine.cost out
  | _ => 0

/-- The tokens of a record, where it is that of a read of this agent that was granted. -/
def AuditRecord.granted (agent : AgentId) (r : AuditRecord) : ℕ :=
  if r.agent = agent ∧ r.action = .read ∧ r.decision ≠ .deny then r.tokens else 0

/-- A call is answered as it has come out. -/
structure Answered.Faithful {D : Type*} (a : Answered D) : Prop where
  unrecorded : a.outcome = none → a.response.grains = [] ∧ a.response.debit = 0
  recorded : ∀ o, a.outcome = some o → o.agent = a.agent ∧ a.response.grains = o.grains ∧
    a.response.debit = o.debit a.agent
  /-- A refusal names what was needed, and less than that as what remains. -/
  refused : ∀ agent pred need, a.outcome = some (.refused agent pred need) → ∃ remaining < need,
    a.response = .ranked (.error
      (.denied s!"token budget exceeded: need {need}, remaining {remaining}"))

namespace Governing

/-- The calls that have come to their outcome. -/
def outcomes (x : Governing I D) : List (Outcome D) := x.content CallStage.outcome Answered.outcome

/-- The calls that are in the log. -/
def logged (x : Governing I D) : List (Outcome D) := x.content CallStage.logged Answered.outcome

/-- The numbers that are taken. -/
def seqs (x : Governing I D) : List ℕ :=
  x.engine.audit.map AuditRecord.seq ++ x.content CallStage.seq fun _ => none

/-- The debits of the calls, by agent. -/
def debits (x : Governing I D) (agent : AgentId) : ℕ :=
  (x.outcomes.map (Outcome.debit agent)).sum

/-- What the queries of an agent have returned to it, in tokens. -/
def handed (x : Governing I D) (agent : AgentId) : ℕ :=
  (x.answered.map fun a => if a.agent = agent then a.response.debit else 0).sum

/-- What is debited to an agent for calls that are still under way. -/
def inFlight (x : Governing I D) (agent : AgentId) : ℕ :=
  ((x.calls.filterMap CallStage.outcome).map (Outcome.debit agent)).sum

variable {I D : Type*} {x y : Governing I D} {e : Event I D}

/-! ## Budgets -/

/-- An answer changes nothing but the engine behind. -/
lemma exists_reply (engine : GovernedEngine I) (failure : Option (IoError × ℕ)) (o : Outcome D) :
    ∃ inner, (engine.reply failure o).1 = { engine with inner } := by
  cases o with
  | put a p d =>
    unfold GovernedEngine.reply
    dsimp only
    split
    · exact ⟨engine.inner, rfl⟩
    · exact ⟨_, rfl⟩
  | _ => exact ⟨engine.inner, rfl⟩

/-- What a query pays is debited. -/
lemma remainingBudget_paid (engine : GovernedEngine I) (agent a : AgentId) (pred : PredId)
    (out : List (Ranked D)) (plan : Plan) :
    (engine.trySpend agent (GovernedEngine.cost out)).1.remainingBudget a +
        (paid agent pred out plan
          (engine.trySpend agent (GovernedEngine.cost out)).2).debit a =
      engine.remainingBudget a := by
  rw [GovernedEngine.remainingBudget_trySpend, GovernedEngine.trySpend_snd]
  by_cases hle : GovernedEngine.cost out ≤ engine.remainingBudget agent
  · rw [decide_eq_true hle, paid, if_pos rfl, Outcome.debit]
    by_cases hagent : agent = a
    · rw [if_pos ⟨hagent, hle⟩, if_pos hagent]
      subst hagent
      exact Nat.sub_add_cancel hle
    · rw [if_neg fun h => hagent h.1, if_neg hagent]
      rfl
  · rw [decide_eq_false hle, paid, if_neg Bool.false_ne_true, if_neg fun h => hle h.2]
    rfl

/-- A query that is refused needs more than its agent has left. -/
def Short (engine : GovernedEngine I) (o : Outcome D) : Prop :=
  ∀ agent pred need, o = .refused agent pred need → engine.remainingBudget agent < need

lemma short_paid (engine : GovernedEngine I) (agent : AgentId) (pred : PredId)
    (out : List (Ranked D)) (plan : Plan) :
    Short (engine.trySpend agent (GovernedEngine.cost out)).1 (paid agent pred out plan
      (engine.trySpend agent (GovernedEngine.cost out)).2) := by
  intro a pred' need ho
  rw [GovernedEngine.trySpend_snd] at ho
  by_cases hle : GovernedEngine.cost out ≤ engine.remainingBudget agent
  · rw [decide_eq_true hle, paid, if_pos rfl] at ho
    cases ho
  · rw [decide_eq_false hle, paid, if_neg Bool.false_ne_true] at ho
    cases ho
    rw [GovernedEngine.remainingBudget_trySpend, if_neg fun h => hle h.2]
    exact Nat.lt_of_not_le hle

/-- What a step adds to the outcomes is what it takes from the budgets. -/
lemma outcomes_step (h : Step x e y) : ∃ l : List (Outcome D),
    y.outcomes.Perm (l ++ x.outcomes) ∧ (∀ o ∈ l, Short y.engine o) ∧
      ∀ agent, y.engine.remainingBudget agent + (l.map (Outcome.debit agent)).sum =
        x.engine.remainingBudget agent := by
  cases h with
  | put agent p =>
    exact ⟨[_], List.Perm.of_eq (content_call _ _ _), by simp [Short], fun _ => rfl⟩
  | getFailed hread => exact ⟨[], content_answer _ _ _, by simp, fun _ => rfl⟩
  | getNone hread => exact ⟨[], content_answer _ _ _, by simp, fun _ => rfl⟩
  | get hread =>
    exact ⟨[_], List.Perm.of_eq (content_call _ _ _), by simp [Short], fun _ => rfl⟩
  | foundFailed agent pred err => exact ⟨[], content_answer _ _ _, by simp, fun _ => rfl⟩
  | found agent pred ranked plan =>
    exact ⟨[], List.Perm.of_eq (content_call _ _ _), by simp, fun _ => rfl⟩
  | @pay i agent pred out plan hcall =>
    refine ⟨[paid agent pred out plan _],
      content_goOn CallStage.outcome Answered.outcome _ hcall (.decided _), ?_, ?_⟩
    · intro o ho
      rw [List.mem_singleton.mp ho]
      exact short_paid x.engine agent pred out plan
    · intro a
      rw [List.map_singleton, List.sum_singleton]
      exact remainingBudget_paid x.engine agent a pred out plan
  | number hcall =>
    exact ⟨[], (List.perm_cons _).mp (content_goOn CallStage.outcome Answered.outcome _ hcall _), by simp, fun _ => rfl⟩
  | enter hcall =>
    exact ⟨[], (List.perm_cons _).mp (content_goOn CallStage.outcome Answered.outcome _ hcall _), by simp, fun _ => rfl⟩
  | @reply i o failure hcall =>
    obtain ⟨inner, hreply⟩ := exists_reply x.engine failure o
    exact ⟨[], (List.perm_cons _).mp (content_finish CallStage.outcome Answered.outcome _ hcall _),
      by simp, fun a => congrArg (fun engine => engine.remainingBudget a) hreply⟩
  | materialize index => exact ⟨[], List.Perm.refl _, by simp, fun _ => rfl⟩

lemma faithful_none {a : Answered D} (hnone : a.outcome = none) (hgrains : a.response.grains = [])
    (hdebit : a.response.debit = 0) : a.Faithful where
  unrecorded _ := ⟨hgrains, hdebit⟩
  recorded o ho := by simp [hnone] at ho
  refused agent pred need ho := by simp [hnone] at ho

lemma faithful_reply (engine : GovernedEngine I) (failure : Option (IoError × ℕ)) {o : Outcome D}
    (hshort : Short engine o) :
    Answered.Faithful ⟨o.agent, some o, (engine.reply failure o).2⟩ where
  unrecorded hnone := by cases hnone
  recorded o' ho' := by
    obtain rfl := Option.some.inj ho'
    refine ⟨rfl, ?_⟩
    cases o with
    | put agent p d =>
      unfold GovernedEngine.reply
      dsimp only
      split
      · exact ⟨rfl, rfl⟩
      · exact ⟨rfl, rfl⟩
    | got agent sid pred d g =>
      refine ⟨?_, rfl⟩
      cases d <;> rfl
    | ranked agent pred out plan => exact ⟨rfl, (if_pos rfl).symm⟩
    | refused agent pred need => exact ⟨rfl, rfl⟩
  refused agent pred need ho := by
    obtain rfl := Option.some.inj ho
    exact ⟨engine.remainingBudget agent, hshort agent pred need rfl, rfl⟩

/-- What holds in every state of the budgets and of the answers. -/
structure Balanced (budget : ℕ) (x : Governing I D) : Prop where
  balance : ∀ agent, x.engine.remainingBudget agent + x.debits agent = budget
  short : ∀ o ∈ x.outcomes, Short x.engine o
  faithful : ∀ a ∈ x.answered, a.Faithful

lemma balanced_start (inner : GrainEngine I) (policy : Policy) (budget : ℕ) :
    Balanced budget (start inner policy budget : Governing I D) := by
  refine ⟨?_, by simp [outcomes, content, start], by simp [start]⟩
  intro agent
  simp [start, GovernedEngine.new, GovernedEngine.remainingBudget, debits, outcomes, content]

/-- The answers that a step adds are faithful. -/
lemma faithful_step (h : Step x e y) (hshort : ∀ o ∈ x.outcomes, Short x.engine o)
    (hx : ∀ a ∈ x.answered, a.Faithful) : ∀ a ∈ y.answered, a.Faithful := by
  have hmore : ∀ {b : Answered D}, b.Faithful → ∀ a ∈ x.answered ++ [b], a.Faithful := by
    intro b hb a ha
    rcases List.mem_append.mp ha with ha | ha
    · exact hx a ha
    · exact List.mem_singleton.mp ha ▸ hb
  cases h with
  | getFailed hread => exact hmore (faithful_none rfl rfl rfl)
  | getNone hread => exact hmore (faithful_none rfl rfl rfl)
  | foundFailed agent pred err => exact hmore (faithful_none rfl rfl rfl)
  | @reply i o failure hcall =>
    refine hmore (faithful_reply x.engine failure (hshort o ?_))
    exact List.mem_append_left _ (List.mem_filterMap.mpr ⟨_, List.mem_of_getElem? hcall, rfl⟩)
  | _ => exact hx

lemma Balanced.step {budget : ℕ} (hx : Balanced budget x) (h : Step x e y) :
    Balanced budget y := by
  obtain ⟨l, hperm, hnew, hbudget⟩ := outcomes_step h
  refine ⟨?_, ?_, faithful_step h hx.short hx.faithful⟩
  · intro agent
    have hdebits : y.debits agent = (l.map (Outcome.debit agent)).sum + x.debits agent := by
      rw [debits, (hperm.map _).sum_eq, List.map_append, List.sum_append]
      rfl
    rw [hdebits, ← Nat.add_assoc, hbudget]
    exact hx.balance agent
  · intro o ho
    rcases List.mem_append.mp (hperm.mem_iff.mp ho) with ho | ho
    · exact hnew o ho
    · intro agent pred need heq
      exact lt_of_le_of_lt (le_of_add_le_left (hbudget agent).le) (hx.short o ho agent pred need heq)

/-- A call is debited to its agent alone. -/
lemma debit_eq (o : Outcome D) (agent : AgentId) :
    o.debit agent = if o.agent = agent then o.debit o.agent else 0 := by
  cases o with
  | ranked owner pred out plan =>
    by_cases howner : owner = agent
    · simp [Outcome.debit, Outcome.agent, howner]
    · simp [Outcome.debit, Outcome.agent, howner]
  | _ => exact (ite_self _).symm

/-- The answers show the debits of the calls that are over. -/
lemma debits_eq (hx : ∀ a ∈ x.answered, a.Faithful) (agent : AgentId) :
    x.debits agent = x.handed agent + x.inFlight agent := by
  have hanswered : ∀ l : List (Answered D), (∀ a ∈ l, a.Faithful) →
      ((l.filterMap Answered.outcome).map (Outcome.debit agent)).sum =
        (l.map fun a => if a.agent = agent then a.response.debit else 0).sum := by
    intro l hl
    induction l with
    | nil => rfl
    | cons a l ih =>
      have ha := hl a List.mem_cons_self
      rw [List.map_cons, List.sum_cons, ← ih fun b hb => hl b (List.mem_cons_of_mem _ hb)]
      cases ho : a.outcome with
      | none => rw [List.filterMap_cons_none ho, (ha.unrecorded ho).2, ite_self, Nat.zero_add]
      | some o =>
        obtain ⟨hagent, -, hdebit⟩ := ha.recorded o ho
        rw [List.filterMap_cons_some ho, List.map_cons, List.sum_cons, hdebit, ← hagent,
          debit_eq o agent]
  rw [debits, outcomes, content, List.map_append, List.sum_append, hanswered _ hx, Nat.add_comm]
  rfl

/-- The budget is a hard ceiling for the queries of an agent, whoever else is at work.  In every
interleaving of any number of calls of any agents, with whatever the queries of the engine come back
with: what remains to an agent, what its queries have returned and what is paid for and not returned
yet make up the budget; and a query that is refused is told that less remains than it needs, though
the budget is read again for the message. -/
theorem budget_kept (inner : GrainEngine I) (policy : Policy) (budget : ℕ)
    {hist : List (Governing I D × Event I D)} (h : Run next (start inner policy budget) hist x)
    (agent : AgentId) :
    x.engine.remainingBudget agent + x.handed agent + x.inFlight agent = budget ∧
      ∀ a ∈ x.answered, ∀ pred need, a.outcome = some (.refused agent pred need) →
        ∃ remaining < need, a.response = .ranked (.error
          (.denied s!"token budget exceeded: need {need}, remaining {remaining}")) := by
  have hbalanced : Balanced budget x := h.invariant (balanced_start inner policy budget)
    fun _ _ _ hy hstep => hy.step (step_of_next hstep)
  refine ⟨?_, fun a ha pred need ho => (hbalanced.faithful a ha).refused agent pred need ho⟩
  rw [Nat.add_assoc, ← debits_eq hbalanced.faithful]
  exact hbalanced.balance agent

/-! ## The audit log -/

/-- The tokens of the reads of an agent that are in the log as granted. -/
def audited (x : Governing I D) (agent : AgentId) : ℕ :=
  (x.engine.audit.map (AuditRecord.granted agent)).sum

/-- The tokens of all grains that an agent was handed. -/
def disclosed (x : Governing I D) (agent : AgentId) : ℕ :=
  (x.answered.map fun a => if a.agent = agent then tokens a.response.grains else 0).sum

/-- The numbers go to the calls and into the log, each once. -/
lemma seqs_step (h : Step x e y) (hx : x.seqs.Perm (List.range x.engine.auditSeq)) :
    y.seqs.Perm (List.range y.engine.auditSeq) := by
  have hcontent : y.engine.audit = x.engine.audit → y.engine.auditSeq = x.engine.auditSeq →
      (y.content CallStage.seq fun _ => none).Perm (x.content CallStage.seq fun _ => none) →
      y.seqs.Perm (List.range y.engine.auditSeq) := by
    intro haudit hseq hperm
    rw [seqs, haudit, hseq]
    exact (hperm.append_left _).trans hx
  cases h with
  | put agent p => exact hcontent rfl rfl (List.Perm.of_eq (content_call _ _ _))
  | getFailed hread => exact hcontent rfl rfl (content_answer _ _ _)
  | getNone hread => exact hcontent rfl rfl (content_answer _ _ _)
  | get hread => exact hcontent rfl rfl (List.Perm.of_eq (content_call _ _ _))
  | foundFailed agent pred err => exact hcontent rfl rfl (content_answer _ _ _)
  | found agent pred ranked plan => exact hcontent rfl rfl (List.Perm.of_eq (content_call _ _ _))
  | @pay i agent pred out plan hcall =>
    obtain ⟨budgets, hspend⟩ := x.engine.exists_trySpend agent (GovernedEngine.cost out)
    exact hcontent (by rw [goOn, hspend]) (by rw [goOn, hspend])
      (content_goOn CallStage.seq (fun _ => none) _ hcall (.decided _))
  | @number i o hcall =>
    have hperm := content_goOn CallStage.seq (fun _ => none) x.engine.allocateSeq.1 hcall
      (.entering o x.engine.auditSeq)
    refine (hperm.append_left _).trans ?_
    refine (List.perm_append_comm_assoc _ _ _).trans ((hx.cons x.engine.auditSeq).trans ?_)
    have hsucc : x.engine.allocateSeq.1.auditSeq = x.engine.auditSeq + 1 := rfl
    rw [goOn, hsucc, List.range_succ]
    exact (List.perm_append_singleton _ _).symm
  | @enter i seq o hcall =>
    have hperm := content_goOn CallStage.seq (fun _ => none) (x.engine.pushRecord (o.record seq)) hcall
      (.recorded o)
    have hseq : (o.record seq).seq = seq := by cases o <;> rfl
    have haudit : (x.engine.pushRecord (o.record seq)).audit.map AuditRecord.seq =
        x.engine.audit.map AuditRecord.seq ++ [seq] := by
      rw [GovernedEngine.pushRecord, List.map_append, List.map_singleton, hseq]
    refine List.Perm.trans ?_ hx
    rw [seqs, seqs, goOn, haudit, List.append_assoc]
    exact hperm.append_left _
  | @reply i o failure hcall =>
    obtain ⟨inner, hreply⟩ := exists_reply x.engine failure o
    exact hcontent (by rw [finish, hreply]) (by rw [finish, hreply])
      (content_finish CallStage.seq (fun _ => none) _ hcall _)
  | materialize index => exact hcontent rfl rfl (List.Perm.refl _)

/-- The log has one record of each call that has entered it. -/
lemma records_step (h : Step x e y)
    (hx : (x.engine.audit.map AuditRecord.body).Perm (x.logged.map (Outcome.record 0))) :
    (y.engine.audit.map AuditRecord.body).Perm (y.logged.map (Outcome.record 0)) := by
  have hsame : y.engine.audit = x.engine.audit → y.logged.Perm x.logged →
      (y.engine.audit.map AuditRecord.body).Perm (y.logged.map (Outcome.record 0)) := by
    intro haudit hperm
    rw [haudit]
    exact hx.trans (hperm.map _).symm
  cases h with
  | put agent p => exact hsame rfl (List.Perm.of_eq (content_call _ _ _))
  | getFailed hread => exact hsame rfl (content_answer _ _ _)
  | getNone hread => exact hsame rfl (content_answer _ _ _)
  | get hread => exact hsame rfl (List.Perm.of_eq (content_call _ _ _))
  | foundFailed agent pred err => exact hsame rfl (content_answer _ _ _)
  | found agent pred ranked plan => exact hsame rfl (List.Perm.of_eq (content_call _ _ _))
  | pay hcall =>
    exact hsame (GovernedEngine.audit_trySpend ..)
      (content_goOn CallStage.logged Answered.outcome _ hcall (.decided _))
  | number hcall =>
    exact hsame rfl (content_goOn CallStage.logged Answered.outcome _ hcall (.entering _ _))
  | @enter i seq o hcall =>
    have hperm := content_goOn CallStage.logged Answered.outcome
      (x.engine.pushRecord (o.record seq)) hcall (.recorded o)
    have hbody : (o.record seq).body = o.record 0 := by cases o <;> rfl
    refine List.Perm.trans ?_ (hperm.map _).symm
    have haudit : (x.engine.pushRecord (o.record seq)).audit.map AuditRecord.body =
        x.engine.audit.map AuditRecord.body ++ [o.record 0] := by
      rw [GovernedEngine.pushRecord, List.map_append, List.map_singleton, hbody]
    rw [goOn, haudit]
    exact List.perm_append_comm.trans (hx.cons _)
  | @reply i o failure hcall =>
    obtain ⟨inner, hreply⟩ := exists_reply x.engine failure o
    exact hsame (by rw [finish, hreply])
      ((List.perm_cons _).mp (content_finish CallStage.logged Answered.outcome _ hcall _))
  | materialize index => exact hsame rfl (List.Perm.refl _)

/-- The tokens of a record are those of the grains that its call hands out. -/
lemma granted_record (seq : ℕ) (o : Outcome D) (agent : AgentId) :
    (o.record seq).granted agent = if o.agent = agent then tokens o.grains else 0 := by
  by_cases hagent : o.agent = agent
  · rw [if_pos hagent]
    cases o with
    | put a p d => simp [AuditRecord.granted, Outcome.record, Outcome.grains, tokens]
    | got a sid pred d g =>
      have hagent' : a = agent := hagent
      cases d <;> simp [AuditRecord.granted, Outcome.record, Outcome.grains, Decision.reveal,
        tokens, hagent']
    | ranked a pred out plan =>
      have hagent' : a = agent := hagent
      simp [AuditRecord.granted, Outcome.record, Outcome.grains, GovernedEngine.cost, tokens,
        hagent', Function.comp_def]
    | refused a pred need => simp [AuditRecord.granted, Outcome.record, Outcome.grains, tokens]
  · rw [if_neg hagent]
    have howner : (o.record seq).agent = o.agent := by cases o <;> rfl
    exact if_neg fun h => hagent (howner.symm.trans h.1)

/-- What the log says was granted is what the calls in the log hand out. -/
lemma audited_eq (hx : (x.engine.audit.map AuditRecord.body).Perm
    (x.logged.map (Outcome.record 0))) (agent : AgentId) :
    x.audited agent =
      (x.logged.map fun o => if o.agent = agent then tokens o.grains else 0).sum := by
  have hsum := (hx.map (AuditRecord.granted agent)).sum_eq
  rw [List.map_map, List.map_map] at hsum
  have hrecord : (fun o : Outcome D => if o.agent = agent then tokens o.grains else 0) =
      AuditRecord.granted agent ∘ Outcome.record 0 :=
    funext fun o => (granted_record 0 o agent).symm
  rw [audited, hrecord]
  exact hsum

/-- The answers hand out what the outcomes say. -/
lemma disclosed_eq (hx : ∀ a ∈ x.answered, a.Faithful) (agent : AgentId) :
    x.disclosed agent = ((x.answered.filterMap Answered.outcome).map fun o =>
      if o.agent = agent then tokens o.grains else 0).sum := by
  rw [disclosed]
  generalize x.answered = l at hx
  induction l with
  | nil => rfl
  | cons a l ih =>
    have ha := hx a List.mem_cons_self
    rw [List.map_cons, List.sum_cons, ih fun b hb => hx b (List.mem_cons_of_mem _ hb)]
    cases ho : a.outcome with
    | none =>
      rw [List.filterMap_cons_none ho, (ha.unrecorded ho).1]
      simp [tokens]
    | some o =>
      obtain ⟨hagent, hgrains, -⟩ := ha.recorded o ho
      rw [List.filterMap_cons_some ho, List.map_cons, List.sum_cons, hgrains, hagent]

/-! ## The policy -/

/-- The calls and what they may come out as. -/
def claims (x : Governing I D) : List (Outcome D) := x.content CallStage.claim Answered.outcome

/-- Every call is decided as the policy says, which no step changes. -/
lemma lawful_step (h : Step x e y) (hx : ∀ o ∈ x.claims, o.Lawful x.engine.policy) :
    y.engine.policy = x.engine.policy ∧ ∀ o ∈ y.claims, o.Lawful x.engine.policy := by
  have hnew : ∀ {l l' : List (Outcome D)}, (l ++ y.claims).Perm (l' ++ x.claims) →
      (∀ o ∈ l', o.Lawful x.engine.policy) → ∀ o ∈ y.claims, o.Lawful x.engine.policy := by
    intro l l' hperm hl' o ho
    rcases List.mem_append.mp (hperm.mem_iff.mp (List.mem_append_right l ho)) with ho | ho
    · exact hl' o ho
    · exact hx o ho
  have hclaim : ∀ {i : ℕ} {c : CallStage D} {o : Outcome D}, x.calls[i]? = some c →
      CallStage.claim c = some o → o.Lawful x.engine.policy := fun hcall hc =>
    hx _ (List.mem_append_left _ (List.mem_filterMap.mpr ⟨_, List.mem_of_getElem? hcall, hc⟩))
  cases h with
  | put agent p =>
    exact ⟨rfl, hnew (l := []) (List.Perm.of_eq (content_call _ _ _))
      (List.forall_mem_singleton.mpr rfl)⟩
  | getFailed hread => exact ⟨rfl, hnew (l := []) (content_answer _ _ _) (by simp)⟩
  | getNone hread => exact ⟨rfl, hnew (l := []) (content_answer _ _ _) (by simp)⟩
  | get hread =>
    exact ⟨rfl, hnew (l := []) (List.Perm.of_eq (content_call _ _ _))
      (List.forall_mem_singleton.mpr rfl)⟩
  | foundFailed agent pred err => exact ⟨rfl, hnew (l := []) (content_answer _ _ _) (by simp)⟩
  | found agent pred ranked plan =>
    exact ⟨rfl, hnew (l := []) (List.Perm.of_eq (content_call _ _ _))
      (List.forall_mem_singleton.mpr ⟨ranked, rfl⟩)⟩
  | @pay i agent pred out plan hcall =>
    obtain ⟨budgets, hspend⟩ := x.engine.exists_trySpend agent (GovernedEngine.cost out)
    refine ⟨by rw [goOn, hspend], hnew (content_goOn CallStage.claim Answered.outcome _ hcall
      (.decided _)) (List.forall_mem_singleton.mpr ?_)⟩
    unfold paid
    split
    · exact hclaim hcall rfl
    · trivial
  | number hcall =>
    exact ⟨rfl, hnew (content_goOn CallStage.claim Answered.outcome _ hcall (.entering _ _))
      (List.forall_mem_singleton.mpr (hclaim hcall rfl))⟩
  | enter hcall =>
    exact ⟨rfl, hnew (content_goOn CallStage.claim Answered.outcome _ hcall (.recorded _))
      (List.forall_mem_singleton.mpr (hclaim hcall rfl))⟩
  | @reply i o failure hcall =>
    obtain ⟨inner, hreply⟩ := exists_reply x.engine failure o
    exact ⟨by rw [finish, hreply], hnew (content_finish CallStage.claim Answered.outcome _ hcall _)
      (List.forall_mem_singleton.mpr (hclaim hcall rfl))⟩
  | materialize index => exact ⟨rfl, hx⟩

/-- What holds in every state of the audit log and of the policy. -/
structure Logged (policy : Policy) (x : Governing I D) : Prop where
  same : x.engine.policy = policy
  seqs : x.seqs.Perm (List.range x.engine.auditSeq)
  records : (x.engine.audit.map AuditRecord.body).Perm (x.logged.map (Outcome.record 0))
  lawful : ∀ o ∈ x.claims, o.Lawful policy

lemma Logged.step {policy : Policy} (hx : Logged policy x) (h : Step x e y) : Logged policy y := by
  obtain ⟨hpolicy, hlawful⟩ := lawful_step h (hx.same ▸ hx.lawful)
  exact ⟨hpolicy.trans hx.same, seqs_step h hx.seqs, records_step h hx.records, hx.same ▸ hlawful⟩

/-- The audit log accounts for every grain handed out, whoever else is at work.  In every
interleaving: an agent was never handed more tokens than the log says it was granted; every call
that came to an outcome was decided as the policy says and answered so; and when no call is under
way, the log has exactly one record of each such call, the numbers are those of a counter, and what
the log says an agent was granted is what it was handed. -/
theorem audit_kept (inner : GrainEngine I) (policy : Policy) (budget : ℕ)
    {hist : List (Governing I D × Event I D)} (h : Run next (start inner policy budget) hist x) :
    (∀ agent, x.disclosed agent ≤ x.audited agent) ∧
      (∀ a ∈ x.answered, ∀ o, a.outcome = some o →
        o.Lawful policy ∧ o.agent = a.agent ∧ a.response.grains = o.grains) ∧
      (x.calls = [] →
        (x.engine.audit.map AuditRecord.seq).Perm (List.range x.engine.auditSeq) ∧
        (x.engine.audit.map AuditRecord.body).Perm
          ((x.answered.filterMap Answered.outcome).map (Outcome.record 0)) ∧
        ∀ agent, x.audited agent = x.disclosed agent) := by
  have hbalanced : Balanced budget x := h.invariant (balanced_start inner policy budget)
    fun _ _ _ hy hstep => hy.step (step_of_next hstep)
  have hlogged : Logged policy x := by
    refine h.invariant (I := Logged policy) ⟨rfl, ?_, ?_, ?_⟩
      fun _ _ _ hy hstep => hy.step (step_of_next hstep)
    · exact List.Perm.refl _
    · exact List.Perm.refl _
    · simp [claims, content, start]
  have haudited : ∀ agent, x.audited agent = ((x.calls.filterMap CallStage.logged).map fun o =>
      if o.agent = agent then tokens o.grains else 0).sum + x.disclosed agent := by
    intro agent
    rw [audited_eq hlogged.records, disclosed_eq hbalanced.faithful, logged, content,
      List.map_append, List.sum_append]
  refine ⟨fun agent => ?_, fun a ha o ho => ?_, fun hcalls => ⟨?_, ?_, fun agent => ?_⟩⟩
  · exact (haudited agent).symm ▸ Nat.le_add_left _ _
  · obtain ⟨hagent, hgrains, -⟩ := (hbalanced.faithful a ha).recorded o ho
    exact ⟨hlogged.lawful o (List.mem_append_right _ (List.mem_filterMap.mpr ⟨a, ha, ho⟩)),
      hagent, hgrains⟩
  · have hseqs := hlogged.seqs
    rwa [seqs, content, hcalls, List.filterMap_nil, List.filterMap_none, List.append_nil,
      List.append_nil] at hseqs
  · have hrecords := hlogged.records
    rwa [logged, content, hcalls, List.filterMap_nil, List.nil_append] at hrecords
  · rw [haudited, hcalls]
    exact Nat.zero_add _

/-! ## One call after the other -/

/-- A put that is not interrupted. -/
lemma reply_put (engine : GovernedEngine I) (agent : AgentId) (p : VectorPut)
    (failure : Option (IoError × ℕ)) :
    (engine.record agent .write p.sid p.pred
        (engine.policy agent .write ⟨p.sid, p.pred, p.header.head?⟩) 0).reply failure
          (.put agent p (engine.policy agent .write ⟨p.sid, p.pred, p.header.head?⟩) : Outcome D) =
      ((engine.putVector agent p.sid p.pred p.header p.vector p.wmeta failure).1,
        .wrote (engine.putVector agent p.sid p.pred p.header p.vector p.wmeta failure).2) := by
  unfold GovernedEngine.reply GovernedEngine.putVector
  dsimp only
  split <;> rfl

/-- A decided call that is not interrupted is recorded and answered. -/
lemma reaches_of_decided (engine : GovernedEngine I) {engine' : GovernedEngine I} (o : Outcome D)
    (failure : Option (IoError × ℕ)) {response : Response D} (answered : List (Answered D))
    (hreply : (engine.allocateSeq.1.pushRecord (o.record engine.auditSeq)).reply failure o =
      (engine', response)) :
    Reaches next ⟨engine, [.decided o], answered⟩
      ⟨engine', [], answered ++ [⟨o.agent, some o, response⟩]⟩ := by
  refine Reaches.head (e := .number 0) rfl (Reaches.head (e := .enter 0) rfl ?_)
  refine Reaches.head (e := .reply 0 failure) (y := ⟨engine', [], _⟩) ?_ (Reaches.refl _)
  have hnext : next (⟨engine.allocateSeq.1.pushRecord (o.record engine.auditSeq), [.recorded o],
      answered⟩ : Governing I D) (.reply 0 failure) = some (finish ⟨engine, [.recorded o], answered⟩ 0
        ((engine.allocateSeq.1.pushRecord (o.record engine.auditSeq)).reply failure o).1
        ⟨o.agent, some o,
          ((engine.allocateSeq.1.pushRecord (o.record engine.auditSeq)).reply failure o).2⟩) := rfl
  rw [hreply] at hnext
  exact hnext

section Sequential

variable {Q : Type*} [LE D] [DecidableLE D] (vectors : VectorIndex I Q D)

/-- A call made while no other is under way. -/
lemma reaches_of_call (engine : GovernedEngine I) (answered : List (Answered D))
    (op : GovernedOp I Q) :
    ∃ more : List (Answered D),
      Reaches next ⟨engine, [], answered⟩ ⟨(engine.call vectors op).1, [], answered ++ more⟩ ∧
        more.map (fun a => (a.agent, a.response)) =
          op.agent.toList.map fun agent => (agent, (engine.call vectors op).2) := by
  cases op with
  | putVector agent sid pred header vector wmeta failure =>
    let p : VectorPut := ⟨sid, pred, header, vector, wmeta⟩
    let d := engine.policy agent .write ⟨sid, pred, header.head?⟩
    exact ⟨[⟨agent, some (.put agent p d), _⟩], Reaches.head (e := .put agent p)
      (y := ⟨engine, [.decided (.put agent p d)], answered⟩) rfl
      (reaches_of_decided engine (.put agent p d) failure answered
        (reply_put engine agent p failure)), rfl⟩
  | get agent sid pred =>
    simp only [GovernedEngine.call, GovernedEngine.get]
    cases hread : engine.inner.truth.read sid pred with
    | error err =>
      refine ⟨[⟨agent, none, _⟩], Reaches.head (e := .get agent sid pred) ?_ (Reaches.refl _), rfl⟩
      simp only [next, hread]
      rfl
    | ok found =>
      cases found with
      | none =>
        refine ⟨[⟨agent, none, _⟩], Reaches.head (e := .get agent sid pred) ?_ (Reaches.refl _), rfl⟩
        simp only [next, hread]
        rfl
      | some g =>
        let d := engine.policy agent .read ⟨sid, pred, categoryOf g⟩
        have hstep : next (⟨engine, [], answered⟩ : Governing I D) (.get agent sid pred) =
            some ⟨engine, [.decided (.got agent sid pred d g)], answered⟩ := by
          simp only [next, hread]
          rfl
        refine ⟨[⟨agent, some (.got agent sid pred d g), _⟩], Reaches.head hstep
          (reaches_of_decided engine (.got agent sid pred d g) none answered ?_), rfl⟩
        cases hd : engine.policy agent .read ⟨sid, pred, categoryOf g⟩ <;>
          simp [d, hd, GovernedEngine.reply, GovernedEngine.allocateSeq,
            GovernedEngine.pushRecord, GovernedEngine.record, Outcome.record, Decision.reveal, tokens]
  | queryPlanned agent pred query filter k targetRecall =>
    simp only [GovernedEngine.call, GovernedEngine.queryPlanned]
    cases hquery : engine.inner.queryPlanned vectors pred query filter k targetRecall with
    | error err =>
      exact ⟨[⟨agent, none, _⟩],
        Reaches.head (e := .found agent pred (.error err)) rfl (Reaches.refl _), rfl⟩
    | ok r =>
      obtain ⟨ranked, plan⟩ := r
      dsimp only
      generalize hout : GovernedEngine.readable engine.policy agent pred ranked = out
      generalize hspent : engine.trySpend agent (GovernedEngine.cost out) = spent
      obtain ⟨engine', enough⟩ := spent
      have hpaid : Reaches next (⟨engine, [], answered⟩ : Governing I D)
          ⟨engine', [.decided (paid agent pred out plan enough)], answered⟩ := by
        refine Reaches.head (e := .found agent pred (.ok (ranked, plan))) rfl
          (Reaches.head (e := .pay 0) ?_ (Reaches.refl _))
        simp only [next, call, List.getElem?_cons_zero, hout, hspent]
        rfl
      cases enough with
      | true =>
        exact ⟨[⟨agent, some (.ranked agent pred out plan), _⟩], hpaid.trans
          (reaches_of_decided engine' (.ranked agent pred out plan) none answered rfl), rfl⟩
      | false =>
        exact ⟨[⟨agent, some (.refused agent pred (GovernedEngine.cost out)), _⟩], hpaid.trans
          (reaches_of_decided engine' (.refused agent pred _) none answered rfl), rfl⟩
  | materialize index =>
    refine ⟨[], ?_, rfl⟩
    rw [List.append_nil]
    exact Reaches.head (e := .materialize index) rfl (Reaches.refl _)

/-- Calls made one after the other. -/
lemma reaches_of_ops (engine : GovernedEngine I) (answered : List (Answered D))
    (ops : List (GovernedOp I Q)) :
    ∃ more : List (Answered D),
      Reaches next ⟨engine, [], answered⟩ ⟨(engine.run vectors ops).1, [], answered ++ more⟩ ∧
        more.map (fun a => (a.agent, a.response)) = (engine.run vectors ops).2.flatMap fun r =>
          r.1.agent.toList.map fun agent => (agent, r.2) := by
  induction ops generalizing engine answered with
  | nil => exact ⟨[], by rw [List.append_nil]; exact Reaches.refl _, rfl⟩
  | cons op ops ih =>
    obtain ⟨first, hfirst, hanswer⟩ := reaches_of_call vectors engine answered op
    obtain ⟨rest, hrest, hanswers⟩ := ih (engine.call vectors op).1 (answered ++ first)
    refine ⟨first ++ rest, ?_, ?_⟩
    · rw [← List.append_assoc]
      exact hfirst.trans hrest
    · rw [List.map_append, hanswer, hanswers]
      rfl

/-- A governed engine that is called by one agent at a time is one of the runs: every history of
calls made one after the other, on any store and under any policy, leaves the engine as some run of
this system does, with no call under way, and gives the same responses to the same agents. -/
theorem sequential_reached (inner : GrainEngine I) (policy : Policy) (budget : ℕ)
    (ops : List (GovernedOp I Q)) :
    ∃ x : Governing I D, Reaches next (start inner policy budget) x ∧ x.calls = [] ∧
      x.engine = ((GovernedEngine.new inner policy budget).run vectors ops).1 ∧
      x.answered.map (fun a => (a.agent, a.response)) =
        ((GovernedEngine.new inner policy budget).run vectors ops).2.flatMap fun r =>
          r.1.agent.toList.map fun agent => (agent, r.2) := by
  obtain ⟨more, hreach, hanswers⟩ :=
    reaches_of_ops vectors (GovernedEngine.new inner policy budget) [] ops
  exact ⟨_, hreach, rfl, rfl, hanswers⟩

end Sequential

namespace RaceExample

/-- A grain of 8 tokens. -/
def grain : Grain := ⟨1, 0, .bytes [0], 0, 0, 1⟩

/-- Agent 1 may read everything. -/
def policy : Policy := (RuleSet.new.allow 1 .read .any).authorize

/-- A query of agent 1 comes back with the grain. -/
def found : Event Unit ℕ := .found 1 0 (.ok ([⟨grain, 0⟩], ⟨4, 64, 1, 4⟩))

/-- Two queries of agent 1 at the same time; the one that pays last enters the log first. -/
def events : List (Event Unit ℕ) :=
  [found, found, .pay 0, .pay 1, .number 0, .number 1, .enter 1, .enter 1, .reply 0 none,
    .reply 0 none]

/-- An engine with a budget of 10 tokens. -/
def empty : Governing Unit ℕ := start (GrainEngine.openWith [] ()) policy 10

end RaceExample

open RaceExample in
/-- Two queries of one agent that race for its budget: one of them is paid. -/
theorem budget_kept_race : ∃ x : Governing Unit ℕ, x.answered.length = 2 ∧
    x.engine.remainingBudget 1 = 2 ∧ x.engine.remainingBudget 1 + x.handed 1 + x.inFlight 1 = 10 := by
  have hexec : (exec next empty events).map
      (fun p => (p.2.answered.length, p.2.engine.remainingBudget 1)) = some (2, 2) := rfl
  obtain ⟨⟨hist, x⟩, hrun, heq⟩ := Option.map_eq_some_iff.mp hexec
  obtain ⟨hlength, hremaining⟩ := Prod.mk.inj heq
  exact ⟨x, hlength, hremaining, (budget_kept _ policy 10 (run_of_exec hrun) 1).1⟩

open RaceExample in
/-- Their records: the refusal is in the log, and 8 tokens are granted. -/
theorem audit_kept_race : ∃ x : Governing Unit ℕ,
    x.engine.audit.map (fun r => (r.seq, r.decision, r.tokens)) = [(0, .deny, 8), (1, .allow, 8)] ∧
      x.audited 1 = x.disclosed 1 := by
  have hexec : (exec next empty events).map (fun p => (p.2.calls.length, p.2.engine.audit.map
      fun r => (r.seq, r.decision, r.tokens))) = some (0, [(0, .deny, 8), (1, .allow, 8)]) := rfl
  obtain ⟨⟨hist, x⟩, hrun, heq⟩ := Option.map_eq_some_iff.mp hexec
  obtain ⟨hcalls, haudit⟩ := Prod.mk.inj heq
  exact ⟨x, haudit, ((audit_kept _ policy 10 (run_of_exec hrun)).2.2
    (List.length_eq_zero_iff.mp hcalls)).2.2 1⟩

end Governing

end GrainStore
