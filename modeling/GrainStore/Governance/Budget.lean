import Mathlib
import GrainStore.Foundation.Trace
import GrainStore.Governance

/-!
# The token budget

Runs of a governed engine, by any agents, on any store and with any policy, with what every call
returned.  `query_planned` debits what it returns; `get` records the tokens of the grain it
returns in the audit log and debits nothing.  `budgetKept_iff` says when the budget is the hard
ceiling it is meant to be: exactly in the runs where no `get` returns a grain.
-/

namespace GrainStore

open Trace

/-- One call of an agent, or a step of the materializer behind the engine. -/
inductive GovernedOp (I Q : Type*) where
  | putVector (agent : AgentId) (sid : Sid) (pred : PredId) (header : Bytes) (vector : List F32)
    (wmeta : WriteMeta) (failure : Option (IoError × ℕ))
  | get (agent : AgentId) (sid : Sid) (pred : PredId)
  | queryPlanned (agent : AgentId) (pred : PredId) (query : Q) (filter : Filter) (k : ℕ)
    (targetRecall : F64)
  | materialize (index : I)

/-- What a call returns. -/
inductive Response (D : Type*) where
  | wrote (r : Except Error Hlc)
  | got (r : Except Error (Option Grain))
  | ranked (r : Except Error (List (Ranked D) × Plan))
  | silent

/-- The agent that makes a call. -/
def GovernedOp.agent {I Q : Type*} : GovernedOp I Q → Option AgentId
  | .putVector agent _ _ _ _ _ _ => some agent
  | .get agent _ _ => some agent
  | .queryPlanned agent _ _ _ _ _ => some agent
  | .materialize _ => none

/-- The grains a call hands to its caller. -/
def Response.grains {D : Type*} : Response D → List Grain
  | .got (.ok (some g)) => [g]
  | .ranked (.ok (out, _)) => out.map Ranked.grain
  | _ => []

/-- A query was refused because of the caller's budget. -/
def Response.Refused {D : Type*} : Response D → Prop
  | .ranked (.error (.denied _)) => True
  | _ => False

/-- The tokens of a list of grains. -/
def tokens (grains : List Grain) : ℕ := (grains.map grainTokens).sum

section Defs

variable {I Q D : Type*} [LE D] [DecidableLE D] (vectors : VectorIndex I Q D)

/-- Carry out a call. -/
def GovernedEngine.call (e : GovernedEngine I) : GovernedOp I Q → GovernedEngine I × Response D
  | .putVector agent sid pred header vector wmeta failure =>
    let r := e.putVector agent sid pred header vector wmeta failure
    (r.1, .wrote r.2)
  | .get agent sid pred =>
    let r := e.get agent sid pred
    (r.1, .got r.2)
  | .queryPlanned agent pred query filter k targetRecall =>
    let r := e.queryPlanned vectors agent pred query filter k targetRecall
    (r.1, .ranked r.2)
  | .materialize index => ({ e with inner := { e.inner with index } }, .silent)

/-- A governed engine with all the grains it has returned, and to whom. -/
structure Served (I : Type*) where
  engine : GovernedEngine I
  returned : List (AgentId × Grain)

namespace Served

/-- A governed engine that is new. -/
def start (inner : GrainEngine I) (policy : Policy) (budget : ℕ) : Served I :=
  ⟨GovernedEngine.new inner policy budget, []⟩

/-- Carry out a call and keep what it returned. -/
def next (s : Served I) (op : GovernedOp I Q) : Option (Served I) :=
  let r := s.engine.call vectors op
  some ⟨r.1, s.returned ++
    op.agent.toList.flatMap fun agent => r.2.grains.map fun g => (agent, g)⟩

/-- The tokens of all grains returned to an agent. -/
def returnedTokens (s : Served I) (agent : AgentId) : ℕ :=
  tokens ((s.returned.filter fun x => x.1 = agent).map Prod.snd)

/-- No agent was returned more than the budget, and what remains to it is the rest. -/
def Accounted (budget : ℕ) (s : Served I) : Prop :=
  ∀ agent, s.returnedTokens agent ≤ budget ∧
    s.engine.remainingBudget agent = budget - s.returnedTokens agent

/-- The budget is a hard ceiling in a run. -/
structure BudgetKept (budget : ℕ) (hist : List (Served I × GovernedOp I Q)) (s : Served I) :
    Prop where
  accounted : ∀ z ∈ states hist s, Accounted budget z
  /-- A call refused for budget changes no agent's budget. -/
  refused : ∀ x ∈ hist, (x.1.engine.call vectors x.2).2.Refused → ∀ agent,
    (x.1.engine.call vectors x.2).1.remainingBudget agent = x.1.engine.remainingBudget agent
  /-- A call changes no other agent's budget. -/
  apart : ∀ x ∈ hist, ∀ agent, x.2.agent ≠ some agent →
    (x.1.engine.call vectors x.2).1.remainingBudget agent = x.1.engine.remainingBudget agent

/-- The call is a `get` of a grain that is there and that the policy does not deny. -/
def ReadsFree (s : Served I) : GovernedOp I Q → Prop
  | .get agent sid pred => ∃ g, s.engine.inner.truth.read sid pred = .ok (some g) ∧
      s.engine.policy agent .read { sid, pred, category := categoryOf g } ≠ .deny
  | _ => False

end Served

end Defs

variable {I Q D : Type*} [LE D] [DecidableLE D] {vectors : VectorIndex I Q D}

/-! ## What a call returns and what it debits -/

lemma tokens_append (l l' : List Grain) : tokens (l ++ l') = tokens l + tokens l' := by
  rw [tokens, List.map_append, List.sum_append]
  rfl

/-- Whether a call is a query. -/
def GovernedOp.isQuery : GovernedOp I Q → Bool
  | .queryPlanned _ _ _ _ _ _ => true
  | _ => false

namespace GovernedEngine

variable (e : GovernedEngine I)

/-- A `get` leaves all budgets as they are. -/
lemma remainingBudget_get (agent other : AgentId) (sid : Sid) (pred : PredId) :
    (e.get agent sid pred).1.remainingBudget other = e.remainingBudget other := by
  unfold GovernedEngine.get
  split
  · rfl
  · rfl
  · dsimp only
    split <;> rfl

lemma remainingBudget_putVector (agent other : AgentId) (sid : Sid) (pred : PredId)
    (header : Bytes) (vector : List F32) (wmeta : WriteMeta) (failure : Option (IoError × ℕ)) :
    (e.putVector agent sid pred header vector wmeta failure).1.remainingBudget other =
      e.remainingBudget other := by
  unfold GovernedEngine.putVector
  dsimp only
  split <;> rfl

variable (vectors) in
/-- A query that returns results debits its agent what they cost. -/
lemma remainingBudget_queryPlanned (agent other : AgentId) (pred : PredId) (query : Q)
    (filter : Filter) (k : ℕ) (targetRecall : F64) :
    (e.queryPlanned vectors agent pred query filter k targetRecall).1.remainingBudget other +
        (if agent = other then
          tokens (Response.ranked
            (e.queryPlanned vectors agent pred query filter k targetRecall).2).grains
        else 0) = e.remainingBudget other := by
  unfold GovernedEngine.queryPlanned
  split
  · simp [Response.grains, tokens]
  · rename_i ranked plan _
    dsimp only
    rw [trySpend_snd]
    have hcost : cost (readable e.policy agent pred ranked) =
        tokens ((readable e.policy agent pred ranked).map Ranked.grain) := by
      rw [cost, tokens, List.map_map]
      rfl
    by_cases hle : cost (readable e.policy agent pred ranked) ≤ e.remainingBudget agent
    · rw [if_pos (decide_eq_true hle)]
      simp only [remainingBudget_record, remainingBudget_trySpend, Response.grains, ← hcost]
      by_cases hagent : agent = other
      · subst hagent
        rw [if_pos ⟨rfl, hle⟩, if_pos rfl]
        exact Nat.sub_add_cancel hle
      · rw [if_neg fun h => hagent h.1, if_neg hagent, Nat.add_zero]
    · rw [if_neg (by simpa using hle)]
      simp only [remainingBudget_record, remainingBudget_trySpend, Response.grains]
      rw [if_neg fun h => hle h.2]
      simp [tokens]

variable (vectors) in
/-- What a call leaves of a budget: a query debits its agent what it returns, and nothing else is
debited. -/
lemma remainingBudget_call (op : GovernedOp I Q) (other : AgentId) :
    (e.call vectors op).1.remainingBudget other +
        (if op.isQuery ∧ op.agent = some other then tokens (e.call vectors op).2.grains
        else 0) = e.remainingBudget other := by
  cases op with
  | putVector agent sid pred header vector wmeta failure =>
    simpa [GovernedOp.isQuery, GovernedEngine.call] using
      e.remainingBudget_putVector agent other sid pred header vector wmeta failure
  | get agent sid pred =>
    simpa [GovernedOp.isQuery, GovernedEngine.call] using
      e.remainingBudget_get agent other sid pred
  | queryPlanned agent pred query filter k targetRecall =>
    have h := e.remainingBudget_queryPlanned vectors agent other pred query filter k
      targetRecall
    simpa [GovernedOp.isQuery, GovernedOp.agent, GovernedEngine.call] using h
  | materialize index => rfl

end GovernedEngine

namespace Served

variable {s s' : Served I} {op : GovernedOp I Q} {budget : ℕ}

lemma next_eq_some (h : s.next vectors op = some s') :
    s'.engine = (s.engine.call vectors op).1 ∧
      s'.returned = s.returned ++ op.agent.toList.flatMap fun agent =>
        (s.engine.call vectors op).2.grains.map fun g => (agent, g) := by
  obtain rfl := Option.some.inj h
  exact ⟨rfl, rfl⟩

/-- A call adds the tokens of what it returns to what its agent was returned. -/
lemma returnedTokens_next (h : s.next vectors op = some s') (agent : AgentId) :
    s'.returnedTokens agent = s.returnedTokens agent +
      if op.agent = some agent then tokens (s.engine.call vectors op).2.grains else 0 := by
  obtain ⟨-, hreturned⟩ := next_eq_some h
  rw [returnedTokens, hreturned, List.filter_append, List.map_append, tokens_append]
  congr 1
  cases hop : op.agent with
  | none => rfl
  | some a =>
    simp only [Option.toList_some, List.flatMap_cons, List.flatMap_nil, List.append_nil,
      Option.some.injEq]
    by_cases hagent : a = agent
    · rw [if_pos hagent, List.filter_eq_self.mpr (by simp [hagent]), List.map_map]
      simp [Function.comp_def]
    · rw [if_neg hagent, List.filter_eq_nil_iff.mpr (by simp [hagent])]
      rfl

/-- A call that returns grains is a query or reads free. -/
lemma grains_eq_nil (hquery : op.isQuery = false) (hfree : ¬s.ReadsFree op) :
    (s.engine.call vectors op).2.grains = [] := by
  cases op with
  | putVector agent sid pred header vector wmeta failure => rfl
  | queryPlanned agent pred query filter k targetRecall => simp [GovernedOp.isQuery] at hquery
  | materialize index => rfl
  | get agent sid pred =>
    simp only [GovernedEngine.call, GovernedEngine.get]
    cases hread : s.engine.inner.truth.read sid pred with
    | error err => rfl
    | ok grain =>
      cases grain with
      | none => rfl
      | some g =>
        have hdeny : s.engine.policy agent .read ⟨sid, pred, categoryOf g⟩ = .deny := by
          by_contra hne
          exact hfree ⟨g, hread, hne⟩
        simp only [hdeny]
        rfl

variable (vectors) in
/-- A free read returns a grain, which costs something. -/
lemma ReadsFree.pos (h : s.ReadsFree op) :
    op.isQuery = false ∧ ∃ agent, op.agent = some agent ∧
      0 < tokens (s.engine.call vectors op).2.grains := by
  cases op with
  | putVector agent sid pred header vector wmeta failure => exact h.elim
  | queryPlanned agent pred query filter k targetRecall => exact h.elim
  | materialize index => exact h.elim
  | get agent sid pred =>
    obtain ⟨g, hread, hdeny⟩ := h
    refine ⟨rfl, agent, rfl, ?_⟩
    simp only [GovernedEngine.call, GovernedEngine.get, hread]
    cases hd : s.engine.policy agent .read ⟨sid, pred, categoryOf g⟩ with
    | deny => exact absurd hd hdeny
    | mask => simp [Response.grains, tokens, grainTokens]
    | allow => simp [Response.grains, tokens, grainTokens]

/-- In every run, what an agent was returned and what remains to it make up the budget at
least. -/
def Covered (budget : ℕ) (s : Served I) : Prop :=
  ∀ agent, budget ≤ s.engine.remainingBudget agent + s.returnedTokens agent

/-- They are exactly the budget where all is accounted for. -/
lemma accounted_iff :
    Accounted budget s ↔
      ∀ agent, s.engine.remainingBudget agent + s.returnedTokens agent = budget := by
  refine forall_congr' ?_
  intro agent
  omega

/-- What a call leaves of a budget and what it adds to the returned tokens. -/
lemma balance_next (h : s.next vectors op = some s') (agent : AgentId) :
    s'.engine.remainingBudget agent + s'.returnedTokens agent =
      s.engine.remainingBudget agent + s.returnedTokens agent +
        if op.isQuery = false ∧ op.agent = some agent then
          tokens (s.engine.call vectors op).2.grains
        else 0 := by
  have hcall := s.engine.remainingBudget_call vectors op agent
  rw [returnedTokens_next h, (next_eq_some h).1]
  by_cases hagent : op.agent = some agent
  · by_cases hquery : op.isQuery
    · simp only [hquery, hagent, and_self, if_true] at hcall
      simp only [hquery, hagent, if_true]
      simp
      omega
    · simp only [hquery, Bool.false_eq_true, false_and, if_false] at hcall
      simp only [Bool.not_eq_true] at hquery
      simp only [hquery, hagent, and_self, if_true]
      omega
  · simp only [hagent, and_false, if_false] at hcall ⊢
    omega

lemma Covered.next (hs : Covered budget s) (h : s.next vectors op = some s') :
    Covered budget s' := by
  intro agent
  rw [balance_next h]
  exact (hs agent).trans (Nat.le_add_right _ _)

lemma start_balance (inner : GrainEngine I) (policy : Policy) (budget : ℕ) (agent : AgentId) :
    (start inner policy budget).engine.remainingBudget agent +
      (start inner policy budget).returnedTokens agent = budget := by
  simp [start, GovernedEngine.new, GovernedEngine.remainingBudget, returnedTokens, tokens]

/-- A refused query changes no budget. -/
lemma remainingBudget_of_refused (h : (s.engine.call vectors op).2.Refused) (agent : AgentId) :
    (s.engine.call vectors op).1.remainingBudget agent = s.engine.remainingBudget agent := by
  have hcall := s.engine.remainingBudget_call vectors op agent
  have hgrains : (s.engine.call vectors op).2.grains = [] := by
    unfold Response.Refused at h
    split at h
    · rename_i heq
      rw [heq]
      rfl
    · exact h.elim
  rw [hgrains] at hcall
  simpa [tokens] using hcall

/-- A call changes no budget but its agent's. -/
lemma remainingBudget_of_ne {agent : AgentId} (h : op.agent ≠ some agent) :
    (s.engine.call vectors op).1.remainingBudget agent = s.engine.remainingBudget agent := by
  have hcall := s.engine.remainingBudget_call vectors op agent
  rwa [if_neg fun hagent => h hagent.2, Nat.add_zero] at hcall

/-- The budget is a hard ceiling exactly in the runs without free reads.  For every policy, every
store and every run of calls by any agents: all agents stay within the budget, what remains is the
budget less what was returned, refused calls change no budget and no call another agent's, exactly
when no call of the run is a `get` of a grain that is there and that the policy does not deny.  -/
theorem budgetKept_iff (vectors : VectorIndex I Q D) (inner : GrainEngine I) (policy : Policy)
    (budget : ℕ) {hist : List (Served I × GovernedOp I Q)} {s : Served I}
    (h : Run (next vectors) (start inner policy budget) hist s) :
    BudgetKept vectors budget hist s ↔ ∀ x ∈ hist, ¬x.1.ReadsFree x.2 := by
  have hacc : (∀ z ∈ states hist s, Accounted budget z) ↔ ∀ x ∈ hist, ¬x.1.ReadsFree x.2 := by
    refine h.forall_iff (J := Covered budget) (Q := Accounted budget) (fun agent => ?_)
      (accounted_iff.mpr fun agent => ?_) (fun _ hy => hy) ?_ ?_ ?_
    · exact (start_balance inner policy budget agent).ge
    · exact start_balance inner policy budget agent
    · exact fun y op z hy hstep => hy.next hstep
    · intro y op z hy hstep hfree
      rw [accounted_iff] at hy ⊢
      intro agent
      rw [balance_next hstep, hy agent]
      split
      · rename_i hop
        rw [grains_eq_nil hop.1 hfree]
        rfl
      · rfl
    · intro y op z hy hstep hfree hz
      obtain ⟨hquery, agent, hagent, hpos⟩ := ReadsFree.pos vectors hfree
      have hbalance := balance_next hstep agent
      rw [accounted_iff.mp hz agent, if_pos ⟨hquery, hagent⟩] at hbalance
      have := hy agent
      omega
  refine ⟨fun hkept => hacc.mp hkept.accounted, fun hfree => ⟨hacc.mpr hfree, ?_, ?_⟩⟩
  · exact fun x _ href agent => remainingBudget_of_refused href agent
  · exact fun x _ agent hne => remainingBudget_of_ne hne

/-- A budget of 10 tokens, one grain of 8, and two reads of it: the agent is returned 16 tokens and
keeps a budget of 10. -/
theorem not_budgetKept :
    ∃ hist, ∃ s : Served Unit,
      Run (next (⟨fun _ _ _ _ => []⟩ : VectorIndex Unit Unit ℕ))
        (start (GrainEngine.openWith [] ())
          ((RuleSet.new.allow 1 .write .any).allow 1 .read .any).authorize 10) hist s ∧
      ¬BudgetKept (⟨fun _ _ _ _ => []⟩ : VectorIndex Unit Unit ℕ) 10 hist s := by
  have hexec : (exec (next (⟨fun _ _ _ _ => []⟩ : VectorIndex Unit Unit ℕ))
      (start (GrainEngine.openWith [] ())
        ((RuleSet.new.allow 1 .write .any).allow 1 .read .any).authorize 10)
      [.putVector 1 1 0 [0] [] ⟨0, 0, 7⟩ none, .get 1 1 0, .get 1 1 0]).map
        (fun p => (p.2.returnedTokens 1, p.2.engine.remainingBudget 1)) = some (16, 10) := by
    rw [GrainEngine.openWith, TruthStore.start, TruthStore.openLog_nil]
    rfl
  obtain ⟨⟨hist, s⟩, hrun, heq⟩ := Option.map_eq_some_iff.mp hexec
  obtain ⟨htokens, -⟩ := Prod.mk.inj heq
  refine ⟨hist, s, run_of_exec hrun, ?_⟩
  intro hkept
  obtain ⟨hceiling, -⟩ := hkept.accounted s mem_states_self 1
  dsimp only at htokens
  omega

/-- A query for the same grain is within the budget and debited, and a `get` by an agent without
rules returns nothing. -/
theorem budgetKept_iff_query :
    ∃ hist, ∃ s : Served Unit,
      BudgetKept (⟨fun _ _ _ _ => [⟨1, 0⟩]⟩ : VectorIndex Unit Unit ℕ) 10 hist s ∧
        s.returnedTokens 1 = 8 ∧ s.engine.remainingBudget 1 = 2 ∧ hist.length = 3 := by
  have hexec : (exec (next (⟨fun _ _ _ _ => [⟨1, 0⟩]⟩ : VectorIndex Unit Unit ℕ))
      (start (GrainEngine.openWith [] ())
        ((RuleSet.new.allow 1 .write .any).allow 1 .read .any).authorize 10)
      [.putVector 1 1 0 [0] [] ⟨0, 0, 7⟩ none, .queryPlanned 1 0 () .any 1 (.finite 1),
        .get 2 1 0]).map
        (fun p => (p.2.returnedTokens 1, p.2.engine.remainingBudget 1,
          p.1.map fun x => x.1.engine.policy)) =
      some (8, 2, List.replicate 3
        ((RuleSet.new.allow 1 .write .any).allow 1 .read .any).authorize) := by
    rw [GrainEngine.openWith, TruthStore.start, TruthStore.openLog_nil]
    rfl
  obtain ⟨⟨hist, s⟩, hrun, heq⟩ := Option.map_eq_some_iff.mp hexec
  obtain ⟨htokens, hrest⟩ := Prod.mk.inj heq
  obtain ⟨hremaining, hpolicy⟩ := Prod.mk.inj hrest
  have hops := map_snd_of_exec hrun
  dsimp only at htokens hremaining hpolicy
  refine ⟨hist, s, (budgetKept_iff _ _ _ 10 (run_of_exec hrun)).mpr fun x hx hfree => ?_,
    htokens, hremaining, ?_⟩
  · have hop : x.2 ∈ hist.map Prod.snd := List.mem_map_of_mem hx
    have hpol : x.1.engine.policy ∈ hist.map fun x => x.1.engine.policy :=
      List.mem_map_of_mem (f := fun x => x.1.engine.policy) hx
    rw [hops] at hop
    rw [hpolicy] at hpol
    simp only [List.mem_cons, List.not_mem_nil, or_false] at hop
    rcases hop with hop | hop | hop
    · rw [hop] at hfree
      exact hfree
    · rw [hop] at hfree
      exact hfree
    · rw [hop] at hfree
      obtain ⟨g, -, hdeny⟩ := hfree
      rw [List.eq_of_mem_replicate hpol] at hdeny
      exact hdeny rfl
  · have hlength := congrArg List.length hops
    rwa [List.length_map] at hlength

end Served

end GrainStore
