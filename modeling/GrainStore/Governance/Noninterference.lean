import Mathlib
import GrainStore.Governance.Audit
import GrainStore.Governance.DeniedWrites

/-!
# What an agent sees of the reads of others

A history of governed calls by any agents, and the same history without the reads of all agents but
one.  `reads_invisible` says that the agent gets the same responses in both, keeps the same budget
and leaves the same audit entries, and that all writes come out the same: nothing an agent can ask
for depends on whether others have read, what they were shown, or what they spent.
-/

namespace GrainStore

/-- A read of another agent. -/
def GovernedOp.foreign {I Q : Type*} (a : AgentId) : GovernedOp I Q → Bool
  | .get agent _ _ => agent ≠ a
  | .queryPlanned agent _ _ _ _ _ => agent ≠ a
  | _ => false

/-- The record of a read of another agent. -/
def AuditRecord.foreign (a : AgentId) (r : AuditRecord) : Bool := r.agent ≠ a ∧ r.action = .read

namespace GovernedEngine

variable {I Q D : Type*}

/-- The audit entries, without their numbers, that are not of reads of other agents. -/
def ownAudit (e : GovernedEngine I) (a : AgentId) : List AuditRecord :=
  (e.audit.filter fun r => !r.foreign a).map AuditRecord.body

/-- A payment changes nothing but the budgets. -/
lemma exists_trySpend (e : GovernedEngine I) (agent : AgentId) (cost : ℕ) :
    ∃ budgets, (e.trySpend agent cost).1 = { e with budgets } := by
  unfold trySpend
  dsimp only
  split
  · exact ⟨_, rfl⟩
  · exact ⟨_, rfl⟩

/-- Two engines that are the same to an agent. -/
structure Alike (a : AgentId) (e e' : GovernedEngine I) : Prop where
  inner : e.inner = e'.inner
  policy : e.policy = e'.policy
  budget : e.remainingBudget a = e'.remainingBudget a
  audit : e.ownAudit a = e'.ownAudit a

namespace Alike

variable {a : AgentId} {e e' e'' : GovernedEngine I}

lemma refl (e : GovernedEngine I) : Alike a e e := ⟨rfl, rfl, rfl, rfl⟩

lemma trans (h : Alike a e e') (h' : Alike a e' e'') : Alike a e e'' :=
  ⟨h.inner.trans h'.inner, h.policy.trans h'.policy, h.budget.trans h'.budget,
    h.audit.trans h'.audit⟩

/-- The same record in both. -/
lemma record (h : Alike a e e') (agent : AgentId) (action : Action) (sid : Sid) (pred : PredId)
    (decision : Decision) (tokens : ℕ) :
    Alike a (e.record agent action sid pred decision tokens)
      (e'.record agent action sid pred decision tokens) where
  inner := h.inner
  policy := h.policy
  budget := h.budget
  audit := by
    rw [ownAudit, ownAudit, audit_record, audit_record, List.filter_append, List.filter_append,
      List.map_append, List.map_append]
    refine congrArg₂ (· ++ ·) h.audit ?_
    have hsame : ∀ n m, AuditRecord.foreign a ⟨n, agent, action, sid, pred, decision, tokens⟩ =
        AuditRecord.foreign a ⟨m, agent, action, sid, pred, decision, tokens⟩ := fun _ _ => rfl
    rw [List.filter_cons, List.filter_cons, hsame e'.auditSeq e.auditSeq]
    split
    · rfl
    · rfl

/-- A record of a read of another agent. -/
lemma record_foreign {agent : AgentId} (hagent : agent ≠ a) (sid : Sid) (pred : PredId)
    (decision : Decision) (tokens : ℕ) :
    Alike a (e.record agent .read sid pred decision tokens) e where
  inner := rfl
  policy := rfl
  budget := rfl
  audit := by
    rw [ownAudit, audit_record, List.filter_append,
      List.filter_cons_of_neg (by simp [AuditRecord.foreign, hagent]), List.filter_nil,
      List.append_nil]
    rfl

/-- A payment of the agent. -/
lemma trySpend (h : Alike a e e') (cost : ℕ) :
    Alike a (e.trySpend a cost).1 (e'.trySpend a cost).1 := by
  have hbudget : (e.trySpend a cost).1.remainingBudget a =
      (e'.trySpend a cost).1.remainingBudget a := by
    rw [remainingBudget_trySpend, remainingBudget_trySpend, h.budget]
  obtain ⟨budgets, hspend⟩ := exists_trySpend e a cost
  obtain ⟨budgets', hspend'⟩ := exists_trySpend e' a cost
  rw [hspend, hspend'] at hbudget ⊢
  exact ⟨h.inner, h.policy, hbudget, h.audit⟩

/-- A payment of another agent. -/
lemma trySpend_foreign {agent : AgentId} (hagent : agent ≠ a) (cost : ℕ) :
    Alike a (e.trySpend agent cost).1 e := by
  have hbudget : (e.trySpend agent cost).1.remainingBudget a = e.remainingBudget a := by
    rw [remainingBudget_trySpend, if_neg fun h => hagent h.1]
  obtain ⟨budgets, hspend⟩ := exists_trySpend e agent cost
  rw [hspend] at hbudget ⊢
  exact ⟨rfl, rfl, hbudget, rfl⟩

end Alike

/-! ## One call -/

section Calls

variable [LE D] [DecidableLE D] (vectors : VectorIndex I Q D) {a : AgentId}
  {e e' : GovernedEngine I}

/-- A call that is no read of another agent comes out the same. -/
lemma Alike.call (h : Alike a e e') {op : GovernedOp I Q} (hop : op.foreign a = false) :
    Alike a (e.call vectors op).1 (e'.call vectors op).1 ∧
      (e.call vectors op).2 = (e'.call vectors op).2 := by
  cases op with
  | putVector agent sid pred header vector wmeta failure =>
    have hrecord := h.record agent .write sid pred
      (e.policy agent .write { sid, pred, category := header.head? }) 0
    simp only [GovernedEngine.call, putVector, ← h.policy]
    split
    · exact ⟨hrecord, rfl⟩
    · have hinner : (e.record agent .write sid pred
          (e.policy agent .write { sid, pred, category := header.head? }) 0).inner =
          (e'.record agent .write sid pred
            (e.policy agent .write { sid, pred, category := header.head? }) 0).inner := h.inner
      rw [hinner]
      exact ⟨⟨rfl, hrecord.policy, hrecord.budget, hrecord.audit⟩, rfl⟩
  | get agent sid pred =>
    simp only [GovernedEngine.call, get, ← h.inner, ← h.policy]
    cases e.inner.truth.read sid pred with
    | error err => exact ⟨h, rfl⟩
    | ok found =>
      cases found with
      | none => exact ⟨h, rfl⟩
      | some g =>
        dsimp only
        cases e.policy agent .read { sid, pred, category := categoryOf g } with
        | deny => exact ⟨h.record .., rfl⟩
        | mask => exact ⟨h.record .., rfl⟩
        | allow => exact ⟨h.record .., rfl⟩
  | queryPlanned agent pred query filter k targetRecall =>
    obtain rfl : agent = a := by simpa [GovernedOp.foreign] using hop
    simp only [GovernedEngine.call, queryPlanned, ← h.inner, ← h.policy]
    cases e.inner.queryPlanned vectors pred query filter k targetRecall with
    | error err => exact ⟨h, rfl⟩
    | ok answer =>
      have hspent := h.trySpend (cost (readable e.policy agent pred answer.1))
      dsimp only
      rw [trySpend_snd, trySpend_snd, ← h.budget]
      split
      · exact ⟨hspent.record .., rfl⟩
      · rw [hspent.budget]
        exact ⟨hspent.record .., rfl⟩
  | materialize index =>
    refine ⟨⟨?_, h.policy, h.budget, h.audit⟩, rfl⟩
    simp only [GovernedEngine.call, h.inner]

/-- A read of another agent changes nothing for the agent. -/
lemma alike_of_foreign {op : GovernedOp I Q} (hop : op.foreign a = true) :
    Alike a (e.call vectors op).1 e := by
  cases op with
  | putVector agent sid pred header vector wmeta failure => cases hop
  | get agent sid pred =>
    have hagent : agent ≠ a := by simpa [GovernedOp.foreign] using hop
    simp only [GovernedEngine.call, get]
    cases e.inner.truth.read sid pred with
    | error err => exact Alike.refl e
    | ok found =>
      cases found with
      | none => exact Alike.refl e
      | some g =>
        dsimp only
        cases e.policy agent .read { sid, pred, category := categoryOf g } with
        | deny => exact Alike.record_foreign hagent ..
        | mask => exact Alike.record_foreign hagent ..
        | allow => exact Alike.record_foreign hagent ..
  | queryPlanned agent pred query filter k targetRecall =>
    have hagent : agent ≠ a := by simpa [GovernedOp.foreign] using hop
    simp only [GovernedEngine.call, queryPlanned]
    cases e.inner.queryPlanned vectors pred query filter k targetRecall with
    | error err => exact Alike.refl e
    | ok answer =>
      dsimp only
      split
      · exact (Alike.record_foreign hagent ..).trans (Alike.trySpend_foreign hagent _)
      · exact (Alike.record_foreign hagent ..).trans (Alike.trySpend_foreign hagent _)
  | materialize index => cases hop

/-- Histories with and without the reads of other agents, on engines that are the same to the
agent. -/
lemma Alike.run (h : Alike a e e') (ops : List (GovernedOp I Q)) :
    Alike a (e.run vectors ops).1 (e'.run vectors (ops.filter fun op => !op.foreign a)).1 ∧
      ((e.run vectors ops).2.filter fun x => !x.1.foreign a) =
        (e'.run vectors (ops.filter fun op => !op.foreign a)).2 := by
  induction ops generalizing e e' with
  | nil => exact ⟨h, rfl⟩
  | cons op ops ih =>
    rw [GovernedEngine.run]
    cases hop : op.foreign a with
    | true =>
      rw [List.filter_cons_of_neg (by simp [hop])]
      obtain ⟨halike, hanswers⟩ := ih ((alike_of_foreign vectors hop).trans h)
      exact ⟨halike, by rwa [List.filter_cons_of_neg (by simp [hop])]⟩
    | false =>
      rw [List.filter_cons_of_pos (by simp [hop]), GovernedEngine.run]
      obtain ⟨hnext, hanswer⟩ := h.call vectors hop
      obtain ⟨halike, hanswers⟩ := ih hnext
      refine ⟨halike, ?_⟩
      rw [List.filter_cons_of_pos (by simp [hop]), hanswers, hanswer]

/-- The reads of other agents are invisible.  For every policy, every engine, every agent and every
history of calls by any agents: leaving out all `get` and `query_planned` calls of the other agents
changes no response to the agent and none to a write, leaves the engine behind (log file, clock,
change stream, index and catalog) and what remains of the agent's budget as they are, and the audit
log but for the records of the calls left out. -/
theorem reads_invisible (e : GovernedEngine I) (a : AgentId) (ops : List (GovernedOp I Q)) :
    let full := e.run vectors ops
    let alone := e.run vectors (ops.filter fun op => !op.foreign a)
    (full.2.filter fun x => !x.1.foreign a) = alone.2 ∧ full.1.inner = alone.1.inner ∧
      full.1.remainingBudget a = alone.1.remainingBudget a ∧
      full.1.ownAudit a = alone.1.ownAudit a := by
  intro full alone
  obtain ⟨halike, hanswers⟩ := (Alike.refl e).run vectors ops
  exact ⟨hanswers, halike.inner, halike.budget, halike.audit⟩

end Calls

end GovernedEngine

end GrainStore
