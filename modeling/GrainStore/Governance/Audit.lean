import Mathlib
import GrainStore.Foundation.Tickets
import GrainStore.Governance.Budget

/-!
# The audit log

What the calls of a governed engine leave in its audit log, and in which order.

A read of a grain that is not there, and a query whose search fails, return before they come to the
record: `audited_iff` says that a run is audited exactly when no call of it ends so.

`record` takes its number before the lock of the log, so concurrent calls may enter the log out of
the order of their numbers: `ordered_iff` says when they do not.
-/

namespace GrainStore

open Trace

/-- The action a call is an instance of. -/
def GovernedOp.action {I Q : Type*} : GovernedOp I Q → Option Action
  | .putVector _ _ _ _ _ _ _ => some .write
  | .get _ _ _ => some .read
  | .queryPlanned _ _ _ _ _ _ => some .read
  | .materialize _ => none

section Defs

variable {I Q D : Type*}

/-- The candidates that a planned query joins to the truth store. -/
def GrainEngine.plannedCandidates (vectors : VectorIndex I Q D) (e : GrainEngine I) (pred : PredId)
    (query : Q) (filter : Filter) (k : ℕ) (targetRecall : F64) : List (Candidate D) :=
  let plan := Planner.plan (e.selectivity filter) k targetRecall
  let mq : MixedQuery Q := { pred, query, k, ef := plan.ef, overFetch := plan.overFetch }
  vectors.search e.index mq.query mq.fetch mq.ef

/-- A call that returns before its record: a `get` of a grain that is not there or cannot be read,
and a query one of whose candidates cannot be read. -/
def GovernedEngine.Unrecorded (vectors : VectorIndex I Q D) (e : GovernedEngine I) :
    GovernedOp I Q → Prop
  | .get _ sid pred => ∀ g, e.inner.truth.read sid pred ≠ .ok (some g)
  | .queryPlanned _ pred query filter k targetRecall =>
    ∃ c ∈ e.inner.plannedCandidates vectors pred query filter k targetRecall, ∃ err,
      e.inner.truth.read c.sid pred = .error err
  | _ => False

/-- What a run should leave in the audit log. -/
structure Audited [LE D] [DecidableLE D] (vectors : VectorIndex I Q D)
    (hist : List (Served I × GovernedOp I Q)) (s : Served I) : Prop where
  /-- Each call appends records, one of which names its agent and its action. -/
  recorded : ∀ x ∈ hist, ∀ agent, x.2.agent = some agent → ∃ records r,
    (x.1.engine.call vectors x.2).1.audit = x.1.engine.audit ++ records ∧
      r ∈ records ∧ r.agent = agent ∧ x.2.action = some r.action
  /-- No record is altered or removed. -/
  kept : (states hist s).Pairwise fun a b => a.engine.audit <+: b.engine.audit

end Defs

variable {I Q D : Type*}

/-! ## What a call records -/

variable [LE D] [DecidableLE D] {vectors : VectorIndex I Q D}

/-- A planned query fails exactly when one of its candidates cannot be read. -/
lemma GrainEngine.queryPlanned_error_iff (vectors : VectorIndex I Q D) (e : GrainEngine I)
    (pred : PredId) (query : Q) (filter : Filter) (k : ℕ) (targetRecall : F64) :
    (∃ err, e.queryPlanned vectors pred query filter k targetRecall = .error err) ↔
      ∃ c ∈ e.plannedCandidates vectors pred query filter k targetRecall, ∃ err,
        e.truth.read c.sid pred = .error err := by
  rw [← joinCandidates_error_iff (fun sid => e.truth.read sid pred) filter.eval]
  unfold GrainEngine.queryPlanned nearJoinSelect GrainEngine.plannedCandidates
  dsimp only
  generalize joinCandidates (fun sid => e.truth.read sid pred) filter.eval _ = joined
  cases joined with
  | error err => simp
  | ok out => simp

namespace GovernedEngine

variable (e : GovernedEngine I)

@[simp] lemma audit_record (agent : AgentId) (action : Action) (sid : Sid) (pred : PredId)
    (decision : Decision) (tokens : ℕ) :
    (e.record agent action sid pred decision tokens).audit =
      e.audit ++ [⟨e.auditSeq, agent, action, sid, pred, decision, tokens⟩] := rfl

@[simp] lemma audit_trySpend (agent : AgentId) (cost : ℕ) :
    (e.trySpend agent cost).1.audit = e.audit := by
  unfold trySpend
  dsimp only
  split <;> rfl

variable (vectors)

/-- The records of a call: all of them name its agent and its action, and there is one unless the
call returns before its record. -/
theorem audit_call (op : GovernedOp I Q) : ∃ records,
    (e.call vectors op).1.audit = e.audit ++ records ∧
      (∀ r ∈ records, op.agent = some r.agent ∧ op.action = some r.action) ∧
      (records = [] ↔ op.agent = none ∨ e.Unrecorded vectors op) := by
  cases op with
  | putVector agent sid pred header vector wmeta failure =>
    refine ⟨[⟨e.auditSeq, agent, .write, sid, pred,
      e.policy agent .write { sid, pred, category := header.head? }, 0⟩], ?_, ?_, ?_⟩
    · unfold call putVector
      dsimp only
      split <;> rfl
    · exact List.forall_mem_singleton.mpr ⟨rfl, rfl⟩
    · simp [GovernedOp.agent, Unrecorded]
  | get agent sid pred =>
    simp only [call, GovernedEngine.get, GovernedOp.agent, GovernedOp.action, Unrecorded]
    cases hread : e.inner.truth.read sid pred with
    | error err => exact ⟨[], (List.append_nil _).symm, by simp, by simp⟩
    | ok grain =>
      cases grain with
      | none => exact ⟨[], (List.append_nil _).symm, by simp, by simp⟩
      | some g =>
        dsimp only
        cases e.policy agent .read { sid, pred, category := categoryOf g } with
        | deny => exact ⟨_, audit_record _ _ _ _ _ _ _, by simp, by simp⟩
        | mask => exact ⟨_, audit_record _ _ _ _ _ _ _, by simp, by simp⟩
        | allow => exact ⟨_, audit_record _ _ _ _ _ _ _, by simp, by simp⟩
  | queryPlanned agent pred query filter k targetRecall =>
    have herror := e.inner.queryPlanned_error_iff vectors pred query filter k targetRecall
    simp only [call, GovernedEngine.queryPlanned, GovernedOp.agent, GovernedOp.action, Unrecorded]
    rw [← herror]
    cases hinner : e.inner.queryPlanned vectors pred query filter k targetRecall with
    | error err => exact ⟨[], (List.append_nil _).symm, by simp, by simp⟩
    | ok out =>
      dsimp only
      split
      · exact ⟨_, by rw [audit_record, audit_trySpend], by simp, by simp⟩
      · exact ⟨_, by rw [audit_record, audit_trySpend], by simp, by simp⟩
  | materialize index =>
    exact ⟨[], (List.append_nil _).symm, by simp, by simp [GovernedOp.agent]⟩

omit [LE D] [DecidableLE D] in
/-- A call that returns before its record is one of an agent. -/
lemma Unrecorded.agent {op : GovernedOp I Q} (h : e.Unrecorded vectors op) :
    ∃ agent, op.agent = some agent := by
  cases op with
  | putVector agent sid pred header vector wmeta failure => exact h.elim
  | get agent sid pred => exact ⟨agent, rfl⟩
  | queryPlanned agent pred query filter k targetRecall => exact ⟨agent, rfl⟩
  | materialize index => exact h.elim

end GovernedEngine

/-! ## Runs -/

namespace Served

/-- When every call leaves a record.  For every policy, every store and every run of calls by any
agents: no call alters or removes a record, and each call appends one that names its agent and its
action exactly when no call of the run is a `get` of a grain that is not there, or a read or query
that meets a grain it cannot read. -/
theorem audited_iff (vectors : VectorIndex I Q D) (inner : GrainEngine I) (policy : Policy)
    (budget : ℕ) {hist : List (Served I × GovernedOp I Q)} {s : Served I}
    (h : Run (next vectors) (start inner policy budget) hist s) :
    (states hist s).Pairwise (fun a b => a.engine.audit <+: b.engine.audit) ∧
      (Audited vectors hist s ↔ ∀ x ∈ hist, ¬x.1.engine.Unrecorded vectors x.2) := by
  have hkept : (states hist s).Pairwise fun a b => a.engine.audit <+: b.engine.audit := by
    refine h.pairwise_states (fun _ => List.prefix_rfl) (fun _ _ _ => List.IsPrefix.trans) ?_
    intro y op z hstep
    obtain ⟨records, haudit, -⟩ := y.engine.audit_call vectors op
    rw [(next_eq_some hstep).1, haudit]
    exact List.prefix_append _ _
  refine ⟨hkept, fun haudited x hx hun => ?_, fun hall => ⟨fun x hx agent hagent => ?_, hkept⟩⟩
  · obtain ⟨agent, hagent⟩ := hun.agent
    obtain ⟨records, r, haudit, hr, -⟩ := haudited.recorded x hx agent hagent
    obtain ⟨records', haudit', -, hnil⟩ := x.1.engine.audit_call vectors x.2
    rw [haudit', hnil.mpr (Or.inr hun)] at haudit
    rw [List.append_cancel_left haudit.symm] at hr
    exact List.not_mem_nil hr
  · obtain ⟨records, haudit, hnames, hnil⟩ := x.1.engine.audit_call vectors x.2
    have hne : records ≠ [] := by
      intro hempty
      rcases hnil.mp hempty with hnone | hun
      · simp [hagent] at hnone
      · exact hall x hx hun
    obtain ⟨r, hr⟩ := List.exists_mem_of_ne_nil records hne
    obtain ⟨hname, haction⟩ := hnames r hr
    exact ⟨records, r, haudit, hr, Option.some.inj (hname.symm.trans hagent), haction⟩

namespace AuditExample

/-- No index finds anything. -/
def blind : VectorIndex Unit Unit ℕ := ⟨fun _ _ _ _ => []⟩

/-- An index that finds the grain 1. -/
def sees : VectorIndex Unit Unit ℕ := ⟨fun _ _ _ _ => [⟨1, 0⟩]⟩

/-- Agent 1 may write and read everything. -/
def policy : Policy := ((RuleSet.new.allow 1 .write .any).allow 1 .read .any).authorize

/-- An engine on an empty store. -/
def empty : Served Unit := start (GrainEngine.openWith [] ()) policy 10

/-- Whether the grain 1 is there. -/
def there (s : Served Unit) : Bool :=
  match s.engine.inner.truth.read 1 0 with
  | .ok (some _) => true
  | _ => false

lemma exists_of_there {s : Served Unit} (h : there s = true) :
    ∃ g, s.engine.inner.truth.read 1 0 = .ok (some g) := by
  unfold there at h
  split at h
  · exact ⟨_, by assumption⟩
  · simp at h

end AuditExample

open AuditExample in
/-- An agent that may read everything reads a grain that is not there: the log stays empty. -/
theorem not_audited :
    ∃ hist s, Run (next blind) empty hist s ∧ s.engine.audit = [] ∧ ¬Audited blind hist s := by
  have hcall : (empty.engine.call blind (.get 1 1 0)).1.audit = [] := by
    rw [empty, GrainEngine.openWith, TruthStore.start, TruthStore.openLog_nil]
    rfl
  refine ⟨_, _, Run.start.step (e := .get 1 1 0) rfl, hcall, ?_⟩
  intro haudited
  obtain ⟨records, r, haudit, hr, -⟩ := haudited.recorded _ List.mem_cons_self 1 rfl
  rw [hcall] at haudit
  rw [(List.append_eq_nil_iff.mp haudit.symm).2] at hr
  exact List.not_mem_nil hr

open AuditExample in
/-- A put, a read of the grain, a query that finds it and a query by an agent that may not see
it. -/
theorem audited_iff_four : ∃ hist s, Audited sees hist s ∧ s.engine.audit.length = 4 := by
  have hexec : (exec (next sees) empty
      [.putVector 1 1 0 [0] [] ⟨0, 0, 7⟩ none, .get 1 1 0, .queryPlanned 1 0 () .any 1 (.finite 1),
        .queryPlanned 2 0 () .any 1 (.finite 1)]).map (fun p => (p.2.engine.audit.length,
          p.1.map fun x => (x.2, there x.1))) =
      some (4, [(.putVector 1 1 0 [0] [] ⟨0, 0, 7⟩ none, false), (.get 1 1 0, true),
        (.queryPlanned 1 0 () .any 1 (.finite 1), true),
        (.queryPlanned 2 0 () .any 1 (.finite 1), true)]) := by
    rw [empty, GrainEngine.openWith, TruthStore.start, TruthStore.openLog_nil]
    rfl
  obtain ⟨⟨hist, s⟩, hrun, heq⟩ := Option.map_eq_some_iff.mp hexec
  obtain ⟨hlength, hsteps⟩ := Prod.mk.inj heq
  refine ⟨hist, s, (audited_iff sees _ _ _ (run_of_exec hrun)).2.mpr fun x hx hun => ?_, hlength⟩
  have hstep : (x.2, there x.1) ∈ hist.map fun x => (x.2, there x.1) :=
    List.mem_map_of_mem (f := fun x => (x.2, there x.1)) hx
  rw [hsteps] at hstep
  simp only [List.mem_cons, Prod.mk.injEq, List.not_mem_nil, or_false] at hstep
  rcases hstep with ⟨hop, -⟩ | ⟨hop, hthere⟩ | ⟨hop, hthere⟩ | ⟨hop, hthere⟩
  · rw [hop] at hun
    exact hun
  · obtain ⟨g, hg⟩ := exists_of_there hthere
    rw [hop] at hun
    exact hun g hg
  all_goals
    obtain ⟨g, hg⟩ := exists_of_there hthere
    rw [hop] at hun
    obtain ⟨c, hc, err, herr⟩ := hun
    obtain rfl := List.mem_singleton.mp hc
    rw [hg] at herr
    cases herr

end Served

/-! ## The two steps of a record -/

namespace GovernedEngine

/-- Take the next number, before the lock of the log. -/
def allocateSeq (e : GovernedEngine I) : GovernedEngine I × ℕ :=
  ({ e with auditSeq := e.auditSeq + 1 }, e.auditSeq)

/-- Enter a record, under the lock of the log. -/
def pushRecord (e : GovernedEngine I) (r : AuditRecord) : GovernedEngine I :=
  { e with audit := e.audit ++ [r] }

end GovernedEngine

/-- A governed engine, and the records of the calls that have taken their number and wait for the
lock of the log. -/
structure Recording (I : Type*) where
  engine : GovernedEngine I
  waiting : List AuditRecord

/-- A step of one of the concurrent calls. -/
inductive RecordEvent where
  /-- A call that records something takes its number. -/
  | allocate (agent : AgentId) (action : Action) (sid : Sid) (pred : PredId) (decision : Decision)
    (tokens : ℕ)
  /-- The `i`-th of the calls that wait gets the lock. -/
  | push (i : ℕ)
  deriving DecidableEq, Repr

namespace Recording

/-- A governed engine that is new. -/
def start (inner : GrainEngine I) (policy : Policy) (budget : ℕ) : Recording I :=
  ⟨GovernedEngine.new inner policy budget, []⟩

def next (s : Recording I) : RecordEvent → Option (Recording I)
  | .allocate agent action sid pred decision tokens =>
    let taken := s.engine.allocateSeq
    some ⟨taken.1, s.waiting ++ [{ seq := taken.2, agent, action, sid, pred, decision, tokens }]⟩
  | .push i => s.waiting[i]?.map fun r => ⟨s.engine.pushRecord r, s.waiting.eraseIdx i⟩

/-- What `audit_log` returns is in the order its numbers claim: entry `i` has number `i`. -/
def Ordered (s : Recording I) : Prop :=
  s.engine.audit.map AuditRecord.seq = List.range s.engine.audit.length

/-- A call that is not interrupted records as `record` does. -/
lemma record_eq (s : Recording I) (agent : AgentId) (action : Action) (sid : Sid) (pred : PredId)
    (decision : Decision) (tokens : ℕ) (h : s.waiting = []) :
    (s.next (.allocate agent action sid pred decision tokens)).bind (fun s => s.next (.push 0)) =
      some ⟨s.engine.record agent action sid pred decision tokens, []⟩ := by
  simp only [next, h]
  rfl

/-- A call gets the lock while one that took a smaller number still waits for it. -/
def Overtakes (s : Recording I) : RecordEvent → Prop
  | .allocate _ _ _ _ _ _ => False
  | .push i => ∃ r, s.waiting[i]? = some r ∧ ∃ r' ∈ s.waiting, r'.seq < r.seq

/-! ## The order of the records -/

/-- The numbers of the records, as those of any counter. -/
def desk (s : Recording I) : Tickets.Desk :=
  ⟨s.engine.auditSeq, s.waiting.map AuditRecord.seq, s.engine.audit.map AuditRecord.seq⟩

/-- What a step does to the numbers. -/
def ticket : RecordEvent → Tickets.Event
  | .allocate _ _ _ _ _ _ => .take
  | .push i => .enter i

variable {s s' : Recording I}

/-- The numbers go the way of those of any counter. -/
lemma step_desk {e : RecordEvent} (h : s.next e = some s') :
    s.desk.step (ticket e) = some s'.desk := by
  cases e with
  | allocate agent action sid pred decision tokens =>
    obtain rfl := Option.some.inj h
    simp [desk, ticket, Tickets.Desk.step, GovernedEngine.allocateSeq]
  | push i =>
    obtain ⟨r, hr, rfl⟩ := Option.map_eq_some_iff.mp h
    simp [desk, ticket, Tickets.Desk.step, GovernedEngine.pushRecord, hr, List.eraseIdx_map]

lemma ordered_iff_inOrder : s.Ordered ↔ s.desk.InOrder := by
  rw [Ordered, Tickets.Desk.InOrder, desk, List.length_map]

lemma overtakes_desk (e : RecordEvent) : s.desk.Overtakes (ticket e) ↔ s.Overtakes e := by
  cases e with
  | allocate agent action sid pred decision tokens => rfl
  | push i => simp [desk, ticket, Tickets.Desk.Overtakes, Overtakes]

/-- When the audit log is in order.  In every interleaving of the two steps of any number of calls,
the records in the log and those of the calls that wait have the numbers handed out, each once; and
every snapshot of the log is in the order of its numbers, without a gap, exactly when no call of the
run gets the lock while one that took a smaller number still waits for it. -/
theorem ordered_iff (inner : GrainEngine I) (policy : Policy) (budget : ℕ)
    {hist : List (Recording I × RecordEvent)} (h : Run next (start inner policy budget) hist s) :
    (∀ z ∈ states hist s, ((z.engine.audit ++ z.waiting).map AuditRecord.seq).Perm
        (List.range z.engine.auditSeq)) ∧
      ((∀ z ∈ states hist s, z.Ordered) ↔ ∀ x ∈ hist, ¬x.1.Overtakes x.2) := by
  constructor
  · intro z hz
    obtain ⟨hist₁, hist₂, rfl, hrun, -⟩ := h.exists_split hz
    have hdesk := hrun.map desk ticket fun _ _ _ => step_desk
    rw [List.map_append]
    exact Tickets.Desk.perm_range hdesk
  · have hdesk := h.map desk ticket fun _ _ _ => step_desk
    have hiff := Tickets.Desk.inOrder_iff hdesk
    have hstates : states (hist.map fun x => (x.1.desk, ticket x.2)) s.desk =
        (states hist s).map desk := by
      simp [states]
    rw [hstates, List.forall_mem_map, List.forall_mem_map] at hiff
    simpa only [← ordered_iff_inOrder, overtakes_desk] using hiff

namespace TwoCalls

/-- Two calls that have taken their numbers. -/
def takes : List RecordEvent := [.allocate 1 .read 0 0 .deny 0, .allocate 2 .read 0 0 .deny 0]

/-- An engine nobody may use. -/
def closed : Recording Unit := start (GrainEngine.openWith [] ()) RuleSet.new.authorize 0

end TwoCalls

open TwoCalls in
/-- The second of two calls gets the lock first: a snapshot holds the number 1 alone. -/
theorem not_ordered :
    ∃ hist s, Run next closed hist s ∧ s.engine.audit.map AuditRecord.seq = [1] ∧
      ¬∀ z ∈ states hist s, z.Ordered := by
  have hexec : (exec next closed (takes ++ [.push 1])).map
      (fun p => p.2.engine.audit.map AuditRecord.seq) = some [1] := rfl
  obtain ⟨⟨hist, s⟩, hrun, hseq⟩ := Option.map_eq_some_iff.mp hexec
  refine ⟨hist, s, run_of_exec hrun, hseq, ?_⟩
  intro hall
  have hordered := hall s mem_states_self
  rw [Ordered, ← List.length_map AuditRecord.seq, hseq] at hordered
  exact absurd hordered (by decide)

open TwoCalls in
/-- Two calls that get the lock in the order of their numbers. -/
theorem ordered_iff_two :
    ∃ hist, ∃ s : Recording Unit,
      (∀ z ∈ states (hist : List (Recording Unit × RecordEvent)) s, z.Ordered) ∧
      s.engine.audit.map AuditRecord.seq = [0, 1] := by
  have hexec : (exec next closed (takes ++ [.push 0, .push 0])).map
      (fun p => (p.2.engine.audit.map AuditRecord.seq,
        p.1.map fun x => (x.2, x.1.waiting.map AuditRecord.seq))) =
      some ([0, 1], [(.allocate 1 .read 0 0 .deny 0, []), (.allocate 2 .read 0 0 .deny 0, [0]),
        (.push 0, [0, 1]), (.push 0, [1])]) := rfl
  obtain ⟨⟨hist, s⟩, hrun, heq⟩ := Option.map_eq_some_iff.mp hexec
  obtain ⟨hseq, hsteps⟩ := Prod.mk.inj heq
  refine ⟨hist, s, (ordered_iff _ _ _ (run_of_exec hrun)).2.mpr fun x hx hover => ?_, hseq⟩
  have hstep := List.mem_map_of_mem (f := fun x => (x.2, x.1.waiting.map AuditRecord.seq)) hx
  rw [hsteps] at hstep
  rw [← overtakes_desk] at hover
  simp only [List.mem_cons, Prod.mk.injEq, List.not_mem_nil, or_false] at hstep
  rcases hstep with ⟨hop, -⟩ | ⟨hop, -⟩ | ⟨hop, hwait⟩ | ⟨hop, hwait⟩
  · rw [hop] at hover
    exact hover
  · rw [hop] at hover
    exact hover
  all_goals
    rw [hop] at hover
    simp [desk, ticket, Tickets.Desk.Overtakes, hwait] at hover

end Recording

end GrainStore
