import Mathlib
import GrainStore.Engine

/-!
# Governance

Identity, grain-level access control, value masking, per-agent token budgets and an audit trail
around an engine.  A policy is a function here; `RuleSet.authorize` is the rule-based one.
-/

namespace GrainStore

/-- An authenticated caller. -/
abbrev AgentId := U64

/-- The kind of access requested. -/
inductive Action where
  | read
  | write
  | delete
  deriving DecidableEq, Repr

/-- A policy decision. -/
inductive Decision where
  | allow
  /-- Read permitted, but the value is redacted. -/
  | mask
  | deny
  deriving DecidableEq, Repr

/-- The governance-relevant view of a grain that a policy decides over. -/
structure GrainRef where
  sid : Sid
  pred : PredId
  category : Option FixedWidth.Byte
  deriving DecidableEq, Repr

/-- The text `{:?}` prints for a target. -/
def GrainRef.debug (t : GrainRef) : String :=
  let category := match t.category with
    | none => "None"
    | some c => s!"Some({c.toNat})"
  s!"GrainRef \x7b sid: Sid({t.sid.toNat}), pred: PredId({t.pred.toNat}), category: {category} \x7d"

/-- Pluggable authorization. -/
abbrev Policy := AgentId → Action → GrainRef → Decision

/-! ## Rules -/

/-- What a rule matches on. -/
inductive Match where
  | any
  | category (c : FixedWidth.Byte)
  | pred (p : PredId)
  deriving DecidableEq, Repr

def Match.matches : Match → GrainRef → Bool
  | .any, _ => true
  | .category c, t => t.category = some c
  | .pred p, t => t.pred = p

inductive Effect where
  | allow
  | deny
  | mask
  deriving DecidableEq, Repr

structure Rule where
  agent : AgentId
  /-- `none` is any action. -/
  action : Option Action
  effect : Effect
  matcher : Match
  deriving DecidableEq, Repr

/-- A rule-based, default-deny policy. -/
structure RuleSet where
  rules : List Rule
  deriving DecidableEq, Repr

namespace RuleSet

def new : RuleSet := ⟨[]⟩

def allow (s : RuleSet) (agent : AgentId) (action : Action) (matcher : Match) : RuleSet :=
  ⟨s.rules ++ [{ agent, action := some action, effect := .allow, matcher }]⟩

def deny (s : RuleSet) (agent : AgentId) (action : Action) (matcher : Match) : RuleSet :=
  ⟨s.rules ++ [{ agent, action := some action, effect := .deny, matcher }]⟩

/-- Reads of matching grains are permitted but redacted. -/
def mask (s : RuleSet) (agent : AgentId) (matcher : Match) : RuleSet :=
  ⟨s.rules ++ [{ agent, action := some .read, effect := .mask, matcher }]⟩

/-- The loop over the rules, with what was matched so far: a matching deny ends it. -/
def scan (agent : AgentId) (action : Action) (target : GrainRef) :
    Bool → Bool → List Rule → Decision
  | allow, mask, [] =>
    if mask && action = .read then .mask else if allow then .allow else .deny
  | allow, mask, r :: rules =>
    if r.agent ≠ agent then scan agent action target allow mask rules
    else if r.action.any (· ≠ action) then scan agent action target allow mask rules
    else if !r.matcher.matches target then scan agent action target allow mask rules
    else
      match r.effect with
      | .deny => .deny
      | .mask => scan agent action target allow true rules
      | .allow => scan agent action target true mask rules

/-- Any matching deny wins, then mask (for reads), then allow; no matching rule means deny. -/
def authorize (s : RuleSet) : Policy := fun agent action target =>
  scan agent action target false false s.rules

end RuleSet

/-! ## Tokens and redaction -/

/-- Rough token cost of serializing one grain. -/
def grainTokens (g : Grain) : ℕ :=
  let bytes := match g.val with
    | .bytes b => b.length
    | .tombstone => 0
  bytes / 4 + 8

def categoryOf (g : Grain) : Option FixedWidth.Byte :=
  match g.val with
  | .bytes b => b.head?
  | .tombstone => none

def redacted : Val := .bytes ("[REDACTED]".toList.map fun c => BitVec.ofNat 8 c.toNat)

/-! ## The governed engine -/

/-- One audit entry. -/
structure AuditRecord where
  seq : ℕ
  agent : AgentId
  action : Action
  sid : Sid
  pred : PredId
  decision : Decision
  tokens : ℕ
  deriving DecidableEq, Repr

/-- The engine wrapper that enforces governance inline. -/
structure GovernedEngine (I : Type*) where
  inner : GrainEngine I
  policy : Policy
  defaultBudget : ℕ
  budgets : Std.ExtTreeMap AgentId ℕ
  audit : List AuditRecord
  auditSeq : ℕ

namespace GovernedEngine

variable {I Q D : Type*}

def new (inner : GrainEngine I) (policy : Policy) (defaultBudgetTokens : ℕ) : GovernedEngine I :=
  { inner, policy, defaultBudget := defaultBudgetTokens, budgets := ∅, audit := [],
    auditSeq := 0 }

def record (e : GovernedEngine I) (agent : AgentId) (action : Action) (sid : Sid)
    (pred : PredId) (decision : Decision) (tokens : ℕ) : GovernedEngine I :=
  { e with
    audit := e.audit ++ [{ seq := e.auditSeq, agent, action, sid, pred, decision, tokens }]
    auditSeq := e.auditSeq + 1 }

/-- Remaining token budget for an agent. -/
def remainingBudget (e : GovernedEngine I) (agent : AgentId) : ℕ :=
  e.budgets[agent]?.getD e.defaultBudget

/-- Debit an agent, whose entry is created first, unless the cost is above what remains. -/
def trySpend (e : GovernedEngine I) (agent : AgentId) (cost : ℕ) : GovernedEngine I × Bool :=
  let rem := e.remainingBudget agent
  if cost ≤ rem then ({ e with budgets := e.budgets.insert agent (rem - cost) }, true)
  else ({ e with budgets := e.budgets.insert agent rem }, false)

/-- Write a grain; a denied write never reaches the log. -/
def putVector (e : GovernedEngine I) (agent : AgentId) (sid : Sid) (pred : PredId)
    (header : Bytes) (vector : List F32) (wmeta : WriteMeta)
    (failure : Option (IoError × ℕ)) : GovernedEngine I × Except Error Hlc :=
  let target : GrainRef := { sid, pred, category := header.head? }
  let d := e.policy agent .write target
  let e := e.record agent .write sid pred d 0
  if d = .deny then
    (e, .error (.denied s!"agent {agent.toNat} cannot write {target.debug}"))
  else
    let put := e.inner.putVector sid pred header vector wmeta failure
    ({ e with inner := put.1 }, put.2)

/-- What an agent is shown of a grain it reads: nothing, the redacted grain or the grain. -/
def shown (policy : Policy) (agent : AgentId) (g : Grain) (pred : PredId) : Option Grain :=
  match policy agent .read { sid := g.sid, pred, category := categoryOf g } with
  | .deny => none
  | .mask => some { g with val := redacted }
  | .allow => some g

/-- Read a grain. -/
def get (e : GovernedEngine I) (agent : AgentId) (sid : Sid) (pred : PredId) :
    GovernedEngine I × Except Error (Option Grain) :=
  match e.inner.truth.read sid pred with
  | .error err => (e, .error err)
  | .ok none => (e, .ok none)
  | .ok (some grain) =>
    let target : GrainRef := { sid, pred, category := categoryOf grain }
    let d := e.policy agent .read target
    match d with
    | .deny => (e.record agent .read sid pred d 0, .ok none)
    | .mask =>
      let g := { grain with val := redacted }
      (e.record agent .read sid pred d (grainTokens g), .ok (some g))
    | .allow => (e.record agent .read sid pred d (grainTokens grain), .ok (some grain))

/-- The ranked results an agent may read, masked ones redacted. -/
def readable (policy : Policy) (agent : AgentId) (pred : PredId) (ranked : List (Ranked D)) :
    List (Ranked D) :=
  ranked.filterMap fun r => (shown policy agent r.grain pred).map fun g => { r with grain := g }

/-- The tokens of a list of results. -/
def cost (out : List (Ranked D)) : ℕ := (out.map fun r => grainTokens r.grain).sum

/-- Run a planned mixed query under governance: results the agent cannot read are dropped, masked
ones redacted, and the budget is debited by what is returned. -/
def queryPlanned [LE D] [DecidableLE D] (vectors : VectorIndex I Q D) (e : GovernedEngine I)
    (agent : AgentId) (pred : PredId) (query : Q) (filter : Filter) (k : ℕ)
    (targetRecall : F64) : GovernedEngine I × Except Error (List (Ranked D) × Plan) :=
  match e.inner.queryPlanned vectors pred query filter k targetRecall with
  | .error err => (e, .error err)
  | .ok (ranked, plan) =>
    let out := readable e.policy agent pred ranked
    let need := cost out
    let spent := e.trySpend agent need
    if spent.2 then (spent.1.record agent .read 0 pred .allow need, .ok (out, plan))
    else
      let remaining := spent.1.remainingBudget agent
      (spent.1.record agent .read 0 pred .deny need,
        .error (.denied s!"token budget exceeded: need {need}, remaining {remaining}"))

/-! ## Budgets -/

variable (e : GovernedEngine I) (agent other : AgentId)

@[simp] lemma remainingBudget_record (action : Action) (sid : Sid) (pred : PredId)
    (decision : Decision) (tokens : ℕ) :
    (e.record agent action sid pred decision tokens).remainingBudget other =
      e.remainingBudget other := rfl

/-- Spending changes the budget of no agent but one, and of that one only when it succeeds. -/
lemma remainingBudget_trySpend (cost : ℕ) :
    (e.trySpend agent cost).1.remainingBudget other =
      if agent = other ∧ cost ≤ e.remainingBudget agent then e.remainingBudget agent - cost
      else e.remainingBudget other := by
  unfold trySpend
  dsimp only
  split
  · rename_i hle
    rw [remainingBudget, OrderedMap.getElem?_insert_eq]
    by_cases hagent : agent = other
    · simp [hagent, hagent ▸ hle]
    · simp [hagent, remainingBudget]
  · rename_i hlt
    rw [remainingBudget, OrderedMap.getElem?_insert_eq]
    by_cases hagent : agent = other
    · simp [hagent, hagent ▸ hlt]
    · simp [hagent, remainingBudget]

/-- Spending succeeds exactly when the cost is covered. -/
lemma trySpend_snd (cost : ℕ) :
    (e.trySpend agent cost).2 = decide (cost ≤ e.remainingBudget agent) := by
  unfold trySpend
  dsimp only
  split
  · exact (decide_eq_true ‹_›).symm
  · exact (decide_eq_false ‹_›).symm

end GovernedEngine

end GrainStore
