import Mathlib
import GrainStore.Governance.Budget

/-!
# Denied writes

A history of governed calls by any agents, and the same history without the `put_vector` calls that
the policy denies.  `denied_puts_invisible` says that the two leave the same engine and give the
same results, and that the audit log of the first has one more entry for each call left out.
-/

namespace GrainStore

/-- An audit entry without its number. -/
def AuditRecord.body (r : AuditRecord) : AuditRecord := { r with seq := 0 }

namespace GovernedEngine

variable {I Q D : Type*}

/-- The call is a put that the policy denies. -/
def denies (e : GovernedEngine I) : GovernedOp I Q → Bool
  | .putVector agent sid pred header _ _ _ =>
    e.policy agent .write { sid, pred, category := header.head? } = .deny
  | _ => false

/-- The audit entry of a denied put. -/
def refusal : GovernedOp I Q → Option AuditRecord
  | .putVector agent sid pred _ _ _ _ =>
    some { seq := 0, agent, action := .write, sid, pred, decision := .deny, tokens := 0 }
  | _ => none

/-- Every denied call has its refusal. -/
lemma length_refusals (e : GovernedEngine I) (ops : List (GovernedOp I Q)) :
    ((ops.filter e.denies).filterMap refusal).length = (ops.filter e.denies).length := by
  induction ops with
  | nil => rfl
  | cons op ops ih =>
    by_cases hdeny : e.denies op = true
    · rw [List.filter_cons_of_pos hdeny, List.filterMap_cons]
      cases op with
      | putVector agent sid pred header vector wmeta failure => exact congrArg Nat.succ ih
      | get agent sid pred => simp [denies] at hdeny
      | queryPlanned agent pred query filter k targetRecall => simp [denies] at hdeny
      | materialize index => simp [denies] at hdeny
    · rwa [List.filter_cons_of_neg hdeny]

/-- The engine with another audit log. -/
def withAudit (e : GovernedEngine I) (audit : List AuditRecord) (n : ℕ) : GovernedEngine I :=
  { e with audit, auditSeq := n }

section Run

variable [LE D] [DecidableLE D] (vectors : VectorIndex I Q D)

/-- Carry out a history, with what each call returned. -/
def run (e : GovernedEngine I) :
    List (GovernedOp I Q) → GovernedEngine I × List (GovernedOp I Q × Response D)
  | [] => (e, [])
  | op :: ops =>
    let r := e.call vectors op
    let rest := run r.1 ops
    (rest.1, (op, r.2) :: rest.2)

end Run

/-! ## The audit log of a call -/

section Calls

variable [LE D] [DecidableLE D] (vectors : VectorIndex I Q D) (e : GovernedEngine I)

omit [LE D] [DecidableLE D] in
lemma trySpend_withAudit (audit : List AuditRecord) (n : ℕ) (agent : AgentId) (cost : ℕ) :
    (e.withAudit audit n).trySpend agent cost =
      ((e.trySpend agent cost).1.withAudit audit n, (e.trySpend agent cost).2) := by
  have hremaining : (e.withAudit audit n).remainingBudget agent = e.remainingBudget agent := rfl
  rw [trySpend, trySpend, hremaining]
  split
  · rfl
  · rfl

/-- A call writes its audit entry behind the log it finds, and reads nothing of the log. -/
lemma exists_entries (op : GovernedOp I Q) : ∃ entries : List AuditRecord,
    entries.map AuditRecord.body = entries ∧ ∀ audit n, (e.withAudit audit n).call vectors op =
      ((e.call vectors op).1.withAudit
        (audit ++ entries.map fun r => { r with seq := n }) (n + entries.length),
        (e.call vectors op).2) := by
  cases op with
  | putVector agent sid pred header vector wmeta failure =>
    refine ⟨[⟨0, agent, .write, sid, pred,
      e.policy agent .write { sid, pred, category := header.head? }, 0⟩], rfl, ?_⟩
    intro audit n
    by_cases hdeny : e.policy agent .write { sid, pred, category := header.head? } = .deny
    · simp [call, putVector, record, withAudit, hdeny]
    · simp [call, putVector, record, withAudit, hdeny]
  | get agent sid pred =>
    cases hread : e.inner.truth.read sid pred with
    | error err =>
      refine ⟨[], rfl, ?_⟩
      intro audit n
      simp [call, get, withAudit, hread]
    | ok found =>
      cases found with
      | none =>
        refine ⟨[], rfl, ?_⟩
        intro audit n
        simp [call, get, withAudit, hread]
      | some g =>
        cases hd : e.policy agent .read { sid, pred, category := categoryOf g } with
        | deny =>
          refine ⟨[⟨0, agent, .read, sid, pred, .deny, 0⟩], rfl, ?_⟩
          intro audit n
          simp [call, get, record, withAudit, hread, hd]
        | mask =>
          refine ⟨[⟨0, agent, .read, sid, pred, .mask, grainTokens { g with val := redacted }⟩],
            rfl, ?_⟩
          intro audit n
          simp [call, get, record, withAudit, hread, hd]
        | allow =>
          refine ⟨[⟨0, agent, .read, sid, pred, .allow, grainTokens g⟩], rfl, ?_⟩
          intro audit n
          simp [call, get, record, withAudit, hread, hd]
  | queryPlanned agent pred query filter k targetRecall =>
    cases hquery : e.inner.queryPlanned vectors pred query filter k targetRecall with
    | error err =>
      refine ⟨[], rfl, ?_⟩
      intro audit n
      simp [call, queryPlanned, withAudit, hquery]
    | ok answer =>
      obtain ⟨ranked, plan⟩ := answer
      have hquery' : ∀ audit n, (e.withAudit audit n).inner.queryPlanned vectors pred query filter k
          targetRecall = .ok (ranked, plan) := fun _ _ => hquery
      have hout : ∀ audit n, readable (e.withAudit audit n).policy agent pred ranked =
          readable e.policy agent pred ranked := fun _ _ => rfl
      cases hspent : (e.trySpend agent (cost (readable e.policy agent pred ranked))).2 with
      | true =>
        refine ⟨[⟨0, agent, .read, 0, pred, .allow, cost (readable e.policy agent pred ranked)⟩],
          rfl, ?_⟩
        intro audit n
        simp only [call, queryPlanned, hquery, hquery', hout, trySpend_withAudit, hspent, if_true]
        rfl
      | false =>
        refine ⟨[⟨0, agent, .read, 0, pred, .deny, cost (readable e.policy agent pred ranked)⟩],
          rfl, ?_⟩
        intro audit n
        simp only [call, queryPlanned, hquery, hquery', hout, trySpend_withAudit, hspent,
          Bool.false_eq_true, if_false]
        rfl
  | materialize index =>
    refine ⟨[], rfl, ?_⟩
    intro audit n
    rw [List.map_nil, List.append_nil]
    rfl

variable {vectors e}

variable (vectors) in
/-- A denied put adds its refusal to the audit log and changes nothing else. -/
lemma call_of_denies {op : GovernedOp I Q} (h : e.denies op = true) :
    ∃ r, refusal op = some r ∧ (e.call vectors op).1 =
      e.withAudit (e.audit ++ [{ r with seq := e.auditSeq }]) (e.auditSeq + 1) := by
  cases op with
  | putVector agent sid pred header vector wmeta failure =>
    have hdeny : e.policy agent .write { sid, pred, category := header.head? } = .deny :=
      of_decide_eq_true h
    exact ⟨_, rfl, by simp [call, putVector, record, withAudit, hdeny]⟩
  | get agent sid pred => simp [denies] at h
  | queryPlanned agent pred query filter k targetRecall => simp [denies] at h
  | materialize index => simp [denies] at h

variable (vectors e) in
/-- No call changes the policy. -/
lemma policy_call (op : GovernedOp I Q) : (e.call vectors op).1.policy = e.policy := by
  cases op with
  | putVector agent sid pred header vector wmeta failure =>
    simp only [call, putVector]
    split <;> rfl
  | get agent sid pred =>
    simp only [call, get]
    split
    · rfl
    · rfl
    · split <;> rfl
  | queryPlanned agent pred query filter k targetRecall =>
    simp only [call, queryPlanned, trySpend]
    split
    · rfl
    · split <;> rfl
  | materialize index => rfl

omit [LE D] [DecidableLE D] in
lemma denies_congr {e' : GovernedEngine I} (h : e.policy = e'.policy) (op : GovernedOp I Q) :
    e.denies op = e'.denies op := by
  unfold denies
  rw [h]

end Calls

/-! ## With and without the denied puts -/

section Purge

variable [LE D] [DecidableLE D] {vectors : VectorIndex I Q D}

/-- Two engines that differ in their audit logs only, the first of which has some more entries, in
the places marked. -/
def Differ (e e' : GovernedEngine I) (more : List AuditRecord) : Prop :=
  e' = e.withAudit e'.audit e'.auditSeq ∧ ∃ marked : List (AuditRecord × Bool),
    marked.map Prod.fst = e.audit.map AuditRecord.body ∧
    (marked.filter fun x => !x.2).map Prod.fst = e'.audit.map AuditRecord.body ∧
    (marked.filter fun x => x.2).map Prod.fst = more

variable {e e' : GovernedEngine I} {more : List AuditRecord}

variable (vectors) in
/-- Such engines carry out a call alike. -/
lemma Differ.call (h : e.Differ e' more) (op : GovernedOp I Q) :
    (e.call vectors op).1.Differ (e'.call vectors op).1 more ∧
      (e.call vectors op).2 = (e'.call vectors op).2 := by
  obtain ⟨he', marked, hall, hkept, hmore⟩ := h
  obtain ⟨entries, hbody, hcall⟩ := exists_entries vectors e op
  have hnumbered : ∀ n, (entries.map fun r => { r with seq := n }).map AuditRecord.body =
      entries := by
    intro n
    rw [List.map_map]
    exact hbody
  have hcall' := hcall e'.audit e'.auditSeq
  rw [← he'] at hcall'
  have haudit : (e.call vectors op).1.audit =
      e.audit ++ entries.map fun r => { r with seq := e.auditSeq } :=
    congrArg (fun r => r.1.audit) (hcall e.audit e.auditSeq)
  rw [hcall']
  refine ⟨⟨rfl, marked ++ entries.map fun r => (r, false), ?_, ?_, ?_⟩, rfl⟩
  · rw [List.map_append, hall, haudit, List.map_append, hnumbered, List.map_map]
    exact congrArg _ (List.map_id' entries)
  · have hfilter : (entries.map fun r => (r, false)).filter (fun x => !x.2) =
        entries.map fun r => (r, false) := List.filter_eq_self.mpr (by simp)
    rw [List.filter_append, List.map_append, hkept, hfilter, List.map_map]
    refine Eq.trans ?_ (List.map_append ..).symm
    rw [hnumbered]
    exact congrArg _ (List.map_id' entries)
  · have hfilter : (entries.map fun r => (r, false)).filter (fun x => x.2) = [] :=
      List.filter_eq_nil_iff.mpr (by simp)
    rw [List.filter_append, hfilter, List.append_nil, hmore]

variable (vectors) in
/-- A denied put is one entry more. -/
lemma Differ.denied (h : e.Differ e' more) {op : GovernedOp I Q} (hdeny : e.denies op = true) :
    ∃ r, refusal op = some r ∧ (e.call vectors op).1.Differ e' (more ++ [r]) := by
  obtain ⟨he', marked, hall, hkept, hmore⟩ := h
  obtain ⟨r, hr, hcall⟩ := call_of_denies vectors hdeny
  have hbody : r.body = r := by
    cases op with
    | putVector agent sid pred header vector wmeta failure => obtain rfl := Option.some.inj hr; rfl
    | get agent sid pred => simp [refusal] at hr
    | queryPlanned agent pred query filter k targetRecall => simp [refusal] at hr
    | materialize index => simp [refusal] at hr
  refine ⟨r, hr, ?_⟩
  rw [hcall]
  refine ⟨he', marked ++ [(r, true)], ?_, ?_, ?_⟩
  · rw [List.map_append, hall]
    refine Eq.trans ?_ (List.map_append ..).symm
    exact congrArg (fun b => e.audit.map AuditRecord.body ++ [b]) hbody.symm
  · rw [List.filter_append, List.map_append, hkept]
    exact List.append_nil _
  · rw [List.filter_append, List.map_append, hmore]
    rfl

variable (vectors) in
/-- Carrying out a history and the same history without its denied puts. -/
lemma Differ.run (h : e.Differ e' more) (ops : List (GovernedOp I Q)) :
    (e.run vectors ops).1.Differ (e'.run vectors (ops.filter fun op => !e.denies op)).1
        (more ++ (ops.filter e.denies).filterMap refusal) ∧
      ((e.run vectors ops).2.filter fun x => !e.denies x.1) =
        (e'.run vectors (ops.filter fun op => !e.denies op)).2 := by
  induction ops generalizing e e' more with
  | nil => exact ⟨by simpa [GovernedEngine.run] using h, rfl⟩
  | cons op ops ih =>
    have hdenies : (e.call vectors op).1.denies = (e.denies : GovernedOp I Q → Bool) :=
      funext fun op' => denies_congr (policy_call vectors e op) op'
    by_cases hdeny : e.denies op = true
    · obtain ⟨r, hr, hnext⟩ := h.denied vectors hdeny
      have hrest := ih hnext
      rw [hdenies, List.append_assoc] at hrest
      rw [List.filter_cons_of_neg (by simp [hdeny]), List.filter_cons_of_pos hdeny,
        List.filterMap_cons, hr, GovernedEngine.run]
      refine ⟨hrest.1, ?_⟩
      rw [List.filter_cons_of_neg (by simp [hdeny])]
      exact hrest.2
    · obtain ⟨hnext, hanswer⟩ := h.call vectors op
      have hrest := ih hnext
      rw [hdenies] at hrest
      rw [List.filter_cons_of_pos (by simpa using hdeny), List.filter_cons_of_neg hdeny,
        GovernedEngine.run, GovernedEngine.run]
      refine ⟨hrest.1, ?_⟩
      rw [List.filter_cons_of_pos (by simpa using hdeny), hrest.2, hanswer]

variable (vectors) in
/-- Denied writes are invisible.  For every policy, every engine and every history of calls by any
agents: leaving out the put calls that the policy denies leaves the truth store (log file, KV,
change stream, clock and dedup map), the index, the catalog, the budgets and the result of every
other call as they are, and the audit log without one entry for each call left out, its refusal. -/
theorem denied_puts_invisible (e : GovernedEngine I) (ops : List (GovernedOp I Q)) :
    let full := e.run vectors ops
    let purged := e.run vectors (ops.filter fun op => !e.denies op)
    full.1.inner = purged.1.inner ∧ full.1.budgets = purged.1.budgets ∧
      full.1.policy = purged.1.policy ∧ full.1.defaultBudget = purged.1.defaultBudget ∧
      (full.2.filter fun x => !e.denies x.1) = purged.2 ∧
      full.1.audit.length = purged.1.audit.length + (ops.filter e.denies).length ∧
      ∃ marked : List (AuditRecord × Bool),
        marked.map Prod.fst = full.1.audit.map AuditRecord.body ∧
        (marked.filter fun x => !x.2).map Prod.fst = purged.1.audit.map AuditRecord.body ∧
        (marked.filter fun x => x.2).map Prod.fst = (ops.filter e.denies).filterMap refusal := by
  intro full purged
  have hstart : e.Differ e [] := by
    refine ⟨rfl, e.audit.map fun r => (r.body, false), ?_, ?_, ?_⟩
    · rw [List.map_map]
      rfl
    · rw [List.filter_eq_self.mpr (by simp), List.map_map]
      rfl
    · rw [List.filter_eq_nil_iff.mpr (by simp)]
      rfl
  obtain ⟨⟨hpurged, hmarked⟩, hresults⟩ := hstart.run vectors ops
  rw [List.nil_append] at hmarked
  have hsame : purged.1 = full.1.withAudit purged.1.audit purged.1.auditSeq := hpurged
  have hlength : full.1.audit.length =
      purged.1.audit.length + (ops.filter e.denies).length := by
    obtain ⟨marked, hall, hkept, hmore⟩ := hmarked
    have hfull := congrArg List.length hall
    have hpurge := congrArg List.length hkept
    have hdropped := congrArg List.length hmore
    rw [List.length_map, List.length_map] at hfull hpurge
    rw [List.length_map, length_refusals] at hdropped
    have hsplit := marked.length_eq_length_filter_add fun x => x.2
    rw [← hfull, ← hpurge, hsplit, hdropped, Nat.add_comm]
  have hrest : full.1.inner = purged.1.inner ∧ full.1.budgets = purged.1.budgets ∧
      full.1.policy = purged.1.policy ∧ full.1.defaultBudget = purged.1.defaultBudget := by
    rw [hsame]
    exact ⟨rfl, rfl, rfl, rfl⟩
  exact ⟨hrest.1, hrest.2.1, hrest.2.2.1, hrest.2.2.2, hresults, hlength, hmarked⟩

end Purge

end GovernedEngine

end GrainStore
