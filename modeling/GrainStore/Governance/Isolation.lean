import Mathlib
import GrainStore.Engine.History
import GrainStore.Governance

/-!
# What denied grains do to a query

Two engines built by histories that agree except in the header and vector of puts whose grains an
agent may not read, and one governed query of that agent on both.  The policy filter comes after
the candidate cutoff and the top-k truncation, and the catalog counts the header bytes of all
puts, so the two answers can differ (`denied_puts_show`).

`query_of_alike` is what does hold: both answers are first parts of one ranking, that of the
grains the agent may read, so denied grains are never returned, never reorder the readable ones
and can only cut the list short; and the plans agree when the header bytes do.
-/

namespace GrainStore

/-- The value a put stores. -/
def VectorPut.value (p : VectorPut) : Bytes := encodeValueWithHeader p.header p.vector

/-- The view of a put's grain that a policy decides over. -/
def VectorPut.target (p : VectorPut) : GrainRef :=
  { sid := p.sid, pred := p.pred, category := p.value.head? }

/-- The grain a put leaves when it is committed at `seq`. -/
def VectorPut.grain (p : VectorPut) (seq : U64) : Grain :=
  { sid := p.sid, pred := p.pred, val := .bytes p.value, c := p.wmeta.c, tValid := p.wmeta.tValid,
    tTx := seq }

/-- Two puts that agree, or agree except in the header and vector of a grain that the agent may
not read either way. -/
def Alike (policy : Policy) (agent : AgentId) (p q : VectorPut) : Prop :=
  p = q ∨ p.sid = q.sid ∧ p.pred = q.pred ∧ p.wmeta = q.wmeta ∧
    policy agent .read p.target = .deny ∧ policy agent .read q.target = .deny

instance (policy : Policy) (agent : AgentId) (p q : VectorPut) :
    Decidable (Alike policy agent p q) :=
  inferInstanceAs (Decidable (_ ∨ _))

/-! ## Two histories side by side -/

/-- The committed part of two histories: the two puts of each commit, with its timestamp. -/
abbrev Commits := List ((VectorPut × VectorPut) × U64)

/-- One of the two histories. -/
abbrev Side := VectorPut × VectorPut → VectorPut

namespace Commits

/-- The log of one of the two histories. -/
def log (side : Side) (c : Commits) : List WalRecord :=
  c.map fun x => (side x.1).write.record x.2

/-- A side has the grains and the metadata of the first history. -/
def Tracks (side : Side) (c : Commits) : Prop :=
  ∀ x ∈ c, (side x.1).sid = x.1.1.sid ∧ (side x.1).pred = x.1.1.pred ∧
    (side x.1).wmeta = x.1.1.wmeta

/-- The last commit of a grain under a predicate. -/
def newest (c : Commits) (sid : Sid) (pred : PredId) :
    Option ((VectorPut × VectorPut) × U64) :=
  (c.filter fun x => x.1.1.sid = sid ∧ x.1.1.pred = pred).getLast?

/-- The last commit of a grain id. -/
def last (c : Commits) (sid : Sid) : Option ((VectorPut × VectorPut) × U64) :=
  (c.filter fun x => x.1.1.sid = sid).getLast?

variable {side : Side} {c : Commits}

lemma tracks_fst (c : Commits) : Tracks Prod.fst c := fun _ _ => ⟨rfl, rfl, rfl⟩

lemma tracks_snd {policy : Policy} {agent : AgentId}
    (h : ∀ x ∈ c, Alike policy agent x.1.1 x.1.2) : Tracks Prod.snd c := by
  intro x hx
  rcases h x hx with heq | ⟨hsid, hpred, hmeta, -⟩
  · rw [heq]
    exact ⟨rfl, rfl, rfl⟩
  · exact ⟨hsid.symm, hpred.symm, hmeta.symm⟩

lemma log_concat (side : Side) (c : Commits) (x : (VectorPut × VectorPut) × U64) :
    log side (c ++ [x]) = log side c ++ [(side x.1).write.record x.2] := by
  simp [log]

/-- Both sides have one dedup map. -/
lemma idem_log (h : Tracks side c) :
    WalLog.idem (log side c) = WalLog.idem (log Prod.fst c) := by
  induction c using List.reverseRecOn with
  | nil => rfl
  | append_singleton c x ih =>
    have hkey : (side x.1).write.idemKey = x.1.1.write.idemKey :=
      congrArg WriteMeta.idemKey (h x (by simp)).2.2
    rw [log_concat, log_concat, WalLog.idem_concat, WalLog.idem_concat,
      ih fun y hy => h y (List.mem_append_left _ hy)]
    simp only [WriteReq.record, hkey]

/-- Both sides have one clock. -/
lemma clock_log (side : Side) (c : Commits) :
    WalLog.clock (log side c) = WalLog.clock (log Prod.fst c) := by
  induction c using List.reverseRecOn with
  | nil => rfl
  | append_singleton c x ih =>
    rw [log_concat, log_concat, WalLog.clock_concat, WalLog.clock_concat, ih]
    rfl

/-- What a strong read of a side finds: the grain of the newest commit. -/
lemma read_log {t : TruthStore} (ht : t.Holds (log side c)) (h : Tracks side c)
    (hsorted : c.Pairwise fun a b => a.2 < b.2) (sid : Sid) (pred : PredId) :
    t.read sid pred = .ok ((newest c sid pred).map fun x => (side x.1).grain x.2) := by
  have hpairwise : (log side c).Pairwise fun a b => a.seq < b.seq :=
    List.pairwise_map.mpr hsorted
  have hfilter : (log side c).filter (fun r => r.sid = sid ∧ r.pred = pred) =
      (c.filter fun x => x.1.1.sid = sid ∧ x.1.1.pred = pred).map
        fun x => (side x.1).write.record x.2 := by
    rw [log, List.filter_map]
    congr 1
    refine List.filter_congr ?_
    intro x hx
    obtain ⟨hsid, hpred, -⟩ := h x hx
    simp [WriteReq.record, VectorPut.write, WriteReq.put, hsid, hpred]
  rw [ht.read, WalLog.visible_eq_getLast? hpairwise sid pred fun r => WalLog.seq_le_clock, hfilter,
    List.getLast?_map]
  cases hx : (c.filter fun x => x.1.1.sid = sid ∧ x.1.1.pred = pred).getLast? with
  | none => rw [newest, hx]; rfl
  | some x => rw [newest, hx]; rfl

/-- The index entry of a grain id on a side: the vector of its last commit. -/
lemma getElem?_log {V : Type*} (embed : Bytes → Option V) (h : Tracks side c) (sid : Sid) :
    (applyAll embed ((log side c).map WalRecord.cdc))[sid]? =
      (last c sid).bind fun x => embed (side x.1).value := by
  have hfilter : ((log side c).map WalRecord.cdc).filter (fun r => r.sid = sid) =
      (c.filter fun x => x.1.1.sid = sid).map fun x => ((side x.1).write.record x.2).cdc := by
    rw [log, List.map_map, List.filter_map]
    congr 1
    refine List.filter_congr ?_
    intro x hx
    simp [WriteReq.record, WalRecord.cdc, VectorPut.write, WriteReq.put, (h x hx).1]
  rw [getElem?_applyAll, hfilter, List.getLast?_map, last]
  cases (c.filter fun x => x.1.1.sid = sid).getLast? with
  | none => rfl
  | some x => rfl

end Commits

/-! ## The engines of two histories -/

open Commits

/-- The truth stores of two histories whose calls commit alike. -/
structure SideBySide (pairs : List (VectorPut × VectorPut)) (t₁ t₂ : TruthStore) (c : Commits) :
    Prop where
  first : t₁.Holds (log Prod.fst c)
  second : t₂.Holds (log Prod.snd c)
  running : t₁.running = t₂.running
  mem : ∀ x ∈ c, x.1 ∈ pairs
  sorted : c.Pairwise fun a b => a.2 < b.2

/-- Histories that agree call by call commit alike. -/
lemma exists_sideBySide {I : Type*} {policy : Policy} {agent : AgentId}
    {pairs : List (VectorPut × VectorPut)} (h : ∀ x ∈ pairs, Alike policy agent x.1 x.2)
    (i₁ i₂ : I) :
    ∃ c, SideBySide pairs ((GrainEngine.openWith [] i₁).putAll (pairs.map Prod.fst)).truth
      ((GrainEngine.openWith [] i₂).putAll (pairs.map Prod.snd)).truth c := by
  induction pairs using List.reverseRecOn with
  | nil =>
    exact ⟨[], TruthStore.holds_start, TruthStore.holds_start, rfl, by simp, List.Pairwise.nil⟩
  | append_singleton pairs x ih =>
    obtain ⟨c, hc⟩ := ih fun y hy => h y (List.mem_append_left _ hy)
    have halike : ∀ y ∈ c, Alike policy agent y.1.1 y.1.2 := fun y hy =>
      h y.1 (List.mem_append_left _ (hc.mem y hy))
    have hkey : x.2.write.idemKey = x.1.write.idemKey :=
      congrArg WriteMeta.idemKey (tracks_snd (c := [(x, 0)]) (by simpa using h x (by simp))
        (x, 0) List.mem_cons_self).2.2
    have hstep₁ := hc.first.commit x.1.write
    have hstep₂ := hc.second.commit x.2.write
    rw [idem_log (tracks_snd halike), clock_log, ← hc.running, hkey] at hstep₂
    simp only [List.map_append, List.map_singleton, GrainEngine.putAll, List.foldl_append,
      List.foldl_cons, List.foldl_nil]
    by_cases hnew : ((GrainEngine.openWith [] i₁).putAll (pairs.map Prod.fst)).truth.running ∧
        (WalLog.idem (log Prod.fst c))[x.1.write.idemKey]? = none ∧
        (WalLog.clock (log Prod.fst c)).toNat + 1 < 2 ^ 64
    · -- both calls append a record at the next timestamp
      rw [if_pos hnew] at hstep₁ hstep₂
      refine ⟨c ++ [(x, WalLog.clock (log Prod.fst c) + 1)], ?_, ?_, ?_, ?_, ?_⟩
      · rw [log_concat]
        exact hstep₁.1
      · rw [log_concat]
        exact hstep₂.1
      · exact hstep₁.2.trans hstep₂.2.symm
      · intro y hy
        rcases List.mem_append.mp hy with hy | hy
        · exact List.mem_append_left _ (hc.mem y hy)
        · rw [List.mem_singleton.mp hy]
          exact List.mem_append_right _ List.mem_cons_self
      · refine List.pairwise_append.mpr ⟨hc.sorted, List.pairwise_singleton _ _, ?_⟩
        intro a ha b hb
        rw [List.mem_singleton.mp hb]
        have hmem : a.1.1.write.record a.2 ∈ log Prod.fst c := List.mem_map_of_mem ha
        have hle : a.2 ≤ WalLog.clock (log Prod.fst c) := WalLog.seq_le_clock hmem
        rw [BitVec.lt_def, FixedWidth.toNat_add_one hnew.2.2]
        exact Nat.lt_succ_of_le (BitVec.le_def.mp hle)
    · rw [if_neg hnew] at hstep₁ hstep₂
      refine ⟨c, hstep₁.1, hstep₂.1, hstep₁.2.trans hstep₂.2.symm, ?_, hc.sorted⟩
      intro y hy
      exact List.mem_append_left _ (hc.mem y hy)

/-- Histories that agree on header byte 0 leave one catalog. -/
lemma catalog_putAll {I : Type*} {pairs : List (VectorPut × VectorPut)}
    (h : ∀ x ∈ pairs, x.1.header.head? = x.2.header.head?) (e₁ e₂ : GrainEngine I)
    (he : e₁.catalog = e₂.catalog) :
    (e₁.putAll (pairs.map Prod.fst)).catalog = (e₂.putAll (pairs.map Prod.snd)).catalog := by
  induction pairs generalizing e₁ e₂ with
  | nil => exact he
  | cons x pairs ih =>
    refine ih (fun y hy => h y (List.mem_cons_of_mem _ hy)) _ _ ?_
    simp only [GrainEngine.putVector, h x List.mem_cons_self, he]

/-- The selectivity of a filter is the same on two histories whose header bytes agree, and so is
that of a filter that does not look at them. -/
lemma selectivity_built (embed : Bytes → Option V) {ps qs : List VectorPut} {filter : Filter}
    (hlength : ps.length = qs.length)
    (h : (∀ x ∈ ps.zip qs, x.1.header.head? = x.2.header.head?) ∨
      ∀ value, filter ≠ .headerByteEq 0 value) :
    (GrainEngine.built embed ps).selectivity filter =
      (GrainEngine.built embed qs).selectivity filter := by
  rcases h with hheads | hfilter
  · have hcat := catalog_putAll hheads (GrainEngine.openWith [] (∅ : VectorMap V))
      (GrainEngine.openWith [] ∅) rfl
    rw [List.map_fst_zip hlength.le, List.map_snd_zip hlength.ge] at hcat
    have hcatalog : (GrainEngine.built embed ps).catalog = (GrainEngine.built embed qs).catalog :=
      hcat
    unfold GrainEngine.selectivity
    rw [hcatalog]
  · cases filter with
    | any => rfl
    | headerByteEq offset value =>
      cases offset with
      | zero => exact absurd rfl (hfilter value)
      | succ offset => rfl

/-! ## What a side offers an agent -/

namespace GovernedEngine

/-- Nothing is shown exactly when the policy denies the read. -/
lemma shown_eq_none_iff {policy : Policy} {agent : AgentId} {g : Grain} {pred : PredId} :
    shown policy agent g pred = none ↔
      policy agent .read { sid := g.sid, pred, category := categoryOf g } = .deny := by
  unfold shown
  split <;> simp_all

lemma sid_of_shown {policy : Policy} {agent : AgentId} {g g' : Grain} {pred : PredId}
    (h : shown policy agent g pred = some g') : g'.sid = g.sid := by
  unfold shown at h
  split at h
  · simp at h
  · rw [← Option.some.inj h]
  · rw [← Option.some.inj h]

end GovernedEngine

section Offer

variable {V : Type*} (embed : Bytes → Option V) (policy : Policy) (agent : AgentId)
  (pred : PredId) (filter : Filter)

/-- What a side offers the agent for a grain id: the grain as it is shown, if it passes the
filter, with the vector it is ranked by. -/
def offer (side : Side) (c : Commits) (sid : Sid) : Option (Grain × V) :=
  (newest c sid pred).bind fun x =>
    if filter.eval ((side x.1).grain x.2) then
      (GovernedEngine.shown policy agent ((side x.1).grain x.2) pred).bind fun g =>
        ((last c sid).bind fun y => embed (side y.1).value).map fun v => (g, v)
    else none

variable {embed policy agent pred filter} {c : Commits}

/-- When the last commit of a grain id is under `pred`, it is the newest under `pred`. -/
lemma newest_of_last {sid : Sid} {y : (VectorPut × VectorPut) × U64} (hy : last c sid = some y)
    (hpred : y.1.1.pred = pred) : newest c sid pred = some y := by
  obtain ⟨l, hl⟩ := List.getLast?_eq_some_iff.mp hy
  have hfilter : (c.filter fun x => x.1.1.sid = sid ∧ x.1.1.pred = pred) =
      (c.filter fun x => x.1.1.sid = sid).filter fun x => x.1.1.pred = pred := by
    rw [List.filter_filter]
    refine List.filter_congr ?_
    intro x _
    simp [Bool.and_comm]
  rw [newest, hfilter, hl, List.filter_append]
  simp [hpred]

/-- Both sides offer the agent the same, provided that no grain it may read is ranked by the
vector of a put under another predicate in which the histories differ. -/
lemma offer_eq (halike : ∀ x ∈ c, Alike policy agent x.1.1 x.1.2)
    (hapart : ∀ y ∈ c, y.1.1 ≠ y.1.2 → y.1.1.pred ≠ pred → ∀ x,
      newest c y.1.1.sid pred = some x →
        GovernedEngine.shown policy agent (x.1.1.grain x.2) pred = none) (sid : Sid) :
    offer embed policy agent pred filter Prod.fst c sid =
      offer embed policy agent pred filter Prod.snd c sid := by
  unfold offer
  cases hx : newest c sid pred with
  | none => rfl
  | some x =>
    have hxmem := List.mem_filter.mp (List.mem_of_getLast? hx)
    obtain ⟨-, hxpred⟩ := of_decide_eq_true hxmem.2
    simp only [Option.bind_some]
    rcases halike x hxmem.1 with heq | ⟨-, hpred, -, hdeny₁, hdeny₂⟩
    · -- the newest version agrees
      rw [← heq]
      split
      · cases hshown : GovernedEngine.shown policy agent (x.1.1.grain x.2) pred with
        | none => rfl
        | some g =>
          simp only [Option.bind_some]
          cases hy : last c sid with
          | none => rfl
          | some y =>
            have hymem := List.mem_filter.mp (List.mem_of_getLast? hy)
            have hysid : y.1.1.sid = sid := of_decide_eq_true hymem.2
            suffices hsame : y.1.1 = y.1.2 by simp only [Option.bind_some, hsame]
            by_contra hne
            by_cases hypred : y.1.1.pred = pred
            · -- the vector is that of the newest version
              have hxy := hx.symm.trans (newest_of_last hy hypred)
              exact hne (Option.some.inj hxy ▸ heq)
            · have hnone := hapart y hymem.1 hne hypred x (hysid ▸ hx)
              simp [hnone] at hshown
      · rfl
    · -- the newest version is denied on both sides
      have hnone₁ : GovernedEngine.shown policy agent (x.1.1.grain x.2) pred = none := by
        rw [GovernedEngine.shown_eq_none_iff, ← hxpred]
        exact hdeny₁
      have hnone₂ : GovernedEngine.shown policy agent (x.1.2.grain x.2) pred = none := by
        rw [GovernedEngine.shown_eq_none_iff, ← hxpred, hpred]
        exact hdeny₂
      rw [hnone₁, hnone₂]
      simp

end Offer

/-! ## The ranking of the readable grains -/

/-- What the latest committed state has for `(sid, pred)`. -/
def TruthStore.find (t : TruthStore) (sid : Sid) (pred : PredId) : Option Grain :=
  match t.read sid pred with
  | .ok g => g
  | .error _ => none

section Ranking

variable {V Q D : Type*} [LinearOrder D]

/-- All matches of a query, whatever the agent may read. -/
def GrainEngine.matches (iter : VectorMap V → List (Sid × V)) (dist : Q → V → D)
    (e : GrainEngine (VectorMap V)) (pred : PredId) (query : Q) (filter : Filter) :
    List (Ranked D) :=
  matching iter dist e.index (fun sid => e.truth.find sid pred) query filter.eval

/-- Neither the candidate cutoff nor the top-k truncation drops a match. -/
def GrainEngine.Uncut (iter : VectorMap V → List (Sid × V)) (dist : Q → V → D)
    (e : GrainEngine (VectorMap V)) (pred : PredId) (query : Q) (filter : Filter) (k : ℕ)
    (targetRecall : F64) : Prop :=
  let plan := Planner.plan (e.selectivity filter) k targetRecall
  e.index.size ≤ max (saturatingMul k (max plan.overFetch 1)) k ∧
    (e.matches iter dist pred query filter).length ≤ k

namespace GovernedEngine

/-- All matches of a query that the agent may read, as it is shown them, nearest first. -/
def ranking (iter : VectorMap V → List (Sid × V)) (dist : Q → V → D)
    (e : GovernedEngine (VectorMap V)) (agent : AgentId) (pred : PredId) (query : Q)
    (filter : Filter) : List (Ranked D) :=
  readable e.policy agent pred (e.inner.matches iter dist pred query filter)

/-- The answer to a query whose readable results are `out`: refused when they cost too much. -/
def settle {I : Type*} (e : GovernedEngine I) (agent : AgentId) (out : List (Ranked D))
    (plan : Plan) : Except Error (List (Ranked D) × Plan) :=
  let need := cost out
  let remaining := e.remainingBudget agent
  if need ≤ remaining then .ok (out, plan)
  else .error (.denied s!"token budget exceeded: need {need}, remaining {remaining}")

omit [LinearOrder D] in
/-- Answers of one cost are refused alike. -/
lemma settle_eq_error_iff {I : Type*} {e₁ e₂ : GovernedEngine I} {agent : AgentId}
    (hbudget : e₁.remainingBudget agent = e₂.remainingBudget agent) {out₁ out₂ : List (Ranked D)}
    (hcost : cost out₁ = cost out₂) (plan₁ plan₂ : Plan) (err : Error) :
    e₁.settle agent out₁ plan₁ = .error err ↔ e₂.settle agent out₂ plan₂ = .error err := by
  simp only [settle, hcost, hbudget]
  split <;> simp

end GovernedEngine

variable {iter : VectorMap V → List (Sid × V)} {dist : Q → V → D}
  {e : GovernedEngine (VectorMap V)} {agent : AgentId} {pred : PredId} {query : Q}
  {filter : Filter}

open GovernedEngine

/-- A query of the engine that returns `ranked` is settled with what the agent may read of it. -/
lemma queryPlanned_of_ok {I : Type*} {vectors : VectorIndex I Q D} {e : GovernedEngine I} {k : ℕ}
    {targetRecall : F64} {ranked : List (Ranked D)} {plan : Plan}
    (h : e.inner.queryPlanned vectors pred query filter k targetRecall = .ok (ranked, plan))
    (agent : AgentId) :
    (e.queryPlanned vectors agent pred query filter k targetRecall).2 =
        e.settle agent (readable e.policy agent pred ranked) plan ∧
      ∀ other, (e.queryPlanned vectors agent pred query filter k
          targetRecall).1.remainingBudget other =
        (e.trySpend agent (cost (readable e.policy agent pred ranked))).1.remainingBudget other := by
  unfold GovernedEngine.queryPlanned settle
  simp only [h]
  rw [trySpend_snd]
  by_cases hle : cost (readable e.policy agent pred ranked) ≤ e.remainingBudget agent
  · rw [if_pos (decide_eq_true hle), if_pos hle]
    exact ⟨rfl, fun _ => rfl⟩
  · rw [if_neg (by simpa using hle), if_neg hle]
    simp only [remainingBudget_trySpend, hle, and_false, if_false]
    exact ⟨trivial, fun other => by simp [remainingBudget_trySpend, hle]⟩

variable (e dist agent query filter) in
/-- A query whose reads do not fail is answered with the readable part of the first matches, or
refused for their cost. -/
lemma queryPlanned_eq_settle (hiter : ∀ m, (iter m).Perm m.toList)
    (hread : ∀ sid, e.inner.truth.read sid pred = .ok (e.inner.truth.find sid pred)) (k : ℕ)
    (targetRecall : F64) :
    ∃ out, (e.queryPlanned (BruteForceIndex.search iter dist) agent pred query filter k
        targetRecall).2 =
          e.settle agent out (Planner.plan (e.inner.selectivity filter) k targetRecall) ∧
      out <+: e.ranking iter dist agent pred query filter ∧
      (e.inner.Uncut iter dist pred query filter k targetRecall →
        out = e.ranking iter dist agent pred query filter) := by
  obtain ⟨results, hjoin, hprefix, huncut⟩ := nearJoinSelect_brute iter dist e.inner.index
    filter.eval
    { pred, query, k, ef := (Planner.plan (e.inner.selectivity filter) k targetRecall).ef,
      overFetch := (Planner.plan (e.inner.selectivity filter) k targetRecall).overFetch } hread
  have hinner : e.inner.queryPlanned (BruteForceIndex.search iter dist) pred query filter k
      targetRecall = .ok (results, Planner.plan (e.inner.selectivity filter) k targetRecall) := by
    simp only [GrainEngine.queryPlanned, hjoin]
  refine ⟨readable e.policy agent pred results, (queryPlanned_of_ok hinner agent).1,
    hprefix.filterMap _, ?_⟩
  intro hcut
  have hlen : (iter e.inner.index).length = e.inner.index.size := by
    rw [(hiter _).length_eq, Std.ExtTreeMap.length_toList]
  rw [huncut (by rw [hlen]; exact hcut.1) hcut.2]
  rfl

/-- The ranking is in the order of the distances. -/
lemma pairwise_ranking :
    (e.ranking iter dist agent pred query filter).Pairwise (DistLE Ranked.dist) := by
  refine pairwise_matching.filterMap _ ?_
  intro a b hab r hr r' hr'
  obtain ⟨g, -, rfl⟩ := Option.map_eq_some_iff.mp hr
  obtain ⟨g', -, rfl⟩ := Option.map_eq_some_iff.mp hr'
  exact hab

/-- No grain is ranked twice. -/
lemma nodup_ranking (hiter : ∀ m, (iter m).Perm m.toList)
    (hfind : ∀ sid g, e.inner.truth.find sid pred = some g → g.sid = sid) :
    (e.ranking iter dist agent pred query filter).Nodup := by
  have hsid : (e.ranking iter dist agent pred query filter).Pairwise
      fun a b => a.grain.sid ≠ b.grain.sid := by
    refine (pairwise_sid_matching (hiter _) hfind).filterMap _ ?_
    intro a b hab r hr r' hr'
    obtain ⟨g, hg, rfl⟩ := Option.map_eq_some_iff.mp hr
    obtain ⟨g', hg', rfl⟩ := Option.map_eq_some_iff.mp hr'
    dsimp only
    rw [sid_of_shown hg, sid_of_shown hg']
    exact hab
  exact hsid.imp fun hne heq => hne (congrArg (fun r => r.grain.sid) heq)

/-- The ranking of the engine on one side is what that side offers. -/
lemma mem_ranking {embed : Bytes → Option V} {side : Side} {c : Commits}
    (hiter : ∀ m, (iter m).Perm m.toList) (hholds : e.inner.truth.Holds (log side c))
    (hindex : e.inner.index = applyAll embed e.inner.stream) (htracks : Tracks side c)
    (hsorted : c.Pairwise fun a b => a.2 < b.2) {r : Ranked D} :
    r ∈ e.ranking iter dist agent pred query filter ↔
      ∃ sid g v, offer embed e.policy agent pred filter side c sid = some (g, v) ∧
        r = ⟨g, dist query v⟩ := by
  have hstream : e.inner.stream = (log side c).map WalRecord.cdc := by
    rw [GrainEngine.stream, hholds.cdc]
    rfl
  have hentry : ∀ sid, e.inner.index[sid]? =
      (last c sid).bind fun x => embed (side x.1).value := by
    intro sid
    rw [hindex, hstream, getElem?_log embed htracks]
  have hfind : ∀ sid, e.inner.truth.find sid pred =
      (newest c sid pred).map fun x => (side x.1).grain x.2 := by
    intro sid
    rw [TruthStore.find, read_log hholds htracks hsorted]
  rw [GovernedEngine.ranking, readable, List.mem_filterMap]
  constructor
  · rintro ⟨m, hm, hr⟩
    obtain ⟨sid, v, hv, hfound, hpass, hdist⟩ := (mem_matching (hiter _)).mp hm
    obtain ⟨g, hg, rfl⟩ := Option.map_eq_some_iff.mp hr
    rw [hfind] at hfound
    obtain ⟨x, hx, hgrain⟩ := Option.map_eq_some_iff.mp hfound
    rw [hentry] at hv
    refine ⟨sid, g, v, ?_, by rw [hdist]⟩
    rw [offer, hx, Option.bind_some, hgrain, if_pos hpass, hg, Option.bind_some, hv,
      Option.map_some]
  · rintro ⟨sid, g, v, hoffer, rfl⟩
    rw [offer] at hoffer
    obtain ⟨x, hx, hoffer⟩ := Option.bind_eq_some_iff.mp hoffer
    split at hoffer
    · rename_i hpass
      obtain ⟨g', hg', hoffer⟩ := Option.bind_eq_some_iff.mp hoffer
      obtain ⟨v', hv', heq⟩ := Option.map_eq_some_iff.mp hoffer
      obtain ⟨rfl, rfl⟩ := Prod.mk.inj heq
      refine ⟨⟨(side x.1).grain x.2, dist query v'⟩, ?_, ?_⟩
      · refine (mem_matching (hiter _)).mpr ⟨sid, v', by rw [hentry, hv'], ?_, hpass, rfl⟩
        rw [hfind, hx, Option.map_some]
      · dsimp only
        rw [hg', Option.map_some]
    · simp at hoffer

/-- What a side's log holds under a grain id is a grain of that id. -/
lemma sid_of_find {side : Side} {c : Commits} (hholds : e.inner.truth.Holds (log side c))
    (htracks : Tracks side c) (hsorted : c.Pairwise fun a b => a.2 < b.2) {sid : Sid} {g : Grain}
    (hg : e.inner.truth.find sid pred = some g) : g.sid = sid := by
  rw [TruthStore.find, read_log hholds htracks hsorted] at hg
  obtain ⟨x, hx, rfl⟩ := Option.map_eq_some_iff.mp hg
  obtain ⟨hmem, hsid⟩ := List.mem_filter.mp (List.mem_of_getLast? hx)
  exact (htracks x hmem).1.trans (of_decide_eq_true hsid).1

/-- Two sides that offer the same rank the same grains. -/
lemma perm_ranking {embed : Bytes → Option V} {side₁ side₂ : Side} {c : Commits}
    {iter₁ iter₂ : VectorMap V → List (Sid × V)} {e₁ e₂ : GovernedEngine (VectorMap V)}
    (hiter₁ : ∀ m, (iter₁ m).Perm m.toList) (hiter₂ : ∀ m, (iter₂ m).Perm m.toList)
    (hholds₁ : e₁.inner.truth.Holds (log side₁ c)) (hholds₂ : e₂.inner.truth.Holds (log side₂ c))
    (hindex₁ : e₁.inner.index = applyAll embed e₁.inner.stream)
    (hindex₂ : e₂.inner.index = applyAll embed e₂.inner.stream)
    (htracks₁ : Tracks side₁ c) (htracks₂ : Tracks side₂ c)
    (hsorted : c.Pairwise fun a b => a.2 < b.2)
    (hoffer : ∀ sid, offer embed e₁.policy agent pred filter side₁ c sid =
      offer embed e₂.policy agent pred filter side₂ c sid) :
    (e₁.ranking iter₁ dist agent pred query filter).Perm
      (e₂.ranking iter₂ dist agent pred query filter) := by
  refine (List.perm_ext_iff_of_nodup
    (nodup_ranking hiter₁ fun _ _ => sid_of_find hholds₁ htracks₁ hsorted)
    (nodup_ranking hiter₂ fun _ _ => sid_of_find hholds₂ htracks₂ hsorted)).mpr fun r => ?_
  rw [mem_ranking hiter₁ hholds₁ hindex₁ htracks₁ hsorted,
    mem_ranking hiter₂ hholds₂ hindex₂ htracks₂ hsorted]
  simp only [hoffer]

/-! ## Two runs of a query -/

/-- Two answers cut from one ranking. -/
structure OneRanking (all₁ all₂ out₁ out₂ : List (Ranked D)) : Prop where
  /-- Both engines rank the same readable matches, by distance. -/
  perm : all₁.Perm all₂
  sorted₁ : all₁.Pairwise (DistLE Ranked.dist)
  sorted₂ : all₂.Pairwise (DistLE Ranked.dist)
  /-- Without ties the rankings are one list. -/
  eq : (all₁.map Ranked.dist).Nodup → all₁ = all₂
  /-- Each answer is a first part of its ranking. -/
  prefix₁ : out₁ <+: all₁
  prefix₂ : out₂ <+: all₂

lemma eq_of_perm_of_sorted {all₁ all₂ : List (Ranked D)} (hperm : all₁.Perm all₂)
    (h₁ : all₁.Pairwise (DistLE Ranked.dist)) (h₂ : all₂.Pairwise (DistLE Ranked.dist))
    (hties : (all₁.map Ranked.dist).Nodup) : all₁ = all₂ := by
  refine List.Perm.eq_of_pairwise (fun a b ha hb hab hba => ?_) h₁ h₂ hperm
  exact List.inj_on_of_nodup_map hties ha (hperm.mem_iff.mpr hb) (le_antisymm hab hba)

/-- What denied grains cannot do.  Take a policy, an agent, two histories that agree call by call
except in the header and vector of puts whose grains the agent may not read, the engines they
build with an exact index (two hash maps in any iteration order), and a query of the agent under
`pred`; where the histories differ under another predicate, let the agent read nothing of that
grain id under `pred`.  Then no read fails, both answers are first parts of one ranking, settled
against the same budget; the plans agree when the header bytes agree or the filter does not look
at them; and when no cutoff drops a match both answers are the whole ranking. -/
theorem query_of_alike {policy : Policy} {agent : AgentId} {ps qs : List VectorPut}
    (halike : List.Forall₂ (Alike policy agent) ps qs) (embed : Bytes → Option V)
    (dist : Q → V → D) {iter₁ iter₂ : VectorMap V → List (Sid × V)}
    (hiter₁ : ∀ m, (iter₁ m).Perm m.toList) (hiter₂ : ∀ m, (iter₂ m).Perm m.toList)
    {g₁ g₂ : GovernedEngine (VectorMap V)} (hg₁ : g₁.inner = GrainEngine.built embed ps)
    (hg₂ : g₂.inner = GrainEngine.built embed qs) (hpolicy₁ : g₁.policy = policy)
    (hpolicy₂ : g₂.policy = policy)
    (hbudget : g₁.remainingBudget agent = g₂.remainingBudget agent) (pred : PredId)
    (hapart : ∀ x ∈ ps.zip qs, x.1 ≠ x.2 → x.1.pred ≠ pred → ∀ g,
      g₁.inner.truth.find x.1.sid pred = some g → shown policy agent g pred = none)
    (query : Q) (filter : Filter) (k : ℕ) (targetRecall : F64) :
    let plan₁ := Planner.plan (g₁.inner.selectivity filter) k targetRecall
    let plan₂ := Planner.plan (g₂.inner.selectivity filter) k targetRecall
    let answer₁ := (g₁.queryPlanned (BruteForceIndex.search iter₁ dist) agent pred query filter k
      targetRecall).2
    let answer₂ := (g₂.queryPlanned (BruteForceIndex.search iter₂ dist) agent pred query filter k
      targetRecall).2
    let all₁ := g₁.ranking iter₁ dist agent pred query filter
    let all₂ := g₂.ranking iter₂ dist agent pred query filter
    let uncut := g₁.inner.Uncut iter₁ dist pred query filter k targetRecall ∧
      g₂.inner.Uncut iter₂ dist pred query filter k targetRecall
    let headers := (∀ x ∈ ps.zip qs, x.1.header.head? = x.2.header.head?) ∨
      ∀ value, filter ≠ .headerByteEq 0 value
    ∃ out₁ out₂ : List (Ranked D),
      answer₁ = g₁.settle agent out₁ plan₁ ∧ answer₂ = g₂.settle agent out₂ plan₂ ∧
      OneRanking all₁ all₂ out₁ out₂ ∧ (headers → plan₁ = plan₂) ∧
      (uncut → out₁ = all₁ ∧ out₂ = all₂ ∧ ∀ e, answer₁ = .error e ↔ answer₂ = .error e) ∧
      (uncut → headers → (all₁.map Ranked.dist).Nodup → answer₁ = answer₂) := by
  intro plan₁ plan₂ answer₁ answer₂ all₁ all₂ uncut headers
  obtain ⟨hlength, hzip⟩ := List.forall₂_iff_zip.mp halike
  have hpairs : ∀ x ∈ ps.zip qs, Alike policy agent x.1 x.2 := fun x hx => hzip hx
  have hfst : (ps.zip qs).map Prod.fst = ps := List.map_fst_zip hlength.le
  have hsnd : (ps.zip qs).map Prod.snd = qs := List.map_snd_zip hlength.ge
  -- the logs of the two engines
  obtain ⟨c, hc⟩ := exists_sideBySide hpairs (∅ : VectorMap V) ∅
  rw [hfst, hsnd] at hc
  have hcalike : ∀ x ∈ c, Alike policy agent x.1.1 x.1.2 := fun x hx => hpairs x.1 (hc.mem x hx)
  have hholds₁ : g₁.inner.truth.Holds (log Prod.fst c) := by rw [hg₁]; exact hc.first
  have hholds₂ : g₂.inner.truth.Holds (log Prod.snd c) := by rw [hg₂]; exact hc.second
  have hindex₁ : g₁.inner.index = applyAll embed g₁.inner.stream := by rw [hg₁]; rfl
  have hindex₂ : g₂.inner.index = applyAll embed g₂.inner.stream := by rw [hg₂]; rfl
  have hread₁ := read_log hholds₁ (tracks_fst c) hc.sorted
  have hread₂ := read_log hholds₂ (tracks_snd hcalike) hc.sorted
  -- both engines rank the same matches
  have hoffer : ∀ sid, offer embed policy agent pred filter Prod.fst c sid =
      offer embed policy agent pred filter Prod.snd c sid := offer_eq hcalike
    fun y hy hne hpred x hx => hapart y.1 (hc.mem y hy) hne hpred (x.1.1.grain x.2) (by
      rw [TruthStore.find, hread₁, hx]
      rfl)
  have hperm : all₁.Perm all₂ := by
    refine perm_ranking hiter₁ hiter₂ hholds₁ hholds₂ hindex₁ hindex₂ (tracks_fst c)
      (tracks_snd hcalike) hc.sorted fun sid => ?_
    rw [hpolicy₁, hpolicy₂, hoffer]
  have hsorted₁ : all₁.Pairwise (DistLE Ranked.dist) := pairwise_ranking
  have hsorted₂ : all₂.Pairwise (DistLE Ranked.dist) := pairwise_ranking
  have hplan : headers → plan₁ = plan₂ := by
    intro hheaders
    have hsel : g₁.inner.selectivity filter = g₂.inner.selectivity filter := by
      rw [hg₁, hg₂]
      exact selectivity_built embed hlength hheaders
    simp only [plan₁, plan₂, hsel]
  -- the answers
  obtain ⟨out₁, hanswer₁, hprefix₁, hwhole₁⟩ := queryPlanned_eq_settle dist g₁ agent query filter
    hiter₁ (fun sid => by rw [TruthStore.find, hread₁]) k targetRecall
  obtain ⟨out₂, hanswer₂, hprefix₂, hwhole₂⟩ := queryPlanned_eq_settle dist g₂ agent query filter
    hiter₂ (fun sid => by rw [TruthStore.find, hread₂]) k targetRecall
  have hties := eq_of_perm_of_sorted hperm hsorted₁ hsorted₂
  refine ⟨out₁, out₂, hanswer₁, hanswer₂,
    ⟨hperm, hsorted₁, hsorted₂, hties, hprefix₁, hprefix₂⟩, hplan, ?_, ?_⟩
  · rintro ⟨hcut₁, hcut₂⟩
    refine ⟨hwhole₁ hcut₁, hwhole₂ hcut₂, ?_⟩
    intro e
    have hcost : cost out₁ = cost out₂ := by
      rw [hwhole₁ hcut₁, hwhole₂ hcut₂]
      exact (hperm.map _).sum_eq
    simp only [answer₁, answer₂, hanswer₁, hanswer₂]
    exact settle_eq_error_iff hbudget hcost plan₁ plan₂ e
  · rintro ⟨hcut₁, hcut₂⟩ hheaders hnodup
    have hall : out₁ = out₂ := by
      rw [hwhole₁ hcut₁, hwhole₂ hcut₂]
      exact hties hnodup
    simp only [answer₁, answer₂, hanswer₁, hanswer₂, settle, hall, hbudget]
    rw [show Planner.plan (g₁.inner.selectivity filter) k targetRecall =
      Planner.plan (g₂.inner.selectivity filter) k targetRecall from hplan hheaders]

end Ranking

/-! ## Where denied grains show -/

namespace Example

/-- The engine with one-byte headers and one-dimensional vectors that a history builds, governed by
rules and a budget that is never reached. -/
def engine (rules : RuleSet) (puts : List VectorPut) : GovernedEngine (VectorMap (List F32)) :=
  GovernedEngine.new (GrainEngine.built (rawVectorEmbed 1 1) puts) rules.authorize 1000

/-- The squared distance of the vectors `[0.0]`, `[1.0]` and `[2.0]` from the query `[0.0]`. -/
def dist (query v : List F32) : ℕ :=
  if v = query then 0 else if v = [0x3f800000] then 1 else 4

/-- A query of agent 2 for `[0.0]` under predicate 0, to a recall of 0.5. -/
def answer (rules : RuleSet) (puts : List VectorPut) (filter : Filter) (k : ℕ) :
    Except Error (List (Ranked ℕ) × Plan) :=
  ((engine rules puts).queryPlanned (BruteForceIndex.search (fun m => m.toList) dist) 2 0 [0]
    filter k (.finite (1 / 2))).2

/-- The grain ids and distances of an answer, with the over-fetch of its plan. -/
def outline : Except Error (List (Ranked ℕ) × Plan) → Option (List (Sid × ℕ) × ℕ)
  | .ok (out, plan) => some (out.map fun r => (r.grain.sid, r.dist), plan.overFetch)
  | .error _ => none

end Example

open Example in
/-- Three ways a denied put shows in an answer.  Its header byte changes the plan of a query that
filters on it; its vector can take the only place in the results from a readable grain; and under
another predicate its vector is the one a readable grain of its id is ranked by. -/
theorem denied_puts_show :
    (∃ ps qs, List.Forall₂ (Alike RuleSet.new.authorize 2) ps qs ∧
      answer RuleSet.new ps (.headerByteEq 0 0) 1 ≠ answer RuleSet.new qs (.headerByteEq 0 0) 1) ∧
    (∃ ps qs, List.Forall₂ (Alike (RuleSet.new.allow 2 .read (.category 0)).authorize 2) ps qs ∧
      answer (RuleSet.new.allow 2 .read (.category 0)) ps .any 1 ≠
        answer (RuleSet.new.allow 2 .read (.category 0)) qs .any 1) ∧
    ∃ ps qs, List.Forall₂ (Alike (RuleSet.new.allow 2 .read (.pred 0)).authorize 2) ps qs ∧
      answer (RuleSet.new.allow 2 .read (.pred 0)) ps .any 1 ≠
        answer (RuleSet.new.allow 2 .read (.pred 0)) qs .any 1 := by
  have hne : ∀ {a b : Except Error (List (Ranked ℕ) × Plan)}, outline a ≠ outline b → a ≠ b :=
    fun h heq => h (congrArg outline heq)
  refine ⟨⟨[⟨1, 0, [0], [0], ⟨0, 0, 7⟩⟩], [⟨1, 0, [1], [0], ⟨0, 0, 7⟩⟩], by decide, hne ?_⟩,
    ⟨[⟨1, 0, [0], [0x3f800000], ⟨0, 0, 7⟩⟩, ⟨2, 0, [9], [0x40000000], ⟨0, 0, 8⟩⟩],
      [⟨1, 0, [0], [0x3f800000], ⟨0, 0, 7⟩⟩, ⟨2, 0, [9], [0], ⟨0, 0, 8⟩⟩], by decide, hne ?_⟩,
    ⟨[⟨1, 0, [0], [0x3f800000], ⟨0, 0, 7⟩⟩, ⟨1, 1, [0], [0x40000000], ⟨0, 0, 8⟩⟩],
      [⟨1, 0, [0], [0x3f800000], ⟨0, 0, 7⟩⟩, ⟨1, 1, [0], [0], ⟨0, 0, 8⟩⟩], by decide, hne ?_⟩⟩
  · -- over-fetch 2 against 4096
    decide +kernel
  · -- one result against none
    decide +kernel
  · -- distance 4 against 0
    decide +kernel

open Example in
/-- The second pair of histories with room for two results: both answers are the readable grain. -/
theorem query_of_alike_two :
    answer (RuleSet.new.allow 2 .read (.category 0))
        [⟨1, 0, [0], [0x3f800000], ⟨0, 0, 7⟩⟩, ⟨2, 0, [9], [0x40000000], ⟨0, 0, 8⟩⟩] .any 2 =
      answer (RuleSet.new.allow 2 .read (.category 0))
        [⟨1, 0, [0], [0x3f800000], ⟨0, 0, 7⟩⟩, ⟨2, 0, [9], [0], ⟨0, 0, 8⟩⟩] .any 2 ∧
    outline (answer (RuleSet.new.allow 2 .read (.category 0))
        [⟨1, 0, [0], [0x3f800000], ⟨0, 0, 7⟩⟩, ⟨2, 0, [9], [0x40000000], ⟨0, 0, 8⟩⟩] .any 2) =
      some ([(1, 1)], 2) := by
  refine ⟨?_, by decide +kernel⟩
  have halike : List.Forall₂ (Alike (RuleSet.new.allow 2 .read (.category 0)).authorize 2)
      [⟨1, 0, [0], [0x3f800000], ⟨0, 0, 7⟩⟩, ⟨2, 0, [9], [0x40000000], ⟨0, 0, 8⟩⟩]
      [⟨1, 0, [0], [0x3f800000], ⟨0, 0, 7⟩⟩, ⟨2, 0, [9], [0], ⟨0, 0, 8⟩⟩] := by decide
  have hiter : ∀ m : VectorMap (List F32), m.toList.Perm m.toList := fun _ => List.Perm.refl _
  have hinner : ∀ puts, (engine (RuleSet.new.allow 2 .read (.category 0)) puts).inner =
      GrainEngine.built (rawVectorEmbed 1 1) puts := fun _ => rfl
  obtain ⟨out₁, out₂, -, -, -, -, -, hsame⟩ := query_of_alike halike (rawVectorEmbed 1 1) dist
    hiter hiter (hinner _) (hinner _) rfl rfl rfl 0 (by decide) [0] .any 2 (.finite (1 / 2))
  refine hsame ⟨⟨?_, ?_⟩, ?_, ?_⟩ (Or.inr fun _ => nofun) ?_
  all_goals decide +kernel

end GrainStore
