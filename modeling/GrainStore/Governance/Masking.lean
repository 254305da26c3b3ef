import Mathlib
import GrainStore.Engine.Writes
import GrainStore.Foundation.Ranking
import GrainStore.Governance.Isolation

/-!
# What masked values do to a query

Two engines behind histories that agree except in header bytes of grains that an agent reads
masked, and one governed query of that agent on both.  The filter is evaluated on the joined grain
inside the engine and the masking is applied to what is returned, so a filter on such a byte tells
the agent its value.  `query_masked_iff` says exactly when the answers agree.
-/

namespace GrainStore

open Ranking

/-! ## Histories that differ in masked bytes -/

section Alike

variable {V : Type*} (policy : Policy) (agent : AgentId) (embed : Bytes → Option V)

/-- Two puts that agree except in header bytes from the second on, of a grain that the agent reads
masked; the vector the index gets is the same. -/
structure MaskedPuts (p q : VectorPut) : Prop where
  sid : p.sid = q.sid
  pred : p.pred = q.pred
  vector : p.vector = q.vector
  wmeta : p.wmeta = q.wmeta
  length : p.header.length = q.header.length
  category : p.header.head? = q.header.head?
  embed : embed p.value = embed q.value
  mask : policy agent .read p.target = .mask

/-- Two calls that agree, or put values that differ in masked bytes. -/
def MaskedAlike (w₁ w₂ : EngineWrite × Option (IoError × ℕ)) : Prop :=
  w₁ = w₂ ∨ ∃ p q failure, w₁ = (.putVector p, failure) ∧ w₂ = (.putVector q, failure) ∧
    MaskedPuts policy agent embed p q

/-- Two stored values that agree, or that the agent reads masked under one category. -/
def ValuesAlike (sid : Sid) (pred : PredId) (v₁ v₂ : Bytes) : Prop :=
  v₁ = v₂ ∨ embed v₁ = embed v₂ ∧ v₁.head? = v₂.head? ∧
    policy agent .read { sid, pred, category := v₁.head? } = .mask

/-- Two records that agree but for a value the agent reads masked. -/
def RecordsAlike (r₁ r₂ : WalRecord) : Prop :=
  r₂ = { r₁ with val := r₂.val } ∧ ValuesAlike policy agent embed r₁.sid r₁.pred r₁.val r₂.val

/-- Two requests that agree but for a value the agent reads masked. -/
def RequestsAlike (q₁ q₂ : WriteReq) : Prop :=
  q₂ = { q₁ with val := q₂.val } ∧ ValuesAlike policy agent embed q₁.sid q₁.pred q₁.val q₂.val

/-- Two stores whose logs agree but for values the agent reads masked. -/
structure StoresAlike (s₁ s₂ : LogStore) : Prop where
  base : s₁.base = s₂.base
  running : s₁.running = s₂.running
  added : List.Forall₂ (RecordsAlike policy agent embed) s₁.added s₂.added

end Alike

section Logs

variable {V : Type*} {policy : Policy} {agent : AgentId} {embed : Bytes → Option V}

lemma RecordsAlike.refl (r : WalRecord) : RecordsAlike policy agent embed r r := ⟨rfl, Or.inl rfl⟩

lemma MaskedAlike.req {w₁ w₂ : EngineWrite × Option (IoError × ℕ)}
    (h : MaskedAlike policy agent embed w₁ w₂) :
    RequestsAlike policy agent embed w₁.1.req w₂.1.req ∧ w₁.2 = w₂.2 := by
  rcases h with rfl | ⟨p, q, failure, rfl, rfl, h⟩
  · exact ⟨⟨rfl, Or.inl rfl⟩, rfl⟩
  · refine ⟨⟨?_, ?_⟩, rfl⟩
    · simp [EngineWrite.req, VectorPut.write, WriteReq.put, h.sid, h.pred, h.wmeta]
    · have hhead : p.value.head? = q.value.head? := by
        rw [VectorPut.value, VectorPut.value, encodeValueWithHeader, encodeValueWithHeader,
          List.head?_append, List.head?_append, h.category, h.vector]
      exact Or.inr ⟨h.embed, hhead, h.mask⟩

/-- Requests that agree but for masked values are recorded so. -/
lemma RequestsAlike.record {q₁ q₂ : WriteReq} (h : RequestsAlike policy agent embed q₁ q₂)
    (seq : U64) : RecordsAlike policy agent embed (q₁.record seq) (q₂.record seq) := by
  refine ⟨?_, h.2⟩
  rw [h.1]
  rfl

variable {l₁ l₂ : List WalRecord}

/-- Logs that agree but for masked values have one dedup map. -/
lemma idem_eq_of_alike (h : List.Forall₂ (RecordsAlike policy agent embed) l₁ l₂) :
    WalLog.idem l₁ = WalLog.idem l₂ := by
  refine List.rel_foldl (P := Eq) ?_ rfl h
  rintro m _ rfl r₁ r₂ hr
  rw [hr.1]

/-- Logs that agree but for masked values have one clock. -/
lemma clock_eq_of_alike (h : List.Forall₂ (RecordsAlike policy agent embed) l₁ l₂) :
    WalLog.clock l₁ = WalLog.clock l₂ := by
  refine List.rel_foldl (P := Eq) ?_ rfl h
  rintro m _ rfl r₁ r₂ hr
  rw [hr.1]

/-- The newest versions of two such logs agree but for a masked value. -/
lemma newest_of_alike (h : List.Forall₂ (RecordsAlike policy agent embed) l₁ l₂) (sid : Sid)
    (pred : PredId) : Option.Rel (RecordsAlike policy agent embed)
      (WalLog.newest l₁ sid pred) (WalLog.newest l₂ sid pred) := by
  rw [WalLog.newest, WalLog.newest, ← clock_eq_of_alike h]
  refine List.rel_foldl (P := Option.Rel (RecordsAlike policy agent embed)) ?_ Option.Rel.none h
  rintro b₁ b₂ hb r₁ r₂ ⟨heq, hval⟩
  generalize r₂.val = v at heq hval
  subst heq
  have hr : RecordsAlike policy agent embed r₁ { r₁ with val := v } := ⟨rfl, hval⟩
  beta_reduce
  by_cases hver : WalLog.IsVersion sid pred (WalLog.clock l₁) r₁
  · have hver' : WalLog.IsVersion sid pred (WalLog.clock l₁) { r₁ with val := v } := hver
    rw [if_pos hver, if_pos hver']
    cases hb with
    | none => exact Option.Rel.some hr
    | @some c₁ c₂ hc =>
      have hseq : c₂.seq = c₁.seq := by rw [hc.1]
      rw [WalLog.newer, WalLog.newer, hseq]
      split
      · exact Option.Rel.some hr
      · exact Option.Rel.some hc
  · have hver' : ¬WalLog.IsVersion sid pred (WalLog.clock l₁) { r₁ with val := v } := hver
    rw [if_neg hver, if_neg hver']
    exact hb

/-- A grain whose read is masked is shown redacted. -/
lemma shown_of_mask {g : Grain} {pred : PredId}
    (h : policy agent .read { sid := g.sid, pred, category := categoryOf g } = .mask) :
    GovernedEngine.shown policy agent g pred = some { g with val := redacted } := by
  rw [GovernedEngine.shown, h]

namespace StoresAlike

variable {s₁ s₂ : LogStore}

lemma log (h : StoresAlike policy agent embed s₁ s₂) :
    List.Forall₂ (RecordsAlike policy agent embed) s₁.log s₂.log := by
  rw [LogStore.log, LogStore.log, h.base]
  exact List.rel_append (List.forall₂_same.mpr fun r _ => RecordsAlike.refl r) h.added

/-- Requests that agree but for masked values are committed alike. -/
lemma commit (h : StoresAlike policy agent embed s₁ s₂) {q₁ q₂ : WriteReq}
    (hq : RequestsAlike policy agent embed q₁ q₂) (failure : Option (IoError × ℕ)) :
    StoresAlike policy agent embed (s₁.commit q₁ failure).1 (s₂.commit q₂ failure).1 := by
  have hkey : q₂.idemKey = q₁.idemKey := by rw [hq.1]
  have hidem := idem_eq_of_alike h.log
  have hclock := clock_eq_of_alike h.log
  have htakes : s₂.Takes q₂ ↔ s₁.Takes q₁ := by
    rw [LogStore.Takes, LogStore.Takes, h.running, hidem, hclock, hkey]
  have hnext : RecordsAlike policy agent embed (s₁.next q₁) (s₂.next q₂) := by
    rw [LogStore.next, LogStore.next, hclock]
    exact hq.record _
  unfold LogStore.commit
  by_cases ht : s₁.Takes q₁
  · rw [if_pos ht, if_pos (htakes.mpr ht)]
    cases failure with
    | none =>
      exact ⟨h.base, h.running, List.rel_append h.added (List.Forall₂.cons hnext .nil)⟩
    | some f => exact ⟨h.base, rfl, h.added⟩
  · rw [if_neg ht, if_neg (mt htakes.mp ht), ← h.running, ← hidem, hkey]
    split
    · split
      · exact h
      · exact ⟨h.base, rfl, h.added⟩
    · exact h

/-- Two grains that agree, or that the agent is shown the same of, under one category. -/
def GrainsAlike (policy : Policy) (agent : AgentId) (pred : PredId) (g₁ g₂ : Grain) : Prop :=
  g₁ = g₂ ∨ categoryOf g₁ = categoryOf g₂ ∧ ∃ g, GovernedEngine.shown policy agent g₁ pred = some g ∧
    GovernedEngine.shown policy agent g₂ pred = some g

/-- What such stores return under one key agrees but for a masked value. -/
lemma read (h : StoresAlike policy agent embed s₁ s₂) (sid : Sid) (pred : PredId) :
    Option.Rel (GrainsAlike policy agent pred) (s₁.read sid pred) (s₂.read sid pred) := by
  have hnew := newest_of_alike h.log sid pred
  have hkey : ∀ {r}, WalLog.newest s₁.log sid pred = some r →
      r ∈ s₁.log ∧ r.sid = sid ∧ r.pred = pred := WalLog.mem_of_newest
  rw [LogStore.read, LogStore.read]
  generalize WalLog.newest s₁.log sid pred = n₁ at hnew hkey ⊢
  generalize WalLog.newest s₂.log sid pred = n₂ at hnew ⊢
  cases hnew with
  | none => exact Option.Rel.none
  | @some r₁ r₂ hr =>
    obtain ⟨heq, hval⟩ := hr
    obtain ⟨-, hsid, hpred⟩ := hkey rfl
    generalize r₂.val = v at heq hval
    subst heq
    rw [Option.bind_some, Option.bind_some, WalLog.grainOf, WalLog.grainOf]
    by_cases hop : r₁.op = OP_DELETE
    · rw [if_pos hop, if_pos hop]
      exact Option.Rel.none
    · rw [if_neg hop, if_neg hop]
      refine Option.Rel.some ?_
      rcases hval with rfl | ⟨-, hhead, hmask⟩
      · exact Or.inl rfl
      · -- both values are shown redacted
        rw [hpred] at hmask
        have hmask' := hmask
        rw [hhead] at hmask'
        exact Or.inr ⟨hhead, _, shown_of_mask hmask, shown_of_mask hmask'⟩

end StoresAlike

/-- The store of two histories that agree but for masked values. -/
lemma store_of_alike {hist₁ hist₂ : WriteHistory}
    (h : List.Forall₂ (MaskedAlike policy agent embed) hist₁ hist₂) (disk : Bytes) :
    StoresAlike policy agent embed (WriteHistory.store disk hist₁)
      (WriteHistory.store disk hist₂) := by
  rw [WriteHistory.store, WriteHistory.store, LogStore.commitAll, LogStore.commitAll,
    List.foldl_map, List.foldl_map]
  refine List.rel_foldl (P := StoresAlike policy agent embed) ?_ ⟨rfl, rfl, .nil⟩ h
  intro s₁ s₂ hs w₁ w₂ hw
  obtain ⟨hreq, hfail⟩ := hw.req
  beta_reduce
  rw [← hfail]
  exact hs.commit hreq w₁.2

/-- The index of two such histories is one. -/
lemma index_of_alike {I : Type*} {hist₁ hist₂ : WriteHistory}
    (h : List.Forall₂ (MaskedAlike policy agent embed) hist₁ hist₂) (writer : IndexWriter I V)
    (disk : Bytes) (index : I) :
    (GrainEngine.behind writer embed disk index hist₁).index =
      (GrainEngine.behind writer embed disk index hist₂).index := by
  rw [GrainEngine.index_behind, GrainEngine.index_behind]
  refine List.rel_foldl (P := Eq) ?_ rfl (store_of_alike h disk).added
  rintro i _ rfl r₁ r₂ ⟨heq, hval⟩
  have hembed : embed r₂.val = embed r₁.val := by
    rcases hval with hsame | ⟨hsame, -⟩
    · rw [hsame]
    · exact hsame.symm
  have hval' : embed r₂.cdc.val = embed r₁.cdc.val := hembed
  have hsid : r₂.cdc.sid = r₁.cdc.sid := by rw [heq]; rfl
  have hdel : r₂.cdc.isDelete = r₁.cdc.isDelete := by rw [heq]; rfl
  beta_reduce
  rw [IndexWriter.apply, IndexWriter.apply, hdel, hsid, hval']

/-- The catalog of two such histories is one. -/
lemma catalog_of_alike {I : Type*} {hist₁ hist₂ : WriteHistory}
    (h : List.Forall₂ (MaskedAlike policy agent embed) hist₁ hist₂) {e₁ e₂ : GrainEngine I}
    (he : e₁.catalog = e₂.catalog) : (e₁.writeAll hist₁).catalog = (e₂.writeAll hist₂).catalog := by
  refine List.rel_foldl (P := fun e₁ e₂ : GrainEngine I => e₁.catalog = e₂.catalog) ?_ he h
  intro e₁ e₂ he w₁ w₂ hw
  have hbyte : w₁.1.headerByte = w₂.1.headerByte := by
    rcases hw with rfl | ⟨p, q, failure, rfl, rfl, hput⟩
    · rfl
    · exact hput.category
  rw [GrainEngine.catalog_write, GrainEngine.catalog_write, he, hbyte]

end Logs

/-! ## Queries -/

/-- A governed query of one agent. -/
structure GovernedQuery (Q : Type*) where
  pred : PredId
  query : Q
  filter : Filter
  k : ℕ
  targetRecall : F64

section Queries

variable {I V Q D : Type*} [LinearOrder D] (vectors : VectorIndex I Q D)

namespace GrainEngine

/-- The plan of a query. -/
def planOf (e : GrainEngine I) (q : GovernedQuery Q) : Plan :=
  Planner.plan (e.selectivity q.filter) q.k q.targetRecall

/-- The candidates a query joins, nearest first. -/
def candidates (e : GrainEngine I) (q : GovernedQuery Q) : List (Candidate D) :=
  (vectors.search e.index q.query
    (max (saturatingMul q.k (max (e.planOf q).overFetch 1)) q.k) (e.planOf q).ef).insertionSort
      fun a b => a.dist ≤ b.dist

/-- The verdict of a query's filter on the live grain of an id. -/
def passes (e : GrainEngine I) (q : GovernedQuery Q) (sid : Sid) : Bool :=
  (e.truth.find sid q.pred).any q.filter.eval

/-- The match a candidate is joined to. -/
def joined (e : GrainEngine I) (q : GovernedQuery Q) (c : Candidate D) : Option (Ranked D) :=
  ((e.truth.find c.sid q.pred).filter q.filter.eval).map fun g => ⟨g, c.dist⟩

/-- What an agent may read of the results of a query. -/
def outcome (e : GrainEngine I) (policy : Policy) (agent : AgentId) (q : GovernedQuery Q) :
    List (Ranked D) :=
  GovernedEngine.readable policy agent q.pred
    (((e.candidates vectors q).filterMap (e.joined q)).take q.k)

end GrainEngine

/-- The answers to a sequence of queries, with the budgets each one leaves. -/
def GovernedEngine.ask (g : GovernedEngine I) (agent : AgentId) :
    List (GovernedQuery Q) → List (Except Error (List (Ranked D) × Plan) × (AgentId → ℕ))
  | [] => []
  | q :: qs =>
    let r := g.queryPlanned vectors agent q.pred q.query q.filter q.k q.targetRecall
    (r.2, r.1.remainingBudget) :: ask r.1 agent qs

variable {vectors} {e : GrainEngine I} {g : GovernedEngine I} {agent : AgentId}
  {q : GovernedQuery Q}

variable (vectors q) in
/-- A planned query over any index, when reads do not fail. -/
lemma queryPlanned_eq_take (hread : ∀ sid pred, e.truth.read sid pred = .ok (e.truth.find sid pred)) :
    e.queryPlanned vectors q.pred q.query q.filter q.k q.targetRecall =
      .ok (((e.candidates vectors q).filterMap (e.joined q)).take q.k, e.planOf q) := by
  have hstable : ∀ l : List (Candidate D), (l.filterMap (e.joined q)).insertionSort
      (DistLE Ranked.dist) = (l.insertionSort (DistLE Candidate.dist)).filterMap (e.joined q) := by
    refine insertionSort_filterMap ?_
    intro a b x y hx hy
    obtain ⟨g, -, rfl⟩ := Option.map_eq_some_iff.mp hx
    obtain ⟨g', -, rfl⟩ := Option.map_eq_some_iff.mp hy
    exact Iff.rfl
  rw [GrainEngine.queryPlanned, nearJoinSelect,
    joinCandidates_ok (fun sid => hread sid q.pred) q.filter.eval]
  exact congrArg (fun l => Except.ok (l.take q.k, e.planOf q)) (hstable _)

variable (vectors q agent) in
/-- A governed query is settled with its outcome, and leaves the engine and its policy. -/
lemma queryPlanned_eq_outcome
    (hread : ∀ sid pred, g.inner.truth.read sid pred = .ok (g.inner.truth.find sid pred)) :
    let r := g.queryPlanned vectors agent q.pred q.query q.filter q.k q.targetRecall
    let out := g.inner.outcome vectors g.policy agent q
    r.2 = g.settle agent out (g.inner.planOf q) ∧ r.1.inner = g.inner ∧ r.1.policy = g.policy ∧
      ∀ other, r.1.remainingBudget other =
        (g.trySpend agent (GovernedEngine.cost out)).1.remainingBudget other := by
  intro r out
  obtain ⟨hanswer, hbudget⟩ := queryPlanned_of_ok (queryPlanned_eq_take vectors q hread) agent
  refine ⟨hanswer, ?_, ?_, hbudget⟩
  all_goals
    simp only [r, GovernedEngine.queryPlanned, queryPlanned_eq_take vectors q hread,
      GovernedEngine.trySpend]
    split <;> split <;> rfl

variable (vectors agent) in
/-- An agent that can pay for everything is answered everything. -/
lemma ask_of_affordable (qs : List (GovernedQuery Q))
    (hread : ∀ sid pred, g.inner.truth.read sid pred = .ok (g.inner.truth.find sid pred))
    (hpay : (qs.map fun q => GovernedEngine.cost (g.inner.outcome vectors g.policy agent q)).sum ≤
      g.remainingBudget agent) :
    (g.ask vectors agent qs).map Prod.fst =
      qs.map fun q => .ok (g.inner.outcome vectors g.policy agent q, g.inner.planOf q) := by
  induction qs generalizing g with
  | nil => rfl
  | cons q qs ih =>
    obtain ⟨hanswer, hinner, hpolicy, hbudget⟩ := queryPlanned_eq_outcome vectors agent q hread
    rw [List.map_cons, List.sum_cons] at hpay
    have hle := (Nat.le_add_right _ _).trans hpay
    rw [GovernedEngine.ask, List.map_cons, List.map_cons, hanswer, GovernedEngine.settle,
      if_pos hle]
    have hrest := ih (g := (g.queryPlanned vectors agent q.pred q.query q.filter q.k
      q.targetRecall).1) (by rwa [hinner]) ?_
    · rw [hrest, hinner, hpolicy]
    · rw [hbudget, GovernedEngine.remainingBudget_trySpend, if_pos ⟨rfl, hle⟩, hinner, hpolicy]
      omega

/-- Two engines with one outcome for each query, and one budget, give the same answers. -/
lemma ask_congr {g₁ g₂ : GovernedEngine I} (qs : List (GovernedQuery Q))
    (hread₁ : ∀ sid pred, g₁.inner.truth.read sid pred = .ok (g₁.inner.truth.find sid pred))
    (hread₂ : ∀ sid pred, g₂.inner.truth.read sid pred = .ok (g₂.inner.truth.find sid pred))
    (hout : ∀ q ∈ qs, g₁.inner.outcome vectors g₁.policy agent q =
        g₂.inner.outcome vectors g₂.policy agent q ∧ g₁.inner.planOf q = g₂.inner.planOf q)
    (hbudget : ∀ other, g₁.remainingBudget other = g₂.remainingBudget other) :
    g₁.ask vectors agent qs = g₂.ask vectors agent qs := by
  induction qs generalizing g₁ g₂ with
  | nil => rfl
  | cons q qs ih =>
    obtain ⟨hanswer₁, hinner₁, hpolicy₁, hleft₁⟩ := queryPlanned_eq_outcome vectors agent q hread₁
    obtain ⟨hanswer₂, hinner₂, hpolicy₂, hleft₂⟩ := queryPlanned_eq_outcome vectors agent q hread₂
    obtain ⟨hsame, hplan⟩ := hout q List.mem_cons_self
    have hleft : ∀ other,
        (g₁.queryPlanned vectors agent q.pred q.query q.filter q.k
          q.targetRecall).1.remainingBudget other =
        (g₂.queryPlanned vectors agent q.pred q.query q.filter q.k
          q.targetRecall).1.remainingBudget other := by
      intro other
      rw [hleft₁, hleft₂, hsame, GovernedEngine.remainingBudget_trySpend,
        GovernedEngine.remainingBudget_trySpend, hbudget, hbudget]
    rw [GovernedEngine.ask, GovernedEngine.ask, hanswer₁, hanswer₂, hsame, hplan,
      GovernedEngine.settle, GovernedEngine.settle, hbudget, funext hleft]
    refine congrArg _ (ih (by rwa [hinner₁]) (by rwa [hinner₂]) ?_ hleft)
    rw [hinner₁, hinner₂, hpolicy₁, hpolicy₂]
    exact fun q' hq' => hout q' (List.mem_cons_of_mem _ hq')

/-! ## When the answers agree -/

/-- The first candidate on which the filter gives different verdicts in two engines, if there is
one, comes after `k` candidates that pass. -/
def Undisclosed (vectors : VectorIndex I Q D) (e₁ e₂ : GrainEngine I) (q : GovernedQuery Q) : Prop :=
  ∀ before c after, e₁.candidates vectors q = before ++ c :: after →
    (∀ b ∈ before, e₁.passes q b.sid = e₂.passes q b.sid) → e₁.passes q c.sid ≠ e₂.passes q c.sid →
      q.k ≤ (before.filter fun b => e₁.passes q b.sid).length

/-- What an agent is shown of a match. -/
def view (policy : Policy) (agent : AgentId) (q : GovernedQuery Q) (r : Ranked D) :
    Option (Ranked D) :=
  (GovernedEngine.shown policy agent r.grain q.pred).map fun g => { r with grain := g }

omit [LinearOrder D] in
lemma length_filterMap_joined (e : GrainEngine I) (l : List (Candidate D)) :
    (l.filterMap (e.joined q)).length = (l.filter fun c => e.passes q c.sid).length := by
  rw [List.length_filterMap_eq_countP, List.countP_eq_length_filter]
  congr 2
  funext c
  rw [GrainEngine.joined, GrainEngine.passes, Option.isSome_map]
  cases e.truth.find c.sid q.pred with
  | none => rfl
  | some g => cases hg : q.filter.eval g <;> simp [Option.filter, hg]

/-- A grain that passes before the cut in one engine, is shown, and does not pass in the other,
makes the outcomes differ. -/
lemma outcome_ne {policy : Policy} {a b : GrainEngine I} {before after : List (Candidate D)}
    {c : Candidate D} {g g' : Grain} (hl : a.candidates vectors q = before ++ c :: after)
    (hsame : b.candidates vectors q = a.candidates vectors q)
    (hsid : ∀ {sid pred g}, b.truth.find sid pred = some g → g.sid = sid)
    (hk : (before.filter fun x => a.passes q x.sid).length < q.k)
    (hg : a.truth.find c.sid q.pred = some g) (hgsid : g.sid = c.sid)
    (hpass : a.passes q c.sid = true) (hno : b.passes q c.sid = false)
    (hshown : GovernedEngine.shown policy agent g q.pred = some g') :
    a.outcome vectors policy agent q ≠ b.outcome vectors policy agent q := by
  rw [GrainEngine.outcome, GrainEngine.outcome, hsame]
  rw [← length_filterMap_joined] at hk
  have heval : q.filter.eval g = true := by
    rwa [GrainEngine.passes, hg, Option.any_some] at hpass
  have hjoined : a.joined q c = some ⟨g, c.dist⟩ := by
    rw [GrainEngine.joined, hg, Option.filter_some, if_pos heval, Option.map_some]
  have hview : view policy agent q ⟨g, c.dist⟩ = some ⟨g', c.dist⟩ := by
    rw [view, hshown, Option.map_some]
  refine take_filterMap_ne (P := fun r => r.grain.sid = c.sid) hl hk hjoined hview
    ((GovernedEngine.sid_of_shown hshown).trans hgsid) ?_
  intro c' _ r hr r' hr' heq
  obtain ⟨g₂, hg₂, rfl⟩ := Option.map_eq_some_iff.mp hr
  obtain ⟨hfind, heval₂⟩ := Option.filter_eq_some_iff.mp hg₂
  obtain ⟨g₂', hshown₂, rfl⟩ := Option.map_eq_some_iff.mp hr'
  -- the match would be of the same id
  have hid : c'.sid = c.sid :=
    (hsid hfind).symm.trans ((GovernedEngine.sid_of_shown hshown₂).symm.trans heq)
  rw [GrainEngine.passes, ← hid, hfind, Option.any_some, heval₂] at hno
  exact absurd hno (by decide)

/-- What a history and its masked variant have in common. -/
structure EnginesAlike (policy : Policy) (agent : AgentId) (e₁ e₂ : GrainEngine I) : Prop where
  index : e₁.index = e₂.index
  catalog : e₁.catalog = e₂.catalog
  read₁ : ∀ sid pred, e₁.truth.read sid pred = .ok (e₁.truth.find sid pred)
  read₂ : ∀ sid pred, e₂.truth.read sid pred = .ok (e₂.truth.find sid pred)
  sid₁ : ∀ {sid pred g}, e₁.truth.find sid pred = some g → g.sid = sid
  sid₂ : ∀ {sid pred g}, e₂.truth.find sid pred = some g → g.sid = sid
  grains : ∀ sid pred, Option.Rel (StoresAlike.GrainsAlike policy agent pred)
    (e₁.truth.find sid pred) (e₂.truth.find sid pred)

namespace EnginesAlike

variable {policy : Policy} {e₁ e₂ : GrainEngine I}

lemma planOf (h : EnginesAlike policy agent e₁ e₂) (q : GovernedQuery Q) :
    e₁.planOf q = e₂.planOf q := by
  unfold GrainEngine.planOf GrainEngine.selectivity
  rw [h.catalog]

variable (vectors) in
lemma candidates (h : EnginesAlike policy agent e₁ e₂) (q : GovernedQuery Q) :
    e₁.candidates vectors q = e₂.candidates vectors q := by
  rw [GrainEngine.candidates, GrainEngine.candidates, h.planOf, h.index]

omit [LinearOrder D] in
/-- The live grain under one key passes the filter in both engines or in none, and is shown the
same, unless the filter gives different verdicts. -/
lemma joined (h : EnginesAlike policy agent e₁ e₂) (q : GovernedQuery Q) {c : Candidate D}
    (hc : e₁.passes q c.sid = e₂.passes q c.sid) :
    Option.Rel (fun a b => view policy agent q a = view policy agent q b)
      (e₁.joined q c) (e₂.joined q c) := by
  have hgrains := h.grains c.sid q.pred
  rw [GrainEngine.passes, GrainEngine.passes] at hc
  rw [GrainEngine.joined, GrainEngine.joined]
  generalize e₁.truth.find c.sid q.pred = f₁ at hgrains hc ⊢
  generalize e₂.truth.find c.sid q.pred = f₂ at hgrains hc ⊢
  cases hgrains with
  | none => exact Option.Rel.none
  | @some g₁ g₂ hg =>
    have hview : view policy agent q ⟨g₁, c.dist⟩ = view policy agent q ⟨g₂, c.dist⟩ := by
      rcases hg with rfl | ⟨-, g, hshown₁, hshown₂⟩
      · rfl
      · rw [view, view, hshown₁, hshown₂]
    rw [Option.any_some, Option.any_some] at hc
    rw [Option.filter_some, Option.filter_some, ← hc]
    split
    · exact Option.Rel.some hview
    · exact Option.Rel.none

/-- The outcomes agree exactly when no verdict is disclosed. -/
lemma outcome_eq_iff (h : EnginesAlike policy agent e₁ e₂) (q : GovernedQuery Q) :
    e₁.outcome vectors policy agent q = e₂.outcome vectors policy agent q ↔
      Undisclosed vectors e₁ e₂ q := by
  constructor
  · intro heq before c after hl hagree hne
    by_contra hlt
    rw [not_le] at hlt
    have hcount : (before.filter fun b => e₂.passes q b.sid) =
        before.filter fun b => e₁.passes q b.sid :=
      List.filter_congr fun b hb => (hagree b hb).symm
    -- the two grains differ, so the agent is shown both of them
    have hgrains := h.grains c.sid q.pred
    cases hf₁ : e₁.truth.find c.sid q.pred with
    | none =>
      rw [hf₁] at hgrains
      cases hf₂ : e₂.truth.find c.sid q.pred with
      | none => exact hne (by rw [GrainEngine.passes, GrainEngine.passes, hf₁, hf₂])
      | some g₂ => rw [hf₂] at hgrains; cases hgrains
    | some g₁ =>
      rw [hf₁] at hgrains
      cases hf₂ : e₂.truth.find c.sid q.pred with
      | none => rw [hf₂] at hgrains; cases hgrains
      | some g₂ =>
        rw [hf₂] at hgrains
        cases hgrains with
        | some hg =>
          rcases hg with rfl | ⟨-, g, hshown₁, hshown₂⟩
          · exact hne (by rw [GrainEngine.passes, GrainEngine.passes, hf₁, hf₂])
          · have hl₂ : e₂.candidates vectors q = before ++ c :: after := h.candidates vectors q ▸ hl
            cases hp₁ : e₁.passes q c.sid with
            | true =>
              have hp₂ : e₂.passes q c.sid = false := by simpa [hp₁] using hne.symm
              exact outcome_ne hl (h.candidates vectors q).symm h.sid₂ hlt hf₁ (h.sid₁ hf₁) hp₁ hp₂
                hshown₁ heq
            | false =>
              have hp₂ : e₂.passes q c.sid = true := by simpa [hp₁] using hne.symm
              exact outcome_ne hl₂ (h.candidates vectors q) h.sid₁ (hcount ▸ hlt) hf₂ (h.sid₂ hf₂) hp₂
                hp₁ hshown₂ heq.symm
  · intro hun
    rw [GrainEngine.outcome, GrainEngine.outcome, ← h.candidates vectors]
    refine take_filterMap_congr
      (fun c _ (hc : e₁.passes q c.sid = e₂.passes q c.sid) => h.joined q hc)
      fun before c after hl hagree hne => ?_
    rw [length_filterMap_joined]
    exact hun before c after hl hagree hne

/-- A filter that looks at no byte, or at the category byte, tells nothing. -/
theorem undisclosed_of_category (h : EnginesAlike policy agent e₁ e₂) {q : GovernedQuery Q}
    (hfilter : q.filter = .any ∨ ∃ value, q.filter = .headerByteEq 0 value) :
    Undisclosed vectors e₁ e₂ q := by
  intro before c after _ _ hne
  refine absurd ?_ hne
  have hgrains := h.grains c.sid q.pred
  rw [GrainEngine.passes, GrainEngine.passes]
  generalize e₁.truth.find c.sid q.pred = f₁ at hgrains ⊢
  generalize e₂.truth.find c.sid q.pred = f₂ at hgrains ⊢
  cases hgrains with
  | none => rfl
  | @some g₁ g₂ hg =>
    have hcategory : categoryOf g₁ = categoryOf g₂ := by
      rcases hg with rfl | ⟨hcategory, -⟩
      · rfl
      · exact hcategory
    rw [Option.any_some, Option.any_some]
    rcases hfilter with hany | ⟨value, hbyte⟩
    · rw [hany]
      rfl
    · have heval : ∀ g, (Filter.headerByteEq 0 value).eval g = decide (categoryOf g = some value) := by
        intro g
        rw [Filter.eval, categoryOf]
        cases g.val with
        | bytes b =>
          cases b with
          | nil => rfl
          | cons x b => rfl
        | tombstone => rfl
      rw [hbyte, heval, heval, hcategory]

end EnginesAlike

/-- Engines behind histories that agree but for masked values. -/
lemma enginesAlike {policy : Policy} {embed : Bytes → Option V} {hist₁ hist₂ : WriteHistory}
    (h : List.Forall₂ (MaskedAlike policy agent embed) hist₁ hist₂) (writer : IndexWriter I V)
    (disk : Bytes) (index : I) :
    EnginesAlike policy agent (GrainEngine.behind writer embed disk index hist₁)
      (GrainEngine.behind writer embed disk index hist₂) := by
  have hread₁ := (GrainEngine.shows_behind writer embed disk index hist₁).read
  have hread₂ := (GrainEngine.shows_behind writer embed disk index hist₂).read
  have hfind₁ : ∀ sid pred, (GrainEngine.behind writer embed disk index hist₁).truth.find sid pred =
      (WriteHistory.store disk hist₁).read sid pred := by
    intro sid pred
    rw [TruthStore.find, hread₁]
  have hfind₂ : ∀ sid pred, (GrainEngine.behind writer embed disk index hist₂).truth.find sid pred =
      (WriteHistory.store disk hist₂).read sid pred := by
    intro sid pred
    rw [TruthStore.find, hread₂]
  refine ⟨index_of_alike h writer disk index, catalog_of_alike h rfl, fun sid pred => ?_,
    fun sid pred => ?_, fun hg => ?_, fun hg => ?_, fun sid pred => ?_⟩
  · rw [hread₁, hfind₁]
  · rw [hread₂, hfind₂]
  · rw [hfind₁] at hg
    exact (LogStore.key_of_read hg).1
  · rw [hfind₂] at hg
    exact (LogStore.key_of_read hg).1
  · rw [hfind₁, hfind₂]
    exact (store_of_alike h disk).read sid pred

/-- When masked values stay hidden from queries.  Take a policy, an agent, a log file, an index of
any kind, and two histories of write calls on it that agree except in header bytes from the second
on of grains the agent reads masked.  A sequence of queries of the agent gets the same answers from
both engines, with the same budgets after each, whatever the budgets were before: that is so
exactly when, in each query, the first candidate on which the filter gives different verdicts in
the two engines, if there is one, comes after `k` candidates that pass. -/
theorem query_masked_iff {policy : Policy} {embed : Bytes → Option V} {hist₁ hist₂ : WriteHistory}
    (h : List.Forall₂ (MaskedAlike policy agent embed) hist₁ hist₂)
    (vectors : VectorIndex I Q D) (writer : IndexWriter I V) (disk : Bytes) (index : I)
    (qs : List (GovernedQuery Q)) :
    (∀ g₁ g₂ : GovernedEngine I, g₁.inner = GrainEngine.behind writer embed disk index hist₁ →
        g₂.inner = GrainEngine.behind writer embed disk index hist₂ → g₁.policy = policy →
        g₂.policy = policy → (∀ other, g₁.remainingBudget other = g₂.remainingBudget other) →
        g₁.ask vectors agent qs = g₂.ask vectors agent qs) ↔
      ∀ q ∈ qs, Undisclosed vectors (GrainEngine.behind writer embed disk index hist₁)
        (GrainEngine.behind writer embed disk index hist₂) q := by
  have halike := enginesAlike h writer disk index
  constructor
  · intro hsame q hq
    rw [← halike.outcome_eq_iff]
    -- give the agent a budget that pays for everything
    set e₁ := GrainEngine.behind writer embed disk index hist₁ with he₁
    set e₂ := GrainEngine.behind writer embed disk index hist₂ with he₂
    let total (e : GrainEngine I) : ℕ :=
      (qs.map fun q => GovernedEngine.cost (e.outcome vectors policy agent q)).sum
    have hbudget : ∀ e : GrainEngine I, (GovernedEngine.new e policy
        (total e₁ + total e₂)).remainingBudget agent = total e₁ + total e₂ := by
      intro e
      simp [GovernedEngine.new, GovernedEngine.remainingBudget]
    have hask := hsame (GovernedEngine.new e₁ policy (total e₁ + total e₂))
      (GovernedEngine.new e₂ policy (total e₁ + total e₂)) rfl rfl rfl rfl fun _ => rfl
    have hask₁ := ask_of_affordable vectors agent
      (g := GovernedEngine.new e₁ policy (total e₁ + total e₂)) qs halike.read₁
      (by rw [hbudget]; exact Nat.le_add_right _ _)
    have hask₂ := ask_of_affordable vectors agent
      (g := GovernedEngine.new e₂ policy (total e₁ + total e₂)) qs halike.read₂
      (by rw [hbudget]; exact Nat.le_add_left _ _)
    rw [hask, hask₂] at hask₁
    have hq' := List.map_inj_left.mp hask₁ q hq
    exact (Prod.mk.inj (Except.ok.inj hq')).1.symm
  · intro hun g₁ g₂ hg₁ hg₂ hpolicy₁ hpolicy₂ hbudget
    refine ask_congr qs (by rw [hg₁]; exact halike.read₁) (by rw [hg₂]; exact halike.read₂)
      (fun q hq => ?_) hbudget
    rw [hg₁, hg₂, hpolicy₁, hpolicy₂]
    exact ⟨halike.outcome_eq_iff q |>.mpr (hun q hq), halike.planOf q⟩

end Queries

/-- The default embedder reads nothing of a header of the configured length. -/
lemma rawVectorEmbed_congr {dim header : ℕ} {h₁ h₂ : Bytes} (hlen₁ : h₁.length = header)
    (hlen₂ : h₂.length = header) (vector : List F32) :
    rawVectorEmbed dim header (encodeValueWithHeader h₁ vector) =
      rawVectorEmbed dim header (encodeValueWithHeader h₂ vector) := by
  have hdrop : ∀ {h : Bytes}, h.length = header → ∀ i,
      (encodeValueWithHeader h vector).drop (header + i) =
        (vector.flatMap FixedWidth.toLeBytes).drop i := by
    rintro h rfl i
    rw [encodeValueWithHeader, ← List.drop_drop, List.drop_left]
  have hlength : (encodeValueWithHeader h₁ vector).length =
      (encodeValueWithHeader h₂ vector).length := by
    rw [encodeValueWithHeader, encodeValueWithHeader, List.length_append, List.length_append,
      hlen₁, hlen₂]
  rw [rawVectorEmbed, rawVectorEmbed, hlength]
  simp only [hdrop hlen₁, hdrop hlen₂]

/-! ## Where a masked byte shows -/

namespace MaskExample

/-- A grain with the header `[0, b]` at `[0.0]`. -/
def puts (b : FixedWidth.Byte) : WriteHistory :=
  [(.putVector { sid := 1, pred := 0, header := [0, b], vector := [0], wmeta := ⟨0, 0, 7⟩ }, none)]

/-- All reads of agent 2 are masked. -/
def rules : RuleSet := RuleSet.new.mask 2 .any

/-- The engine behind that grain. -/
def engine (b : FixedWidth.Byte) : GovernedEngine (VectorMap (List F32)) :=
  GovernedEngine.new (GrainEngine.behind BruteForceIndex.writer (rawVectorEmbed 1 2) [] ∅ (puts b))
    rules.authorize 1000

/-- The exact index; all vectors are at distance 0. -/
def vectors : VectorIndex (VectorMap (List F32)) (List F32) ℕ :=
  BruteForceIndex.search (fun m => m.toList) fun _ _ => 0

/-- The histories agree but for the second header byte. -/
lemma alike (a b : FixedWidth.Byte) :
    List.Forall₂ (MaskedAlike rules.authorize 2 (rawVectorEmbed 1 2)) (puts a) (puts b) := by
  refine List.Forall₂.cons (Or.inr ⟨_, _, _, rfl, rfl, ?_⟩) List.Forall₂.nil
  exact ⟨rfl, rfl, rfl, rfl, rfl, rfl, rawVectorEmbed_congr rfl rfl _, rfl⟩

/-- The number of results an agent gets. -/
def count (r : Except Error (List (Ranked ℕ) × Plan)) : ℕ :=
  match r with
  | .ok (out, _) => out.length
  | .error _ => 0

end MaskExample

open MaskExample in
/-- Agent 2 is only shown redacted values.  Asked for the grains whose second header byte is 5, the
engine returns one result when it is 5 and none when it is 6. -/
theorem masked_byte_shows :
    List.Forall₂ (MaskedAlike rules.authorize 2 (rawVectorEmbed 1 2)) (puts 5) (puts 6) ∧
      ((engine 5).queryPlanned vectors 2 0 [0] (.headerByteEq 1 5) 1 (.finite (1 / 2))).2 ≠
        ((engine 6).queryPlanned vectors 2 0 [0] (.headerByteEq 1 5) 1 (.finite (1 / 2))).2 := by
  refine ⟨alike 5 6, ?_⟩
  intro heq
  have hfive : count ((engine 5).queryPlanned vectors 2 0 [0] (.headerByteEq 1 5) 1
      (.finite (1 / 2))).2 = 1 := by decide +kernel
  have hsix : count ((engine 6).queryPlanned vectors 2 0 [0] (.headerByteEq 1 5) 1
      (.finite (1 / 2))).2 = 0 := by decide +kernel
  rw [heq, hsix] at hfive
  exact absurd hfive (by decide)

open MaskExample in
/-- Asked for the grains with category byte 0, both engines answer alike. -/
theorem query_masked_iff_category :
    (engine 5).ask vectors 2 [⟨0, [0], .headerByteEq 0 0, 1, .finite (1 / 2)⟩] =
      (engine 6).ask vectors 2 [⟨0, [0], .headerByteEq 0 0, 1, .finite (1 / 2)⟩] := by
  refine (query_masked_iff (alike 5 6) vectors BruteForceIndex.writer [] ∅ _).mpr (fun q hq => ?_)
    (engine 5) (engine 6) rfl rfl rfl rfl fun _ => rfl
  rw [List.mem_singleton.mp hq]
  exact (enginesAlike (alike 5 6) _ _ _).undisclosed_of_category (Or.inr ⟨0, rfl⟩)

end GrainStore
