import Mathlib
import GrainStore.Engine.Writes
import GrainStore.Governance.Isolation

/-!
# Write protection

Whether a put is allowed is decided on the category byte of the header that the caller supplies,
whether a read is, on that of the stored value.  An agent that may not write the category a grain
has can overwrite it under another one.  `write_protected_iff` says when the grain is protected all
the same.
-/

namespace GrainStore

open GovernedEngine

/-- The clock has as many timestamps left as are asked for. -/
def TruthStore.HasTime (t : TruthStore) (n : ℕ) : Prop := t.committer.hlc.last.toNat + n < 2 ^ 64

/-- The store can still commit something: it runs and some key is not used up; a build with overflow
checks needs a timestamp too. -/
def TruthStore.Open (overflowChecks : Bool) (t : TruthStore) : Prop :=
  t.running = true ∧ (overflowChecks = true → t.HasTime 1) ∧
    ∃ key : U128, t.committer.idem[key]? = none

/-- Puts of one agent, one after the other, each with the failure its commit meets. -/
def GovernedEngine.putAll {I : Type*} (e : GovernedEngine I) (agent : AgentId)
    (puts : List (VectorPut × Option (IoError × ℕ))) : GovernedEngine I :=
  puts.foldl (fun e p =>
    (e.putVector agent p.1.sid p.1.pred p.1.header p.1.vector p.1.wmeta p.2).1) e

/-- The policy lets an agent write a value with this header under a key. -/
def MayWrite (policy : Policy) (agent : AgentId) (sid : Sid) (pred : PredId) (header : Bytes) :
    Prop :=
  policy agent .write { sid, pred, category := header.head? } ≠ .deny

section Protection

variable {I : Type*} {e : GovernedEngine I} {agent other : AgentId} {sid : Sid} {pred : PredId}

/-- What an agent gets of a grain. -/
lemma get_of_read {found : Option Grain} (h : e.inner.truth.read sid pred = .ok found)
    (hsid : ∀ g, found = some g → g.sid = sid) (agent : AgentId) :
    (e.get agent sid pred).2 = .ok (found.bind fun g => shown e.policy agent g pred) := by
  rw [GovernedEngine.get, h]
  cases found with
  | none => rfl
  | some g =>
    obtain rfl := hsid g rfl
    rw [Option.bind_some, shown]
    dsimp only
    cases e.policy agent .read { sid := g.sid, pred, category := categoryOf g } with
    | allow => rfl
    | mask => rfl
    | deny => rfl

/-- What an agent is shown of a version carries its timestamp. -/
lemma tTx_of_shown {policy : Policy} {g g' : Grain} (h : shown policy agent g pred = some g') :
    g'.tTx = g.tTx := by
  unfold shown at h
  split at h
  · simp at h
  · rw [← Option.some.inj h]
  · rw [← Option.some.inj h]

/-- A put commits its request or, where the policy denies it, nothing. -/
lemma truth_putVector (e : GovernedEngine I) (agent : AgentId) (p : VectorPut)
    (failure : Option (IoError × ℕ)) :
    let r := (e.putVector agent p.sid p.pred p.header p.vector p.wmeta failure).1
    r.policy = e.policy ∧
      (¬MayWrite e.policy agent p.sid p.pred p.header ∧ r.inner.truth = e.inner.truth ∨
        MayWrite e.policy agent p.sid p.pred p.header ∧
          r.inner.truth = (e.inner.truth.commit p.write failure).1) := by
  unfold GovernedEngine.putVector MayWrite
  dsimp only
  split
  · rename_i hdeny
    exact ⟨rfl, Or.inl ⟨fun h => h hdeny, rfl⟩⟩
  · rename_i hallow
    exact ⟨rfl, Or.inr ⟨hallow, rfl⟩⟩

variable {disk : Bytes} {s : LogStore}

/-- A store can commit something exactly when its log takes some request, if the clock has a
timestamp left. -/
lemma open_iff {t : TruthStore} {overflowChecks : Bool} (h : t.Shows disk s)
    (htime : overflowChecks = false → t.HasTime 1) :
    t.Open overflowChecks ↔ ∃ p : VectorPut, s.Takes p.write := by
  constructor
  · rintro ⟨hrun, hchecked, key, hkey⟩
    have hroom : t.HasTime 1 := by
      cases overflowChecks with
      | true => exact hchecked rfl
      | false => exact htime rfl
    rw [h.running] at hrun
    rw [TruthStore.HasTime, h.clock hrun] at hroom
    rw [h.idem hrun] at hkey
    exact ⟨⟨0, 0, [], [], ⟨0, 0, key⟩⟩, hrun, hkey, hroom⟩
  · rintro ⟨p, hrun, hkey, hroom⟩
    refine ⟨h.running.trans hrun, ?_, p.write.idemKey, ?_⟩
    · intro _
      rwa [TruthStore.HasTime, h.clock hrun]
    · rwa [h.idem hrun]

/-- No version that is read is newer than the clock. -/
lemma tTx_le_of_read {g : Grain} (h : s.read sid pred = some g) : g.tTx ≤ WalLog.clock s.log := by
  obtain ⟨r, hr, hg⟩ := Option.bind_eq_some_iff.mp h
  have hseq : g.tTx = r.seq := by
    unfold WalLog.grainOf at hg
    split at hg
    · simp at hg
    · rw [← Option.some.inj hg]
  rw [hseq]
  exact WalLog.seq_le_clock (WalLog.mem_of_newest hr).1

/-- What puts of one agent can make of a key: nothing, or a version with a header it may write. -/
structure Touched (e : GovernedEngine I) (s : LogStore) (agent : AgentId) (sid : Sid)
    (pred : PredId) (s' : LogStore) : Prop where
  base : s'.base = s.base
  running : s'.running = true → s.running = true
  added : s'.added = s.added ∨ ∃ p : VectorPut, s.Takes p.write
  read : s'.read sid pred = s.read sid pred ∨ ∃ header vector g,
    MayWrite e.policy agent sid pred header ∧ s'.read sid pred = some g ∧
      categoryOf g = (encodeValueWithHeader header vector).head?

/-- One put more. -/
lemma Touched.commit {s' : LogStore} (h : Touched e s agent sid pred s') (p : VectorPut)
    (hp : MayWrite e.policy agent p.sid p.pred p.header) (failure : Option (IoError × ℕ)) :
    Touched e s agent sid pred (s'.commit p.write failure).1 := by
  obtain ⟨hbase, hadded⟩ := s'.commit_log p.write failure
  refine ⟨hbase.trans h.base, fun hrun => h.running (LogStore.running_of_commit hrun), ?_, ?_⟩
  · rw [hadded]
    split
    · rename_i hnew
      rcases h.added with hsame | htakes
      · -- the log took the request already before
        have hlog : s'.log = s.log := by rw [LogStore.log, LogStore.log, h.base, hsame]
        obtain ⟨hrun, hkey, hroom⟩ := hnew.1
        rw [hlog] at hkey hroom
        exact Or.inr ⟨p, h.running hrun, hkey, hroom⟩
      · exact Or.inr htakes
    · exact h.added
  · rw [LogStore.read_commit]
    split
    · rename_i hnew
      obtain ⟨-, hsid, hpred⟩ := hnew
      refine Or.inr ⟨p.header, p.vector, _, ?_, rfl, rfl⟩
      have hsid' : p.sid = sid := hsid
      have hpred' : p.pred = pred := hpred
      rwa [hsid', hpred'] at hp
    · exact h.read

/-- Puts of one agent, from any state. -/
lemma exists_touched (agent : AgentId) (h : e.inner.truth.Shows disk s)
    (puts : List (VectorPut × Option (IoError × ℕ))) (sid : Sid) (pred : PredId) :
    ∃ s', (e.putAll agent puts).inner.truth.Shows disk s' ∧
      (e.putAll agent puts).policy = e.policy ∧ Touched e s agent sid pred s' := by
  induction puts using List.reverseRecOn with
  | nil => exact ⟨s, h, rfl, rfl, id, Or.inl rfl, Or.inl rfl⟩
  | append_singleton puts p ih =>
    obtain ⟨s', hshows, hpolicy, htouched⟩ := ih
    have hall : e.putAll agent (puts ++ [p]) = ((e.putAll agent puts).putVector agent p.1.sid
        p.1.pred p.1.header p.1.vector p.1.wmeta p.2).1 := by
      simp [GovernedEngine.putAll]
    obtain ⟨hpol, hcase⟩ := truth_putVector (e.putAll agent puts) agent p.1 p.2
    rw [hall]
    rcases hcase with ⟨-, htruth⟩ | ⟨hmay, htruth⟩
    · exact ⟨s', htruth ▸ hshows, hpol.trans hpolicy, htouched⟩
    · rw [hpolicy] at hmay
      exact ⟨_, htruth ▸ (hshows.commit p.1.write p.2).1, hpol.trans hpolicy,
        htouched.commit p.1 hmay p.2⟩

/-- What another agent gets after one put that the policy lets through and the log takes. -/
lemma get_of_put (hshows : e.inner.truth.Shows disk s) {p : VectorPut} (htakes : s.Takes p.write)
    (hmay : MayWrite e.policy agent p.sid p.pred p.header) (other : AgentId) :
    ((e.putAll agent [(p, none)]).get other p.sid p.pred).2 =
      .ok (shown e.policy other (p.grain (s.next p.write).seq) p.pred) := by
  obtain ⟨hpolicy, hcase⟩ := truth_putVector e agent p none
  have htruth := (hcase.resolve_left fun hno => hno.1 hmay).2
  have hread : (s.commit p.write none).1.read p.sid p.pred =
      some (p.grain (s.next p.write).seq) := by
    have hnew : (s.Takes p.write ∧ (none : Option (IoError × ℕ)) = none) ∧
        p.write.sid = p.sid ∧ p.write.pred = p.pred := ⟨⟨htakes, rfl⟩, rfl, rfl⟩
    rw [LogStore.read_commit, if_pos hnew]
    rfl
  have hget := get_of_read (e := (e.putVector agent p.sid p.pred p.header p.vector p.wmeta none).1)
    (by rw [htruth]; exact (hshows.commit p.write none).1.read p.sid p.pred)
    (fun g hg => (LogStore.key_of_read hg).1) other
  have hput : e.putAll agent [(p, none)] =
      (e.putVector agent p.sid p.pred p.header p.vector p.wmeta none).1 := rfl
  rw [hput, hget, hread, hpolicy]
  rfl

/-- When a grain is protected from an agent.  Take a build, a governed engine with any policy over a
store in any state that a history reaches, and a live grain, in particular one that the agent may not
write; without overflow checks the clock has a timestamp left.  No sequence of puts of that agent,
with any headers and vectors (without overflow checks no more of them than there are timestamps),
changes what any other agent reads under the key of the grain: that is so exactly when the store can
commit nothing any more, or no other agent may read the grain nor any value that the agent may write
there, each with the header it is allowed for. -/
theorem write_protected_iff {hist : WriteHistory} {index : I} {grain : Grain}
    (hreach : e.inner.truth = ((GrainEngine.openWith disk index).writeAll hist).truth)
    (hread : e.inner.truth.read sid pred = .ok (some grain)) (overflowChecks : Bool)
    (htime : overflowChecks = false → e.inner.truth.HasTime 1) :
    (∀ puts other, other ≠ agent →
        (overflowChecks = false → e.inner.truth.HasTime puts.length) →
        ((e.putAll agent puts).get other sid pred).2 = (e.get other sid pred).2) ↔
      ¬e.inner.truth.Open overflowChecks ∨ ∀ header vector, MayWrite e.policy agent sid pred header →
        ∀ other, other ≠ agent →
          e.policy other .read { sid, pred, category := categoryOf grain } = .deny ∧
          e.policy other .read
            { sid, pred, category := (encodeValueWithHeader header vector).head? } = .deny := by
  have hshows : e.inner.truth.Shows disk (WriteHistory.store disk hist) :=
    hreach ▸ GrainEngine.shows_writeAll disk index hist
  set s := WriteHistory.store disk hist with hs
  have hgrain : s.read sid pred = some grain := by
    rw [hshows.read, Except.ok.injEq] at hread
    exact hread
  have hsid : ∀ (s' : LogStore) g, s'.read sid pred = some g → g.sid = sid :=
    fun s' g hg => (LogStore.key_of_read hg).1
  have hget := fun other => get_of_read (hshows.read sid pred) (hsid s) other
  -- an agent sees nothing of a version exactly when it is denied
  have hdenied : ∀ other, shown e.policy other grain pred = none ↔
      e.policy other .read { sid, pred, category := categoryOf grain } = .deny := by
    intro other
    rw [shown_eq_none_iff, hsid s grain hgrain]
  constructor
  · intro h
    by_contra hnot
    obtain ⟨hopen, hnot⟩ := not_or.mp hnot
    rw [not_not] at hopen
    simp only [not_forall] at hnot
    obtain ⟨header, vector, hmay, other, hother, hnone⟩ := hnot
    -- one put with that header and an unused key
    obtain ⟨p, htakes⟩ := (open_iff hshows htime).mp hopen
    set q : VectorPut := { sid, pred, header, vector, wmeta := p.wmeta } with hq
    have hafter := get_of_put (p := q) hshows htakes hmay other
    have hsame := h [(q, none)] other hother htime
    rw [hafter, hget, Except.ok.injEq, hgrain, Option.bind_some] at hsame
    cases hshown : shown e.policy other (q.grain (s.next q.write).seq) pred with
    | none =>
      rw [hshown, eq_comm] at hsame
      exact hnone ⟨(hdenied other).mp hsame, shown_eq_none_iff.mp hshown⟩
    | some g =>
      -- the new version has a later timestamp
      rw [hshown, eq_comm] at hsame
      have hts : grain.tTx = (s.next q.write).seq :=
        (tTx_of_shown hsame).symm.trans (tTx_of_shown hshown)
      have hle := BitVec.le_def.mp (tTx_le_of_read hgrain)
      rw [hts] at hle
      have hseq : (s.next q.write).seq.toNat = (WalLog.clock s.log).toNat + 1 :=
        FixedWidth.toNat_add_one htakes.2.2
      omega
  · intro hcond puts other hother _
    obtain ⟨s', hshows', hpolicy, htouched⟩ := exists_touched agent hshows puts sid pred
    rw [hget, get_of_read (hshows'.read sid pred) (hsid s'), hpolicy, Except.ok.injEq]
    rcases hcond with hclosed | hdeny
    · have hadded := htouched.added.resolve_right fun htakes =>
        hclosed ((open_iff hshows htime).mpr htakes)
      rw [LogStore.read, LogStore.read, LogStore.log, LogStore.log, htouched.base, hadded]
    · rcases htouched.read with hsame | ⟨header, vector, g, hmay, hg, hcategory⟩
      · rw [hsame]
      · obtain ⟨hold, hnew⟩ := hdeny header vector hmay other hother
        have hnone : shown e.policy other g pred = none := by
          rw [shown_eq_none_iff, hsid s' g hg, hcategory]
          exact hnew
        rw [hg, hgrain, Option.bind_some, Option.bind_some, hnone, (hdenied other).mpr hold]

end Protection

/-! ## A protected category overwritten -/

namespace ProtectExample

/-- A put under key `(1, 0)` with a header and no vector. -/
def put (header : Bytes) (idemKey : U128) : VectorPut :=
  { sid := 1, pred := 0, header, vector := [], wmeta := ⟨0, 0, idemKey⟩ }

/-- Agent 1 may write category 2 but not category 1; agent 2 may read everything. -/
def rules : RuleSet :=
  ((RuleSet.new.deny 1 .write (.category 1)).allow 1 .write (.category 2)).allow 2 .read .any

/-- Agent 1 may write nothing. -/
def locked : RuleSet := RuleSet.new.allow 2 .read .any

/-- The engine behind one grain of category 1. -/
def engine (s : RuleSet) : GovernedEngine Unit :=
  GovernedEngine.new ((GrainEngine.openWith [] ()).writeAll [(.putVector (put [1] 7), none)])
    s.authorize 1000

/-- The value an agent gets. -/
def value (r : Except Error (Option Grain)) : Option Val :=
  match r with
  | .ok (some g) => some g.val
  | _ => none

/-- The grain stored. -/
def stored : Grain := (put [1] 7).grain 1

end ProtectExample

open ProtectExample in
/-- Agent 1 is denied writing the category stored, puts a value with header `[2]` under the key, and
agent 2 gets that. -/
theorem protected_grain_overwritten :
    (engine rules).inner.truth.read 1 0 = .ok (some stored) ∧
      rules.authorize 1 .write { sid := 1, pred := 0, category := categoryOf stored } = .deny ∧
      value ((engine rules).get 2 1 0).2 = some (.bytes [1]) ∧
      value (((engine rules).putAll 1 [(put [2] 8, none)]).get 2 1 0).2 = some (.bytes [2]) := by
  decide +kernel

open ProtectExample in
/-- Without any write right, agent 1 changes nothing. -/
theorem write_protected_iff_locked :
    (((engine locked).putAll 1 [(put [2] 8, none)]).get 2 1 0).2 =
      ((engine locked).get 2 1 0).2 := by
  have hread : (engine locked).inner.truth.read 1 0 = .ok (some stored) := by decide +kernel
  have hreach : (engine locked).inner.truth = ((GrainEngine.openWith [] ()).writeAll
      [(.putVector (put [1] 7), none)]).truth := rfl
  have htime : ∀ n ≤ 1, (engine locked).inner.truth.HasTime n := by
    intro n hn
    have hlast : (engine locked).inner.truth.committer.hlc.last.toNat = 1 := by decide +kernel
    rw [TruthStore.HasTime, hlast]
    omega
  refine (write_protected_iff hreach hread false fun _ => htime 1 le_rfl).mpr
    (Or.inr fun header vector hmay => ?_) _ 2 (by decide) fun _ => htime 1 le_rfl
  exact absurd rfl hmay

end GrainStore
