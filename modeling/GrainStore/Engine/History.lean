import Mathlib
import GrainStore.Engine.Commit

/-!
# Put histories

An engine built by a history of `put_vector` calls: its truth store represents a log, its change
stream is that log, and each call appends the record of its request or nothing
(`Holds.commit`).
-/

namespace GrainStore

open FixedWidth

/-- A `put_vector` call. -/
structure VectorPut where
  sid : Sid
  pred : PredId
  header : Bytes
  vector : List F32
  wmeta : WriteMeta
  deriving DecidableEq, Repr

/-- The request a `put_vector` call commits. -/
def VectorPut.write (p : VectorPut) : WriteReq :=
  .put p.sid p.pred (encodeValueWithHeader p.header p.vector) p.wmeta.c p.wmeta.tValid
    p.wmeta.idemKey

namespace GrainEngine

variable {I V : Type*}

/-- Make the calls of a history, one after the other. -/
def putAll (e : GrainEngine I) (puts : List VectorPut) : GrainEngine I :=
  puts.foldl (fun e p => (e.putVector p.sid p.pred p.header p.vector p.wmeta none).1) e

/-- The engine when its materializer has applied the whole change stream. -/
def materialized (embed : Bytes → Option V) (e : GrainEngine (VectorMap V)) :
    GrainEngine (VectorMap V) :=
  { e with index := applyAll embed e.stream }

/-- The engine built by a history on an empty log, fully materialized. -/
def built (embed : Bytes → Option V) (puts : List VectorPut) : GrainEngine (VectorMap V) :=
  ((openWith [] ∅).putAll puts).materialized embed

end GrainEngine

/-! ## The log of a store -/

namespace TruthStore

/-- A store with one subscriber that holds a log: its state is what the log means, and its change
stream is the log. -/
structure Holds (t : TruthStore) (recs : List WalRecord) : Prop where
  represents : t.committer.Represents recs
  cdc : t.committer.cdc = ⟨[⟨true, recs.map WalRecord.cdc⟩]⟩

variable {t : TruthStore} {recs : List WalRecord}

lemma holds_start : (start []).subscribe.Holds [] := by
  have hrep := Committer.represents_openLog []
  have hnil : logOf [] = [] := logOf_of_none rfl
  rw [hnil] at hrep
  exact ⟨⟨hrep.ledger, hrep.grains⟩, rfl⟩

/-- What a commit that meets no failing write does to the log: a new key appends its record while
the clock has a timestamp for it, and ends the committer when it has none; a repeated key and a
store that has ended append nothing. -/
lemma Holds.commit (h : t.Holds recs) (req : WriteReq) :
    (t.commit req none).1.Holds
        (if t.running ∧ (WalLog.idem recs)[req.idemKey]? = none ∧
            (WalLog.clock recs).toNat + 1 < 2 ^ 64
          then recs ++ [req.record (WalLog.clock recs + 1)] else recs) ∧
      (t.commit req none).1.running = (t.running && decide
        ((WalLog.idem recs)[req.idemKey]? = none → (WalLog.clock recs).toNat + 1 < 2 ^ 64)) := by
  have hidem := h.represents.idem
  have hclock := h.represents.clock
  have hstep := commitStep t req none
  generalize (t.commit req none).1 = t' at hstep ⊢
  generalize (t.commit req none).2 = answer at hstep
  cases hstep with
  | closed _ hrun =>
    rw [if_neg fun hc => by simp [hrun] at hc, hrun, Bool.false_and]
    exact ⟨h, rfl⟩
  | repeated _ kv sent hrun hkey hkv =>
    rw [hidem] at hkey
    rw [if_neg fun hc => by simp [hkey] at hc, hrun, Bool.true_and,
      decide_eq_true fun hnone => by simp [hkey] at hnone]
    exact ⟨⟨⟨h.represents.ledger, hkv.trans h.represents.grains⟩, h.cdc⟩, rfl⟩
  | panicked _ hrun hkey hfull =>
    rw [hidem] at hkey
    rw [hclock] at hfull
    rw [if_neg fun hc => hfull hc.2.2, hrun, Bool.true_and,
      decide_eq_false fun himp => hfull (himp hkey)]
    exact ⟨⟨h.represents, h.cdc⟩, rfl⟩
  | committed kv sent hrun hkey hroom hkv =>
    have hnew : t.committer.ledger.idem[req.idemKey]? = none := hkey
    rw [hidem] at hkey
    rw [hclock] at hroom hkv
    rw [if_pos ⟨hrun, hkey, hroom⟩, hrun, Bool.true_and, decide_eq_true fun _ => hroom]
    refine ⟨⟨⟨?_, ?_⟩, ?_⟩, rfl⟩
    · rw [← Ledger.assign_ofLog hkey hroom, ← h.represents.ledger,
        Ledger.assign_of_none hnew]
      rfl
    · rw [WalLog.grains_concat, ← h.represents.grains]
      exact hkv
    · dsimp only
      rw [h.cdc, hclock, List.map_append]
      rfl

/-- A strong read of a store that holds a log never fails: it returns the newest version. -/
lemma Holds.read (h : t.Holds recs) (sid : Sid) (pred : PredId) :
    t.read sid pred =
      .ok ((WalLog.visible recs sid pred (WalLog.clock recs)).bind WalLog.grainOf) := by
  rw [TruthStore.read, TruthStore.get, HlcOracle.now, h.represents.clock]
  exact getAt_eq_visible h.represents.grains sid pred _

end TruthStore

end GrainStore
