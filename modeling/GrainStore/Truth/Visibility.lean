import Mathlib
import GrainStore.Truth

/-!
# Snapshot reads against version chains

The reference meaning of a snapshot read: for each `(sid, pred)` a chain of versions sorted by
timestamp, read from its newest end.  The store keeps no chain.  It seeks one byte-ordered key
whose timestamp suffix is complemented, checks the prefix of what it finds and decodes it.

`getAt_eq_model` says the two agree on every sequence of commits and every snapshot.
-/

namespace GrainStore

/-- The live content of a version. -/
structure Live where
  val : Bytes
  c : Confidence
  tValid : U64
  deriving DecidableEq, Repr

/-- A version payload: `some` for a live value, `none` for a tombstone. -/
abbrev VersionPayload := Option Live

/-- The ordered version chain of one `(sid, pred)`. -/
abbrev VersionChain := List (U64 × VersionPayload)

/-- Reference model of MVCC visibility: all version chains. -/
structure Model where
  versions : Sid → PredId → VersionChain

/-- A committed write: the request and the timestamp it was given. -/
abbrev Commit := WriteReq × U64

/-- The version a committed write creates. -/
def Commit.version (cm : Commit) : U64 × VersionPayload :=
  (cm.2, if cm.1.op = OP_DELETE then none
    else some { val := cm.1.val, c := cm.1.c, tValid := cm.1.tValid })

namespace Model

/-- The model without versions. -/
def new : Model := ⟨fun _ _ => []⟩

/-- Mirror a committed write: push the version and sort the chain by timestamp. -/
def apply (m : Model) (cm : Commit) : Model :=
  ⟨fun sid pred =>
    if sid = cm.1.sid ∧ pred = cm.1.pred then
      (m.versions sid pred ++ [cm.version]).mergeSort fun a b => a.1 ≤ b.1
    else m.versions sid pred⟩

/-- The newest version of `(sid, pred)` not after `snap`. -/
def find (m : Model) (sid : Sid) (pred : PredId) (snap : U64) : Option (U64 × VersionPayload) :=
  (m.versions sid pred).reverse.find? fun v => v.1 ≤ snap

/-- What a reader gets: the newest version not after `snap`, or nothing when that version is a
tombstone or there is none. -/
def getAt (m : Model) (sid : Sid) (pred : PredId) (snap : U64) : Option Grain :=
  match m.find sid pred snap with
  | some (tTx, some l) =>
    some { sid, pred, val := .bytes l.val, c := l.c, tValid := l.tValid, tTx }
  | _ => none

/-- The model of a sequence of commits. -/
def ofCommits (commits : List Commit) : Model := commits.foldl apply new

end Model

/-- The KV after a sequence of commits is applied, one `put_grain` each. -/
def MemKv.ofCommits (commits : List Commit) : MemKv :=
  commits.foldl
    (fun kv cm => kv.putGrain (grainKey cm.1.sid cm.1.pred cm.2)
      (encodeValue cm.1.op cm.1.val cm.1.c cm.1.tValid))
    MemKv.new

/-! ## Both sides as functions of one log -/

/-- The records of a sequence of commits. -/
def commitRecords (commits : List Commit) : List WalRecord :=
  commits.map fun cm => cm.1.record cm.2

lemma grains_ofCommits (commits : List Commit) :
    (MemKv.ofCommits commits).grains = WalLog.grains (commitRecords commits) := by
  induction commits using List.reverseRecOn with
  | nil => rfl
  | append_singleton commits cm ih =>
    rw [commitRecords, List.map_append, List.map_singleton, WalLog.grains_concat,
      ← commitRecords, ← ih, MemKv.ofCommits, List.foldl_append]
    rfl

lemma ofCommits_concat (commits : List Commit) (cm : Commit) :
    Model.ofCommits (commits ++ [cm]) = (Model.ofCommits commits).apply cm := by
  rw [Model.ofCommits, List.foldl_append]
  rfl

/-- A chain holds exactly the versions of its `(sid, pred)`. -/
lemma mem_versions {commits : List Commit} {sid : Sid} {pred : PredId}
    {v : U64 × VersionPayload} :
    v ∈ (Model.ofCommits commits).versions sid pred ↔
      ∃ cm ∈ commits, cm.1.sid = sid ∧ cm.1.pred = pred ∧ cm.version = v := by
  induction commits using List.reverseRecOn with
  | nil => simp [Model.ofCommits, Model.new]
  | append_singleton commits cm ih =>
    rw [ofCommits_concat, Model.apply]
    by_cases h : sid = cm.1.sid ∧ pred = cm.1.pred
    · obtain ⟨rfl, rfl⟩ := h
      simp only [and_self, if_true, List.mem_mergeSort, List.mem_append, ih, List.mem_singleton]
      constructor
      · rintro (⟨cm', hmem, hrest⟩ | rfl)
        · exact ⟨cm', Or.inl hmem, hrest⟩
        · exact ⟨cm, Or.inr rfl, rfl, rfl, rfl⟩
      · rintro ⟨cm', hmem | rfl, hs, hp, hv⟩
        · exact Or.inl ⟨cm', hmem, hs, hp, hv⟩
        · exact Or.inr hv.symm
    · simp only [h, if_false, ih, List.mem_append, List.mem_singleton]
      constructor
      · rintro ⟨cm', hmem, hrest⟩
        exact ⟨cm', Or.inl hmem, hrest⟩
      · rintro ⟨cm', hmem | rfl, hs, hp, hv⟩
        · exact ⟨cm', hmem, hs, hp, hv⟩
        · exact absurd ⟨hs.symm, hp.symm⟩ h

/-- A chain is sorted by timestamp. -/
lemma pairwise_versions (commits : List Commit) (sid : Sid) (pred : PredId) :
    ((Model.ofCommits commits).versions sid pred).Pairwise fun a b => a.1 ≤ b.1 := by
  induction commits using List.reverseRecOn with
  | nil => exact List.Pairwise.nil
  | append_singleton commits cm ih =>
    rw [ofCommits_concat, Model.apply]
    dsimp only
    split
    · have htrans : ∀ a b c : U64 × VersionPayload,
          decide (a.1 ≤ b.1) → decide (b.1 ≤ c.1) → decide (a.1 ≤ c.1) := fun a b c hab hbc =>
        decide_eq_true (le_trans (of_decide_eq_true hab) (of_decide_eq_true hbc))
      have htotal : ∀ a b : U64 × VersionPayload,
          (decide (a.1 ≤ b.1) || decide (b.1 ≤ a.1)) = true := by
        intro a b
        simpa using le_total a.1 b.1
      have hsorted := List.pairwise_mergeSort htrans htotal
        ((Model.ofCommits commits).versions sid pred ++ [cm.version])
      exact hsorted.imp fun h => of_decide_eq_true h
    · exact ih

/-- Reading a sorted chain from its end finds the newest version not after the snapshot. -/
lemma seq_le_of_find {m : Model} {sid : Sid} {pred : PredId} {snap : U64}
    {v : U64 × VersionPayload} (hsorted : (m.versions sid pred).Pairwise fun a b => a.1 ≤ b.1)
    (h : m.find sid pred snap = some v) :
    ∀ w ∈ m.versions sid pred, w.1 ≤ snap → w.1 ≤ v.1 := by
  intro w hw hle
  obtain ⟨-, newer, older, hsplit, hnewer⟩ := List.find?_eq_some_iff_append.mp h
  have hrev : (m.versions sid pred).reverse.Pairwise fun a b => b.1 ≤ a.1 :=
    List.pairwise_reverse.mpr hsorted
  rw [← List.mem_reverse, hsplit, List.mem_append, List.mem_cons] at hw
  rcases hw with hw | rfl | hw
  · exact absurd hle (by simpa using hnewer w hw)
  · exact le_rfl
  · rw [hsplit, List.pairwise_append, List.pairwise_cons] at hrev
    exact hrev.2.1.1 w hw

/-- The chain is empty up to the snapshot exactly when the log has no version there. -/
lemma find_eq_none_iff {commits : List Commit} {sid : Sid} {pred : PredId} {snap : U64} :
    (Model.ofCommits commits).find sid pred snap = none ↔
      WalLog.visible (commitRecords commits) sid pred snap = none := by
  rw [Model.find, List.find?_eq_none, WalLog.visible_eq_none_iff]
  constructor
  · intro h r hr hv
    obtain ⟨cm, hcm, rfl⟩ := List.mem_map.mp hr
    obtain ⟨hs, hp, hle⟩ := hv
    refine h cm.version ?_ (decide_eq_true hle)
    exact List.mem_reverse.mpr (mem_versions.mpr ⟨cm, hcm, hs, hp, rfl⟩)
  · intro h v hv hle
    obtain ⟨cm, hcm, hs, hp, rfl⟩ := mem_versions.mp (List.mem_reverse.mp hv)
    exact h _ (List.mem_map_of_mem hcm) ⟨hs, hp, of_decide_eq_true hle⟩

/-- When timestamps are not repeated, the chain and the log find the same version. -/
lemma find_of_visible {commits : List Commit} (hseq : (commits.map Prod.snd).Nodup)
    {sid : Sid} {pred : PredId} {snap : U64} {r : WalRecord}
    (h : WalLog.visible (commitRecords commits) sid pred snap = some r) :
    ∃ cm ∈ commits, cm.1.record cm.2 = r ∧
      (Model.ofCommits commits).find sid pred snap = some cm.version := by
  obtain ⟨hr, ⟨hs, hp, hle⟩, -⟩ := WalLog.grains_of_visible h
  obtain ⟨cm, hcm, rfl⟩ := List.mem_map.mp hr
  refine ⟨cm, hcm, rfl, ?_⟩
  cases hfind : (Model.ofCommits commits).find sid pred snap with
  | none =>
    rw [find_eq_none_iff, h] at hfind
    exact absurd hfind (Option.some_ne_none _)
  | some v =>
    have hmem := List.mem_reverse.mp (List.mem_of_find?_eq_some hfind)
    obtain ⟨cm', hcm', hs', hp', rfl⟩ := mem_versions.mp hmem
    have hle' : cm'.version.1 ≤ snap := by simpa using List.find?_some hfind
    -- each of the two is at least as new as the other
    have h₁ : cm.2 ≤ cm'.2 :=
      seq_le_of_find (pairwise_versions _ _ _) hfind cm.version
        (mem_versions.mpr ⟨cm, hcm, hs, hp, rfl⟩) hle
    have h₂ : cm'.2 ≤ cm.2 :=
      WalLog.seq_le_of_visible h _ (List.mem_map_of_mem hcm') ⟨hs', hp', hle'⟩
    rw [List.inj_on_of_nodup_map hseq hcm hcm' (le_antisymm h₁ h₂)]

/-! ## The refinement -/

/-- Over the KV of any sequence of commits with distinct timestamps, a snapshot read returns
what the version chains say, and never an error. -/
theorem getAt_eq_model (commits : List Commit) (hseq : (commits.map Prod.snd).Nodup) (sid : Sid)
    (pred : PredId) (snap : Hlc) :
    TruthStore.getAt (MemKv.ofCommits commits) sid pred snap =
      .ok ((Model.ofCommits commits).getAt sid pred snap) := by
  rw [TruthStore.getAt_eq_visible (grains_ofCommits commits), Model.getAt]
  cases h : WalLog.visible (commitRecords commits) sid pred snap with
  | none => rw [find_eq_none_iff.mpr h, Option.bind_none]
  | some r =>
    obtain ⟨cm, -, rfl, hfind⟩ := find_of_visible hseq h
    obtain ⟨-, ⟨rfl, rfl, -⟩, -⟩ := WalLog.grains_of_visible h
    have hrec : (cm.1.record cm.2).op = cm.1.op := rfl
    rw [hfind, Option.bind_some, WalLog.grainOf, Commit.version, hrec]
    by_cases hop : cm.1.op = OP_DELETE
    · rw [if_pos hop, if_pos hop]
    · rw [if_neg hop, if_neg hop]
      rfl

/-- A snapshot between the overwrite and the delete of a key reads the overwritten value. -/
theorem getAt_eq_model_overwrite :
    (Model.ofCommits [(.put 7 1 [10] 0 0 100, 1), (.put 7 1 [20] 0 5 101, 2),
        (.delete 7 1 0 0 102, 3)]).getAt 7 1 2 =
      some { sid := 7, pred := 1, val := .bytes [20], c := 0, tValid := 5, tTx := 2 } :=
  Except.ok.inj ((getAt_eq_model [(.put 7 1 [10] 0 0 100, 1), (.put 7 1 [20] 0 5 101, 2),
    (.delete 7 1 0 0 102, 3)] (by decide) 7 1 2).symm.trans rfl)

end GrainStore
