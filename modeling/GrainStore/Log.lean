import Mathlib
import GrainStore.Wal.Committer

/-!
# What a log means

The abstract layer under the log: a log is a list of records, oldest first, and everything the
store holds is a function of it.  `WalLog.grains` is the KV content, `WalLog.idem` the dedup
map, `WalLog.clock` the high-watermark and `WalLog.visible` the version of a `(sid, pred)` that
a snapshot sees.

A committer extends a log (`Extends`): each new record carries a new idempotency key and the next
timestamp.  The records of an extension are found under their keys (`Extends.grains_of_mem`,
`Extends.idem_of_mem`).
-/

namespace GrainStore

namespace WalLog

/-- The KV grains after a log is applied: the last record of a key wins. -/
def grains (recs : List WalRecord) : Std.ExtTreeMap Bytes Bytes :=
  recs.foldl (fun g r => g.insert r.key r.value) ∅

/-- The dedup map after a log: the first record of an idempotency key wins. -/
def idem (recs : List WalRecord) : IdemMap :=
  recs.foldl (fun m r => m.insertIfNew r.idemKey r.seq) ∅

/-- The high-watermark of a log. -/
def clock (recs : List WalRecord) : U64 :=
  recs.foldl (fun t r => max t r.seq) 0

/-- Whether a record is a version of `(sid, pred)` that the snapshot `t` may see. -/
def IsVersion (sid : Sid) (pred : PredId) (t : Hlc) (r : WalRecord) : Prop :=
  r.sid = sid ∧ r.pred = pred ∧ r.seq ≤ t

instance (sid : Sid) (pred : PredId) (t : Hlc) (r : WalRecord) :
    Decidable (IsVersion sid pred t r) :=
  inferInstanceAs (Decidable (_ ∧ _ ∧ _))

/-- The newer of two versions, the second when they carry one timestamp. -/
def newer (best : Option WalRecord) (r : WalRecord) : Option WalRecord :=
  match best with
  | none => some r
  | some b => if b.seq ≤ r.seq then some r else some b

/-- The version of `(sid, pred)` a snapshot sees: the newest one not after the snapshot. -/
def visible (recs : List WalRecord) (sid : Sid) (pred : PredId) (t : Hlc) : Option WalRecord :=
  recs.foldl (fun best r => if IsVersion sid pred t r then newer best r else best) none

/-- What a reader gets from a version: the grain, or nothing when it is a tombstone. -/
def grainOf (r : WalRecord) : Option Grain :=
  if r.op = OP_DELETE then none
  else some
    { sid := r.sid, pred := r.pred, val := .bytes r.val, c := r.c, tValid := r.tValid,
      tTx := r.seq }

/-- A grain carries the key of its version. -/
lemma key_of_grainOf {r : WalRecord} {g : Grain} (h : grainOf r = some g) :
    g.sid = r.sid ∧ g.pred = r.pred := by
  unfold grainOf at h
  split at h
  · simp at h
  · obtain rfl := Option.some.inj h
    exact ⟨rfl, rfl⟩

/-! ## One more record -/

@[simp] lemma grains_nil : grains [] = ∅ := rfl

@[simp] lemma grains_concat (recs : List WalRecord) (r : WalRecord) :
    grains (recs ++ [r]) = (grains recs).insert r.key r.value := by
  simp [grains]

lemma grains_append (recs l : List WalRecord) :
    grains (recs ++ l) = l.foldl (fun g r => g.insert r.key r.value) (grains recs) := by
  simp [grains]

@[simp] lemma idem_nil : idem [] = ∅ := rfl

@[simp] lemma idem_concat (recs : List WalRecord) (r : WalRecord) :
    idem (recs ++ [r]) = (idem recs).insertIfNew r.idemKey r.seq := by
  simp [idem]

@[simp] lemma clock_nil : clock [] = 0 := rfl

@[simp] lemma clock_concat (recs : List WalRecord) (r : WalRecord) :
    clock (recs ++ [r]) = max (clock recs) r.seq := by
  simp [clock]

@[simp] lemma visible_nil (sid : Sid) (pred : PredId) (t : Hlc) : visible [] sid pred t = none :=
  rfl

lemma visible_concat (recs : List WalRecord) (r : WalRecord) (sid : Sid) (pred : PredId)
    (t : Hlc) : visible (recs ++ [r]) sid pred t =
      if IsVersion sid pred t r then newer (visible recs sid pred t) r
      else visible recs sid pred t := by
  simp [visible]

/-! ## Lookups in a log -/

/-- Every KV entry of a log comes from one of its records. -/
lemma exists_of_grains {recs : List WalRecord} {k v : Bytes} (h : (grains recs)[k]? = some v) :
    ∃ r ∈ recs, r.key = k ∧ r.value = v := by
  induction recs using List.reverseRecOn with
  | nil => simp at h
  | append_singleton recs r ih =>
    rw [grains_concat, Std.ExtTreeMap.getElem?_insert] at h
    split at h
    · rename_i hk
      refine ⟨r, List.mem_append_right _ List.mem_cons_self, ?_, by simpa using h⟩
      exact Std.LawfulEqOrd.compare_eq_iff_eq.mp hk
    · obtain ⟨r', hr', hkv⟩ := ih h
      exact ⟨r', List.mem_append_left _ hr', hkv⟩

/-- Every record's key is bound in the KV. -/
lemma exists_grains_of_mem {recs : List WalRecord} {r : WalRecord} (h : r ∈ recs) :
    ∃ v, (grains recs)[r.key]? = some v := by
  induction recs using List.reverseRecOn with
  | nil => simp at h
  | append_singleton recs r' ih =>
    rw [grains_concat, Std.ExtTreeMap.getElem?_insert]
    split
    · exact ⟨_, rfl⟩
    · rename_i hne
      rcases List.mem_append.mp h with h | h
      · exact ih h
      · obtain rfl := List.mem_singleton.mp h
        exact absurd Std.ReflCmp.compare_self hne

/-- Records with other keys leave a key of the KV alone. -/
lemma grains_append_of_forall_ne {recs l : List WalRecord} {k : Bytes} (h : ∀ r ∈ l, r.key ≠ k) :
    (grains (recs ++ l))[k]? = (grains recs)[k]? := by
  induction l using List.reverseRecOn with
  | nil => rw [List.append_nil]
  | append_singleton l r ih =>
    rw [← List.append_assoc, grains_concat, OrderedMap.getElem?_insert_eq,
      if_neg (h r (List.mem_append_right _ List.mem_cons_self))]
    exact ih fun r' hr' => h r' (List.mem_append_left _ hr')

/-- An entry of the dedup map of a log comes from one of its records. -/
lemma exists_of_idem {recs : List WalRecord} {k : U128} {seq : U64}
    (h : (idem recs)[k]? = some seq) : ∃ r ∈ recs, r.idemKey = k ∧ r.seq = seq := by
  induction recs using List.reverseRecOn with
  | nil => simp at h
  | append_singleton recs r ih =>
    rw [idem_concat, Std.ExtTreeMap.getElem?_insertIfNew] at h
    split at h
    · rename_i hk
      refine ⟨r, List.mem_append_right _ List.mem_cons_self, ?_, by simpa using h⟩
      exact Std.LawfulEqOrd.compare_eq_iff_eq.mp hk.1
    · obtain ⟨r', hr', hks⟩ := ih h
      exact ⟨r', List.mem_append_left _ hr', hks⟩

/-- No record of a log is above its high-watermark. -/
lemma seq_le_clock {recs : List WalRecord} {r : WalRecord} (h : r ∈ recs) :
    r.seq ≤ clock recs := by
  induction recs using List.reverseRecOn with
  | nil => simp at h
  | append_singleton recs r' ih =>
    rw [clock_concat]
    rcases List.mem_append.mp h with h | h
    · exact le_max_of_le_left (ih h)
    · obtain rfl := List.mem_singleton.mp h
      exact le_max_right _ _

/-! ## The visible version -/

/-- A snapshot sees nothing exactly when the log has no version at or below it. -/
lemma visible_eq_none_iff {recs : List WalRecord} {sid : Sid} {pred : PredId} {t : Hlc} :
    visible recs sid pred t = none ↔ ∀ r ∈ recs, ¬IsVersion sid pred t r := by
  induction recs using List.reverseRecOn with
  | nil => simp
  | append_singleton recs r ih =>
    rw [visible_concat]
    constructor
    · intro h r' hr'
      split at h
      · exfalso
        unfold newer at h
        split at h
        · simp at h
        · split at h <;> simp at h
      · rename_i hr
        rcases List.mem_append.mp hr' with hr' | hr'
        · exact ih.mp h r' hr'
        · rwa [List.mem_singleton.mp hr']
    · intro h
      rw [if_neg (h r (List.mem_append_right _ List.mem_cons_self))]
      exact ih.mpr fun r' hr' => h r' (List.mem_append_left _ hr')

/-- The newer of two versions is one of them and no older than either. -/
lemma newer_eq_some {best : Option WalRecord} {r r' : WalRecord} (h : newer best r = some r') :
    r'.seq = r.seq ∧ r' = r ∨ best = some r' ∧ r.seq < r'.seq := by
  unfold newer at h
  cases best with
  | none => exact Or.inl (by simp_all)
  | some b =>
    dsimp only at h
    split at h
    · exact Or.inl (by simp_all)
    · rename_i hlt
      obtain rfl := Option.some.inj h
      exact Or.inr ⟨rfl, not_le.mp hlt⟩

/-- No version at or below the snapshot is newer than the visible one. -/
lemma seq_le_of_visible {recs : List WalRecord} {sid : Sid} {pred : PredId} {t : Hlc}
    {r : WalRecord} (h : visible recs sid pred t = some r) :
    ∀ r' ∈ recs, IsVersion sid pred t r' → r'.seq ≤ r.seq := by
  induction recs using List.reverseRecOn generalizing r with
  | nil => simp at h
  | append_singleton recs a ih =>
    rw [visible_concat] at h
    intro r' hr' hv
    rcases List.mem_append.mp hr' with hold | hnew
    · split at h
      · rcases newer_eq_some h with ⟨-, rfl⟩ | ⟨hbest, -⟩
        · -- the old best, if any, was not newer than the record that replaced it
          cases hbest : visible recs sid pred t with
          | none => exact absurd hv (visible_eq_none_iff.mp hbest r' hold)
          | some b =>
            have hb := ih hbest r' hold hv
            rw [hbest, newer] at h
            split at h
            · rename_i hle
              exact hb.trans hle
            · obtain rfl := Option.some.inj h
              exact hb
        · exact ih hbest r' hold hv
      · exact ih h r' hold hv
    · obtain rfl := List.mem_singleton.mp hnew
      rw [if_pos hv] at h
      rcases newer_eq_some h with ⟨hseq, -⟩ | ⟨-, hlt⟩
      · exact hseq.ge
      · exact hlt.le

/-- The visible version is a version of the log, at or below the snapshot, and the KV holds its
value under its key. -/
lemma grains_of_visible {recs : List WalRecord} {sid : Sid} {pred : PredId} {t : Hlc}
    {r : WalRecord} (h : visible recs sid pred t = some r) :
    r ∈ recs ∧ IsVersion sid pred t r ∧ (grains recs)[r.key]? = some r.value := by
  induction recs using List.reverseRecOn generalizing r with
  | nil => simp at h
  | append_singleton recs a ih =>
    have hold : ∀ {r}, visible recs sid pred t = some r → ¬(a.key = r.key) →
        r ∈ recs ++ [a] ∧ IsVersion sid pred t r ∧
          (grains (recs ++ [a]))[r.key]? = some r.value := by
      intro r hr hne
      obtain ⟨hmem, hv, hg⟩ := ih hr
      refine ⟨List.mem_append_left _ hmem, hv, ?_⟩
      rw [grains_concat, Std.ExtTreeMap.getElem?_insert, if_neg]
      · exact hg
      · rwa [Std.LawfulEqOrd.compare_eq_iff_eq]
    rw [visible_concat] at h
    split at h
    · rename_i ha
      rcases newer_eq_some h with ⟨-, rfl⟩ | ⟨hbest, hlt⟩
      · exact ⟨List.mem_append_right _ List.mem_cons_self, ha, by simp⟩
      · refine hold hbest ?_
        intro hkey
        rw [(grainKey_inj.mp hkey).2.2] at hlt
        exact lt_irrefl _ hlt
    · rename_i ha
      refine hold h fun hkey => ha ?_
      obtain ⟨hs, hp, ht⟩ := grainKey_inj.mp hkey
      have hv := (ih h).2.1
      rwa [IsVersion, hs, hp, ht]

/-- In a log whose timestamps increase, a snapshot that covers it sees the last version. -/
lemma visible_eq_getLast? {recs : List WalRecord} (h : recs.Pairwise fun a b => a.seq < b.seq)
    (sid : Sid) (pred : PredId) {t : Hlc} (ht : ∀ r ∈ recs, r.seq ≤ t) :
    visible recs sid pred t =
      (recs.filter fun r => r.sid = sid ∧ r.pred = pred).getLast? := by
  induction recs using List.reverseRecOn with
  | nil => rfl
  | append_singleton recs r ih =>
    obtain ⟨hrecs, -, hlt⟩ := List.pairwise_append.mp h
    have hold := ih hrecs fun r' hr' => ht r' (List.mem_append_left _ hr')
    rw [visible_concat, List.filter_append]
    by_cases hr : r.sid = sid ∧ r.pred = pred
    · have hv : IsVersion sid pred t r := ⟨hr.1, hr.2, ht r (by simp)⟩
      have hnewer : newer (visible recs sid pred t) r = some r := by
        cases hbest : visible recs sid pred t with
        | none => rfl
        | some b => exact if_pos (hlt b (grains_of_visible hbest).1 r List.mem_cons_self).le
      rw [if_pos hv, hnewer]
      simp [hr]
    · rw [if_neg fun hv => hr ⟨hv.1, hv.2.1⟩, hold]
      simp [hr]

/-- A snapshot past the clock sees the newest version of all. -/
lemma visible_of_le {recs : List WalRecord} {t : Hlc} (h : clock recs ≤ t) (sid : Sid)
    (pred : PredId) : visible recs sid pred t = visible recs sid pred (clock recs) := by
  refine List.foldl_ext _ _ none ?_
  intro best r hr
  have hseq : r.seq ≤ clock recs := seq_le_clock hr
  have hver : IsVersion sid pred t r ↔ IsVersion sid pred (clock recs) r :=
    and_congr_right' (and_congr_right' (iff_of_true (hseq.trans h) hseq))
  simp only [hver]

/-- The newest version of `(sid, pred)`. -/
def newest (recs : List WalRecord) (sid : Sid) (pred : PredId) : Option WalRecord :=
  visible recs sid pred (clock recs)

/-- The newest version is a record of the log under its `(sid, pred)`. -/
lemma mem_of_newest {recs : List WalRecord} {sid : Sid} {pred : PredId} {r : WalRecord}
    (h : newest recs sid pred = some r) : r ∈ recs ∧ r.sid = sid ∧ r.pred = pred := by
  obtain ⟨hmem, ⟨hsid, hpred, -⟩, -⟩ := grains_of_visible h
  exact ⟨hmem, hsid, hpred⟩

/-- A record after the clock is the newest version of its key. -/
lemma newest_concat {recs : List WalRecord} {r : WalRecord} (h : clock recs < r.seq) (sid : Sid)
    (pred : PredId) : newest (recs ++ [r]) sid pred =
      if r.sid = sid ∧ r.pred = pred then some r else newest recs sid pred := by
  have hclock : clock (recs ++ [r]) = r.seq := by rw [clock_concat, max_eq_right h.le]
  rw [newest, hclock, visible_concat, visible_of_le h.le]
  by_cases hkey : r.sid = sid ∧ r.pred = pred
  · rw [if_pos hkey, if_pos ⟨hkey.1, hkey.2, le_rfl⟩]
    cases hbest : visible recs sid pred (clock recs) with
    | none => rfl
    | some b => exact if_pos ((seq_le_clock (grains_of_visible hbest).1).trans h.le)
  · rw [if_neg hkey, if_neg fun hver => hkey ⟨hver.1, hver.2.1⟩]
    rfl

/-- In a log whose timestamps increase, the newest version is the last one. -/
lemma newest_eq_getLast? {recs : List WalRecord} (h : recs.Pairwise fun a b => a.seq < b.seq)
    (sid : Sid) (pred : PredId) :
    newest recs sid pred = (recs.filter fun r => r.sid = sid ∧ r.pred = pred).getLast? :=
  visible_eq_getLast? h sid pred fun _ => seq_le_clock

/-- When the last record of a grain id is under `pred`, it is the newest version under `pred`. -/
lemma newest_of_last {recs : List WalRecord} (h : recs.Pairwise fun a b => a.seq < b.seq)
    {sid : Sid} {pred : PredId} {r : WalRecord}
    (hlast : (recs.filter fun r => r.sid = sid).getLast? = some r) (hpred : r.pred = pred) :
    newest recs sid pred = some r := by
  obtain ⟨l, hl⟩ := List.getLast?_eq_some_iff.mp hlast
  have hfilter : (recs.filter fun r => r.sid = sid ∧ r.pred = pred) =
      (recs.filter fun r => r.sid = sid).filter fun r => r.pred = pred := by
    rw [List.filter_filter]
    refine List.filter_congr ?_
    intro r _
    simp [Bool.and_comm]
  rw [newest_eq_getLast? h, hfilter, hl, List.filter_append]
  simp [hpred]

/-! ## Growing logs -/

/-- An entry of the dedup map stays when the log grows. -/
lemma idem_append_of_some {recs l : List WalRecord} {k : U128} {seq : U64}
    (h : (idem recs)[k]? = some seq) : (idem (recs ++ l))[k]? = some seq := by
  induction l using List.reverseRecOn with
  | nil => rwa [List.append_nil]
  | append_singleton l r ih =>
    rw [← List.append_assoc, idem_concat, Std.ExtTreeMap.getElem?_insertIfNew, if_neg]
    · exact ih
    · rintro ⟨hk, hnot⟩
      obtain rfl := Std.LawfulEqOrd.compare_eq_iff_eq.mp hk
      rw [Std.ExtTreeMap.mem_iff_isSome_getElem?, ih] at hnot
      exact hnot rfl

/-- `l` extends the log `base` the way the committer does: each record carries a new
idempotency key and the timestamp after the clock. -/
inductive Extends (base : List WalRecord) : List WalRecord → Prop
  | nil : Extends base []
  | concat {l : List WalRecord} {r : WalRecord} : Extends base l →
    (idem (base ++ l))[r.idemKey]? = none → r.seq.toNat = (clock (base ++ l)).toNat + 1 →
    Extends base (l ++ [r])

namespace Extends

variable {base l l' : List WalRecord} {r r' : WalRecord}

/-- The last record of an extension. -/
lemma of_concat (h : Extends base (l ++ [r])) :
    Extends base l ∧ (idem (base ++ l))[r.idemKey]? = none ∧
      r.seq.toNat = (clock (base ++ l)).toNat + 1 := by
  generalize hx : l ++ [r] = x at h
  cases h with
  | nil => simp at hx
  | concat hl hidem hseq =>
    obtain ⟨rfl, hr⟩ := List.append_inj' hx rfl
    obtain rfl := List.singleton_inj.mp hr
    exact ⟨hl, hidem, hseq⟩

/-- A first part of an extension is an extension. -/
lemma of_append (h : Extends base (l ++ l')) : Extends base l := by
  induction l' using List.reverseRecOn with
  | nil => rwa [List.append_nil] at h
  | append_singleton l' r ih =>
    rw [← List.append_assoc] at h
    exact ih h.of_concat.1

/-- The rest of an extension extends the log with its first part. -/
lemma shift (h : Extends base (l ++ l')) : Extends (base ++ l) l' := by
  induction l' using List.reverseRecOn with
  | nil => exact Extends.nil
  | append_singleton l' r ih =>
    rw [← List.append_assoc] at h
    obtain ⟨hl, hidem, hseq⟩ := h.of_concat
    rw [← List.append_assoc] at hidem hseq
    exact (ih hl).concat hidem hseq

/-- An extension of an extension. -/
lemma append (h : Extends base l) (h' : Extends (base ++ l) l') : Extends base (l ++ l') := by
  induction h' with
  | nil => rwa [List.append_nil]
  | concat _ hidem hseq ih =>
    rw [List.append_assoc] at hidem hseq
    rw [← List.append_assoc]
    exact ih.concat hidem hseq

/-- The clock of a log one record longer. -/
lemma clock_concat_eq (hseq : r.seq.toNat = (clock (base ++ l)).toNat + 1) :
    clock (base ++ (l ++ [r])) = r.seq := by
  rw [← List.append_assoc, clock_concat, max_eq_right]
  rw [BitVec.le_def]
  omega

/-- The records of an extension are numbered on from the clock of the base. -/
lemma clock_toNat (h : Extends base l) :
    (clock (base ++ l)).toNat = (clock base).toNat + l.length := by
  induction h with
  | nil => rw [List.append_nil]; rfl
  | concat hl hidem hseq ih =>
    rw [clock_concat_eq hseq, hseq, ih, List.length_append, List.length_singleton, Nat.add_assoc]

/-- The timestamp of a record of an extension is given by its place. -/
lemma seq_of_getElem? (h : Extends base l) {i : ℕ} (hr : l[i]? = some r) :
    r.seq.toNat = (clock base).toNat + (i + 1) := by
  induction h with
  | nil => simp at hr
  | @concat l r' hl hidem hseq ih =>
    rcases Nat.lt_or_ge i l.length with hlt | hge
    · rw [List.getElem?_append_left hlt] at hr
      exact ih hr
    · rw [List.getElem?_append_right hge, List.getElem?_singleton] at hr
      split at hr
      · rename_i hzero
        obtain rfl := Option.some.inj hr
        rw [hseq, hl.clock_toNat]
        omega
      · simp at hr

/-- The timestamps of an extension are above the clock of the base. -/
lemma clock_lt_seq (h : Extends base l) (hr : r ∈ l) : clock base < r.seq := by
  induction h with
  | nil => simp at hr
  | @concat l r' hl hidem hseq ih =>
    rcases List.mem_append.mp hr with hr | hr
    · exact ih hr
    · obtain rfl := List.mem_singleton.mp hr
      rw [BitVec.lt_def, hseq, hl.clock_toNat]
      omega

/-- The timestamps of an extension increase. -/
lemma pairwise_seq (h : Extends base l) : l.Pairwise fun a b => a.seq < b.seq := by
  induction h with
  | nil => exact List.Pairwise.nil
  | @concat l r hl hidem hseq ih =>
    refine List.pairwise_append.mpr ⟨ih, List.pairwise_singleton _ _, ?_⟩
    intro a ha b hb
    obtain rfl := List.mem_singleton.mp hb
    have hle : a.seq ≤ clock (base ++ l) := seq_le_clock (List.mem_append_right _ ha)
    rw [BitVec.lt_def, hseq]
    exact Nat.lt_succ_of_le (BitVec.le_def.mp hle)

/-- Timestamps are not repeated in an extension. -/
lemma eq_of_seq (h : Extends base l) (hr : r ∈ l) (hr' : r' ∈ l) (hseq : r.seq = r'.seq) :
    r = r' := by
  have hnodup : (l.map WalRecord.seq).Nodup :=
    List.pairwise_map.mpr (h.pairwise_seq.imp fun hlt => hlt.ne)
  exact List.inj_on_of_nodup_map hnodup hr hr' hseq

/-- No record of an extension has the timestamp of another record of the log. -/
lemma seq_ne (h : Extends base (l ++ l')) (hr : r ∈ base ++ l) (hr' : r' ∈ l') :
    r.seq ≠ r'.seq := by
  have hr'mem : r' ∈ l ++ l' := List.mem_append_right _ hr'
  rcases List.mem_append.mp hr with hr | hr
  · exact ((seq_le_clock hr).trans_lt (h.clock_lt_seq hr'mem)).ne
  · exact ((List.pairwise_append.mp h.pairwise_seq).2.2 r hr r' hr').ne

/-- The dedup map holds the timestamp of every record of an extension under its key. -/
lemma idem_of_mem (h : Extends base l) (hr : r ∈ l) :
    (idem (base ++ l))[r.idemKey]? = some r.seq := by
  induction h with
  | nil => simp at hr
  | @concat l r' hl hidem hseq ih =>
    rcases List.mem_append.mp hr with hr | hr
    · rw [← List.append_assoc]
      exact idem_append_of_some (ih hr)
    · obtain rfl := List.mem_singleton.mp hr
      rw [← List.append_assoc, idem_concat, OrderedMap.insertIfNew_of_none hidem,
        OrderedMap.getElem?_insert_eq, if_pos rfl]

/-- The KV holds the value of every record of an extension under its key. -/
lemma grains_of_mem (h : Extends base l) (hr : r ∈ l) :
    (grains (base ++ l))[r.key]? = some r.value := by
  induction h with
  | nil => simp at hr
  | @concat l r' hl hidem hseq ih =>
    rw [← List.append_assoc, grains_concat, OrderedMap.getElem?_insert_eq]
    rcases List.mem_append.mp hr with hr | hr
    · rw [if_neg, ih hr]
      intro hkey
      exact (hl.concat hidem hseq).seq_ne (List.mem_append_right _ hr) List.mem_cons_self
        (grainKey_inj.mp hkey).2.2.symm
    · obtain rfl := List.mem_singleton.mp hr
      rw [if_pos rfl]

/-- A version in the KV stays when the log is extended. -/
lemma grains_append_of_some (h : Extends base (l ++ l')) {k v : Bytes}
    (hk : (grains (base ++ l))[k]? = some v) : (grains (base ++ (l ++ l')))[k]? = some v := by
  obtain ⟨r, hr, rfl, -⟩ := exists_of_grains hk
  rw [← List.append_assoc, grains_append_of_forall_ne, hk]
  intro r' hr' hkey
  exact h.seq_ne hr hr' (grainKey_inj.mp hkey).2.2.symm

end Extends

end WalLog

end GrainStore
