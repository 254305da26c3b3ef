import Mathlib
import GrainStore.Truth

/-!
# Scanning the live grains

`TruthStore.scanLive` walks the whole KV in key order and keeps the first version of each
`(sid, pred)`.  `scanLive_ok` says that over the KV of any log it fails never, and returns exactly
the grains that strong reads return, in the order of `(sid, pred)`.

Over the KV of a log whose timestamps grow, the versions counted are the records of the log
(`versionCount_eq`).
-/

namespace GrainStore

open FixedWidth OrderedMap

namespace TruthStore

/-- The scan loop, behind an entry with the prefix `lastPrefix`. -/
def scanLiveFrom (lastPrefix : Option Bytes) : List (Bytes × Bytes) → Except Error (List Grain)
  | [] => .ok []
  | (k, v) :: rest =>
    if k.length < KEY_LEN then scanLiveFrom lastPrefix rest
    else
      let pfx := k.take PREFIX_LEN
      if lastPrefix = some pfx then scanLiveFrom lastPrefix rest
      else
        match decodeValue v with
        | .error e => .error e
        | .ok (op, c, tValid, bytes) =>
          if op = 1 then scanLiveFrom (some pfx) rest
          else
            match scanLiveFrom (some pfx) rest with
            | .error e => .error e
            | .ok out =>
              let sid := fromBeBytes 128 (slice k 0 16)
              let pred := fromBeBytes 32 (slice k 16 20)
              let tTx := (tTxFromKey k).getD 0
              .ok ({ sid, pred, val := .bytes bytes, c, tValid, tTx } :: out)

/-- Every live grain: the newest version of each `(sid, pred)`, tombstones excluded. -/
def scanLive (kv : MemKv) : Except Error (List Grain) := scanLiveFrom none kv.scanAll

/-! ## Entries and records -/

/-- The entry of a record in the KV. -/
def entry (r : WalRecord) : Bytes × Bytes := (r.key, r.value)

/-- The versions of one `(sid, pred)` are a group of entries. -/
def group (r : WalRecord) : Sid ×ₗ PredId := toLex (r.sid, r.pred)

/-- Entries are in the order of their groups, and in a group the newest version comes first. -/
lemma compare_key {r r' : WalRecord} :
    compare r.key r'.key = .lt ↔
      group r < group r' ∨ group r = group r' ∧ r'.seq < r.seq := by
  rw [WalRecord.key, WalRecord.key, compare_grainKey, Ordering.then_eq_lt, Ordering.then_eq_lt,
    Ordering.then_eq_eq, compare_lt_iff_lt, compare_lt_iff_lt, compare_lt_iff_lt,
    compare_eq_iff_eq, compare_eq_iff_eq, group, group, Prod.Lex.toLex_lt_toLex, toLex_inj,
    Prod.mk.injEq]

/-- What a reader gets from a version is in its entry. -/
lemma grainOf_congr {r r' : WalRecord} (h : entry r = entry r') :
    WalLog.grainOf r = WalLog.grainOf r' := by
  obtain ⟨hkey, hvalue⟩ := Prod.mk.inj h
  obtain ⟨hsid, hpred, hseq⟩ := grainKey_inj.mp hkey
  have hdecode := decodeValue_encodeValue r.op r.val r.c r.tValid
  have hvalue' : encodeValue r.op r.val r.c r.tValid = encodeValue r'.op r'.val r'.c r'.tValid :=
    hvalue
  rw [hvalue', decodeValue_encodeValue, Except.ok.injEq] at hdecode
  obtain ⟨hop, hrest⟩ := Prod.mk.inj hdecode
  obtain ⟨hc, hrest⟩ := Prod.mk.inj hrest
  obtain ⟨hvalid, hval⟩ := Prod.mk.inj hrest
  rw [WalLog.grainOf, WalLog.grainOf, hsid, hpred, hseq, hop, hc, hvalid, hval]

/-- Over the entries of records the loop keeps the first of each group. -/
lemma scanLiveFrom_map (last : Option (Sid ×ₗ PredId)) (rs : List WalRecord) :
    scanLiveFrom (last.map fun g => grainPrefix (ofLex g).1 (ofLex g).2) (rs.map entry) =
      .ok ((firsts group last rs).filterMap WalLog.grainOf) := by
  induction rs generalizing last with
  | nil => rfl
  | cons r rs ih =>
    have hlen : ¬r.key.length < KEY_LEN := by simp [WalRecord.key]
    have hpfx : r.key.take PREFIX_LEN = grainPrefix r.sid r.pred := by
      rw [WalRecord.key, grainKey_eq_append, List.take_left' (length_grainPrefix _ _)]
    have hlast : (last.map (fun g => grainPrefix (ofLex g).1 (ofLex g).2) =
        some (grainPrefix r.sid r.pred)) ↔ last = some (group r) := by
      cases last with
      | none => simp
      | some g =>
        rw [Option.map_some, Option.some.injEq, Option.some.injEq, grainPrefix_inj]
        exact Prod.ext_iff.symm.trans (ofLex.injective.eq_iff (b := group r))
    have hkey : r.key = toBeBytes r.sid ++ (toBeBytes r.pred ++ toBeBytes (~~~r.seq)) :=
      List.append_assoc _ _ _
    have hsid : fromBeBytes 128 (slice r.key 0 16) = r.sid := by
      rw [hkey, slice_append_left (by simp), fromBeBytes_toBeBytes (by decide)]
    have hpred : fromBeBytes 32 (slice r.key 16 20) = r.pred := by
      rw [hkey, slice_append_right (by simp), slice_append_of_le (by simp), length_toBeBytes]
      exact (congrArg _ (List.take_of_length_le (by simp))).trans
        (fromBeBytes_toBeBytes (by decide) _)
    have hts : tTxFromKey r.key = some r.seq := tTxFromKey_grainKey _ _ _
    have hnext := ih (some (group r))
    rw [Option.map_some, group, ofLex_toLex] at hnext
    rw [List.map_cons, entry, scanLiveFrom, if_neg hlen, firsts]
    simp only [hpfx, hlast]
    by_cases heq : last = some (group r)
    · rw [if_pos heq, if_pos heq]
      exact ih last
    · rw [if_neg heq, if_neg heq, WalRecord.value, decodeValue_encodeValue]
      dsimp only
      rw [hnext, List.filterMap_cons, WalLog.grainOf, OP_DELETE]
      by_cases hop : r.op = 1
      · rw [if_pos hop, if_pos hop]
        rfl
      · rw [if_neg hop, if_neg hop, hsid, hpred, hts]
        rfl

/-- The entries of the KV of a log are those of some of its records. -/
lemma exists_records {kv : MemKv} {recs : List WalRecord} (hkv : kv.grains = WalLog.grains recs) :
    ∃ rs : List WalRecord, kv.scanAll = rs.map entry ∧ ∀ r ∈ rs, r ∈ recs := by
  have hall : ∀ e ∈ kv.scanAll, ∃ r ∈ recs, entry r = e := by
    rintro ⟨k, v⟩ he
    rw [MemKv.scanAll, hkv, Std.ExtTreeMap.mem_toList_iff_getElem?_eq_some] at he
    obtain ⟨r, hr, rfl, rfl⟩ := WalLog.exists_of_grains he
    exact ⟨r, hr, rfl⟩
  generalize kv.scanAll = l at hall ⊢
  induction l with
  | nil => exact ⟨[], rfl, by simp⟩
  | cons e l ih =>
    obtain ⟨rs, rfl, hrs⟩ := ih fun e' he' => hall e' (List.mem_cons_of_mem _ he')
    obtain ⟨r, hr, rfl⟩ := hall e List.mem_cons_self
    exact ⟨r :: rs, rfl, List.forall_mem_cons.mpr ⟨hr, hrs⟩⟩

/-- The entries of a KV come in the order of their keys. -/
lemma sorted_of_scanAll {kv : MemKv} {rs : List WalRecord} (hscan : kv.scanAll = rs.map entry) :
    rs.Pairwise fun a b => compare a.key b.key = .lt := by
  have hkeys := kv.grains.ordered_keys_toList
  rw [← MemKv.scanAll, hscan] at hkeys
  exact List.pairwise_map.mp hkeys

/-- In the order of their keys the groups come one after another. -/
lemma pairwise_group {rs : List WalRecord}
    (hsorted : rs.Pairwise fun a b => compare a.key b.key = .lt) :
    rs.Pairwise fun a b => group a ≤ group b :=
  hsorted.imp fun h => by
    rcases compare_key.mp h with hlt | ⟨heq, -⟩
    · exact hlt.le
    · exact heq.le

/-- The newest version of a grain has its entry in the KV. -/
lemma exists_entry_of_newest {kv : MemKv} {recs rs : List WalRecord} {sid : Sid} {pred : PredId}
    {r' : WalRecord} (hkv : kv.grains = WalLog.grains recs) (hscan : kv.scanAll = rs.map entry)
    (hnew : WalLog.newest recs sid pred = some r') : ∃ r ∈ rs, entry r = entry r' := by
  have hgrain := (WalLog.grains_of_visible hnew).2.2
  rw [← hkv, ← Std.ExtTreeMap.mem_toList_iff_getElem?_eq_some, ← MemKv.scanAll, hscan] at hgrain
  exact List.mem_map.mp hgrain

/-- The first entry of a group is that of its newest version. -/
lemma newest_of_mem_firsts {kv : MemKv} {recs rs : List WalRecord} {r : WalRecord}
    (hkv : kv.grains = WalLog.grains recs) (hscan : kv.scanAll = rs.map entry)
    (hrs : ∀ r ∈ rs, r ∈ recs) (hr : r ∈ firsts group none rs) :
    ∃ r', entry r' = entry r ∧ WalLog.newest recs r.sid r.pred = some r' := by
  have hsorted := sorted_of_scanAll hscan
  have hasymm : ∀ a b : WalRecord, compare a.key b.key = .lt → ¬compare b.key a.key = .lt :=
    fun a b hab hba => by simp [Std.OrientedCmp.gt_of_lt hab] at hba
  obtain ⟨hmem, hfirst⟩ := (mem_firsts_iff (pairwise_group hsorted) hsorted hasymm).mp hr
  have hver : WalLog.IsVersion r.sid r.pred (WalLog.clock recs) r :=
    ⟨rfl, rfl, WalLog.seq_le_clock (hrs r hmem)⟩
  cases hnew : WalLog.newest recs r.sid r.pred with
  | none => exact absurd hver (WalLog.visible_eq_none_iff.mp hnew r (hrs r hmem))
  | some r' =>
    obtain ⟨r'', hr'', hentry⟩ := exists_entry_of_newest hkv hscan hnew
    obtain ⟨-, hsid, hpred⟩ := WalLog.mem_of_newest hnew
    obtain ⟨hsid', hpred', hseq'⟩ := grainKey_inj.mp (Prod.mk.inj hentry).1
    have hgroup : group r'' = group r := by rw [group, group, hsid', hpred', hsid, hpred]
    rcases hfirst r'' hr'' hgroup with rfl | hlt
    · exact ⟨r', hentry.symm, rfl⟩
    · -- an older version does not come before the newest
      have hle : r.seq ≤ r'.seq := WalLog.seq_le_of_visible hnew r (hrs r hmem) hver
      rcases compare_key.mp hlt with hlt | ⟨-, hlt⟩
      · exact absurd hlt (by rw [hgroup]; exact lt_irrefl _)
      · exact absurd (hseq' ▸ hlt) (not_lt.mpr hle)

/-! ## What the scan returns -/

/-- Over the KV of a log the scan never fails.  It returns the grains that are the newest version
under their key, in the order of their keys. -/
theorem scanLive_ok {kv : MemKv} {recs : List WalRecord} (hkv : kv.grains = WalLog.grains recs) :
    ∃ live, scanLive kv = .ok live ∧
      (∀ g, g ∈ live ↔ (WalLog.newest recs g.sid g.pred).bind WalLog.grainOf = some g) ∧
      live.Pairwise fun a b => toLex (a.sid, a.pred) < toLex (b.sid, b.pred) := by
  obtain ⟨rs, hscan, hrs⟩ := exists_records hkv
  have hloop := scanLiveFrom_map none rs
  rw [Option.map_none, ← hscan] at hloop
  have hsorted := sorted_of_scanAll hscan
  refine ⟨_, hloop, ?_, ?_⟩
  · intro g
    rw [List.mem_filterMap]
    constructor
    · rintro ⟨r, hr, hg⟩
      obtain ⟨r', hentry, hnew⟩ := newest_of_mem_firsts hkv hscan hrs hr
      obtain ⟨hsid, hpred⟩ := WalLog.key_of_grainOf hg
      rw [hsid, hpred, hnew, Option.bind_some, grainOf_congr hentry, hg]
    · intro hg
      obtain ⟨r', hnew, hg'⟩ := Option.bind_eq_some_iff.mp hg
      obtain ⟨r, hr, hentry⟩ := exists_entry_of_newest hkv hscan hnew
      obtain ⟨c, hc, hgroup, -⟩ := exists_firsts group none hsorted hr (by simp)
      obtain ⟨-, hsid, hpred⟩ := WalLog.mem_of_newest hnew
      obtain ⟨hsid', hpred', -⟩ := grainKey_inj.mp (Prod.mk.inj hentry).1
      obtain ⟨hcsid, hcpred⟩ := Prod.mk.inj (toLex_inj.mp hgroup)
      obtain ⟨r'', hentry', hnew'⟩ := newest_of_mem_firsts hkv hscan hrs hc
      rw [hcsid, hcpred, hsid', hpred', hsid, hpred, hnew, Option.some.injEq] at hnew'
      refine ⟨c, hc, ?_⟩
      rw [← grainOf_congr hentry', ← hnew', hg']
  · refine (pairwise_firsts none (pairwise_group hsorted) (by simp)).1.filterMap _
      fun a b hab g hg g' hg' => ?_
    obtain ⟨hsid, hpred⟩ := WalLog.key_of_grainOf hg
    obtain ⟨hsid', hpred'⟩ := WalLog.key_of_grainOf hg'
    rw [hsid, hpred, hsid', hpred']
    exact hab

/-! ## Counting versions -/

/-- Where timestamps grow, every record has an entry of its own. -/
lemma scanAll_perm {kv : MemKv} {recs : List WalRecord} (hkv : kv.grains = WalLog.grains recs)
    (hseq : recs.Pairwise fun a b => a.seq < b.seq) : kv.scanAll.Perm (recs.map entry) := by
  have hkeys : kv.scanAll.Nodup := by
    refine kv.grains.ordered_keys_toList.imp fun {e e'} hlt heq => ?_
    rw [heq, Std.ReflOrd.compare_self] at hlt
    cases hlt
  have hseqs : (recs.map WalRecord.seq).Nodup := List.pairwise_map.mpr (hseq.imp ne_of_lt)
  have hentries : (recs.map entry).Nodup := by
    refine List.pairwise_map.mpr (hseq.imp fun {r r'} hlt heq => ?_)
    obtain ⟨-, -, hsame⟩ := grainKey_inj.mp (Prod.mk.inj heq).1
    exact hlt.ne hsame
  rw [List.perm_ext_iff_of_nodup hkeys hentries]
  rintro ⟨k, v⟩
  rw [MemKv.scanAll, hkv, Std.ExtTreeMap.mem_toList_iff_getElem?_eq_some, List.mem_map]
  constructor
  · intro h
    obtain ⟨r, hr, rfl, rfl⟩ := WalLog.exists_of_grains h
    exact ⟨r, hr, rfl⟩
  · rintro ⟨r, hr, heq⟩
    obtain ⟨rfl, rfl⟩ := Prod.mk.inj heq
    obtain ⟨v, hv⟩ := WalLog.exists_grains_of_mem hr
    obtain ⟨r', hr', hkey, rfl⟩ := WalLog.exists_of_grains hv
    obtain ⟨-, -, hsame⟩ := grainKey_inj.mp hkey
    obtain rfl := List.inj_on_of_nodup_map hseqs hr' hr hsame
    exact hv

/-- All records of the log are versions. -/
theorem totalVersions_eq {kv : MemKv} {recs : List WalRecord} (hkv : kv.grains = WalLog.grains recs)
    (hseq : recs.Pairwise fun a b => a.seq < b.seq) : totalVersions kv = recs.length := by
  rw [totalVersions, MemKv.grainCount, ← Std.ExtTreeMap.length_toList, ← MemKv.scanAll,
    (scanAll_perm hkv hseq).length_eq, List.length_map]

/-- The versions of a `(sid, pred)` are its records in the log. -/
theorem versionCount_eq {kv : MemKv} {recs : List WalRecord} (hkv : kv.grains = WalLog.grains recs)
    (hseq : recs.Pairwise fun a b => a.seq < b.seq) (sid : Sid) (pred : PredId) :
    versionCount kv sid pred = recs.countP fun r => r.sid = sid ∧ r.pred = pred := by
  rw [versionCount, MemKv.prefixCount_eq, (scanAll_perm hkv hseq).countP_eq, List.countP_map]
  refine List.countP_congr ?_
  intro r _
  rw [Function.comp_apply, List.isPrefixOf_iff_prefix, entry, WalRecord.key,
    grainPrefix_prefix_grainKey, decide_eq_true_eq, eq_comm, eq_comm (a := pred)]

end TruthStore

end GrainStore
