import Mathlib
import GrainStore.Foundation.Trace
import GrainStore.Server

/-!
# What loading stores

A load commits every record with its sid as idempotency key, so of all records ever loaded with one
sid only the first is stored.  `loaded_iff` says when the store holds what was loaded last.
-/

namespace GrainStore

open WalLog

namespace Store

variable {I V : Type*}

/-- A call of a client, or a restart of the server, with the empty index it starts from. -/
inductive Event (I : Type*) where
  | load (recs : List (GrainRec × Option (IoError × ℕ)))
  | restart (index : I)

/-- A load that returns `Ok`, or a restart on the log file. -/
def next (writer : IndexWriter I V) (embed : Bytes → Option V) (s : Store I) :
    Event I → Option (Store I)
  | .load recs =>
    match s.load recs with
    | (s', .ok _) => some s'
    | (_, .error _) => none
  | .restart index =>
    match openOn writer embed s.engine.disk index with
    | .ok (s', _) => some s'
    | .error _ => none

/-- All records of the calls of a run, in order. -/
def loaded (hist : List (Store I × Event I)) : List GrainRec :=
  hist.flatMap fun s =>
    match s.2 with
    | .load recs => recs.map Prod.fst
    | .restart _ => []

/-- The first record loaded with a sid. -/
def firstLoaded (recs : List GrainRec) (sid : U64) : Option GrainRec :=
  (recs.filter fun r => r.sid = sid).head?

/-- The last record with a sid in the last call that contained one. -/
def lastLoaded (recs : List GrainRec) (sid : U64) : Option GrainRec :=
  (recs.filter fun r => r.sid = sid).getLast?

end Store

/-- The value stored for a record. -/
def GrainRec.value (r : GrainRec) : Bytes := encodeVal r.category r.amount r.text

/-- What a record says about its sid. -/
def GrainRec.content (r : GrainRec) : FixedWidth.Byte × Int64 × String :=
  (r.category, r.amount, r.text)

/-- The request that loading a record commits. -/
def GrainRec.req (r : GrainRec) : WriteReq :=
  .put (r.sid.setWidth 128) PRED r.value (WriteMeta.new (r.sid.setWidth 128)).c 0
    (r.sid.setWidth 128)

namespace Store

variable {I V : Type*}

/-- The value of a record fits the log format. -/
def Fits (r : GrainRec) : Prop := REC_FIXED + r.value.length < 2 ^ 32

instance (r : GrainRec) : Decidable (Fits r) := inferInstanceAs (Decidable (_ < _))

/-- Whatever was stored before a restart can be read back. -/
def Restartable (hist : List (Store I × Event I)) : Prop :=
  ∀ before s index after, hist = before ++ (s, Event.restart index) :: after →
    ∀ sid r, firstLoaded (loaded before) sid = some r → Fits r

/-- The log of a store that has taken these records. -/
structure Took (recs : List GrainRec) (s : LogStore) : Prop where
  running : s.running = true
  /-- The keys used are the sids loaded. -/
  keys : ∀ sid : U64, (idem s.log)[sid.setWidth 128]? = none ↔ firstLoaded recs sid = none
  /-- A read returns the first record loaded. -/
  read : ∀ sid : U64, (s.read (sid.setWidth 128) PRED).map Grain.val =
    (firstLoaded recs sid).map fun r => .bytes r.value
  /-- Nothing else is stored. -/
  origin : ∀ r ∈ s.log, ∃ sid rec, firstLoaded recs sid = some rec ∧ r.val = rec.value

variable {recs : List GrainRec} {s : LogStore} {r : GrainRec}

lemma firstLoaded_concat (recs : List GrainRec) (r : GrainRec) (sid : U64) :
    firstLoaded (recs ++ [r]) sid =
      (firstLoaded recs sid).or (if r.sid = sid then some r else none) := by
  rw [firstLoaded, List.filter_append, List.head?_append, ← firstLoaded]
  by_cases h : r.sid = sid
  · simp [h]
  · simp [h]

/-- The first record stays the first. -/
lemma firstLoaded_append {rec : GrainRec} {sid : U64} (h : firstLoaded recs sid = some rec)
    (r : GrainRec) : firstLoaded (recs ++ [r]) sid = some rec := by
  rw [firstLoaded_concat, h]
  rfl

lemma setWidth_inj {a b : U64} : a.setWidth 128 = b.setWidth 128 ↔ a = b := by
  refine ⟨?_, fun h => h ▸ rfl⟩
  intro h
  have hnat := congrArg BitVec.toNat h
  rw [BitVec.toNat_setWidth, BitVec.toNat_setWidth, Nat.mod_eq_of_lt (by omega),
    Nat.mod_eq_of_lt (by omega)] at hnat
  exact BitVec.eq_of_toNat_eq hnat

/-- A record with a sid that was loaded before changes nothing. -/
lemma Took.repeated (h : Took recs s) (hkey : (idem s.log)[r.sid.setWidth 128]? ≠ none) :
    Took (recs ++ [r]) s := by
  have hfirst : ∀ sid, firstLoaded (recs ++ [r]) sid = firstLoaded recs sid := by
    intro sid
    rw [firstLoaded_concat]
    by_cases hsid : r.sid = sid
    · obtain rfl := hsid
      cases hold : firstLoaded recs r.sid with
      | none => exact absurd ((h.keys r.sid).mpr hold) hkey
      | some rec => rfl
    · rw [if_neg hsid, Option.or_none]
  refine ⟨h.running, ?_, ?_, ?_⟩
  · intro sid
    rw [hfirst]
    exact h.keys sid
  · intro sid
    rw [hfirst]
    exact h.read sid
  · intro w hw
    obtain ⟨sid, rec, hrec, hval⟩ := h.origin w hw
    exact ⟨sid, rec, firstLoaded_append hrec r, hval⟩

/-- A record with a new sid is stored. -/
lemma Took.stored (h : Took recs s) (htakes : s.Takes r.req) :
    Took (recs ++ [r]) { s with added := s.added ++ [s.next r.req] } := by
  have hcommit : (s.commit r.req none).1 = { s with added := s.added ++ [s.next r.req] } := by
    unfold LogStore.commit
    rw [if_pos htakes]
  have hlog : ({ s with added := s.added ++ [s.next r.req] } : LogStore).log =
      s.log ++ [s.next r.req] := (List.append_assoc _ _ _).symm
  have hnone : firstLoaded recs r.sid = none := (h.keys r.sid).mp htakes.2.1
  have hidem : (idem s.log)[(s.next r.req).idemKey]? = none := htakes.2.1
  refine ⟨h.running, ?_, ?_, ?_⟩
  · intro sid
    rw [hlog, idem_concat, firstLoaded_concat, Option.or_eq_none_iff, ← h.keys sid,
      OrderedMap.insertIfNew_of_none hidem, OrderedMap.getElem?_insert_eq]
    have hkey : (s.next r.req).idemKey = sid.setWidth 128 ↔ r.sid = sid := setWidth_inj
    by_cases hsid : r.sid = sid
    · rw [if_pos (hkey.mpr hsid), if_pos hsid]
      simp
    · rw [if_neg (mt hkey.mp hsid), if_neg hsid]
      simp
  · intro sid
    rw [← hcommit, LogStore.read_commit, firstLoaded_concat]
    have hkey : r.req.sid = sid.setWidth 128 ↔ r.sid = sid := setWidth_inj
    by_cases hsid : r.sid = sid
    · obtain rfl := hsid
      rw [if_pos ⟨⟨htakes, rfl⟩, rfl, rfl⟩, hnone, if_pos rfl]
      rfl
    · rw [if_neg fun hnew => hsid (hkey.mp hnew.2.1), if_neg hsid, Option.or_none]
      exact h.read sid
  · intro w hw
    rw [hlog] at hw
    rcases List.mem_append.mp hw with hw | hw
    · obtain ⟨sid, rec, hrec, hval⟩ := h.origin w hw
      exact ⟨sid, rec, firstLoaded_append hrec r, hval⟩
    · refine ⟨r.sid, r, ?_, List.mem_singleton.mp hw ▸ rfl⟩
      rw [firstLoaded_concat, hnone, if_pos rfl]
      rfl

/-- One record more, answered `Ok`. -/
lemma Took.commit (h : Took recs s) {failure : Option (IoError × ℕ)} {seq : U64}
    (hok : (s.commit r.req failure).2 = .ok seq) :
    Took (recs ++ [r]) (s.commit r.req failure).1 := by
  rcases LogStore.commit_of_ok hok with ⟨htakes, -, hs⟩ | ⟨hkey, hs⟩
  · rw [hs]
    exact h.stored htakes
  · rw [hs]
    exact h.repeated (by
      have hidem : (idem s.log)[r.sid.setWidth 128]? = some seq := hkey
      simp [hidem])

/-! ## Calls and restarts -/

/-- The engine of a store has taken these records, in one or more sessions. -/
def Holds (recs : List GrainRec) (e : GrainEngine I) : Prop :=
  ∃ disk s, e.truth.Shows disk s ∧ Took recs s ∧ disk = s.base.flatMap encodeFrame

/-- A batch that goes through is taken. -/
lemma Holds.putAll {e e' : GrainEngine I} (h : Holds recs e) {maxSeq maxSeq' : U64}
    {batch : List (GrainRec × Option (IoError × ℕ))}
    (hok : Store.putAll e maxSeq batch = (e', .ok maxSeq')) :
    Holds (recs ++ batch.map Prod.fst) e' := by
  induction batch generalizing recs e maxSeq with
  | nil =>
    obtain ⟨rfl, -⟩ := Prod.mk.inj hok
    rwa [List.map_nil, List.append_nil]
  | cons p batch ih =>
    obtain ⟨r, failure⟩ := p
    obtain ⟨disk, s, hshows, htook, hdisk⟩ := h
    obtain ⟨hnext, hanswer⟩ := hshows.commit r.req failure
    unfold Store.putAll at hok
    dsimp only at hok
    split at hok
    · simp at hok
    · rename_i seq hput
      have hseq : (s.commit r.req failure).2 = .ok seq := hanswer.symm.trans hput
      have hbase := (s.commit_log r.req failure).1
      rw [List.map_cons, List.append_cons]
      exact ih ⟨_, _, hnext, htook.commit hseq, by rw [hbase]; exact hdisk⟩ hok

/-- What opening a log file gives. -/
lemma truth_of_openOn {writer : IndexWriter I V} {embed : Bytes → Option V} {disk : Bytes}
    {index : I} {s : Store I} {restored : ℕ}
    (hopen : openOn writer embed disk index = .ok (s, restored)) :
    s.engine.truth = (TruthStore.start disk).subscribe := by
  unfold openOn GrainEngine.rebuildIndexFromTruth at hopen
  dsimp only at hopen
  cases hlive : TruthStore.scanLive (GrainEngine.openWith disk index).truth.committer.kv with
  | error err =>
    rw [hlive] at hopen
    cases hopen
  | ok live =>
    rw [hlive] at hopen
    obtain ⟨rfl, -⟩ := Prod.mk.inj (Except.ok.inj hopen)
    rfl

/-- A store opened on the records taken has taken them. -/
lemma Took.opened (h : Took recs s) {disk : Bytes} (hlog : logOf disk = s.log) :
    Took recs (LogStore.opened disk) := by
  have hlog' : (LogStore.opened disk).log = s.log := by
    rw [← hlog]
    exact List.append_nil _
  refine ⟨rfl, ?_, ?_, ?_⟩
  · rw [hlog']
    exact h.keys
  · intro sid
    rw [LogStore.read, hlog']
    exact h.read sid
  · rw [hlog']
    exact h.origin

/-- Reopening the log file finds all that was taken. -/
lemma Holds.reopen {writer : IndexWriter I V} {embed : Bytes → Option V} {e : GrainEngine I}
    {index : I} {s' : Store I} {restored : ℕ} (h : Holds recs e)
    (hfit : ∀ sid r, firstLoaded recs sid = some r → Fits r)
    (hopen : openOn writer embed e.disk index = .ok (s', restored)) : Holds recs s'.engine := by
  obtain ⟨disk, s, hshows, htook, hdisk⟩ := h
  have hall : e.disk = s.log.flatMap encodeFrame := by
    rw [GrainEngine.disk, hshows.file, hshows.tail htook.running, List.append_nil, LogStore.log,
      List.flatMap_append, hdisk]
  have hfits : ∀ r ∈ s.log, r.Fits := by
    intro r hr
    obtain ⟨sid, rec, hrec, hval⟩ := htook.origin r hr
    rw [WalRecord.Fits, hval]
    exact hfit sid rec hrec
  have hlog : logOf e.disk = s.log := by rw [hall, logOf_flatMap hfits]
  refine ⟨e.disk, LogStore.opened e.disk, ?_, htook.opened hlog, ?_⟩
  · rw [truth_of_openOn hopen]
    exact TruthStore.shows_start e.disk
  · rw [hall, LogStore.opened, logOf_flatMap hfits]

/-- An empty log file has taken nothing. -/
lemma holds_start {writer : IndexWriter I V} {embed : Bytes → Option V} {index : I} {s₀ : Store I}
    {restored : ℕ} (hopen : openOn writer embed [] index = .ok (s₀, restored)) :
    Holds [] s₀.engine := by
  have hlog : (LogStore.opened []).log = [] := by
    rw [LogStore.log, LogStore.opened, logOf_of_none rfl]
    rfl
  refine ⟨[], LogStore.opened [], ?_, ⟨rfl, fun sid => ?_, fun sid => ?_, fun r hr => ?_⟩, ?_⟩
  · rw [truth_of_openOn hopen]
    exact TruthStore.shows_start []
  · rw [hlog]
    exact iff_of_true Std.ExtTreeMap.getElem?_empty rfl
  · rw [LogStore.read, hlog]
    rfl
  · rw [hlog] at hr
    cases hr
  · rw [LogStore.opened, logOf_of_none rfl]
    rfl

section Runs

variable {writer : IndexWriter I V} {embed : Bytes → Option V} {index : I} {s₀ s : Store I}
  {restored : ℕ} {hist : List (Store I × Event I)}

/-- What a run stores. -/
lemma holds_of_run (hopen : openOn writer embed [] index = .ok (s₀, restored))
    (h : Trace.Run (next writer embed) s₀ hist s) (hrestart : Restartable hist) :
    Holds (loaded hist) s.engine := by
  induction h with
  | start => exact holds_start hopen
  | @step hist y z e hrun hnext ih =>
    have hbefore : Restartable hist := fun before s index after hsplit =>
      hrestart before s index (after ++ [(y, e)]) (by rw [hsplit]; simp)
    have hy := ih hbefore
    have hloaded : loaded (hist ++ [(y, e)]) = loaded hist ++ loaded [(y, e)] :=
      List.flatMap_append
    rw [hloaded]
    cases e with
    | load recs =>
      unfold next load at hnext
      dsimp only at hnext
      cases hput : putAll y.engine y.lastSeq recs with
      | mk e' answer =>
        rw [hput] at hnext
        cases answer with
        | error err => cases hnext
        | ok maxSeq =>
          obtain rfl := Option.some.inj hnext
          have hbatch : loaded [(y, Event.load recs)] = recs.map Prod.fst := List.append_nil _
          rw [hbatch]
          exact hy.putAll hput
    | restart index =>
      unfold next at hnext
      dsimp only at hnext
      cases hreopen : openOn writer embed y.engine.disk index with
      | error err =>
        rw [hreopen] at hnext
        cases hnext
      | ok p =>
        rw [hreopen] at hnext
        obtain rfl := Option.some.inj hnext
        have hnothing : loaded [(y, Event.restart index)] = [] := rfl
        rw [hnothing, List.append_nil]
        exact hy.reopen (hrestart hist y index [] rfl) hreopen

/-- A read decodes to what was loaded first. -/
lemma Holds.read {recs : List GrainRec} {e : GrainEngine I} (h : Holds recs e) (sid : U64) :
    (firstLoaded recs sid = none → e.truth.read (sid.setWidth 128) PRED = .ok none) ∧
      ∀ rec, firstLoaded recs sid = some rec →
        ∃ g, e.truth.read (sid.setWidth 128) PRED = .ok (some g) ∧
          decodeVal g.val = rec.content := by
  obtain ⟨disk, s, hshows, htook, -⟩ := h
  have hread := htook.read sid
  rw [hshows.read]
  refine ⟨?_, ?_⟩
  · intro hnone
    rw [hnone, Option.map_none, Option.map_eq_none_iff] at hread
    rw [hread]
  · intro rec hrec
    rw [hrec, Option.map_some, Option.map_eq_some_iff] at hread
    obtain ⟨g, hg, hval⟩ := hread
    refine ⟨g, by rw [hg], ?_⟩
    rw [hval, GrainRec.value]
    exact decodeVal_encodeVal _ _ _

/-- A record loaded last has a first one before it. -/
lemma exists_firstLoaded {recs : List GrainRec} {sid : U64} {last : GrainRec}
    (h : lastLoaded recs sid = some last) : ∃ first, firstLoaded recs sid = some first := by
  rw [lastLoaded] at h
  rw [firstLoaded]
  cases hrecs : recs.filter fun r => r.sid = sid with
  | nil => simp [hrecs] at h
  | cons first rest => exact ⟨first, rfl⟩

/-- When loading stores what was loaded.  Start on an empty log file, and take any sequence of load
calls that return `Ok` and restarts, where what is stored before a restart fits the log format.
Every sid then reads as the last record loaded with it exactly when, for every sid, the last record
loaded has the category, amount and text of the first one. -/
theorem loaded_iff (hopen : openOn writer embed [] index = .ok (s₀, restored))
    (h : Trace.Run (next writer embed) s₀ hist s) (hrestart : Restartable hist) :
    (∀ sid last, lastLoaded (loaded hist) sid = some last →
        ∃ g, s.engine.truth.read (sid.setWidth 128) PRED = .ok (some g) ∧
          decodeVal g.val = last.content) ↔
      ∀ sid first last, firstLoaded (loaded hist) sid = some first →
        lastLoaded (loaded hist) sid = some last → first.content = last.content := by
  have hholds := holds_of_run hopen h hrestart
  constructor
  · intro hall sid first last hfirst hlast
    obtain ⟨g, hread, hval⟩ := hall sid last hlast
    obtain ⟨g', hread', hval'⟩ := (hholds.read sid).2 first hfirst
    have hg : g' = g := Option.some.inj (Except.ok.inj (hread'.symm.trans hread))
    rw [← hval, ← hval', hg]
  · intro hsame sid last hlast
    obtain ⟨first, hfirst⟩ := exists_firstLoaded hlast
    obtain ⟨g, hread, hval⟩ := (hholds.read sid).2 first hfirst
    exact ⟨g, hread, hval.trans (hsame sid first last hfirst hlast)⟩

end Runs

/-- Records that all fit can be read back. -/
lemma restartable_of_forall {hist : List (Store I × Event I)} (h : ∀ r ∈ loaded hist, Fits r) :
    Restartable hist := by
  rintro before s index after rfl sid r hr
  refine h r ?_
  rw [loaded, List.flatMap_append]
  exact List.mem_append_left _ (List.mem_filter.mp (List.mem_of_head? hr)).1

namespace LoadExample

/-- An index that keeps nothing. -/
def noIndex : IndexWriter Unit Unit := ⟨fun i _ _ => i, fun i _ => i⟩

def fresh : Store Unit := ⟨GrainEngine.openWith [] (), 0⟩

/-- A record with sid 7 and no text. -/
def grain (category : FixedWidth.Byte) : GrainRec := ⟨7, category, 0, ""⟩

/-- The run of some calls and restarts. -/
def run (events : List (Event Unit)) : Option (List (Store Unit × Event Unit) × Store Unit) :=
  Trace.exec (next noIndex fun _ => none) fresh events

lemma openOn_fresh : openOn noIndex (fun _ => none) [] () = .ok (fresh, 0) := by
  have hlive : TruthStore.scanLive fresh.engine.truth.committer.kv = .ok [] := by decide +kernel
  unfold openOn GrainEngine.rebuildIndexFromTruth
  dsimp only
  rw [show GrainEngine.openWith [] () = fresh.engine from rfl, hlive]
  rfl

end LoadExample

open LoadExample in
/-- A record of category 1 and then one of category 2 with the same sid, both loaded with `Ok`: the
first one stays. -/
theorem reload_dropped :
    openOn noIndex (fun _ => none) [] () = .ok (fresh, 0) ∧
      ∃ hist s, Trace.Run (next noIndex fun _ => none) fresh hist s ∧
        hist.map Prod.snd = [.load [(grain 1, none)], .load [(grain 2, none)]] ∧
        lastLoaded (loaded hist) 7 = some (grain 2) ∧ (grain 2).content = (2, 0, "") ∧
        ∃ g, s.engine.truth.read ((7 : U64).setWidth 128) PRED = .ok (some g) ∧
          decodeVal g.val = (1, 0, "") := by
  have hexec : (run [.load [(grain 1, none)], .load [(grain 2, none)]]).map (fun p =>
      (lastLoaded (loaded p.1) 7, p.2.engine.truth.read ((7 : U64).setWidth 128) PRED)) =
        some (some (grain 2), .ok (some ⟨7, 0, .bytes (grain 1).value, 0x3F800000, 0, 1⟩)) := by
    decide +kernel
  obtain ⟨⟨hist, s⟩, hrun, heq⟩ := Option.map_eq_some_iff.mp hexec
  obtain ⟨hlast, hread⟩ := Prod.mk.inj heq
  exact ⟨openOn_fresh, hist, s, Trace.run_of_exec hrun, Trace.map_snd_of_exec hrun, hlast, rfl, _,
    hread, decodeVal_encodeVal 1 0 ""⟩

open LoadExample in
/-- A record is loaded again after a restart. -/
theorem loaded_iff_restart :
    ∃ hist s, Trace.Run (next noIndex fun _ => none) fresh hist s ∧
      hist.map Prod.snd = [.load [(grain 1, none)], .restart (), .load [(grain 1, none)]] ∧
      ∀ sid last, lastLoaded (loaded hist) sid = some last →
        ∃ g, s.engine.truth.read (sid.setWidth 128) PRED = .ok (some g) ∧
          decodeVal g.val = last.content := by
  have hexec : (run [.load [(grain 1, none)], .restart (), .load [(grain 1, none)]]).map
      (fun p => loaded p.1) = some [grain 1, grain 1] := by
    decide +kernel
  obtain ⟨⟨hist, s⟩, hrun, hloaded⟩ := Option.map_eq_some_iff.mp hexec
  have hall : ∀ r ∈ loaded hist, r = grain 1 := by
    intro r hr
    rw [hloaded] at hr
    simpa using hr
  have hfits : ∀ r ∈ loaded hist, Fits r := by
    intro r hr
    rw [hall r hr]
    decide +kernel
  refine ⟨hist, s, Trace.run_of_exec hrun, Trace.map_snd_of_exec hrun,
    (loaded_iff openOn_fresh (Trace.run_of_exec hrun) (restartable_of_forall hfits)).mpr ?_⟩
  intro sid first last hfirst hlast
  rw [hall first (List.mem_filter.mp (List.mem_of_head? hfirst)).1,
    hall last (List.mem_filter.mp (List.mem_of_getLast? hlast)).1]

end Store

end GrainStore
