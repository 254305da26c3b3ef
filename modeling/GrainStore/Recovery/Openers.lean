import Mathlib
import GrainStore.Foundation.Trace
import GrainStore.Recovery.Represents

/-!
# Two openers of one log

Nothing keeps two truth stores from opening the same log file.  Each has a clock and a dedup map of
its own, recovered when it was opened, and both append to the file.  `nothingLost_iff` says when a
later recovery still finds what either of them acknowledged.
-/

namespace GrainStore

open WalLog TruthStore Committer

/-- A log file, and the stores open on it. -/
structure Openers where
  file : Bytes
  stores : Bool → Option Committer

/-- A step of one of the two openers. -/
inductive OpenerEvent where
  /-- It opens the file. -/
  | opens (who : Bool)
  /-- It commits a group of requests; the batch is appended at once. -/
  | commits (who : Bool) (first : Pending) (more : List Pending)

namespace Openers

/-- Nobody has opened the file. -/
def start (disk : Bytes) : Openers := ⟨disk, fun _ => none⟩

def next (o : Openers) : OpenerEvent → Option Openers
  | .opens who =>
    match o.stores who with
    | some _ => none
    | none => some { o with stores := Function.update o.stores who (some (openLog o.file)) }
  | .commits who first more =>
    match o.stores who with
    | none => none
    | some s =>
      -- the file is opened in append mode: the batch goes behind whatever is there
      match Committer.commitBatch { s with file := o.file } (first :: more) with
      | none => none
      | some s' => some ⟨s'.file, Function.update o.stores who (some s')⟩

/-- Both stores are open. -/
def both (o : Openers) : Bool := (o.stores false).isSome && (o.stores true).isSome

/-- The versions that a step commits. -/
def committed : Openers × OpenerEvent → List WalRecord
  | (o, .commits who first more) =>
    match o.stores who with
    | some s => s.ledger.records (first :: more)
    | none => []
  | _ => []

/-- The requests with new keys that a step commits. -/
def newRequests : Openers × OpenerEvent → List WriteReq
  | (o, .commits who first more) =>
    match o.stores who with
    | some s => (s.ledger.fresh (first :: more)).map fun a => a.1.req
    | none => []
  | _ => []

/-- A step of one store while both are open. -/
def jointly (who : Bool) : Openers × OpenerEvent → Bool
  | (o, .commits who' _ _) => o.both && who' = who
  | _ => false

/-- What the steps of a run that satisfy `p` commit. -/
def committedIn (p : Openers × OpenerEvent → Bool) (hist : List (Openers × OpenerEvent)) :
    List WalRecord :=
  (hist.filter p).flatMap committed

/-- The versions committed while at most one store was open. -/
def solo (hist : List (Openers × OpenerEvent)) : List WalRecord :=
  committedIn (fun s => !s.1.both) hist

/-- The versions committed while both were. -/
def joint (hist : List (Openers × OpenerEvent)) : List WalRecord :=
  committedIn (fun s => s.1.both) hist

/-- Those of one store among them. -/
def own (who : Bool) (hist : List (Openers × OpenerEvent)) : List WalRecord :=
  committedIn (jointly who) hist

/-- The versions a run has committed. -/
def allCommitted (hist : List (Openers × OpenerEvent)) : List WalRecord := hist.flatMap committed

/-- What a version is, but for its timestamp and key. -/
def content (req : WriteReq) : Sid × PredId × FixedWidth.Byte × Bytes × F32 × U64 :=
  (req.sid, req.pred, req.op, req.val, req.c, req.tValid)

/-- While both were open, the two stores were asked for the same versions, place by place. -/
def Agree (hist : List (Openers × OpenerEvent)) : Prop :=
  ∀ p ∈ ((hist.filter (jointly false)).flatMap newRequests).zip
    ((hist.filter (jointly true)).flatMap newRequests), content p.1 = content p.2

instance (hist : List (Openers × OpenerEvent)) : Decidable (Agree hist) :=
  inferInstanceAs (Decidable (∀ p ∈ _, _))

/-- Nothing acknowledged is lost. -/
structure NothingLost (disk : Bytes) (hist : List (Openers × OpenerEvent)) (o : Openers) :
    Prop where
  /-- Every answer of a store is for a version that was recovered from the file first opened or
  committed since. -/
  answered : ∀ who s pw seq, o.stores who = some s → (pw, .ok seq) ∈ s.sent →
    ∃ r ∈ logOf disk ++ allCommitted hist, r.idemKey = pw.req.idemKey ∧ r.seq = seq
  /-- A later recovery finds every version committed. -/
  kept : ∀ r ∈ allCommitted hist, (openLog o.file).kv.grains[r.key]? = some r.value
  /-- It finds all that it found before. -/
  recovered : ∀ key value : Bytes, (openLog disk).kv.grains[key]? = some value →
    (openLog o.file).kv.grains[key]? = some value
  /-- A timestamp handed out belongs to one version. -/
  identifies : ∀ r ∈ allCommitted hist, ∀ r' ∈ logOf disk ++ allCommitted hist,
    r.seq = r'.seq → r.key = r'.key ∧ r.value = r'.value

variable {disk : Bytes} {o o' : Openers} {hist : List (Openers × OpenerEvent)}

/-! ## What a run keeps -/

lemma committedIn_concat (p : Openers × OpenerEvent → Bool) (hist : List (Openers × OpenerEvent))
    (s : Openers × OpenerEvent) :
    committedIn p (hist ++ [s]) = committedIn p hist ++ if p s then committed s else [] := by
  rw [committedIn, List.filter_append, List.flatMap_append, committedIn]
  by_cases h : p s = true
  · simp [h]
  · simp [h]

lemma allCommitted_concat (hist : List (Openers × OpenerEvent)) (s : Openers × OpenerEvent) :
    allCommitted (hist ++ [s]) = allCommitted hist ++ committed s := by
  simp [allCommitted]

/-- What a commit adds to the versions that either or both stores have committed. -/
lemma concat_commits (o : Openers) (who : Bool) (first : Pending) (more : List Pending)
    (hist : List (Openers × OpenerEvent)) :
    let recs := committed (o, .commits who first more)
    solo (hist ++ [(o, .commits who first more)]) = solo hist ++ (if o.both then [] else recs) ∧
      joint (hist ++ [(o, .commits who first more)]) = joint hist ++ (if o.both then recs else []) ∧
      ∀ who', own who' (hist ++ [(o, .commits who first more)]) =
        own who' hist ++ if o.both && who = who' then recs else [] := by
  refine ⟨?_, committedIn_concat _ _ _, fun who' => committedIn_concat _ _ _⟩
  rw [solo, committedIn_concat]
  cases o.both with
  | false => rfl
  | true => rfl

/-- The stores after one of them was replaced. -/
lemma of_update {stores : Bool → Option Committer} {who who' : Bool} {s t : Committer}
    (h : Function.update stores who (some s) who' = some t) :
    who' = who ∧ t = s ∨ who' ≠ who ∧ stores who' = some t := by
  by_cases hwho : who' = who
  · obtain rfl := hwho
    rw [Function.update_self] at h
    exact Or.inl ⟨rfl, (Option.some.inj h).symm⟩
  · rw [Function.update_of_ne hwho] at h
    exact Or.inr ⟨hwho, h⟩

/-- Two different stores are both. -/
lemma both_of_ne {who who' : Bool} {s t : Committer} (hs : o.stores who = some s)
    (ht : o.stores who' = some t) (hne : who' ≠ who) : o.both = true := by
  unfold both
  cases who with
  | false =>
    obtain rfl : who' = true := by simpa using hne
    simp [hs, ht]
  | true =>
    obtain rfl : who' = false := by simpa using hne
    simp [hs, ht]

/-- A version committed while both are open is committed by one of the stores. -/
lemma mem_joint {r : WalRecord} : r ∈ joint hist ↔ ∃ who, r ∈ own who hist := by
  simp only [joint, own, committedIn, List.mem_flatMap, List.mem_filter]
  constructor
  · rintro ⟨⟨o, e⟩, ⟨hs, hboth⟩, hr⟩
    cases e with
    | opens who => simp [committed] at hr
    | commits who first more => exact ⟨who, _, ⟨hs, by simpa [jointly] using hboth⟩, hr⟩
  · rintro ⟨who, ⟨o, e⟩, ⟨hs, hjoint⟩, hr⟩
    cases e with
    | opens who => simp [committed] at hr
    | commits who' first more =>
      rw [jointly, Bool.and_eq_true] at hjoint
      exact ⟨_, ⟨hs, hjoint.1⟩, hr⟩

/-- What a run makes of the file and of the stores. -/
structure Shared (disk : Bytes) (hist : List (Openers × OpenerEvent)) (o : Openers) : Prop where
  file : o.file = disk ++ (allCommitted hist).flatMap encodeFrame
  /-- As long as only one store is open it commits alone. -/
  alone : o.both = false → joint hist = []
  order : allCommitted hist = solo hist ++ joint hist
  solo : Extends (logOf disk) (solo hist)
  /-- Both stores go on from the same log. -/
  own : ∀ who, Extends (logOf disk ++ Openers.solo hist) (own who hist)
  ledger : ∀ who s, o.stores who = some s →
    s.ledger = Ledger.ofLog (logOf disk ++ Openers.solo hist ++ Openers.own who hist)
  answered : ∀ who s pw seq, o.stores who = some s → (pw, .ok seq) ∈ s.sent →
    ∃ r ∈ logOf disk ++ allCommitted hist, r.idemKey = pw.req.idemKey ∧ r.seq = seq

lemma Shared.start (disk : Bytes) : Shared disk [] (start disk) where
  file := (List.append_nil disk).symm
  alone := fun _ => rfl
  order := rfl
  solo := Extends.nil
  own := fun _ => Extends.nil
  ledger := nofun
  answered := nofun

/-- A store alone has nothing of its own yet. -/
lemma Shared.own_of_alone (h : Shared disk hist o) (hboth : o.both = false) (who : Bool) :
    Openers.own who hist = [] := by
  refine List.eq_nil_iff_forall_not_mem.mpr ?_
  intro r hr
  have hmem := mem_joint.mpr ⟨who, hr⟩
  rw [h.alone hboth] at hmem
  simp at hmem

/-- Opening the file goes on from its log. -/
lemma Shared.opens {who : Bool} (h : Shared disk hist o)
    (hlog : logOf o.file = logOf disk ++ allCommitted hist)
    (hstep : o.next (.opens who) = some o') : Shared disk (hist ++ [(o, .opens who)]) o' := by
  unfold next at hstep
  dsimp only at hstep
  split at hstep
  case h_1 => simp at hstep
  case h_2 hclosed =>
    obtain rfl := Option.some.inj hstep
    have hboth : o.both = false := by
      rw [both]
      cases who with
      | false => simp [hclosed]
      | true => simp [hclosed]
    have hnone : committed (o, .opens who) = [] := rfl
    have hin : ∀ p, committedIn p (hist ++ [(o, .opens who)]) = committedIn p hist := by
      intro p
      rw [committedIn_concat, hnone, ite_self, List.append_nil]
    have hall : allCommitted (hist ++ [(o, .opens who)]) = allCommitted hist := by
      rw [allCommitted_concat, hnone, List.append_nil]
    refine ⟨?_, fun _ => ?_, ?_, ?_, fun who' => ?_, fun who' s hs => ?_,
      fun who' s pw seq hs hsent => ?_⟩
    all_goals simp only [Openers.solo, Openers.own, joint, hin, hall]
    · exact h.file
    · exact h.alone hboth
    · exact h.order
    · exact h.solo
    · exact h.own who'
    · rcases of_update hs with ⟨rfl, rfl⟩ | ⟨-, hs⟩
      · have hown : committedIn (jointly who') hist = [] := h.own_of_alone hboth who'
        have hsolo : allCommitted hist = committedIn (fun s => !s.1.both) hist := by
          rw [h.order, h.alone hboth]
          exact List.append_nil _
        rw [(represents_openLog o.file).ledger, hlog, hown, List.append_nil, hsolo]
      · exact h.ledger who' s hs
    · rcases of_update hs with ⟨rfl, rfl⟩ | ⟨-, hs⟩
      · simp [openLog, Wal.open] at hsent
      · exact h.answered who' s pw seq hs hsent

/-- What a commit of a store does: its ledger and the file go on by the records of the batch. -/
lemma committed_of_next {who : Bool} {first : Pending} {more : List Pending}
    (hstep : o.next (.commits who first more) = some o') :
    ∃ s s', o.stores who = some s ∧ o' = ⟨s'.file, Function.update o.stores who (some s')⟩ ∧
      Committed { s with file := o.file } (first :: more) s' ∧
      s.ledger.clock.toNat + (s.ledger.newKeys (first :: more)).length < 2 ^ 64 := by
  unfold next at hstep
  dsimp only at hstep
  split at hstep
  case h_1 => simp at hstep
  case h_2 s hopen =>
    split at hstep
    case h_1 => simp at hstep
    case h_2 s' hcommit =>
      obtain rfl := Option.some.inj hstep
      exact ⟨s, s', hopen, rfl, committed_of_commitBatch (List.cons_ne_nil _ _) hcommit,
        (lt_of_commitBatch (List.cons_ne_nil _ _) hcommit :)⟩

section Commits

variable {who : Bool} {first : Pending} {more : List Pending} {s s' : Committer}

/-- The records a commit adds extend the log of its store, and its answers are for these records or
older ones. -/
lemma Shared.records (h : Shared disk hist o) (hopen : o.stores who = some s)
    (hlt : s.ledger.clock.toNat + (s.ledger.newKeys (first :: more)).length < 2 ^ 64) :
    let log := logOf disk ++ Openers.solo hist ++ Openers.own who hist
    let recs := committed (o, .commits who first more)
    Extends log recs ∧
      (∀ a ∈ s.ledger.answers (first :: more), ∃ r ∈ log ++ recs,
        r.idemKey = a.1.req.idemKey ∧ r.seq = a.2) ∧
      s.ledger.after (first :: more) = Ledger.ofLog (log ++ recs) := by
  have hrecs : committed (o, .commits who first more) = s.ledger.records (first :: more) := by
    rw [committed, hopen]
  have hledger := h.ledger who s hopen
  rw [hledger] at hlt
  obtain ⟨hext, hanswers⟩ := Ledger.records_ofLog hlt
  have hafter := Ledger.after_ofLog hlt
  rw [← hledger] at hext hanswers hafter
  rw [hrecs]
  exact ⟨hext, hanswers, hafter⟩

/-- The logs of the two stores after a commit. -/
lemma Shared.logs_commits (h : Shared disk hist o)
    (hext : Extends (logOf disk ++ Openers.solo hist ++ Openers.own who hist)
      (committed (o, .commits who first more))) :
    Extends (logOf disk) (Openers.solo (hist ++ [(o, .commits who first more)])) ∧
      ∀ who', Extends (logOf disk ++ Openers.solo (hist ++ [(o, .commits who first more)]))
        (Openers.own who' (hist ++ [(o, .commits who first more)])) := by
  obtain ⟨hsolo, -, hown⟩ := concat_commits o who first more hist
  rw [hsolo]
  refine ⟨?_, ?_⟩
  · cases hboth : o.both with
    | false =>
      rw [h.own_of_alone hboth, List.append_nil] at hext
      exact h.solo.append hext
    | true => exact (List.append_nil (Openers.solo hist)).symm ▸ h.solo
  · intro who'
    rw [hown]
    cases hboth : o.both with
    | false =>
      rw [h.own_of_alone hboth who']
      exact Extends.nil
    | true =>
      by_cases hwho : who = who'
      · obtain rfl := hwho
        simpa using (h.own who).append hext
      · simpa [hwho] using h.own who'

/-- The ledgers of the two stores after a commit. -/
lemma Shared.ledger_commits (h : Shared disk hist o) (hopen : o.stores who = some s)
    (hnow : s'.ledger = Ledger.ofLog (logOf disk ++ Openers.solo hist ++ Openers.own who hist ++
      committed (o, .commits who first more))) {who' : Bool} {t : Committer}
    (ht : Function.update o.stores who (some s') who' = some t) :
    t.ledger = Ledger.ofLog (logOf disk ++ Openers.solo (hist ++ [(o, .commits who first more)]) ++
      Openers.own who' (hist ++ [(o, .commits who first more)])) := by
  obtain ⟨hsolo, -, hown⟩ := concat_commits o who first more hist
  rw [hsolo, hown]
  rcases of_update ht with ⟨rfl, rfl⟩ | ⟨hwho, ht⟩
  · rw [hnow]
    cases hboth : o.both with
    | false => simp [h.own_of_alone hboth]
    | true => simp
  · have hboth := both_of_ne hopen ht hwho
    simpa [hboth, Ne.symm hwho] using h.ledger who' t ht

/-- The answers of the two stores after a commit. -/
lemma Shared.answered_commits (h : Shared disk hist o) (hopen : o.stores who = some s)
    (hc : Committed { s with file := o.file } (first :: more) s')
    (hanswers : ∀ a ∈ s.ledger.answers (first :: more),
      ∃ r ∈ logOf disk ++ Openers.solo hist ++ Openers.own who hist ++
        committed (o, .commits who first more), r.idemKey = a.1.req.idemKey ∧ r.seq = a.2)
    {who' : Bool} {t : Committer} (ht : Function.update o.stores who (some s') who' = some t)
    {pw : Pending} {seq : U64} (hsent : (pw, .ok seq) ∈ t.sent) :
    ∃ r ∈ logOf disk ++ allCommitted (hist ++ [(o, .commits who first more)]),
      r.idemKey = pw.req.idemKey ∧ r.seq = seq := by
  have hmore : ∀ r,
      r ∈ logOf disk ++ allCommitted hist ∨ r ∈ committed (o, .commits who first more) →
      r ∈ logOf disk ++ allCommitted (hist ++ [(o, .commits who first more)]) := by
    intro r hr
    rw [allCommitted_concat, ← List.append_assoc]
    exact List.mem_append.mpr hr
  rcases of_update ht with ⟨rfl, rfl⟩ | ⟨-, ht⟩
  · rcases List.mem_append.mp (hc.sent.mem_iff.mp hsent) with hsent | hsent
    · obtain ⟨r, hr, hrest⟩ := h.answered who' s pw seq hopen hsent
      exact ⟨r, hmore r (Or.inl hr), hrest⟩
    · obtain ⟨a, ha, heq⟩ := List.mem_map.mp hsent
      obtain ⟨rfl, hseq⟩ := Prod.mk.inj heq
      obtain rfl := Except.ok.inj hseq
      obtain ⟨r, hr, hrest⟩ := hanswers a ha
      refine ⟨r, hmore r ?_, hrest⟩
      -- the records behind which the store commits are in the file
      rw [h.order, ← List.append_assoc]
      rcases List.mem_append.mp hr with hr | hr
      · rcases List.mem_append.mp hr with hr | hr
        · exact Or.inl (List.mem_append_left _ hr)
        · exact Or.inl (List.mem_append_right _ (mem_joint.mpr ⟨who', hr⟩))
      · exact Or.inr hr
  · obtain ⟨r, hr, hrest⟩ := h.answered who' t pw seq ht hsent
    exact ⟨r, hmore r (Or.inl hr), hrest⟩

/-- A commit extends the log of its store. -/
lemma Shared.commits (h : Shared disk hist o) (hstep : o.next (.commits who first more) = some o') :
    Shared disk (hist ++ [(o, .commits who first more)]) o' := by
  obtain ⟨s, s', hopen, rfl, hc, hlt⟩ := committed_of_next hstep
  obtain ⟨hsolo, hjoint, -⟩ := concat_commits o who first more hist
  obtain ⟨hext, hanswers, hafter⟩ := h.records hopen hlt
  obtain ⟨hext_solo, hext_own⟩ := h.logs_commits hext
  have hsame : (⟨s'.file, Function.update o.stores who (some s')⟩ : Openers).both = o.both := by
    unfold both
    cases who with
    | false => simp [hopen]
    | true => simp [hopen]
  refine ⟨?_, ?_, ?_, hext_solo, hext_own,
    fun who' t ht => h.ledger_commits hopen (hc.ledger.trans hafter) ht,
    fun who' t pw seq ht hsent => h.answered_commits hopen hc hanswers ht hsent⟩
  · have hfile := hc.file
    have hrecs : committed (o, .commits who first more) = s.ledger.records (first :: more) := by
      rw [committed, hopen]
    dsimp only at hfile ⊢
    rw [allCommitted_concat, List.flatMap_append, ← List.append_assoc, ← h.file, hfile, hrecs]
    rfl
  · intro hboth
    rw [hsame] at hboth
    rw [hjoint, hboth, h.alone hboth]
    rfl
  · rw [allCommitted_concat, h.order, hsolo, hjoint]
    cases hboth : o.both with
    | false => simp [h.alone hboth]
    | true => simp

end Commits

/-- The log of a file that records were appended to. -/
lemma logOf_append {recs : List WalRecord} (hwhole : walCodec.rest disk = [] ∨ recs = [])
    (hfit : ∀ r ∈ recs, r.Fits) : logOf (disk ++ recs.flatMap encodeFrame) = logOf disk ++ recs := by
  rcases hwhole with hrest | rfl
  · rw [logOf, walCodec.toFrameDecoder.frames_append, hrest, List.nil_append]
    exact congrArg (logOf disk ++ ·) (logOf_flatMap hfit)
  · rw [List.flatMap_nil, List.append_nil, List.append_nil]

/-- What a run makes of the file and of the stores, when all that is committed can be read back. -/
lemma shared_of_run (h : Trace.Run next (start disk) hist o)
    (hwhole : walCodec.rest disk = [] ∨ allCommitted hist = [])
    (hfit : ∀ r ∈ allCommitted hist, r.Fits) : Shared disk hist o := by
  induction h with
  | start => exact Shared.start disk
  | @step hist o o' e hrun hstep ih =>
    rw [allCommitted_concat] at hwhole hfit
    have hwhole' : walCodec.rest disk = [] ∨ allCommitted hist = [] :=
      hwhole.imp_right fun hnil => (List.append_eq_nil_iff.mp hnil).1
    have hfit' : ∀ r ∈ allCommitted hist, r.Fits := fun r hr => hfit r (List.mem_append_left _ hr)
    have hshared := ih hwhole' hfit'
    cases e with
    | opens who =>
      refine hshared.opens ?_ hstep
      rw [hshared.file, logOf_append hwhole' hfit']
    | commits who first more => exact hshared.commits hstep

/-! ## Versions -/

/-- The content of a record. -/
def versionOf (r : WalRecord) : Sid × PredId × FixedWidth.Byte × Bytes × F32 × U64 :=
  (r.sid, r.pred, r.op, r.val, r.c, r.tValid)

/-- Under one timestamp, records of one content are one version. -/
lemma versionOf_eq_iff {r r' : WalRecord} (hseq : r.seq = r'.seq) :
    versionOf r = versionOf r' ↔ r.key = r'.key ∧ r.value = r'.value := by
  constructor
  · intro h
    simp only [versionOf, Prod.mk.injEq] at h
    obtain ⟨hsid, hpred, hop, hval, hc, ht⟩ := h
    rw [WalRecord.key, WalRecord.key, WalRecord.value, WalRecord.value, hsid, hpred, hseq, hop, hval,
      hc, ht]
    exact ⟨rfl, rfl⟩
  · rintro ⟨hkey, hvalue⟩
    obtain ⟨hsid, hpred, -⟩ := grainKey_inj.mp hkey
    have hdecode := congrArg decodeValue hvalue
    rw [WalRecord.value, WalRecord.value, decodeValue_encodeValue, decodeValue_encodeValue] at hdecode
    simp only [Except.ok.injEq, Prod.mk.injEq] at hdecode
    obtain ⟨hop, hc, ht, hval⟩ := hdecode
    rw [versionOf, versionOf, hsid, hpred, hop, hval, hc, ht]

/-- The records of a store have the contents asked for. -/
lemma map_versionOf (who : Bool) (hist : List (Openers × OpenerEvent)) :
    (own who hist).map versionOf =
      ((hist.filter (jointly who)).flatMap newRequests).map content := by
  have hstep : ∀ s, (committed s).map versionOf = (newRequests s).map content := by
    rintro ⟨o, e⟩
    cases e with
    | opens who => rfl
    | commits who first more =>
      rw [committed, newRequests]
      cases o.stores who with
      | none => rfl
      | some s =>
        simp only [Ledger.records, recordsOf, List.map_map]
        rfl
  rw [own, committedIn, List.map_flatMap, List.map_flatMap]
  simp only [hstep]

/-- The stores agree when records at one place have one content. -/
lemma agree_iff : Agree hist ↔ ∀ (i : ℕ) (r r' : WalRecord), (own false hist)[i]? = some r →
    (own true hist)[i]? = some r' → versionOf r = versionOf r' := by
  have hzip : Agree hist ↔ ∀ p ∈ ((own false hist).map versionOf).zip
      ((own true hist).map versionOf), p.1 = p.2 := by
    rw [map_versionOf, map_versionOf, List.zip_map, List.forall_mem_map]
    rfl
  rw [hzip, List.zip_map, List.forall_mem_map]
  constructor
  · intro h i r r' hr hr'
    exact h (r, r') (List.mem_of_getElem? (List.getElem?_zip_eq_some.mpr ⟨hr, hr'⟩))
  · intro h p hp
    obtain ⟨i, hi⟩ := List.mem_iff_getElem?.mp hp
    obtain ⟨hr, hr'⟩ := List.getElem?_zip_eq_some.mp hi
    exact h i p.1 p.2 hr hr'

/-- Records of the two stores under one timestamp are at one place. -/
lemma Shared.versionOf_eq (h : Shared disk hist o) (hagree : Agree hist) {r r' : WalRecord}
    (hr : r ∈ Openers.own false hist) (hr' : r' ∈ Openers.own true hist) (hseq : r.seq = r'.seq) :
    versionOf r = versionOf r' := by
  obtain ⟨i, hi⟩ := List.mem_iff_getElem?.mp hr
  obtain ⟨j, hj⟩ := List.mem_iff_getElem?.mp hr'
  have hplace := (h.own false).seq_of_getElem? hi
  have hplace' := (h.own true).seq_of_getElem? hj
  obtain rfl : i = j := by
    rw [hseq] at hplace
    omega
  exact agree_iff.mp hagree i r r' hi hj

/-- Two versions committed under one timestamp are one version, when the stores agree. -/
lemma Shared.key_value (h : Shared disk hist o) (hagree : Agree hist) {r r' : WalRecord}
    (hr : r ∈ allCommitted hist) (hr' : r' ∈ allCommitted hist) (hseq : r.seq = r'.seq) :
    r.key = r'.key ∧ r.value = r'.value := by
  have hext := fun who => h.solo.append (h.own who)
  have hone : ∀ who, r ∈ Openers.solo hist ++ Openers.own who hist →
      r' ∈ Openers.solo hist ++ Openers.own who hist → r.key = r'.key ∧ r.value = r'.value :=
    fun who hr hr' => by
      rw [(hext who).eq_of_seq hr hr' hseq]
      exact ⟨rfl, rfl⟩
  rw [h.order] at hr hr'
  rcases List.mem_append.mp hr with hr | hr
  · rcases List.mem_append.mp hr' with hr' | hr'
    · exact hone false (List.mem_append_left _ hr) (List.mem_append_left _ hr')
    · obtain ⟨who, hr'⟩ := mem_joint.mp hr'
      exact hone who (List.mem_append_left _ hr) (List.mem_append_right _ hr')
  · obtain ⟨who, hr⟩ := mem_joint.mp hr
    rcases List.mem_append.mp hr' with hr' | hr'
    · exact hone who (List.mem_append_right _ hr) (List.mem_append_left _ hr')
    · obtain ⟨who', hr'⟩ := mem_joint.mp hr'
      rw [← versionOf_eq_iff hseq]
      cases who with
      | false =>
        cases who' with
        | false =>
          exact (versionOf_eq_iff hseq).mpr
            (hone false (List.mem_append_right _ hr) (List.mem_append_right _ hr'))
        | true => exact h.versionOf_eq hagree hr hr' hseq
      | true =>
        cases who' with
        | false => exact (h.versionOf_eq hagree hr' hr hseq.symm).symm
        | true =>
          exact (versionOf_eq_iff hseq).mpr
            (hone true (List.mem_append_right _ hr) (List.mem_append_right _ hr'))

/-- Every timestamp handed out is after the log first opened. -/
lemma Shared.clock_lt (h : Shared disk hist o) {r : WalRecord} (hr : r ∈ allCommitted hist) :
    clock (logOf disk) < r.seq := by
  rw [h.order] at hr
  rcases List.mem_append.mp hr with hr | hr
  · exact h.solo.clock_lt_seq hr
  · obtain ⟨who, hr⟩ := mem_joint.mp hr
    exact (h.solo.append (h.own who)).clock_lt_seq (List.mem_append_right _ hr)

/-- When two openers of one log lose nothing.  Take any log file, any interleaving of two stores
that open it and commit groups, where what is committed can be read back (the values fit the format
and the file was whole when first opened, unless nothing is committed).  Nothing acknowledged is
lost exactly when the two stores were asked for the same new versions, place by place, while both
were open; in particular when one of the two committed nothing new from then on. -/
theorem nothingLost_iff (h : Trace.Run next (start disk) hist o)
    (hwhole : walCodec.rest disk = [] ∨ allCommitted hist = [])
    (hfit : ∀ r ∈ allCommitted hist, r.Fits) : NothingLost disk hist o ↔ Agree hist := by
  have hshared := shared_of_run h hwhole hfit
  have hlog : logOf o.file = logOf disk ++ allCommitted hist := by
    rw [hshared.file, logOf_append hwhole hfit]
  have hfresh : ∀ r ∈ allCommitted hist, ∀ r' ∈ logOf disk, r.seq ≠ r'.seq := fun r hr r' hr' =>
    ((seq_le_clock hr').trans_lt (hshared.clock_lt hr)).ne'
  constructor
  · intro hlost
    rw [agree_iff]
    intro i r r' hi hi'
    have hseq : r.seq = r'.seq := by
      have hplace := (hshared.own false).seq_of_getElem? hi
      have hplace' := (hshared.own true).seq_of_getElem? hi'
      exact BitVec.eq_of_toNat_eq (hplace.trans hplace'.symm)
    have hall : ∀ who r, r ∈ own who hist → r ∈ allCommitted hist := by
      intro who r hr
      rw [hshared.order]
      exact List.mem_append_right _ (mem_joint.mpr ⟨who, hr⟩)
    rw [versionOf_eq_iff hseq]
    exact hlost.identifies r (hall false r (List.mem_of_getElem? hi)) r'
      (List.mem_append_right _ (hall true r' (List.mem_of_getElem? hi'))) hseq
  · intro hagree
    have hidentifies : ∀ r ∈ allCommitted hist, ∀ r' ∈ logOf disk ++ allCommitted hist,
        r.seq = r'.seq → r.key = r'.key ∧ r.value = r'.value := by
      intro r hr r' hr' hseq
      rcases List.mem_append.mp hr' with hr' | hr'
      · exact absurd hseq (hfresh r hr r' hr')
      · exact hshared.key_value hagree hr hr' hseq
    have hkv : (openLog o.file).kv.grains = grains (logOf disk ++ allCommitted hist) := by
      rw [(represents_openLog o.file).grains, hlog]
    refine ⟨hshared.answered, ?_, ?_, hidentifies⟩
    · intro r hr
      rw [hkv]
      obtain ⟨v, hv⟩ := exists_grains_of_mem (List.mem_append_right (logOf disk) hr)
      obtain ⟨r', hr', hkey, rfl⟩ := exists_of_grains hv
      have hseq : r.seq = r'.seq := (grainKey_inj.mp hkey).2.2.symm
      rw [hv, (hidentifies r hr r' hr' hseq).2]
    · intro key value hkey
      rw [(represents_openLog disk).grains] at hkey
      obtain ⟨r', hr', rfl, -⟩ := exists_of_grains hkey
      rw [hkv, grains_append_of_forall_ne, hkey]
      exact fun r hr hsame => hfresh r hr r' hr' (grainKey_inj.mp hsame).2.2

/-- Both stores open an empty file and put `(1, 1)`: both are answered `Ok(1)`, and one of the two
values is lost. -/
theorem not_nothingLost : ∃ hist o, Trace.Run next (start []) hist o ∧ ¬NothingLost [] hist o := by
  have hexec : (Trace.exec next (start []) [.opens false, .opens true,
      .commits false ⟨0, .put 1 1 [10] 0 0 7⟩ [], .commits true ⟨0, .put 1 1 [20] 0 0 8⟩ []]).map
        (fun p => (allCommitted p.1, (openLog p.2.file).kv.grains[grainKey 1 1 1]?)) =
      some ([WriteReq.record (.put 1 1 [10] 0 0 7) 1, WriteReq.record (.put 1 1 [20] 0 0 8) 1],
        some (WriteReq.record (.put 1 1 [20] 0 0 8) 1).value) := by
    decide +kernel
  obtain ⟨⟨hist, o⟩, hrun, heq⟩ := Option.map_eq_some_iff.mp hexec
  obtain ⟨hcommitted, hstored⟩ := Prod.mk.inj heq
  refine ⟨hist, o, Trace.run_of_exec hrun, ?_⟩
  intro hlost
  have hkept := hlost.kept (WriteReq.record (.put 1 1 [10] 0 0 7) 1)
    (hcommitted.symm ▸ List.mem_cons_self)
  have hkey : (WriteReq.record (.put 1 1 [10] 0 0 7) 1).key = grainKey 1 1 1 := rfl
  rw [hkey, hstored] at hkept
  exact absurd hkept (by decide)

/-- The second store opens the file after the first one's last commit. -/
theorem nothingLost_iff_handover : ∃ hist o, Trace.Run next (start []) hist o ∧
    (allCommitted hist).map WalRecord.seq = [1, 2] ∧ NothingLost [] hist o := by
  have hexec : (Trace.exec next (start []) [.opens false,
      .commits false ⟨0, .put 1 1 [10] 0 0 7⟩ [], .opens true,
      .commits true ⟨0, .put 1 1 [20] 0 0 8⟩ [⟨1, .put 1 1 [10] 0 0 7⟩]]).map
        (fun p => ((allCommitted p.1).map WalRecord.seq,
          (allCommitted p.1).all fun r => decide r.Fits, decide (Agree p.1))) =
      some ([1, 2], true, true) := by
    decide +kernel
  obtain ⟨⟨hist, o⟩, hrun, heq⟩ := Option.map_eq_some_iff.mp hexec
  simp only [Prod.mk.injEq, List.all_eq_true, decide_eq_true_eq] at heq
  obtain ⟨hseqs, hfit, hagree⟩ := heq
  have hwhole : walCodec.rest [] = [] := walCodec.toFrameDecoder.rest_of_none rfl
  exact ⟨hist, o, Trace.run_of_exec hrun, hseqs,
    (nothingLost_iff (Trace.run_of_exec hrun) (Or.inl hwhole) hfit).mpr hagree⟩

end Openers

end GrainStore
