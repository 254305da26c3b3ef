import Mathlib
import GrainStore.Truth.Scan
import GrainStore.Wal.Durability

/-!
# Subscribers that come and go

Subscribers may attach at any time, also while a batch is being applied, and hang up at any time.
`live_streams` says what each of them is sent: what was published since it subscribed, in the order
of the timestamps and without a gap, whoever else hangs up.

The publisher knows its subscribers by their place in a list, and publishing takes those that have
hung up out of it; `slot` is where a subscriber is after that.

A subscriber that attaches late is expected to seed itself from a scan of the truth.  The scan sees
changes that the subscriber will be sent as well, and the changes sent may be older than what the
scan saw.  `replica_eq` says that the two nevertheless add up to the truth as soon as the committer
is between two batches, whenever the scan was made.
-/

namespace GrainStore

open List WalLog Trace

/-- The receiver of a subscription is dropped. -/
def CdcPublisher.hangUp (p : CdcPublisher) (i : ℕ) : CdcPublisher :=
  ⟨p.subs.modify i fun s => { s with live := false }⟩

namespace Feed

/-- What happens to a truth store with subscribers. -/
inductive Event where
  /-- The committer goes on. -/
  | commit (e : GrainStore.Event)
  | subscribe
  | hangUp (i : ℕ)

/-- One step. -/
def next (m : Machine) : Feed.Event → Option Machine
  | .commit e => m.next e
  | .subscribe => some { m with st := { m.st with cdc := m.st.cdc.subscribe } }
  | .hangUp i => some { m with st := { m.st with cdc := m.st.cdc.hangUp i } }

/-- The change record that a step publishes, if it does. -/
def publication : Machine × Feed.Event → Option CdcRecord
  | (m, .commit e) => Machine.publication (m, e)
  | _ => none

/-- The change records published in a run, in order. -/
def published (hist : List (Machine × Feed.Event)) : List CdcRecord := hist.filterMap publication

/-- What was published since each of the subscriptions of a run. -/
def streams (hist : List (Machine × Feed.Event)) : List (List CdcRecord) :=
  hist.foldl (fun l s => match s.2 with
    | .subscribe => l ++ [[]]
    | _ => l.map fun records => records ++ (publication s).toList) []

/-- Where the subscriber at `i` is after some steps: publishing takes out those before it that have
hung up. -/
def slot (i : ℕ) (hist : List (Machine × Feed.Event)) : ℕ :=
  hist.foldl (fun i s => if (publication s).isSome then
    ((s.1.st.cdc.subs.take i).filter Subscriber.live).length else i) i

/-- The subscriber at `i` does not hang up. -/
def Stays (i : ℕ) (hist : List (Machine × Feed.Event)) : Prop :=
  ∀ before y j after, hist = before ++ (y, Feed.Event.hangUp j) :: after → j ≠ slot i before

variable {disk : Bytes} {m m' : Machine} {hist hist' : List (Machine × Feed.Event)}

lemma published_concat (hist : List (Machine × Feed.Event)) (s : Machine × Feed.Event) :
    published (hist ++ [s]) = published hist ++ (publication s).toList := by
  rw [published, List.filterMap_append, published]
  cases hpub : publication s with
  | none => simp [hpub]
  | some c => simp [hpub]

lemma published_append (hist hist' : List (Machine × Feed.Event)) :
    published (hist ++ hist') = published hist ++ published hist' := List.filterMap_append

lemma streams_subscribe (hist : List (Machine × Feed.Event)) (m : Machine) :
    streams (hist ++ [(m, .subscribe)]) = streams hist ++ [[]] := by
  rw [streams, List.foldl_concat, streams]

lemma streams_concat {hist : List (Machine × Feed.Event)} {s : Machine × Feed.Event}
    (h : s.2 ≠ .subscribe) : streams (hist ++ [s]) =
      (streams hist).map fun records => records ++ (publication s).toList := by
  obtain ⟨m, e⟩ := s
  rw [streams, List.foldl_concat, streams]
  cases e with
  | subscribe => exact absurd rfl h
  | commit e => rfl
  | hangUp i => rfl

/-- A stream is a last part of what was published. -/
lemma suffix_of_mem_streams {l : List CdcRecord} (h : l ∈ streams hist) : l <:+ published hist := by
  induction hist using List.reverseRecOn generalizing l with
  | nil => cases h
  | append_singleton hist s ih =>
    rw [published_concat]
    by_cases hsub : s.2 = .subscribe
    · obtain ⟨m, e⟩ := s
      obtain rfl : e = .subscribe := hsub
      rw [streams_subscribe] at h
      rcases List.mem_append.mp h with h | h
      · exact (List.append_nil (published hist)).symm ▸ ih h
      · exact List.mem_singleton.mp h ▸ List.nil_suffix
    · rw [streams_concat hsub] at h
      obtain ⟨records, hrecords, rfl⟩ := List.mem_map.mp h
      obtain ⟨before, hbefore⟩ := ih hrecords
      exact ⟨before, by rw [← hbefore, List.append_assoc]⟩

/-! ## Delivery -/

/-- Hanging up takes at most a live subscriber away. -/
lemma filter_hangUp (subs : List Subscriber) (i : ℕ) :
    (subs.modify i fun s => { s with live := false }).filter Subscriber.live <+
      subs.filter Subscriber.live := by
  induction subs generalizing i with
  | nil => simp
  | cons s subs ih =>
    cases i with
    | zero =>
      rw [List.modify_zero_cons, List.filter_cons_of_neg (by simp)]
      exact (List.sublist_cons_self s subs).filter _
    | succ i =>
      rw [List.modify_succ_cons, List.filter_cons, List.filter_cons]
      split
      · exact (ih i).cons_cons s
      · exact ih i

/-- Publishing sends the record to the live subscribers and forgets the others. -/
lemma subs_publish (p : CdcPublisher) (r : CdcRecord) :
    (p.publish r).subs = (p.subs.filter Subscriber.live).map fun s =>
      { s with received := s.received ++ [r] } := by
  rw [CdcPublisher.publish, ← List.filterMap_eq_map, List.filterMap_filter]
  rfl

lemma filter_publish (p : CdcPublisher) (r : CdcRecord) :
    ((p.publish r).subs.filter Subscriber.live).map Subscriber.received =
      ((p.subs.filter Subscriber.live).map Subscriber.received).map (· ++ [r]) := by
  rw [subs_publish, List.filter_map, List.map_map, List.map_map]
  have hlive : Subscriber.live ∘ (fun s : Subscriber => { s with received := s.received ++ [r] }) =
      Subscriber.live := rfl
  rw [hlive, List.filter_filter]
  simp

/-- A step of the committer sends what it publishes. -/
lemma cdc_of_commit {e : GrainStore.Event} (h : m.next e = some m') :
    m'.st.cdc = (publication (m, .commit e)).toList.foldl CdcPublisher.publish m.st.cdc :=
  (Machine.step_of_next h).cdc

/-- The live subscribers are sent what was published since they subscribed. -/
lemma live_sublist (h : Run Feed.next (Machine.start disk) hist m) :
    (m.st.cdc.subs.filter Subscriber.live).map Subscriber.received <+ streams hist := by
  induction h with
  | start => exact List.Sublist.refl _
  | @step hist y z e hrun hnext ih =>
    cases e with
    | subscribe =>
      obtain rfl := Option.some.inj hnext
      rw [streams_subscribe]
      have hsubs : y.st.cdc.subscribe.subs = y.st.cdc.subs ++ [⟨true, []⟩] := rfl
      dsimp only
      rw [hsubs, List.filter_append, List.map_append]
      exact ih.append (List.Sublist.refl _)
    | hangUp i =>
      obtain rfl := Option.some.inj hnext
      rw [streams_concat (by simp)]
      have hsame : (streams hist).map (fun records => records ++
          (publication (y, .hangUp i)).toList) = streams hist := by
        simp [publication]
      rw [hsame]
      exact ((filter_hangUp y.st.cdc.subs i).map _).trans ih
    | commit e =>
      rw [streams_concat (by simp), cdc_of_commit hnext]
      cases publication (y, .commit e) with
      | none => simpa using ih
      | some r =>
        rw [Option.toList_some, List.foldl_cons, List.foldl_nil, filter_publish]
        exact ih.map _

/-- While no one hangs up there is a subscriber for each subscription. -/
lemma subs_eq (h : Run Feed.next (Machine.start disk) hist m)
    (hstay : ∀ s ∈ hist, ∀ i, s.2 ≠ .hangUp i) :
    m.st.cdc.subs = (streams hist).map fun records => ⟨true, records⟩ := by
  induction h with
  | start => rfl
  | @step hist y z e hrun hnext ih =>
    have hsubs := ih fun s hs => hstay s (List.mem_append_left _ hs)
    cases e with
    | subscribe =>
      obtain rfl := Option.some.inj hnext
      rw [streams_subscribe, List.map_append, ← hsubs]
      rfl
    | hangUp i =>
      exact absurd rfl (hstay (y, .hangUp i) (List.mem_append_right _ (List.mem_singleton_self _)) i)
    | commit e =>
      rw [streams_concat (by simp), cdc_of_commit hnext]
      cases publication (y, .commit e) with
      | none => simpa using hsubs
      | some r =>
        rw [Option.toList_some, List.foldl_cons, List.foldl_nil, subs_publish, hsubs,
          List.filter_eq_self.mpr (by simp), List.map_map, List.map_map]
        rfl

lemma slot_concat (i : ℕ) (hist : List (Machine × Feed.Event)) (s : Machine × Feed.Event) :
    slot i (hist ++ [s]) = if (publication s).isSome then
      ((s.1.st.cdc.subs.take (slot i hist)).filter Subscriber.live).length else slot i hist := by
  rw [slot, List.foldl_concat, slot]

lemma Stays.of_concat {i : ℕ} {s : Machine × Feed.Event} (h : Stays i (hist ++ [s])) :
    Stays i hist ∧ ∀ j, s.2 = .hangUp j → j ≠ slot i hist := by
  obtain ⟨y, e⟩ := s
  refine ⟨fun before y' j after hsplit => h before y' j (after ++ [(y, e)]) ?_, ?_⟩
  · rw [hsplit, List.append_assoc, List.cons_append]
  · rintro j rfl
    exact h hist y j [] rfl

/-- Publishing sends the record to a live subscriber, wherever it is. -/
lemma getElem?_publish {p : CdcPublisher} {i : ℕ} {l : List CdcRecord}
    (h : p.subs[i]? = some ⟨true, l⟩) (r : CdcRecord) :
    (p.publish r).subs[((p.subs.take i).filter Subscriber.live).length]? = some ⟨true, l ++ [r]⟩ := by
  obtain ⟨hlt, hget⟩ := List.getElem?_eq_some_iff.mp h
  have hsplit : p.subs = p.subs.take i ++ ⟨true, l⟩ :: p.subs.drop (i + 1) := by
    rw [← hget, ← List.drop_eq_getElem_cons hlt, List.take_append_drop]
  have hfilter : p.subs.filter Subscriber.live = (p.subs.take i).filter Subscriber.live ++
      ⟨true, l⟩ :: (p.subs.drop (i + 1)).filter Subscriber.live := by
    conv_lhs => rw [hsplit]
    rw [List.filter_append, List.filter_cons_of_pos (by rfl)]
  rw [subs_publish, List.getElem?_map, hfilter, List.getElem?_append_right (le_refl _), Nat.sub_self]
  rfl

/-- A subscriber that does not hang up is sent all that is published. -/
lemma getElem?_of_stays {i : ℕ} {l : List CdcRecord} (hstart : m.st.cdc.subs[i]? = some ⟨true, l⟩)
    (h : Run Feed.next m hist m') (hstays : Stays i hist) :
    m'.st.cdc.subs[slot i hist]? = some ⟨true, l ++ published hist⟩ := by
  induction h with
  | start => exact (List.append_nil l).symm ▸ hstart
  | @step hist y z e hrun hnext ih =>
    obtain ⟨hbefore, hlast⟩ := hstays.of_concat
    have hy := ih hbefore
    rw [slot_concat, published_concat]
    cases e with
    | subscribe =>
      obtain rfl := Option.some.inj hnext
      have hlt := (List.getElem?_eq_some_iff.mp hy).1
      have hsubs : y.st.cdc.subscribe.subs = y.st.cdc.subs ++ [⟨true, []⟩] := rfl
      rw [show publication (y, .subscribe) = none from rfl]
      simpa [hsubs, List.getElem?_append_left hlt] using hy
    | hangUp j =>
      obtain rfl := Option.some.inj hnext
      have hne := hlast j rfl
      rw [show publication (y, .hangUp j) = none from rfl]
      simpa [CdcPublisher.hangUp, List.getElem?_modify, hne] using hy
    | commit e =>
      rw [cdc_of_commit hnext]
      cases publication (y, .commit e) with
      | none => simpa using hy
      | some r =>
        rw [Option.isSome_some, if_pos rfl, Option.toList_some, List.foldl_cons, List.foldl_nil,
          ← List.append_assoc]
        exact getElem?_publish hy r

/-- A subscriber is sent what is published from its subscription on, as long as it does not hang
up. -/
lemma getElem?_of_subscribe (h : Run Feed.next m ((m, .subscribe) :: hist) m')
    (hstays : Stays m.st.cdc.subs.length hist) :
    m'.st.cdc.subs[slot m.st.cdc.subs.length hist]? = some ⟨true, published hist⟩ := by
  obtain ⟨y, -, hnext, hrun⟩ := Run.of_append_cons (show Run Feed.next m ([] ++ _ :: hist) m' from h)
  obtain rfl := Option.some.inj hnext
  exact getElem?_of_stays (l := []) (List.getElem?_concat_length) hrun hstays

/-! ## What is published -/

/-- Which of the applied records are not published yet. -/
def Unpublished (m : Machine) (g : History) (behind : List WalRecord) : Prop :=
  match m.phase with
  | .applying _ b => b.records = behind ++ g.todo
  | .publishing recs _ => recs = behind.map WalRecord.cdc
  | _ => behind = []

/-- What holds of a run: the records in the KV are those published, and `behind` them the ones that
are still to be published. -/
structure Fed (disk : Bytes) (hist : List (Machine × Feed.Event)) (m : Machine) (g : History)
    (pub behind : List WalRecord) : Prop where
  inv : Machine.Inv disk m g
  applied : g.applied = pub ++ behind
  published : published hist = pub.map WalRecord.cdc
  unpublished : Unpublished m g behind

lemma fed_start (disk : Bytes) : Fed disk [] (Machine.start disk) ⟨[], [], []⟩ [] [] :=
  ⟨Machine.Inv.start disk, rfl, rfl, rfl⟩

variable {g : History} {pub behind : List WalRecord}

/-- A step that neither applies nor publishes. -/
lemma Fed.silent (h : Fed disk hist m g pub behind) {e : Feed.Event} {g' : History}
    (hinv : Machine.Inv disk m' g') (happlied : g'.applied = g.applied)
    (hpublication : publication (m, e) = none) (hunpublished : Unpublished m' g' behind) :
    Fed disk (hist ++ [(m, e)]) m' g' pub behind := by
  refine ⟨hinv, happlied.trans h.applied, ?_, hunpublished⟩
  rw [published_concat, hpublication, Option.toList_none, List.append_nil, h.published]

/-- A step of the committer puts one record more into the KV, or publishes the oldest one that is not
published, or neither. -/
lemma Fed.commit {e : GrainStore.Event} (h : Fed disk hist m g pub behind)
    (hnext : m.next e = some m') :
    ∃ g' pub' behind', Fed disk (hist ++ [(m, .commit e)]) m' g' pub' behind' ∧
      g.applied <+: g'.applied ∧ pub <+: pub' := by
  obtain ⟨hinv', hon⟩ := h.inv.follow hnext
  have hbehind := h.unpublished
  have hphase := h.inv.phase
  have hsame : ∀ {g'}, g' = Machine.follow g (m, e) → Fed disk (hist ++ [(m, .commit e)]) m' g' pub
      behind → ∃ g' pub' behind', Fed disk (hist ++ [(m, .commit e)]) m' g' pub' behind' ∧
        g.applied <+: g'.applied ∧ pub <+: pub' := by
    rintro g' rfl hfed
    exact ⟨_, pub, behind, hfed, hon.applied, List.prefix_rfl⟩
  cases Machine.step_of_next hnext with
  | recv s first more => exact hsame rfl (h.silent hinv' rfl rfl hbehind)
  | close s => exact hsame rfl (h.silent hinv' rfl rfl hbehind)
  | @scan s s' b b' pw rest hscan =>
    refine hsame rfl (h.silent hinv' ?_ rfl hbehind)
    rw [Machine.follow]
    cases Machine.issue (⟨s, .scanning (pw :: rest) b⟩, .tick) with
    | none => rfl
    | some r => rfl
  | @panic s b pw rest hscan =>
    refine hsame rfl (h.silent hinv' ?_ rfl hbehind)
    rw [Machine.follow, Machine.issue_of_panic hscan]
    rfl
  | @skip s b hbuf =>
    obtain ⟨htodo, hpend, -⟩ := hphase
    have hg : Machine.follow g (⟨s, .scanning [] b⟩, .tick) = g.sync := if_pos hbuf
    refine hsame hg.symm (h.silent (hg ▸ hinv') rfl rfl ?_)
    obtain rfl : behind = [] := hbehind
    change b.records = [] ++ (g.todo ++ g.pend)
    rw [htodo, hpend]
    rfl
  | @write s b hbuf =>
    have hg : Machine.follow g (⟨s, .scanning [] b⟩, .tick) = g := if_neg hbuf
    exact hsame hg.symm (h.silent (hg ▸ hinv') rfl rfl hbehind)
  | sync s b =>
    obtain ⟨htodo, hpend, -⟩ := hphase
    refine hsame rfl (h.silent hinv' rfl rfl ?_)
    obtain rfl : behind = [] := hbehind
    change b.records = [] ++ (g.todo ++ g.pend)
    rw [htodo, hpend]
    rfl
  | fail s b e written => exact hsame rfl (h.silent hinv' rfl rfl hbehind)
  | put s k v puts b =>
    obtain ⟨hputs, -⟩ := hphase
    obtain ⟨applied, todo, pend⟩ := g
    cases todo with
    | nil => simp at hputs
    | cons r todo =>
      have hrecords : b.records = behind ++ r :: todo := hbehind
      have happlied : applied = pub ++ behind := h.applied
      refine ⟨_, pub, behind ++ [r], ⟨hinv', ?_, ?_, ?_⟩, hon.applied, List.prefix_rfl⟩
      · change applied ++ [r] = pub ++ (behind ++ [r])
        rw [happlied, List.append_assoc]
      · rw [published_concat, h.published]
        exact List.append_nil _
      · change b.records = behind ++ [r] ++ todo
        rw [hrecords, List.append_assoc]
        rfl
  | putMeta s b =>
    obtain ⟨hputs, -⟩ := hphase
    have htodo : g.todo = [] := List.map_eq_nil_iff.mp hputs.symm
    have hrecords : b.records = behind ++ g.todo := hbehind
    rw [htodo, List.append_nil] at hrecords
    refine hsame rfl (h.silent hinv' rfl rfl ?_)
    change b.cdcRecs = behind.map WalRecord.cdc
    rw [b.cdcRecs_eq, ← hrecords]
    rfl
  | publish s r recs b =>
    have hrecs : r :: recs = behind.map WalRecord.cdc := hbehind
    cases behind with
    | nil => simp at hrecs
    | cons w behind =>
      obtain ⟨rfl, hrest⟩ := List.cons_eq_cons.mp hrecs
      refine ⟨_, pub ++ [w], behind, ⟨hinv', ?_, ?_, hrest⟩, hon.applied, List.prefix_append _ _⟩
      · rw [List.append_assoc]
        exact h.applied
      · rw [published_concat, h.published, List.map_append]
        rfl
  | published s b =>
    have hnone : [] = behind.map WalRecord.cdc := hbehind
    exact hsame rfl (h.silent hinv' rfl rfl (List.map_eq_nil_iff.mp hnone.symm))
  | ack s a acks => exact hsame rfl (h.silent hinv' rfl rfl hbehind)
  | acked s => exact hsame rfl (h.silent hinv' rfl rfl hbehind)
  | error s e a acks => exact hsame rfl (h.silent hinv' rfl rfl hbehind)
  | failed s e => exact hsame rfl (h.silent hinv' rfl rfl hbehind)

/-- Subscribing and hanging up change nothing but the subscribers. -/
lemma Fed.attend {e : Feed.Event} (h : Fed disk hist m g pub behind) {cdc : CdcPublisher}
    (hpublication : publication (m, e) = none) :
    Fed disk (hist ++ [(m, e)]) { m with st := { m.st with cdc } } g pub behind :=
  h.silent (h.inv.congr rfl rfl rfl h.inv.phase) rfl hpublication h.unpublished

lemma Fed.step {e : Feed.Event} (h : Fed disk hist m g pub behind)
    (hnext : Feed.next m e = some m') :
    ∃ g' pub' behind', Fed disk (hist ++ [(m, e)]) m' g' pub' behind' ∧
      g.applied <+: g'.applied ∧ pub <+: pub' := by
  cases e with
  | commit e => exact h.commit hnext
  | subscribe =>
    obtain rfl := Option.some.inj hnext
    exact ⟨g, pub, behind, h.attend rfl, List.prefix_rfl, List.prefix_rfl⟩
  | hangUp i =>
    obtain rfl := Option.some.inj hnext
    exact ⟨g, pub, behind, h.attend rfl, List.prefix_rfl, List.prefix_rfl⟩

/-- Along a run the records in the KV and the records published grow. -/
lemma Fed.run (h : Fed disk hist m g pub behind) (hrun : Run Feed.next m hist' m') :
    ∃ g' pub' behind', Fed disk (hist ++ hist') m' g' pub' behind' ∧
      g.applied <+: g'.applied ∧ pub <+: pub' := by
  induction hrun with
  | start => exact ⟨g, pub, behind, (List.append_nil hist).symm ▸ h, List.prefix_rfl, List.prefix_rfl⟩
  | step _ hnext ih =>
    obtain ⟨g₁, pub₁, behind₁, h₁, happlied, hpub⟩ := ih
    obtain ⟨g₂, pub₂, behind₂, h₂, happlied', hpub'⟩ := h₁.step hnext
    rw [List.append_assoc] at h₂
    exact ⟨g₂, pub₂, behind₂, h₂, happlied.trans happlied', hpub.trans hpub'⟩

/-- What is published is numbered without a gap. -/
lemma Fed.numbered (h : Fed disk hist m g pub behind) {l : List CdcRecord}
    (hl : l <:+ Feed.published hist) : ∃ n, (l.map fun r => r.seq.toNat) = List.range' n l.length := by
  have hext : Extends (logOf disk) (pub ++ (behind ++ g.todo ++ g.pend)) := by
    have hfull := h.inv.ext
    rw [History.full, History.log, h.applied] at hfull
    simpa only [List.append_assoc] using hfull
  have hpub := hext.of_append
  obtain ⟨before, hbefore⟩ := hl
  rw [h.published] at hbefore
  refine ⟨(clock (logOf disk)).toNat + 1 + before.length, ?_⟩
  refine List.ext_getElem (by simp) ?_
  intro i hi _
  rw [List.length_map] at hi
  rw [List.getElem_map, List.getElem_range']
  have hget : (pub.map WalRecord.cdc)[before.length + i]? = some l[i] := by
    rw [← hbefore, List.getElem?_append_right (Nat.le_add_right _ _), Nat.add_sub_cancel_left,
      List.getElem?_eq_getElem hi]
  rw [List.getElem?_map, Option.map_eq_some_iff] at hget
  obtain ⟨w, hw, hcdc⟩ := hget
  have hseq := hpub.seq_of_getElem? hw
  have hsame : l[i].seq = w.seq := by rw [← hcdc]; rfl
  rw [hsame, hseq]
  omega

/-- What subscribers are sent.  In every run, with subscribers that come and go in the middle of
batches: a subscriber that does not hang up is there, and was sent exactly what was published since
it subscribed, whoever else hangs up.  There are no others that live: each of them was sent what was
published since a subscription, no two of them by the same one.  What a subscriber was sent ends with
the last record published, and its timestamps have no gap and no repetition. -/
theorem live_streams (h : Run Feed.next (Machine.start disk) hist m) :
    (∀ hist₁ y hist₂, hist = hist₁ ++ (y, Feed.Event.subscribe) :: hist₂ →
        Stays y.st.cdc.subs.length hist₂ →
          m.st.cdc.subs[slot y.st.cdc.subs.length hist₂]? = some ⟨true, published hist₂⟩) ∧
      (m.st.cdc.subs.filter Subscriber.live).map Subscriber.received <+ streams hist ∧
      ((∀ s ∈ hist, ∀ i, s.2 ≠ .hangUp i) →
        m.st.cdc.subs = (streams hist).map fun records => ⟨true, records⟩) ∧
      ∀ l ∈ streams hist, l <:+ published hist ∧
        ∃ n, (l.map fun r => r.seq.toNat) = List.range' n l.length := by
  obtain ⟨g, pub, behind, hfed, -⟩ := (fed_start disk).run h
  rw [List.nil_append] at hfed
  refine ⟨?_, live_sublist h, subs_eq h, ?_⟩
  · intro hist₁ y hist₂ hsplit hstays
    obtain ⟨z, -, hnext, hrun⟩ := Run.of_append_cons (hsplit ▸ h)
    have hfirst : Run Feed.next y ([] ++ [(y, .subscribe)]) z := Run.start.step hnext
    exact getElem?_of_subscribe (hfirst.trans hrun) hstays
  · intro l hl
    have hsuffix := suffix_of_mem_streams hl
    exact ⟨hsuffix, hfed.numbered hsuffix⟩

namespace FeedExample

/-- A put that is in the KV, but not published yet. -/
def first : List Feed.Event :=
  .commit (.recv ⟨0, .put 1 1 [10] 0 0 7⟩ []) :: List.replicate 4 (.commit .tick)

/-- A subscription, and the rest of the batch. -/
def second : List Feed.Event := .subscribe :: List.replicate 5 (.commit .tick)

/-- A put under the same key, up to the end of its batch. -/
def third : List Feed.Event :=
  .commit (.recv ⟨1, .put 1 1 [20] 0 0 8⟩ []) :: List.replicate 9 (.commit .tick)

/-- The committer waits. -/
def idle (m : Machine) : Bool :=
  match m.phase with
  | .idle => true
  | _ => false

end FeedExample

open FeedExample in
/-- A subscription in the middle of a batch, next to one that hangs up right after it: the late
subscriber takes its place at the next change, and is sent everything. -/
theorem live_streams_late : ∃ hist₁ y hist₂ m,
    Run Feed.next (Machine.start []) (hist₁ ++ (y, .subscribe) :: hist₂) m ∧
    y.st.cdc.subs.length = 1 ∧ hist₂.map Prod.snd = .hangUp 0 :: second.tail ++ third ∧
    m.st.cdc.subs[0]? = some ⟨true, [⟨1, 1, 1, 0, [10]⟩, ⟨1, 1, 2, 0, [20]⟩]⟩ := by
  have hexec : ((exec Feed.next (Machine.start []) (.subscribe :: first)).bind fun p₁ =>
      (exec Feed.next p₁.2 (.subscribe :: (.hangUp 0 :: second.tail ++ third))).map fun p₂ =>
        (p₁.2.st.cdc.subs.length, slot 1 p₂.1.tail, published p₂.1.tail)) =
      some (1, 0, [⟨1, 1, 1, 0, [10]⟩, ⟨1, 1, 2, 0, [20]⟩]) := by
    decide +kernel
  obtain ⟨⟨hist₁, y⟩, h₁, hexec⟩ := Option.bind_eq_some_iff.mp hexec
  obtain ⟨⟨hist₂, m⟩, h₂, heq⟩ := Option.map_eq_some_iff.mp hexec
  obtain ⟨z, hist₂, -, hexec₂, rfl⟩ := exists_of_exec_cons h₂
  simp only [Prod.mk.injEq, List.tail_cons] at heq
  obtain ⟨hlen, hslot, hpublished⟩ := heq
  have hsnd := map_snd_of_exec hexec₂
  have hrun := (run_of_exec h₁).trans (run_of_exec h₂)
  -- the one who hangs up is the other one
  have hstays : Stays y.st.cdc.subs.length hist₂ := by
    rintro before z j after rfl
    rw [hlen]
    cases before with
    | nil =>
      obtain rfl := Feed.Event.hangUp.inj (List.cons_eq_cons.mp hsnd).1
      exact nofun
    | cons s before =>
      have hrest : (before ++ (z, Feed.Event.hangUp j) :: after).map Prod.snd =
          second.tail ++ third := (List.cons_eq_cons.mp hsnd).2
      have hin : (z, Feed.Event.hangUp j) ∈ before ++ (z, .hangUp j) :: after :=
        List.mem_append_right _ List.mem_cons_self
      have hmem := List.mem_map_of_mem (f := Prod.snd) hin
      rw [hrest] at hmem
      simp [second, third] at hmem
  refine ⟨hist₁, y, hist₂, m, hrun, hlen, hsnd, ?_⟩
  rw [← hpublished, ← hslot, ← hlen]
  exact (live_streams hrun).1 hist₁ y hist₂ rfl hstays

/-! ## Replicas -/

/-- A copy of the live grains that a subscriber keeps. -/
def Replica := Sid → PredId → Option Val

/-- The copy that a scan of the truth gives. -/
def Replica.seed (live : List Grain) : Replica := fun sid pred =>
  (live.find? fun g => g.sid = sid ∧ g.pred = pred).map Grain.val

/-- Apply one change to the copy. -/
def Replica.apply (copy : Replica) (r : CdcRecord) : Replica := fun sid pred =>
  if r.sid = sid ∧ r.pred = pred then if r.isDelete then none else some (.bytes r.val)
  else copy sid pred

/-- What a log has under a key. -/
def current (log : List WalRecord) (sid : Sid) (pred : PredId) : Option Val :=
  ((newest log sid pred).bind grainOf).map Grain.val

/-- The copy that a scan gives is what the log has. -/
lemma seed_eq {log : List WalRecord} {live : List Grain}
    (hlive : ∀ g, g ∈ live ↔ (newest log g.sid g.pred).bind grainOf = some g) (sid : Sid)
    (pred : PredId) : Replica.seed live sid pred = current log sid pred := by
  rw [Replica.seed, current]
  congr 1
  cases hfind : live.find? fun g => g.sid = sid ∧ g.pred = pred with
  | some g =>
    have hkey := List.find?_some hfind
    obtain ⟨rfl, rfl⟩ := of_decide_eq_true hkey
    exact ((hlive g).mp (List.mem_of_find?_eq_some hfind)).symm
  | none =>
    cases hread : (newest log sid pred).bind grainOf with
    | none => rfl
    | some g =>
      obtain ⟨w, hw, hgrain⟩ := Option.bind_eq_some_iff.mp hread
      obtain ⟨-, hsid, hpred⟩ := mem_of_newest hw
      obtain ⟨hgsid, hgpred⟩ := key_of_grainOf hgrain
      have hg : g ∈ live := by
        rw [hlive, hgsid, hgpred, hsid, hpred]
        exact hread
      have hnot := List.find?_eq_none.mp hfind g hg
      exact absurd (decide_eq_true ⟨hgsid.trans hsid, hgpred.trans hpred⟩) hnot

/-- A record after the clock is what the log has under its key from then on. -/
lemma current_concat {log : List WalRecord} {r : WalRecord} (h : clock log < r.seq) (sid : Sid)
    (pred : PredId) : current (log ++ [r]) sid pred =
      if r.sid = sid ∧ r.pred = pred then if r.op = OP_DELETE then none else some (.bytes r.val)
      else current log sid pred := by
  rw [current, newest_concat h]
  by_cases hkey : r.sid = sid ∧ r.pred = pred
  · rw [if_pos hkey, if_pos hkey, Option.bind_some, grainOf]
    split
    · rfl
    · rfl
  · rw [if_neg hkey, if_neg hkey]
    rfl

/-- A log does not change under the keys that are not written. -/
lemma current_append {base l : List WalRecord} (h : Extends base l) {sid : Sid} {pred : PredId}
    (hnone : ∀ r ∈ l, ¬(r.sid = sid ∧ r.pred = pred)) :
    current (base ++ l) sid pred = current base sid pred := by
  induction l using List.reverseRecOn with
  | nil => rw [List.append_nil]
  | append_singleton l r ih =>
    have hlt := h.shift.clock_lt_seq (List.mem_singleton_self r)
    rw [← List.append_assoc, current_concat hlt,
      if_neg (hnone r (List.mem_append_right _ (List.mem_singleton_self r)))]
    exact ih h.of_append fun r hr => hnone r (List.mem_append_left _ hr)

/-- Replaying what was added to a log makes a copy of the log, whatever the copy had under the keys
written. -/
lemma replay_eq {base l : List WalRecord} (h : Extends base l) {copy : Replica} {sid : Sid}
    {pred : PredId} (hcopy : (∀ r ∈ l, ¬(r.sid = sid ∧ r.pred = pred)) →
      copy sid pred = current base sid pred) :
    (l.map WalRecord.cdc).foldl Replica.apply copy sid pred = current (base ++ l) sid pred := by
  induction l using List.reverseRecOn with
  | nil =>
    rw [List.append_nil]
    exact hcopy fun r hr => by cases hr
  | append_singleton l r ih =>
    have hlt := h.shift.clock_lt_seq (List.mem_singleton_self r)
    rw [List.map_append, List.map_singleton, List.foldl_concat, ← List.append_assoc,
      current_concat hlt, Replica.apply]
    by_cases hkey : r.sid = sid ∧ r.pred = pred
    · have hkey' : r.cdc.sid = sid ∧ r.cdc.pred = pred := hkey
      have hdelete : r.cdc.isDelete = true ↔ r.op = OP_DELETE := decide_eq_true_iff
      rw [if_pos hkey, if_pos hkey']
      by_cases hop : r.op = OP_DELETE
      · rw [if_pos hop, if_pos (hdelete.mpr hop)]
      · rw [if_neg hop, if_neg (mt hdelete.mp hop)]
        rfl
    · have hkey' : ¬(r.cdc.sid = sid ∧ r.cdc.pred = pred) := hkey
      rw [if_neg hkey, if_neg hkey']
      refine ih h.of_append fun hnone => hcopy fun r' hr' => ?_
      rcases List.mem_append.mp hr' with hr' | hr'
      · exact hnone r' hr'
      · exact List.mem_singleton.mp hr' ▸ hkey

/-- The committer is between two batches, or has ended. -/
def Settled (m : Machine) : Prop :=
  match m.phase with
  | .applying _ _ | .publishing _ _ => False
  | _ => True

/-- A strong read in a state of a run is what the log has. -/
lemma Fed.read (h : Fed disk hist m g pub behind) (sid : Sid) (pred : PredId) :
    ∃ found, TruthStore.get m.st.kv m.st.hlc sid pred .strong = .ok found ∧
      found.map Grain.val = current (logOf disk ++ g.applied) sid pred := by
  have hle : clock (logOf disk ++ g.applied) ≤ m.st.hlc.now := by
    rw [HlcOracle.now, h.inv.clock]
    refine Machine.clock_le_of_longer _ ?_
    rw [History.full, History.log, List.append_assoc]
    exact List.prefix_append _ _
  refine ⟨_, TruthStore.getAt_eq_visible h.inv.grains sid pred _, ?_⟩
  rw [current, newest, ← visible_of_le hle]

/-- A late subscriber catches up.  It subscribes at any moment of a run, makes a scan of the truth at
any later moment, and then applies all that it was sent, in order.  Once the committer is between two
batches, the copy has under every key what a strong read returns. -/
theorem replica_eq {hist₁ hist₂ hist₃ : List (Machine × Feed.Event)} {m₁ m₂ : Machine}
    (h₁ : Run Feed.next (Machine.start disk) hist₁ m₁)
    (h₂ : Run Feed.next m₁ ((m₁, .subscribe) :: hist₂) m₂) (h₃ : Run Feed.next m₂ hist₃ m)
    (hsettled : Settled m) : ∃ live received, TruthStore.scanLive m₂.st.kv = .ok live ∧
      received = published (hist₂ ++ hist₃) ∧
      (Stays m₁.st.cdc.subs.length (hist₂ ++ hist₃) →
        m.st.cdc.subs[slot m₁.st.cdc.subs.length (hist₂ ++ hist₃)]? = some ⟨true, received⟩) ∧
      ∀ sid pred, ∃ found, TruthStore.get m.st.kv m.st.hlc sid pred .strong = .ok found ∧
        received.foldl Replica.apply (Replica.seed live) sid pred = found.map Grain.val := by
  obtain ⟨g₁, pub₁, behind₁, hfed₁, -⟩ := (fed_start disk).run h₁
  obtain ⟨g₂, pub₂, behind₂, hfed₂, happlied₂, hpub₂⟩ := hfed₁.run h₂
  obtain ⟨g, pub, behind, hfed, happlied, hpub⟩ := hfed₂.run h₃
  obtain ⟨live, hlive, hmem, -⟩ := TruthStore.scanLive_ok hfed₂.inv.grains
  refine ⟨live, published (hist₂ ++ hist₃), hlive, rfl, fun hstays => ?_, fun sid pred => ?_⟩
  · refine getElem?_of_subscribe ?_ hstays
    exact List.cons_append ▸ h₂.trans h₃
  obtain ⟨found, hread, hfound⟩ := hfed.read sid pred
  refine ⟨found, hread, ?_⟩
  -- all is published now, and what was published since the subscription is `added`
  obtain rfl : behind = [] := by
    have hbehind := hfed.unpublished
    unfold Unpublished at hbehind
    unfold Settled at hsettled
    split at hbehind
    · rename_i hphase
      rw [hphase] at hsettled
      exact hsettled.elim
    · rename_i hphase
      rw [hphase] at hsettled
      exact hsettled.elim
    · exact hbehind
  have hall := hfed.applied
  rw [List.append_nil] at hall
  obtain ⟨added, hadded⟩ := hpub₂.trans hpub
  have hstream : published (hist₂ ++ hist₃) = added.map WalRecord.cdc := by
    have hsplit : published ([] ++ hist₁ ++ (m₁, .subscribe) :: hist₂ ++ hist₃) =
        published hist₁ ++ published (hist₂ ++ hist₃) := by
      rw [List.nil_append, List.append_assoc, published_append, List.cons_append]
      rfl
    rw [hfed.published, ← hadded, List.map_append] at hsplit
    have hbefore := hfed₁.published
    rw [List.nil_append] at hbefore
    rw [hbefore] at hsplit
    exact (List.append_cancel_left hsplit).symm
  -- the scan saw the first of it
  have hfirst : pub₁ <+: g₂.applied := by
    rw [hfed₁.applied] at happlied₂
    exact (List.prefix_append _ _).trans happlied₂
  obtain ⟨seen, hseen⟩ := hfirst
  obtain ⟨later, hlater⟩ : seen <+: added := by
    rw [hall, ← hadded, ← hseen] at happlied
    exact (List.prefix_append_right_inj pub₁).mp happlied
  have hext : Extends (logOf disk ++ pub₁) added := by
    have hfull := hfed.inv.ext
    rw [History.full, History.log, hall, ← hadded, List.append_assoc] at hfull
    exact hfull.of_append.shift
  rw [hstream, hfound, hall, ← hadded, ← List.append_assoc]
  refine replay_eq hext ?_
  intro hnone
  rw [seed_eq hmem, ← hseen, ← List.append_assoc]
  rw [← hlater] at hext hnone
  exact current_append hext.of_append fun r hr => hnone r (List.mem_append_left _ hr)

open FeedExample in
/-- The scan sees the first put, which is sent as well, and the second one is only sent. -/
theorem replica_eq_late : ∃ m₁ m₂ m hist₁ hist₂ hist₃ live,
    Run Feed.next (Machine.start []) hist₁ m₁ ∧
    Run Feed.next m₁ ((m₁, .subscribe) :: hist₂) m₂ ∧ Run Feed.next m₂ hist₃ m ∧
    TruthStore.scanLive m₂.st.kv = .ok live ∧
    ∀ sid pred, ∃ found, TruthStore.get m.st.kv m.st.hlc sid pred .strong = .ok found ∧
      [⟨1, 1, 1, 0, [10]⟩, ⟨1, 1, 2, 0, [20]⟩].foldl Replica.apply (Replica.seed live) sid pred =
        found.map Grain.val := by
  have hexec : ((exec Feed.next (Machine.start []) first).bind fun p₁ =>
      (exec Feed.next p₁.2 second).bind fun p₂ => (exec Feed.next p₂.2 third).map fun p₃ =>
        (published (p₂.1.tail ++ p₃.1), idle p₃.2)) =
      some ([⟨1, 1, 1, 0, [10]⟩, ⟨1, 1, 2, 0, [20]⟩], true) := by
    decide +kernel
  obtain ⟨⟨hist₁, m₁⟩, h₁, hexec⟩ := Option.bind_eq_some_iff.mp hexec
  obtain ⟨⟨hist₂, m₂⟩, h₂, hexec⟩ := Option.bind_eq_some_iff.mp hexec
  obtain ⟨⟨hist₃, m⟩, h₃, heq⟩ := Option.map_eq_some_iff.mp hexec
  obtain ⟨hpublished, hidle⟩ := Prod.mk.inj heq
  obtain ⟨-, hist₂, -, -, rfl⟩ := exists_of_exec_cons h₂
  have hsettled : Settled m := by
    unfold idle at hidle
    unfold Settled
    split at hidle
    · rename_i hphase
      rw [hphase]
      trivial
    · cases hidle
  obtain ⟨live, received, hlive, hreceived, -, hreplica⟩ := replica_eq (run_of_exec h₁)
    (run_of_exec h₂) (run_of_exec h₃) hsettled
  rw [List.tail_cons, ← hreceived] at hpublished
  exact ⟨m₁, m₂, m, hist₁, hist₂, hist₃, live, run_of_exec h₁, run_of_exec h₂, run_of_exec h₃, hlive,
    hpublished ▸ hreplica⟩

end Feed

end GrainStore
