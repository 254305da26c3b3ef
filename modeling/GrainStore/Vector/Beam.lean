import Mathlib
import GrainStore.Foundation.Worklist
import GrainStore.Vector.Hnsw

/-!
# What a beam search finds

Whatever the beam width, a search of one layer finds nodes that its entry point reaches, and at
least one (`reaches_of_mem_searchLayer`, `searchLayer_ne_nil`).  The loop ends before its fuel does
(`done_expand`).  The results are in order, and a search that returns fewer than its beam has room
for finds all that the entry point reaches (`searchLayer_full`); so does one with a beam as wide as
the index (`searchLayer_exhaustive`).
-/

namespace GrainStore

open Relation

namespace Hnsw

variable {V D : Type*} {dist : V → V → D}

/-- A link at a level. -/
def State.Edge (s : State V) (level x y : ℕ) : Prop := y ∈ (s.linksAt x level).getD []

/-- Every link leads to a node. -/
def State.Linked (s : State V) : Prop := ∀ level x y, s.Edge level x y → y < s.nodes.length

/-- A candidate is a node with its distance. -/
def State.Measured (dist : V → V → D) (s : State V) (q : V) (c : DistIdx D) : Prop :=
  s.distance dist q c.idx = some c.dist

variable {s : State V} {q : V} {ef level ep : ℕ} {b : Beam D} {c : DistIdx D} {n : ℕ}

lemma State.lt_of_measured (h : s.Measured dist q c) : c.idx < s.nodes.length := by
  obtain ⟨node, hnode, -⟩ := Option.map_eq_some_iff.mp h
  exact (List.getElem?_eq_some_iff.mp hnode).1

lemma State.exists_distance (dist : V → V → D) (s : State V) (q : V) (h : n < s.nodes.length) :
    ∃ d, s.distance dist q n = some d := by
  refine ⟨dist q s.nodes[n].vector, ?_⟩
  rw [State.distance, List.getElem?_eq_getElem h]
  rfl

/-- Two measured candidates at one node are the same. -/
lemma State.Measured.eq {c' : DistIdx D} (h : s.Measured dist q c) (h' : s.Measured dist q c')
    (hidx : c.idx = c'.idx) : c = c' := by
  obtain ⟨d, i⟩ := c
  obtain ⟨d', i'⟩ := c'
  obtain rfl : i = i' := hidx
  obtain rfl : d = d' := Option.some.inj (h.symm.trans h')
  rfl

/-- Cutting keeps all but the results, and of these at least one if there were two. -/
lemma cut_cases (b : Beam D) (ef : ℕ) :
    (b.cut ef).visited = b.visited ∧ (b.cut ef).candidates = b.candidates ∧
      (∀ c ∈ (b.cut ef).result, c ∈ b.result) ∧
      (2 ≤ b.result.length → (b.cut ef).result ≠ []) := by
  unfold Beam.cut
  split
  · refine ⟨rfl, rfl, fun c => List.mem_of_mem_dropLast, ?_⟩
    intro h hnil
    have hlen := congrArg List.length hnil
    rw [List.length_dropLast, List.length_nil] at hlen
    omega
  · refine ⟨rfl, rfl, fun c => id, ?_⟩
    intro h hnil
    rw [hnil] at h
    simp at h

variable [LinearOrder D]

lemma DistIdx.dist_le {c c' : DistIdx D} (h : c ≤ c') : c.dist ≤ c'.dist :=
  (Prod.Lex.toLex_le_toLex.mp h).elim le_of_lt fun heq => heq.1.le

/-! ## One step -/

/-- What looking at a neighbour does. -/
lemma visit_cases (dist : V → V → D) (s : State V) (q : V) (ef : ℕ) (b : Beam D) (n : ℕ) :
    n ∈ b.visited ∧ s.visit dist q ef b n = b ∨
      n ∉ b.visited ∧ s.visit dist q ef b n = { b with visited := n :: b.visited } ∧
        (n < s.nodes.length → ef ≤ b.result.length) ∨
      n ∉ b.visited ∧ ∃ d, s.distance dist q n = some d ∧
        s.visit dist q ef b n = ({ b with visited := n :: b.visited }.push ⟨d, n⟩).cut ef := by
  unfold State.visit
  by_cases hn : n ∈ b.visited
  · exact Or.inl ⟨hn, if_pos hn⟩
  · rw [if_neg hn]
    cases hd : s.distance dist q n with
    | none =>
      refine Or.inr (Or.inl ⟨hn, rfl, fun hlt => ?_⟩)
      obtain ⟨d, hsome⟩ := s.exists_distance dist q hlt
      simp [hd] at hsome
    | some d =>
      dsimp only
      split
      · exact Or.inr (Or.inr ⟨hn, d, rfl, rfl⟩)
      · rename_i hclose
        exact Or.inr (Or.inl ⟨hn, rfl, fun _ => not_lt.mp fun hroom => hclose (Or.inr hroom)⟩)

/-- The loop has ended by itself. -/
def Beam.Done (b : Beam D) (ef : ℕ) : Prop :=
  ∀ c rest, b.candidates = c :: rest → (∃ f ∈ b.farthest, f < c.dist) ∧ ef ≤ b.result.length

/-- What every step of the loop keeps is kept by the loop. -/
lemma expand_invariant {P : Beam D → Prop}
    (hstep : ∀ b c rest, P b → b.candidates = c :: rest →
      P (((s.linksAt c.idx level).getD []).foldl (s.visit dist q ef) { b with candidates := rest }))
    (fuel : ℕ) (h : P b) : P (s.expand dist q ef level fuel b) := by
  induction fuel generalizing b with
  | zero => exact h
  | succ fuel ih =>
    unfold State.expand
    cases hcand : b.candidates with
    | nil => exact h
    | cons c rest =>
      dsimp only
      split
      · exact h
      · exact ih (hstep b c rest h hcand)

/-! ## Every beam search -/

/-- What holds throughout a search entered at `ep`. -/
structure Beam.Sound (dist : V → V → D) (s : State V) (q : V) (level ep : ℕ) (b : Beam D) :
    Prop where
  nodup : b.visited.Nodup
  reached : ∀ i ∈ b.visited, ReflTransGen (s.Edge level) ep i
  candidates : ∀ c ∈ b.candidates, c.idx ∈ b.visited ∧ s.Measured dist q c
  result : ∀ c ∈ b.result, c.idx ∈ b.visited ∧ s.Measured dist q c
  ne_nil : b.result ≠ []

lemma mem_push {c' : DistIdx D} :
    (c' ∈ (b.push c).candidates ↔ c' = c ∨ c' ∈ b.candidates) ∧
      (c' ∈ (b.push c).result ↔ c' = c ∨ c' ∈ b.result) :=
  ⟨List.mem_orderedInsert _, List.mem_orderedInsert _⟩

/-- A node that was not visited yet is put in once. -/
lemma nodup_orderedInsert {l : List (DistIdx D)} {visited : List ℕ}
    (h : (l.map DistIdx.idx).Nodup) (hvisited : ∀ c ∈ l, c.idx ∈ visited)
    (hnew : c.idx ∉ visited) : ((l.orderedInsert (· ≤ ·) c).map DistIdx.idx).Nodup := by
  have hnotin : c.idx ∉ l.map DistIdx.idx := by
    intro hin
    obtain ⟨c', hc', heq⟩ := List.mem_map.mp hin
    exact hnew (heq ▸ hvisited c' hc')
  have hperm := (List.perm_orderedInsert (· ≤ ·) c l).map DistIdx.idx
  exact hperm.nodup_iff.mpr (List.nodup_cons.mpr ⟨hnotin, h⟩)

/-- Looking at a node that was reached. -/
lemma Beam.Sound.visit (h : b.Sound dist s q level ep) (hn : ReflTransGen (s.Edge level) ep n) :
    (s.visit dist q ef b n).Sound dist s q level ep := by
  have hcons : n ∉ b.visited →
      ({ b with visited := n :: b.visited } : Beam D).Sound dist s q level ep := fun hnew =>
    { nodup := List.nodup_cons.mpr ⟨hnew, h.nodup⟩
      reached := List.forall_mem_cons.mpr ⟨hn, h.reached⟩
      candidates := fun c hc =>
        ⟨List.mem_cons_of_mem _ (h.candidates c hc).1, (h.candidates c hc).2⟩
      result := fun c hc => ⟨List.mem_cons_of_mem _ (h.result c hc).1, (h.result c hc).2⟩
      ne_nil := h.ne_nil }
  rcases visit_cases dist s q ef b n with ⟨-, hb⟩ | ⟨hnew, hb, -⟩ | ⟨hnew, d, hd, hb⟩
  · rwa [hb]
  · rw [hb]
    exact hcons hnew
  · have hold := hcons hnew
    have hpushed : n ∈ n :: b.visited ∧ s.Measured dist q ⟨d, n⟩ := ⟨List.mem_cons_self, hd⟩
    obtain ⟨hvisited, hcandidates, hsub, hne⟩ :=
      cut_cases (({ b with visited := n :: b.visited } : Beam D).push ⟨d, n⟩) ef
    rw [hb]
    refine ⟨?_, ?_, ?_, fun c hc => ?_, hne ?_⟩
    · rw [hvisited]
      exact hold.nodup
    · rw [hvisited]
      exact hold.reached
    · rw [hvisited, hcandidates]
      intro c hc
      rcases mem_push.1.mp hc with rfl | hc
      · exact hpushed
      · exact hold.candidates c hc
    · rw [hvisited]
      rcases mem_push.2.mp (hsub c hc) with rfl | hc
      · exact hpushed
      · exact hold.result c hc
    · rw [Beam.push, List.orderedInsert_length]
      have hpos := List.length_pos_of_ne_nil h.ne_nil
      exact Nat.succ_le_succ hpos

lemma Beam.Sound.foldl_visit {ns : List ℕ} (h : b.Sound dist s q level ep)
    (hns : ∀ n ∈ ns, ReflTransGen (s.Edge level) ep n) :
    (ns.foldl (s.visit dist q ef) b).Sound dist s q level ep := by
  induction ns generalizing b with
  | nil => exact h
  | cons n ns ih =>
    exact ih (h.visit (hns n List.mem_cons_self)) fun n' hn' => hns n' (List.mem_cons_of_mem _ hn')

omit [LinearOrder D] in
/-- Taking a candidate; its neighbours are reached. -/
lemma Beam.Sound.pop {rest : List (DistIdx D)} (h : b.Sound dist s q level ep)
    (hcand : b.candidates = c :: rest) :
    ({ b with candidates := rest } : Beam D).Sound dist s q level ep ∧
      ∀ n ∈ (s.linksAt c.idx level).getD [], ReflTransGen (s.Edge level) ep n := by
  have hc := (h.candidates c (hcand ▸ List.mem_cons_self)).1
  refine ⟨{ h with candidates := fun c' hc' => ?_ }, fun n hn => (h.reached _ hc).tail hn⟩
  exact h.candidates c' (hcand ▸ List.mem_cons_of_mem _ hc')

/-- One candidate is taken and expanded. -/
lemma Beam.Sound.step {rest : List (DistIdx D)} (h : b.Sound dist s q level ep)
    (hcand : b.candidates = c :: rest) :
    (((s.linksAt c.idx level).getD []).foldl (s.visit dist q ef)
      { b with candidates := rest }).Sound dist s q level ep :=
  (h.pop hcand).1.foldl_visit (h.pop hcand).2

/-- The beam a search with one entry point starts with. -/
lemma startBeam_singleton {d : D} (hd : s.distance dist q ep = some d) :
    s.startBeam dist q [ep] = ⟨[ep], [⟨d, ep⟩], [⟨d, ep⟩]⟩ := by
  unfold State.startBeam
  rw [List.foldl_cons, hd]
  rfl

lemma sound_startBeam (dist : V → V → D) (q : V) (level : ℕ) (hep : ep < s.nodes.length) :
    (s.startBeam dist q [ep]).Sound dist s q level ep := by
  obtain ⟨d, hd⟩ := s.exists_distance dist q hep
  have hone : ∀ c ∈ [(⟨d, ep⟩ : DistIdx D)], c.idx ∈ [ep] ∧ s.Measured dist q c := by
    intro c hc
    obtain rfl := List.mem_singleton.mp hc
    exact ⟨List.mem_cons_self, hd⟩
  rw [startBeam_singleton hd]
  refine ⟨List.nodup_singleton ep, ?_, hone, hone, List.cons_ne_nil _ _⟩
  intro i hi
  obtain rfl := List.mem_singleton.mp hi
  exact ReflTransGen.refl

lemma sound_expand (dist : V → V → D) (q : V) (ef level : ℕ) (hep : ep < s.nodes.length)
    (fuel : ℕ) :
    (s.expand dist q ef level fuel (s.startBeam dist q [ep])).Sound dist s q level ep :=
  expand_invariant (fun _ _ _ h hcand => h.step hcand) fuel (sound_startBeam dist q level hep)

/-- What a search finds is reached from its entry point. -/
theorem reaches_of_mem_searchLayer (hep : ep < s.nodes.length)
    (hc : c ∈ s.searchLayer dist q [ep] ef level) :
    ReflTransGen (s.Edge level) ep c.idx ∧ s.Measured dist q c := by
  have hsound := sound_expand dist q ef level hep
  obtain ⟨hvisited, hmeasured⟩ := (hsound _).result c hc
  exact ⟨(hsound _).reached _ hvisited, hmeasured⟩

/-- A search finds something. -/
theorem searchLayer_ne_nil (hep : ep < s.nodes.length) : s.searchLayer dist q [ep] ef level ≠ [] :=
  (sound_expand dist q ef level hep _).ne_nil

/-! ## The loop ends -/

/-- How many more steps the loop can take. -/
def Beam.remaining (s : State V) (b : Beam D) : ℕ :=
  s.nodes.length - b.visited.length + b.candidates.length

omit [LinearOrder D] in
/-- A visited node is one of the index. -/
lemma Beam.Sound.lt_of_mem (hlinked : s.Linked) (hep : ep < s.nodes.length)
    (h : b.Sound dist s q level ep) {i : ℕ} (hi : i ∈ b.visited) : i < s.nodes.length :=
  Worklist.mem_of_reaches {i | i < s.nodes.length} (fun _ _ _ => hlinked level _ _) hep
    (h.reached i hi)

omit [LinearOrder D] in
lemma Beam.Sound.length_le (hlinked : s.Linked) (hep : ep < s.nodes.length)
    (h : b.Sound dist s q level ep) : b.visited.length ≤ s.nodes.length := by
  have hsub : b.visited ⊆ List.range s.nodes.length := fun i hi =>
    List.mem_range.mpr (h.lt_of_mem hlinked hep hi)
  have hle := (List.subperm_of_subset h.nodup hsub).length_le
  rwa [List.length_range] at hle

lemma remaining_startBeam (dist : V → V → D) (q : V) (hep : ep < s.nodes.length) :
    (s.startBeam dist q [ep]).remaining s = s.nodes.length := by
  obtain ⟨d, hd⟩ := s.exists_distance dist q hep
  rw [startBeam_singleton hd, Beam.remaining, List.length_singleton, List.length_singleton]
  omega

/-- Looking at a neighbour uses up the step it may add. -/
lemma Beam.Sound.remaining_visit (hlinked : s.Linked) (hep : ep < s.nodes.length)
    (h : b.Sound dist s q level ep) (hn : ReflTransGen (s.Edge level) ep n) :
    (s.visit dist q ef b n).remaining s ≤ b.remaining s := by
  have hnext : (s.visit dist q ef b n).visited.length ≤ s.nodes.length :=
    (h.visit hn).length_le hlinked hep
  rcases visit_cases dist s q ef b n with ⟨-, hb⟩ | ⟨-, hb, -⟩ | ⟨-, d, -, hb⟩
  · rw [hb]
  · rw [hb, Beam.remaining, Beam.remaining]
    change s.nodes.length - (b.visited.length + 1) + b.candidates.length ≤ _
    omega
  · obtain ⟨hvisited, hcandidates, -, -⟩ :=
      cut_cases (({ b with visited := n :: b.visited } : Beam D).push ⟨d, n⟩) ef
    rw [hb, hvisited, Beam.push, List.length_cons] at hnext
    rw [hb, Beam.remaining, Beam.remaining, hvisited, hcandidates, Beam.push,
      List.orderedInsert_length, List.length_cons]
    dsimp only
    omega

lemma Beam.Sound.remaining_foldl_visit (ef : ℕ) (hlinked : s.Linked) (hep : ep < s.nodes.length)
    {ns : List ℕ} (h : b.Sound dist s q level ep)
    (hns : ∀ n ∈ ns, ReflTransGen (s.Edge level) ep n) :
    (ns.foldl (s.visit dist q ef) b).remaining s ≤ b.remaining s := by
  induction ns generalizing b with
  | nil => exact le_rfl
  | cons n ns ih =>
    have hn := hns n List.mem_cons_self
    exact (ih (h.visit hn) fun n' hn' => hns n' (List.mem_cons_of_mem _ hn')).trans
      (h.remaining_visit hlinked hep hn)

/-- With enough fuel the loop ends by itself. -/
theorem done_expand (ef fuel : ℕ) (hlinked : s.Linked) (hep : ep < s.nodes.length)
    (h : b.Sound dist s q level ep) (hfuel : b.remaining s ≤ fuel) :
    (s.expand dist q ef level fuel b).Done ef := by
  induction fuel generalizing b with
  | zero =>
    intro c rest hcand
    unfold State.expand at hcand
    rw [Beam.remaining, hcand, List.length_cons] at hfuel
    omega
  | succ fuel ih =>
    unfold State.expand
    cases hcand : b.candidates with
    | nil =>
      intro c rest hcand'
      rw [hcand] at hcand'
      cases hcand'
    | cons c rest =>
      dsimp only
      split
      · rename_i hbreak
        intro c' rest' hcand'
        obtain ⟨rfl, -⟩ := List.cons.inj (hcand.symm.trans hcand')
        exact hbreak
      · refine ih (h.step hcand) ?_
        obtain ⟨hrest, hns⟩ := h.pop hcand
        have hle := hrest.remaining_foldl_visit ef hlinked hep hns
        have htaken : b.remaining s = ({ b with candidates := rest } : Beam D).remaining s + 1 := by
          rw [Beam.remaining, hcand]
          rfl
        omega

/-! ## What a search keeps -/

/-- What holds throughout a search of width `ef`: the results are in order and each of them once,
and while there is room for more, every node visited is a result. -/
structure Beam.Full (dist : V → V → D) (s : State V) (q : V) (ef level ep : ℕ) (b : Beam D) : Prop
    extends Beam.Sound dist s q level ep b where
  sorted : b.result.Pairwise (· ≤ ·)
  once : (b.result.map DistIdx.idx).Nodup
  all : b.result.length < ef → ∀ i ∈ b.visited, i ∈ b.result.map DistIdx.idx

/-- The nodes still to be expanded. -/
def Beam.pending (b : Beam D) : Set ℕ := {i | ∃ c ∈ b.candidates, c.idx = i}

omit [LinearOrder D] in
/-- What is cut off is a last result, and only where there is no room. -/
lemma cut_result (b : Beam D) (ef : ℕ) :
    (b.cut ef).result.Sublist b.result ∧
      ((b.cut ef).result.length < ef → b.cut ef = b) := by
  unfold Beam.cut
  split
  · rename_i hfull
    refine ⟨List.dropLast_sublist _, fun hroom => absurd hroom ?_⟩
    rw [List.length_dropLast]
    omega
  · exact ⟨List.Sublist.refl _, fun _ => rfl⟩

/-- While there is room, a neighbour that was not visited yet becomes a candidate and a result. -/
lemma visit_of_room (hn : n < s.nodes.length)
    (hroom : (s.visit dist q ef b n).result.length < ef) :
    n ∈ b.visited ∧ s.visit dist q ef b n = b ∨
      n ∉ b.visited ∧ ∃ d, s.distance dist q n = some d ∧
        s.visit dist q ef b n = ({ b with visited := n :: b.visited } : Beam D).push ⟨d, n⟩ := by
  rcases visit_cases dist s q ef b n with hold | ⟨-, hb, hno⟩ | ⟨hnew, d, hd, hb⟩
  · exact Or.inl hold
  · rw [hb] at hroom
    exact absurd hroom (not_lt.mpr (hno hn))
  · refine Or.inr ⟨hnew, d, hd, ?_⟩
    rw [hb] at hroom ⊢
    exact (cut_result _ ef).2 hroom

/-- The results never become fewer than there is room for. -/
lemma room_of_visit (hn : n < s.nodes.length)
    (hroom : (s.visit dist q ef b n).result.length < ef) : b.result.length < ef := by
  rcases visit_of_room hn hroom with ⟨-, hb⟩ | ⟨-, d, -, hb⟩
  · rwa [hb] at hroom
  · rw [hb, Beam.push, List.orderedInsert_length] at hroom
    exact (Nat.lt_succ_self _).trans hroom

lemma Beam.Full.visit (h : b.Full dist s q ef level ep)
    (hn : ReflTransGen (s.Edge level) ep n) (hlt : n < s.nodes.length) :
    (s.visit dist q ef b n).Full dist s q ef level ep := by
  have hsound : (s.visit dist q ef b n).Sound dist s q level ep := h.toSound.visit hn
  refine ⟨hsound, ?_, ?_, ?_⟩
  · rcases visit_cases dist s q ef b n with ⟨-, hb⟩ | ⟨-, hb, -⟩ | ⟨-, d, -, hb⟩
    · rw [hb]
      exact h.sorted
    · rw [hb]
      exact h.sorted
    · rw [hb]
      exact (h.sorted.orderedInsert _ _).sublist (cut_result _ ef).1
  · rcases visit_cases dist s q ef b n with ⟨-, hb⟩ | ⟨-, hb, -⟩ | ⟨hnew, d, -, hb⟩
    · rw [hb]
      exact h.once
    · rw [hb]
      exact h.once
    · rw [hb]
      refine List.Nodup.sublist ((cut_result _ ef).1.map _) ?_
      exact nodup_orderedInsert h.once (fun c hc => (h.result c hc).1) hnew
  · intro hroom
    have hall := h.all (room_of_visit hlt hroom)
    rcases visit_of_room hlt hroom with ⟨-, hb⟩ | ⟨-, d, -, hb⟩
    · rwa [hb]
    · rw [hb]
      intro i hi
      refine ((List.perm_orderedInsert (· ≤ ·) ⟨d, n⟩ b.result).map DistIdx.idx).mem_iff.mpr ?_
      rcases List.mem_cons.mp hi with rfl | hi
      · exact List.mem_cons_self
      · exact List.mem_cons_of_mem _ (hall i hi)

/-- While there is room, looking at a neighbour forgets nothing. -/
lemma pending_visit (hlt : n < s.nodes.length)
    (hroom : (s.visit dist q ef b n).result.length < ef) :
    (∀ i, i ∈ (s.visit dist q ef b n).visited ↔ i = n ∨ i ∈ b.visited) ∧
      b.pending ⊆ (s.visit dist q ef b n).pending ∧
      (n ∉ b.visited → n ∈ (s.visit dist q ef b n).pending) := by
  rcases visit_of_room hlt hroom with ⟨hold, hb⟩ | ⟨-, d, -, hb⟩
  · rw [hb]
    refine ⟨fun i => ⟨Or.inr, ?_⟩, le_rfl, absurd hold⟩
    rintro (rfl | hi)
    · exact hold
    · exact hi
  · rw [hb]
    refine ⟨fun i => List.mem_cons, ?_, ?_⟩
    · rintro i ⟨c, hc, rfl⟩
      exact ⟨c, mem_push.1.mpr (Or.inr hc), rfl⟩
    · intro _
      exact ⟨_, mem_push.1.mpr (Or.inl rfl), rfl⟩

/-- A search that still has room does not break off. -/
lemma Beam.Done.candidates_eq_nil (hdone : b.Done ef) (hroom : b.result.length < ef) :
    b.candidates = [] := by
  cases hcand : b.candidates with
  | nil => rfl
  | cons c rest => exact absurd hroom (not_lt.mpr (hdone c rest hcand).2)

section Search

variable (hlinked : s.Linked) (hep : ep < s.nodes.length)
include hlinked hep

lemma Beam.Full.foldl_visit {ns : List ℕ} (h : b.Full dist s q ef level ep)
    (hns : ∀ n ∈ ns, ReflTransGen (s.Edge level) ep n) :
    (ns.foldl (s.visit dist q ef) b).Full dist s q ef level ep ∧
      ((ns.foldl (s.visit dist q ef) b).result.length < ef →
        b.result.length < ef ∧
        (∀ i, i ∈ (ns.foldl (s.visit dist q ef) b).visited ↔ i ∈ b.visited ∨ i ∈ ns) ∧
        b.pending ⊆ (ns.foldl (s.visit dist q ef) b).pending ∧
        ∀ n ∈ ns, n ∉ b.visited → n ∈ (ns.foldl (s.visit dist q ef) b).pending) := by
  induction ns generalizing b with
  | nil => exact ⟨h, fun hroom => ⟨hroom, by simp, le_rfl, nofun⟩⟩
  | cons n ns ih =>
    have hn := hns n List.mem_cons_self
    have hlt : n < s.nodes.length :=
      Worklist.mem_of_reaches {i | i < s.nodes.length} (fun _ _ _ => hlinked level _ _) hep hn
    obtain ⟨hfull, hmore⟩ :=
      ih (h.visit hn hlt) fun n' hn' => hns n' (List.mem_cons_of_mem _ hn')
    refine ⟨hfull, ?_⟩
    intro hroom
    obtain ⟨hroom', hvisited', hpending', hnew'⟩ := hmore hroom
    obtain ⟨hvisited, hpending, hnew⟩ := pending_visit hlt hroom'
    refine ⟨room_of_visit hlt hroom', ?_, hpending.trans hpending', ?_⟩
    · intro i
      rw [List.foldl_cons, hvisited', hvisited, List.mem_cons]
      tauto
    · intro i hi hnot
      rw [List.foldl_cons]
      by_cases hin : i = n
      · subst hin
        exact hpending' (hnew hnot)
      · have hi' := (List.mem_cons.mp hi).resolve_left hin
        exact hnew' i hi' fun hv => ((hvisited i).mp hv).elim hin hnot

/-- A search explores the layer as long as it has room. -/
lemma explored_expand (dist : V → V → D) (q : V) (ef level fuel : ℕ) :
    let b := s.expand dist q ef level fuel (s.startBeam dist q [ep])
    b.Full dist s q ef level ep ∧ (b.result.length < ef →
      Worklist.Explored (s.Edge level) ep {i | i ∈ b.visited} b.pending) := by
  obtain ⟨d, hd⟩ := s.exists_distance dist q hep
  refine expand_invariant (P := fun b : Beam D => b.Full dist s q ef level ep ∧
    (b.result.length < ef →
      Worklist.Explored (s.Edge level) ep {i | i ∈ b.visited} b.pending)) ?_ fuel
    ⟨⟨sound_startBeam dist q level hep, ?_, ?_, fun _ => ?_⟩, fun _ => ?_⟩
  · rintro b c rest ⟨hfull, hexplored⟩ hcand
    obtain ⟨hrest, hns⟩ := hfull.toSound.pop hcand
    have hrest' : ({ b with candidates := rest } : Beam D).Full dist s q ef level ep :=
      ⟨hrest, hfull.sorted, hfull.once, hfull.all⟩
    obtain ⟨hfull', hmore⟩ := hrest'.foldl_visit hlinked hep hns
    refine ⟨hfull', ?_⟩
    intro hroom
    obtain ⟨hroom', hvisited, hpending, hnew⟩ := hmore hroom
    have hc := (hfull.candidates c (hcand ▸ List.mem_cons_self)).1
    refine (hexplored hroom').expand hc hvisited ?_ hnew
    rintro i ⟨c', hc', rfl⟩ hne
    refine hpending ⟨c', ?_, rfl⟩
    rw [hcand] at hc'
    exact (List.mem_cons.mp hc').resolve_left fun heq => hne (heq ▸ rfl)
  · rw [startBeam_singleton hd]
    exact List.pairwise_singleton _ _
  · rw [startBeam_singleton hd]
    exact List.nodup_singleton _
  · rw [startBeam_singleton hd]
    exact fun i => id
  · rw [startBeam_singleton hd]
    have hseen : {i | i ∈ [ep]} = ({ep} : Set ℕ) := Set.ext fun i => List.mem_singleton
    have htodo : Beam.pending (⟨[ep], [⟨d, ep⟩], [⟨d, ep⟩]⟩ : Beam D) = {ep} := by
      refine Set.ext fun i => ⟨?_, ?_⟩
      · rintro ⟨c, hc, rfl⟩
        rw [List.mem_singleton.mp hc]
        rfl
      · rintro rfl
        exact ⟨_, List.mem_cons_self, rfl⟩
    dsimp only
    rw [hseen, htodo]
    exact Worklist.explored_start

/-- What a search of any width returns: results in order, each of them once; and if there was room
for more, all that its entry point reaches. -/
theorem searchLayer_full (dist : V → V → D) (q : V) (ef level : ℕ) :
    (s.searchLayer dist q [ep] ef level).Pairwise (· ≤ ·) ∧
      ((s.searchLayer dist q [ep] ef level).map DistIdx.idx).Nodup ∧
      ((s.searchLayer dist q [ep] ef level).length < ef →
        ∀ i, ReflTransGen (s.Edge level) ep i →
          i ∈ (s.searchLayer dist q [ep] ef level).map DistIdx.idx) := by
  obtain ⟨hfull, hexplored⟩ := explored_expand hlinked hep dist q ef level (s.nodes.length + 1)
  have hdone := done_expand ef (s.nodes.length + 1) hlinked hep
    (sound_startBeam dist q level hep) ((remaining_startBeam dist q hep).le.trans (Nat.le_succ _))
  refine ⟨hfull.sorted, hfull.once, ?_⟩
  intro hroom i hreach
  have hpending : (s.expand dist q ef level (s.nodes.length + 1)
      (s.startBeam dist q [ep])).pending = ∅ := by
    rw [Beam.pending, hdone.candidates_eq_nil hroom]
    simp
  have hseen := hexplored hroom
  rw [hpending] at hseen
  exact hfull.all hroom i (hseen.mem_iff.mpr hreach)

/-- A search as wide as the index finds all that its entry point reaches, each once, nearest
first. -/
theorem searchLayer_exhaustive (hef : s.nodes.length ≤ ef) (dist : V → V → D) (q : V) (level : ℕ) :
    (s.searchLayer dist q [ep] ef level).Pairwise (· ≤ ·) ∧
      ((s.searchLayer dist q [ep] ef level).map DistIdx.idx).Nodup ∧
      ∀ c, c ∈ s.searchLayer dist q [ep] ef level ↔
        ReflTransGen (s.Edge level) ep c.idx ∧ s.Measured dist q c := by
  obtain ⟨hsorted, honce, hall⟩ := searchLayer_full hlinked hep dist q ef level
  set w := s.searchLayer dist q [ep] ef level with hw
  refine ⟨hsorted, honce, fun c => ⟨reaches_of_mem_searchLayer hep, ?_⟩⟩
  rintro ⟨hreach, hmeasured⟩
  have hin : c.idx ∈ w.map DistIdx.idx := by
    by_cases hroom : w.length < ef
    · exact hall hroom c.idx hreach
    · -- without room for more, every node of the index is a result
      have hsub : w.map DistIdx.idx ⊆ List.range s.nodes.length := by
        intro i hi
        obtain ⟨c', hc', rfl⟩ := List.mem_map.mp hi
        exact List.mem_range.mpr (State.lt_of_measured (reaches_of_mem_searchLayer hep hc').2)
      have hperm := (List.subperm_of_subset honce hsub).perm_of_length_le (by
        rw [List.length_range, List.length_map]
        omega)
      exact hperm.mem_iff.mpr (List.mem_range.mpr (State.lt_of_measured hmeasured))
  obtain ⟨c', hc', hidx⟩ := List.mem_map.mp hin
  exact hmeasured.eq (reaches_of_mem_searchLayer hep hc').2 hidx.symm ▸ hc'

end Search

end Hnsw

end GrainStore
