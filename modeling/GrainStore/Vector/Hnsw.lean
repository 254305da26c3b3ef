import Mathlib
import GrainStore.Usize
import GrainStore.Vector.Brute

/-!
# The approximate vector index

A graph of layers over the vectors inserted: greedy descent through the upper layers, a beam search
at the base layer, and neighbour pruning that bounds the degrees.  Deletes are soft.

Distances are exact numbers, so `total_cmp` and `<` are one order; the infinite distance that the
source compares with where there is no result yet is `none` here.  The level of a new node is drawn
at random; here it comes with the insert, as any `usize`.  An insert takes room for `level + 1`
lists and has no result when this panics (`listCount`): a source that is tuned with `m = 1` draws
the largest `usize` every time, with any other `m` no level above 39.  Where an index is out of range
the source panics and the model does nothing; `State.Linked` and `State.Indexed` are the invariants
that exclude it.
-/

namespace GrainStore

/-- Tunables: the largest degrees, above the base layer and on it, and the beam width of an
insert. -/
structure HnswConfig where
  m : ℕ
  m0 : ℕ
  efConstruction : ℕ

namespace Hnsw

/-- A vector inserted; `links[level]` are its neighbours at that level. -/
structure Node (V : Type*) where
  sid : Sid
  vector : V
  links : List (List ℕ)

/-- A node and its distance to what is searched for. -/
structure DistIdx (D : Type*) where
  dist : D
  idx : ℕ

/-- Nearest first, then by index. -/
def DistIdx.key {D : Type*} (c : DistIdx D) : D ×ₗ ℕ := toLex (c.dist, c.idx)

lemma DistIdx.key_injective {D : Type*} : Function.Injective (DistIdx.key (D := D)) := by
  rintro ⟨d, i⟩ ⟨d', i'⟩ h
  obtain ⟨rfl, rfl⟩ := Prod.mk.inj (toLex.injective h)
  rfl

instance {D : Type*} [LinearOrder D] : LinearOrder (DistIdx D) :=
  LinearOrder.lift' DistIdx.key DistIdx.key_injective

structure State (V : Type*) where
  nodes : List (Node V)
  deleted : List Bool
  sidToIdx : Std.ExtTreeMap Sid ℕ
  entry : Option ℕ
  maxLevel : ℕ
  live : ℕ
  cfg : HnswConfig

def new (V : Type*) (cfg : HnswConfig) : State V := ⟨[], [], ∅, none, 0, 0, cfg⟩

/-- The number of lists of links that a node of a level gets, one for each layer up to the level.  A
list takes 24 bytes. -/
def listCount (overflowChecks : Bool) (level : U64) : Option ℕ :=
  (addUsize overflowChecks level.toNat 1).bind (withCapacity 24)

/-- There is room for a list for each layer up to the level. -/
def Roomy (level : U64) : Prop := (level.toNat + 1) * 24 ≤ isizeMax

/-- A node gets the lists there is room for, or none in a build where the number of lists wraps
around. -/
lemma listCount_eq_some_iff {overflowChecks : Bool} {level : U64} {lists : ℕ} :
    listCount overflowChecks level = some lists ↔ Roomy level ∧ lists = level.toNat + 1 ∨
      overflowChecks = false ∧ level.toNat = usizeMax ∧ lists = 0 :=
  addUsize_one_bind_withCapacity (Nat.le_of_lt_succ level.isLt) (by decide)

/-- A build with overflow checks gives a node lists only if there is room for all of them. -/
lemma roomy_of_listCount {level : U64} (h : (listCount true level).isSome) : Roomy level := by
  obtain ⟨lists, hlists⟩ := Option.isSome_iff_exists.mp h
  rcases listCount_eq_some_iff.mp hlists with ⟨hroomy, -⟩ | ⟨hfalse, -⟩
  · exact hroomy
  · cases hfalse

lemma Roomy.listCount_eq {level : U64} (h : Roomy level) (overflowChecks : Bool) :
    listCount overflowChecks level = some (level.toNat + 1) :=
  listCount_eq_some_iff.mpr (Or.inl ⟨h, rfl⟩)

/-- The working state of a beam search: the nodes visited, the candidates still to be expanded and
the results so far, both nearest first. -/
structure Beam (D : Type*) where
  visited : List ℕ
  candidates : List (DistIdx D)
  result : List (DistIdx D)

namespace Beam

variable {D : Type*} [LinearOrder D]

def push (b : Beam D) (c : DistIdx D) : Beam D :=
  { b with
    candidates := b.candidates.orderedInsert (· ≤ ·) c
    result := b.result.orderedInsert (· ≤ ·) c }

/-- The distance of the farthest result. -/
def farthest (b : Beam D) : Option D := b.result.getLast?.map DistIdx.dist

/-- Drop the farthest result if there are too many. -/
def cut (b : Beam D) (ef : ℕ) : Beam D :=
  if ef < b.result.length then { b with result := b.result.dropLast } else b

end Beam

namespace State

variable {V D : Type*} [LinearOrder D] (dist : V → V → D)

def distance (s : State V) (q : V) (idx : ℕ) : Option D :=
  s.nodes[idx]?.map fun node => dist q node.vector

/-- The links of a node at a level, if it has the level. -/
def linksAt (s : State V) (idx level : ℕ) : Option (List ℕ) :=
  s.nodes[idx]?.bind fun node => node.links[level]?

/-! ## Beam search -/

/-- Look at a neighbour. -/
def visit (s : State V) (q : V) (ef : ℕ) (b : Beam D) (n : ℕ) : Beam D :=
  if n ∈ b.visited then b
  else
    let b := { b with visited := n :: b.visited }
    match s.distance dist q n with
    | none => b
    | some d =>
      if (∀ f ∈ b.farthest, d < f) ∨ b.result.length < ef then (b.push ⟨d, n⟩).cut ef else b

/-- The loop over the candidates: the nearest one is expanded, unless it is farther than all results
and there are enough of them. -/
def expand (s : State V) (q : V) (ef level : ℕ) : ℕ → Beam D → Beam D
  | 0, b => b
  | fuel + 1, b =>
    match b.candidates with
    | [] => b
    | c :: rest =>
      if (∃ f ∈ b.farthest, f < c.dist) ∧ ef ≤ b.result.length then b
      else
        let neighbors := (s.linksAt c.idx level).getD []
        expand s q ef level fuel (neighbors.foldl (s.visit dist q ef) { b with candidates := rest })

/-- The beam a search starts with. -/
def startBeam (s : State V) (q : V) (entryPoints : List ℕ) : Beam D :=
  entryPoints.foldl
    (fun b ep =>
      match s.distance dist q ep with
      | none => b
      | some d => b.push ⟨d, ep⟩)
    ⟨entryPoints, [], []⟩

/-- Beam search of one layer; returns candidates ascending by distance.  Every step of the loop
takes a candidate, and no node is a candidate twice. -/
def searchLayer (s : State V) (q : V) (entryPoints : List ℕ) (ef level : ℕ) : List (DistIdx D) :=
  (s.expand dist q ef level (s.nodes.length + entryPoints.length) (s.startBeam dist q
    entryPoints)).result

/-- Greedy descent through some layers. -/
def descend (s : State V) (q : V) (ep : ℕ) (layers : List ℕ) : ℕ :=
  layers.foldl
    (fun ep lc => ((s.searchLayer dist q [ep] 1 lc).head?.map DistIdx.idx).getD ep) ep

/-! ## Links -/

/-- Change the links of a node at a level, if it has the level. -/
def modifyLinks (s : State V) (a level : ℕ) (f : List ℕ → List ℕ) : State V :=
  { s with nodes := s.nodes.modify a fun node => { node with links := node.links.modify level f } }

def link (s : State V) (a b level : ℕ) : State V :=
  s.modifyLinks a level fun l => if b ∈ l then l else l ++ [b]

/-- Bound a node's degree at `level` to the configured maximum, keeping the nearest neighbours. -/
def prune (s : State V) (node level : ℕ) : State V :=
  let maxM := if level = 0 then s.cfg.m0 else s.cfg.m
  match s.nodes[node]? with
  | none => s
  | some nd =>
    s.modifyLinks node level fun links =>
      if links.length ≤ maxM then links
      else
        let scored := links.filterMap fun n => (s.distance dist nd.vector n).map fun d => ⟨d, n⟩
        ((scored.insertionSort (· ≤ ·)).take maxM).map DistIdx.idx

/-! ## Updates -/

/-- Soft-delete the node of a sid. -/
def retire (s : State V) (sid : Sid) : State V :=
  match s.sidToIdx[sid]? with
  | none => s
  | some old =>
    if s.deleted[old]? = some false then
      { s with deleted := s.deleted.set old true, live := s.live - 1 }
    else s

/-- A new node with some lists of links, all empty. -/
def addNode (s : State V) (sid : Sid) (vector : V) (lists : ℕ) : State V :=
  { s with
    nodes := s.nodes ++ [⟨sid, vector, List.replicate lists []⟩]
    deleted := s.deleted ++ [false]
    sidToIdx := s.sidToIdx.insert sid s.nodes.length
    live := s.live + 1 }

/-- Link two nodes in both directions; the links of the old one are pruned. -/
def linkBoth (idx lc : ℕ) (s : State V) (n : ℕ) : State V :=
  ((s.link idx n lc).link n idx lc).prune dist n lc

/-- Connect a node on one layer, entered at `p.2`; returns where to enter the next one. -/
def connect (idx : ℕ) (vector : V) (p : State V × ℕ) (lc : ℕ) : State V × ℕ :=
  let w := p.1.searchLayer dist vector [p.2] p.1.cfg.efConstruction lc
  let m := if lc = 0 then p.1.cfg.m0 else p.1.cfg.m
  let neighbors := (w.take m).map DistIdx.idx
  let s := neighbors.foldl (linkBoth dist idx lc) p.1
  (s.prune dist idx lc, (w.head?.map DistIdx.idx).getD p.2)

/-- Insert a node of a level, for which there are `lists` lists. -/
def place (s : State V) (sid : Sid) (vector : V) (level lists : ℕ) : State V :=
  let s := s.retire sid
  let idx := s.nodes.length
  let s := s.addNode sid vector lists
  match s.entry with
  | none => { s with entry := some idx, maxLevel := level }
  | some e =>
    let lMax := s.maxLevel
    -- the layers above the new node's top layer
    let ep := s.descend dist vector e (List.range' (level + 1) (lMax - level)).reverse
    let s := ((List.range (min level lMax + 1)).reverse.foldl (connect dist idx vector) (s, ep)).1
    if lMax < level then { s with entry := some idx, maxLevel := level } else s

def insert (overflowChecks : Bool) (s : State V) (sid : Sid) (vector : V) (level : U64) :
    Option (State V) :=
  (listCount overflowChecks level).map fun lists => s.place dist sid vector level.toNat lists

def remove (s : State V) (sid : Sid) : State V :=
  match s.sidToIdx[sid]? with
  | none => s
  | some _ => { s.retire sid with sidToIdx := s.sidToIdx.erase sid }

/-! ## Search -/

/-- The node where the descent to the base layer ends. -/
def baseEntry (s : State V) (q : V) : Option ℕ :=
  s.entry.map fun e => s.descend dist q e (List.range' 1 s.maxLevel).reverse

def search (s : State V) (q : V) (k ef : ℕ) : List (Candidate D) :=
  match s.baseEntry dist q with
  | none => []
  | some ep =>
    let w := s.searchLayer dist q [ep] (max ef k) 0
    ((w.filter fun c => s.deleted[c.idx]? = some false).take k).filterMap fun c =>
      s.nodes[c.idx]?.map fun node => ⟨node.sid, c.dist⟩

def len (s : State V) : ℕ := s.live

end State

/-! ## Runs -/

/-- An update; an insert comes with the level drawn for its node. -/
inductive Op (V : Type*) where
  | insert (sid : Sid) (vector : V) (level : U64)
  | remove (sid : Sid)

variable {V D : Type*} [LinearOrder D] (dist : V → V → D) (overflowChecks : Bool)

def State.apply (s : State V) : Op V → Option (State V)
  | .insert sid vector level => s.insert dist overflowChecks sid vector level
  | .remove sid => some (s.remove sid)

/-- The index after some updates. -/
def build (cfg : HnswConfig) (ops : List (Op V)) : Option (State V) :=
  ops.foldlM (State.apply dist overflowChecks) (new V cfg)

/-- The exact index after the same updates. -/
def exact (ops : List (Op V)) : VectorMap V :=
  ops.foldl
    (fun m op =>
      match op with
      | .insert sid vector _ => BruteForceIndex.writer.insert m sid vector
      | .remove sid => BruteForceIndex.writer.remove m sid)
    ∅

/-- How many nodes the updates insert. -/
def inserted (ops : List (Op V)) : ℕ :=
  ops.countP fun op => op matches .insert ..

/-- The level drawn for an update. -/
def Op.level? : Op V → Option U64
  | .insert _ _ level => some level
  | .remove _ => none

/-- The levels drawn for some updates. -/
def levels (ops : List (Op V)) : List U64 := ops.filterMap Op.level?

variable {dist} {overflowChecks} {cfg : HnswConfig} {ops : List (Op V)} {op : Op V}

lemma build_concat : build dist overflowChecks cfg (ops ++ [op]) =
    (build dist overflowChecks cfg ops).bind fun s => s.apply dist overflowChecks op := by
  rw [build, List.foldlM_append]
  refine congrArg (Option.bind _) (funext fun s => ?_)
  rw [List.foldlM_cons]
  exact bind_pure _

lemma forall_levels_concat {P : U64 → Prop} : (∀ level ∈ levels (ops ++ [op]), P level) ↔
    (∀ level ∈ levels ops, P level) ∧ ∀ level ∈ op.level?, P level := by
  rw [levels, List.filterMap_append, List.forall_mem_append]
  refine and_congr_right ?_
  intro _
  cases op with
  | insert sid v level => exact List.forall_mem_singleton.trans (by simp [Op.level?])
  | remove sid => exact ⟨fun _ => nofun, fun _ => nofun⟩

/-- What updates do that have a result: an insert places a node with some lists. -/
lemma State.apply_eq_some_iff {s s' : State V} :
    s.apply dist overflowChecks op = some s' ↔
      (∃ sid v level lists, op = .insert sid v level ∧
        listCount overflowChecks level = some lists ∧
        s' = s.place dist sid v level.toNat lists) ∨
      ∃ sid, op = .remove sid ∧ s' = s.remove sid := by
  cases op with
  | insert sid v level =>
    rw [State.apply, State.insert, Option.map_eq_some_iff]
    constructor
    · rintro ⟨lists, hlists, rfl⟩
      exact Or.inl ⟨sid, v, level, lists, rfl, hlists, rfl⟩
    · rintro (⟨_, _, _, lists, heq, hlists, rfl⟩ | ⟨_, heq, -⟩)
      · cases heq
        exact ⟨lists, hlists, rfl⟩
      · cases heq
  | remove sid =>
    refine ⟨fun h => Or.inr ⟨sid, rfl, (Option.some.inj h).symm⟩, ?_⟩
    rintro (⟨_, _, _, _, heq, -⟩ | ⟨_, heq, rfl⟩)
    · cases heq
    · cases heq
      rfl

/-- There is an index exactly when each insert gets its lists. -/
theorem build_isSome_iff : (build dist overflowChecks cfg ops).isSome ↔
    ∀ level ∈ levels ops, (listCount overflowChecks level).isSome := by
  induction ops using List.reverseRecOn with
  | nil => exact ⟨fun _ => nofun, fun _ => rfl⟩
  | append_singleton ops op ih =>
    rw [build_concat, forall_levels_concat, ← ih]
    cases build dist overflowChecks cfg ops with
    | none => simp
    | some s =>
      rw [Option.bind_some, Option.isSome_some, and_iff_right rfl]
      cases op with
      | insert sid v level => simp [State.apply, State.insert, Op.level?]
      | remove sid => simp [State.apply, Op.level?]

/-- With room for all lists there is an index in every build. -/
lemma exists_build (dist : V → V → D) (overflowChecks : Bool) (cfg : HnswConfig)
    (h : ∀ level ∈ levels ops, Roomy level) :
    ∃ s, build dist overflowChecks cfg ops = some s := by
  refine Option.isSome_iff_exists.mp (build_isSome_iff.mpr fun level hlevel => ?_)
  rw [(h level hlevel).listCount_eq]
  rfl

end Hnsw

end GrainStore
