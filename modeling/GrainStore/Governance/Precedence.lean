import Mathlib
import GrainStore.Governance

/-!
# Precedence of rules

`precedence` says what a decision should be when all that is known of the applicable rules is which
effects they have.  The loop of `RuleSet.authorize` computes it (`authorize_eq`), so neither the
order nor the multiplicity of the rules matters, and what a further rule does to a decision is a
fact about `precedence` alone.
-/

namespace GrainStore

/-- How much a decision lets through. -/
def Decision.permits : Decision → ℕ
  | .deny => 0
  | .mask => 1
  | .allow => 2

/-! ## The decision from the effects -/

section Precedence

variable (read : Bool) (has has' : Effect → Prop) [DecidablePred has] [DecidablePred has']

/-- Deny before mask before allow, where only a read is masked; the default is to deny. -/
def precedence : Decision :=
  if has .deny then .deny
  else if read ∧ has .mask then .mask
  else if has .allow then .allow
  else .deny

variable {read has has'}

lemma precedence_congr (h : ∀ effect, has effect ↔ has' effect) :
    precedence read has = precedence read has' := by
  simp only [precedence, h]

/-- A further deny lets nothing through. -/
lemma precedence_of_deny (h : has .deny) : precedence read has = .deny := if_pos h

/-- Only a read is masked. -/
lemma precedence_write (hdeny : has' .deny ↔ has .deny) (hallow : has' .allow ↔ has .allow) :
    precedence false has' = precedence false has := by
  simp [precedence, hdeny, hallow]

/-- A further mask lets no more through, unless there was no effect at all: then it turns the
default into a mask. -/
lemma precedence_of_mask (hmask : has' .mask) (hdeny : has' .deny ↔ has .deny) :
    (precedence true has').permits ≤ (precedence true has).permits ∨
      precedence true has' = .mask ∧ precedence true has = .deny ∧ ∀ effect, ¬has effect := by
  by_cases hd : has .deny
  · left
    rw [precedence_of_deny hd, precedence_of_deny (hdeny.mpr hd)]
  have hmasked : precedence true has' = .mask := by
    rw [precedence, if_neg (mt hdeny.mp hd), if_pos ⟨rfl, hmask⟩]
  rw [hmasked]
  by_cases hm : has .mask
  · left
    rw [precedence, if_neg hd, if_pos ⟨rfl, hm⟩]
  by_cases ha : has .allow
  · left
    rw [precedence, if_neg hd, if_neg fun h => hm h.2, if_pos ha]
    decide
  · right
    refine ⟨rfl, ?_, ?_⟩
    · rw [precedence, if_neg hd, if_neg fun h => hm h.2, if_neg ha]
    · intro effect
      cases effect with
      | allow => exact ha
      | deny => exact hd
      | mask => exact hm

end Precedence

/-! ## Applicable rules -/

/-- A rule is about a request: its agent, its action if it names one, and its target. -/
structure Rule.Applies (r : Rule) (agent : AgentId) (action : Action) (target : GrainRef) : Prop where
  agent : r.agent = agent
  action : ∀ a, r.action = some a → a = action
  target : r.matcher.matches target

variable {rules : List Rule} {agent : AgentId} {action : Action} {target : GrainRef}

/-- The three conditions under which the loop does not skip a rule. -/
lemma Rule.applies_iff (r : Rule) : r.Applies agent action target ↔
    r.agent = agent ∧ r.action.any (· ≠ action) = false ∧ r.matcher.matches target = true := by
  have haction : r.action.any (· ≠ action) = false ↔ ∀ a, r.action = some a → a = action := by
    cases r.action with
    | none => simp
    | some a => simp
  rw [haction]
  exact ⟨fun h => ⟨h.agent, h.action, h.target⟩, fun h => ⟨h.1, h.2.1, h.2.2⟩⟩

instance (r : Rule) : Decidable (r.Applies agent action target) :=
  decidable_of_iff' _ r.applies_iff

/-- Some applicable rule has an effect. -/
def HasEffect (rules : List Rule) (agent : AgentId) (action : Action) (target : GrainRef)
    (effect : Effect) : Prop :=
  ∃ r ∈ rules, r.Applies agent action target ∧ r.effect = effect

instance : DecidablePred (HasEffect rules agent action target) := fun effect =>
  inferInstanceAs (Decidable (∃ r ∈ rules, r.Applies agent action target ∧ r.effect = effect))

lemma hasEffect_cons (r : Rule) (effect : Effect) :
    HasEffect (r :: rules) agent action target effect ↔
      r.Applies agent action target ∧ r.effect = effect ∨
        HasEffect rules agent action target effect := by
  simp [HasEffect]

lemma hasEffect_perm {rules' : List Rule} (h : rules'.Perm rules) (effect : Effect) :
    HasEffect rules' agent action target effect ↔ HasEffect rules agent action target effect := by
  simp only [HasEffect, h.mem_iff]

/-- Another rule adds its effect, if it applies. -/
lemma hasEffect_insert (before after : List Rule) (r : Rule) (effect : Effect) :
    HasEffect (before ++ r :: after) agent action target effect ↔
      r.Applies agent action target ∧ r.effect = effect ∨
        HasEffect (before ++ after) agent action target effect := by
  rw [hasEffect_perm List.perm_middle, hasEffect_cons]

namespace RuleSet

/-- The loop with what was matched before. -/
lemma scan_eq (rules : List Rule) (allow mask : Bool) :
    scan agent action target allow mask rules =
      precedence (action = .read) fun effect =>
        HasEffect rules agent action target effect ∨
          effect = .allow ∧ allow ∨ effect = .mask ∧ mask := by
  induction rules generalizing allow mask with
  | nil =>
    rw [scan, precedence]
    simp [HasEffect, and_comm]
  | cons r rules ih =>
    have hskip : ¬r.Applies agent action target →
        scan agent action target allow mask rules =
          precedence (action = .read) fun effect =>
            HasEffect (r :: rules) agent action target effect ∨
              effect = .allow ∧ allow ∨ effect = .mask ∧ mask := by
      intro hnot
      rw [ih]
      refine precedence_congr ?_
      intro effect
      rw [hasEffect_cons]
      simp [hnot]
    rw [scan]
    split
    · rename_i hagent
      exact hskip fun h => hagent h.agent
    split
    · rename_i haction
      exact hskip fun h => absurd haction (by rw [(r.applies_iff.mp h).2.1]; decide)
    split
    · rename_i htarget
      exact hskip fun h => by simp [h.target] at htarget
    · rename_i hagent haction htarget
      have happly : r.Applies agent action target := r.applies_iff.mpr
        ⟨not_not.mp hagent, by simpa using haction, by simpa using htarget⟩
      cases heffect : r.effect with
      | deny =>
        refine (precedence_of_deny (Or.inl ?_)).symm
        exact (hasEffect_cons r _).mpr (Or.inl ⟨happly, heffect⟩)
      | mask =>
        dsimp only
        rw [ih]
        refine precedence_congr ?_
        intro effect
        rw [hasEffect_cons, heffect]
        cases effect <;> simp [happly]
      | allow =>
        dsimp only
        rw [ih]
        refine precedence_congr ?_
        intro effect
        rw [hasEffect_cons, heffect]
        cases effect <;> simp [happly]

/-- A decision depends on the effects of the applicable rules only. -/
theorem authorize_eq (rules : List Rule) (agent : AgentId) (action : Action) (target : GrainRef) :
    authorize ⟨rules⟩ agent action target =
      precedence (action = .read) (HasEffect rules agent action target) := by
  rw [authorize, scan_eq]
  exact precedence_congr fun effect => by simp

/-- How rules decide.  A request is denied when an applicable rule denies it, else masked when it is
a read and an applicable rule masks it, else allowed when an applicable rule allows it, else denied.
The order of the rules does not matter.  Wherever a deny rule is added, no decision lets more
through; a mask rule changes no decision but those on reads, and lets no more through but where no
rule applied, when it turns the default deny into a mask. -/
theorem authorize_precedence (rules : List Rule) (agent : AgentId) (action : Action)
    (target : GrainRef) :
    authorize ⟨rules⟩ agent action target =
        (if HasEffect rules agent action target .deny then .deny
        else if action = .read ∧ HasEffect rules agent action target .mask then .mask
        else if HasEffect rules agent action target .allow then .allow
        else .deny) ∧
      (∀ rules' : List Rule, rules'.Perm rules →
        authorize ⟨rules'⟩ agent action target = authorize ⟨rules⟩ agent action target) ∧
      ∀ (before after : List Rule) (rule : Rule), before ++ after = rules →
        (rule.effect = .deny →
          (authorize ⟨before ++ rule :: after⟩ agent action target).permits ≤
            (authorize ⟨rules⟩ agent action target).permits) ∧
        (rule.effect = .mask → action ≠ .read →
          authorize ⟨before ++ rule :: after⟩ agent action target =
            authorize ⟨rules⟩ agent action target) ∧
        (rule.effect = .mask → action = .read →
          (authorize ⟨before ++ rule :: after⟩ agent action target).permits ≤
              (authorize ⟨rules⟩ agent action target).permits ∨
            authorize ⟨before ++ rule :: after⟩ agent action target = .mask ∧
              authorize ⟨rules⟩ agent action target = .deny ∧
              ∀ r ∈ rules, ¬r.Applies agent action target) := by
  refine ⟨?_, ?_, ?_⟩
  · rw [authorize_eq, precedence]
    simp only [decide_eq_true_eq]
  · intro rules' hperm
    rw [authorize_eq, authorize_eq]
    exact precedence_congr (hasEffect_perm hperm)
  · rintro before after rule rfl
    have hinsert : ∀ effect,
        HasEffect (before ++ rule :: after) agent action target effect ↔
          rule.Applies agent action target ∧ rule.effect = effect ∨
            HasEffect (before ++ after) agent action target effect :=
      hasEffect_insert before after rule
    simp only [authorize_eq]
    -- a rule that does not apply changes nothing
    by_cases happly : rule.Applies agent action target
    · refine ⟨?_, ?_, ?_⟩
      · intro heffect
        rw [precedence_of_deny ((hinsert _).mpr (Or.inl ⟨happly, heffect⟩))]
        exact Nat.zero_le _
      · intro heffect hread
        rw [decide_eq_false hread]
        refine precedence_write ?_ ?_
        · rw [hinsert, heffect]
          simp
        · rw [hinsert, heffect]
          simp
      · intro heffect hread
        rw [decide_eq_true hread]
        have hdeny : HasEffect (before ++ rule :: after) agent action target .deny ↔
            HasEffect (before ++ after) agent action target .deny := by
          rw [hinsert, heffect]
          simp
        refine (precedence_of_mask ((hinsert _).mpr (Or.inl ⟨happly, heffect⟩)) hdeny).imp id ?_
        · rintro ⟨hmask, hdeny, hnone⟩
          exact ⟨hmask, hdeny, fun r hr hr' => hnone r.effect ⟨r, hr, hr', rfl⟩⟩
    · have hsame : precedence (action = .read)
          (HasEffect (before ++ rule :: after) agent action target) =
            precedence (action = .read) (HasEffect (before ++ after) agent action target) :=
        precedence_congr fun effect => by
          rw [hinsert]
          simp [happly]
      rw [hsame]
      exact ⟨fun _ => le_rfl, fun _ _ => rfl, fun _ _ => Or.inl le_rfl⟩

end RuleSet

end GrainStore
