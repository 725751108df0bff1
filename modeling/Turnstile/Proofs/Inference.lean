import Mathlib.Data.List.Nodup
import Turnstile.Proofs.Soundness

/-! What each rule does to the truth of a sequent. A propositional rule keeps it under every
valuation, an eigenvariable rule keeps validity, and a reusable rule leads from a parent back to
the sequent. -/
namespace Turnstile

theorem nodup_eraseDups {α : Type} [BEq α] [LawfulBEq α] (l : List α) : l.eraseDups.Nodup := by
  induction size : l.length using Nat.strong_induction_on generalizing l with
  | _ n ih =>
    subst size
    cases l with
    | nil => simp
    | cons a l =>
      rw [List.eraseDups_cons, List.nodup_cons]
      constructor
      · simp [List.mem_eraseDups]
      · exact ih _ (Nat.lt_succ_of_le (List.length_filter_le _ l)) _ rfl

namespace Sequent

namespace Decomposition

variable {s : Sequent} {supply later : NameSupply} {branch : Branch}

/-- The rule is the one for the first compound member on its side. -/
theorem rule_eq (decomposed : s.Decomposition supply branch later) :
    ∃ side rest, s.Principal side branch.principal rest ∧
      branch.rule = .ofKind branch.principal.kind side := by
  cases decomposed with
  | propositional principal shape => exact ⟨_, _, principal, by rw [shape]; rfl⟩
  | eigenvariable principal | candidates principal | unnamed principal =>
    exact ⟨_, _, principal, rfl⟩

theorem holdsAt_iff (decomposed : s.Decomposition supply branch later)
    (rule : branch.rule.operator.isQuantifier = false) :
    ∃ leaf, branch.leaves = [leaf] ∧
      ∀ v, s.HoldsAt v ↔ ∀ parent ∈ leaf.parents, parent.HoldsAt v := by
  cases decomposed with
  | propositional principal _ table =>
    refine ⟨_, rfl, fun v => ?_⟩
    simp only [Sequent.holdsAt_iff, principal.refutedBy_iff,
      table.refutedBy_iff (Formula.classical_holds v), not_exists, not_and]
  | eigenvariable | candidates | unnamed => cases rule

theorem valid_of_eigenvariable (decomposed : s.Decomposition supply branch later)
    (bound : s.WellBound) (rule : branch.rule.isEigenvariable = true) :
    ∃ leaf parent, branch.leaves = [leaf] ∧ leaf.parents = [parent] ∧
      (∀ v, ¬parent.HoldsAt v → ¬s.HoldsAt v) ∧ (parent.Valid → s.Valid) := by
  cases decomposed with
  | propositional _ shape table => cases table <;> cases shape <;> cases rule
  | candidates _ reusable | unnamed _ reusable => simp [isReusable_quant, rule] at reusable
  | eigenvariable principal eigenvariable issued =>
    obtain ⟨_, only, inverse⟩ :=
      (Decomposition.eigenvariable principal eigenvariable issued).invertible
        (by simp [isReusable_quant, eigenvariable])
    cases only
    refine ⟨_, _, rfl, rfl, ?_, ?_⟩
    · intro v fails
      rw [Sequent.holdsAt_iff, not_not] at fails ⊢
      exact inverse _ List.mem_cons_self v fails
    · simp only [valid_iff]
      rintro irrefutable ⟨v, refuted⟩
      obtain ⟨named, _, outside⟩ := NameSupply.fresh_spec issued
      obtain ⟨fresh, absent⟩ := not_mem_candidateNames.mp outside
      exact irrefutable
        (principal.exists_refuted_fresh bound eigenvariable named fresh absent refuted)

theorem holdsAt_of_reusable (decomposed : s.Decomposition supply branch later)
    (rule : branch.rule.isReusable = true) :
    ∀ leaf ∈ branch.leaves, ∃ parent, leaf.parents = [parent] ∧
      ∀ v, parent.HoldsAt v → s.HoldsAt v := by
  have instances {q : Quantifier} {side : Side} {var : Text} {body : Formula} {rest : Sequent}
      {name : Name} (principal : s.Principal side (.quant q var body) rest)
      (reusable : Rule.isReusable ⟨.quant q, side⟩ = true) (named : Text.isName name = true) :
      ∃ parent, (rest.instanceLeaf side var body name).parents = [parent] ∧
        ∀ v, parent.HoldsAt v → s.HoldsAt v := by
    refine ⟨_, rfl, fun v => ?_⟩
    simp only [Sequent.holdsAt_iff]
    exact mt (principal.refuted_instance reusable named)
  intro leaf member
  cases decomposed with
  | propositional _ shape table => cases table <;> cases shape <;> cases rule
  | eigenvariable _ eigenvariable => simp [isReusable_quant, eigenvariable] at rule
  | candidates principal =>
    obtain ⟨name, candidate, rfl⟩ := List.mem_map.mp member
    exact instances principal rule (isName_of_mem_candidateNames candidate)
  | unnamed principal _ _ issued =>
    obtain rfl := List.mem_singleton.mp member
    exact instances principal rule (NameSupply.fresh_spec issued).1

/-- No name is tried twice. -/
theorem nodup_witnesses (decomposed : s.Decomposition supply branch later) :
    (branch.leaves.map Leaf.witness).Nodup := by
  cases decomposed with
  | propositional | eigenvariable | unnamed => exact List.nodup_singleton _
  | candidates =>
    rw [List.map_map]
    exact (nodup_eraseDups _).map (Option.some_injective _)

end Decomposition

/-- The parents of a propositional rule hold together where the sequent holds. The parent of an
eigenvariable rule may fail where the sequent fails, and is valid only if the sequent is. Each
parent of a reusable rule holds only where the sequent holds. -/
theorem rules_sound_and_invertible {s : Sequent} (bound : s.WellBound) (supply : NameSupply) :
    (s.decompose supply = none ↔ ∀ f ∈ s.formulas, f.isAtom = true) ∧
    ∀ branch later, s.decompose supply = some (branch, later) →
      (∃ side rest, s.Principal side branch.principal rest ∧
        branch.rule = .ofKind branch.principal.kind side) ∧
      (branch.rule.operator.isQuantifier = false →
        ∃ leaf, branch.leaves = [leaf] ∧
          ∀ v, s.HoldsAt v ↔ ∀ parent ∈ leaf.parents, parent.HoldsAt v) ∧
      (branch.rule.isEigenvariable = true →
        ∃ leaf parent, branch.leaves = [leaf] ∧ leaf.parents = [parent] ∧
          (∀ v, ¬parent.HoldsAt v → ¬s.HoldsAt v) ∧ (parent.Valid → s.Valid)) ∧
      (branch.rule.isReusable = true →
        (∀ leaf ∈ branch.leaves, ∃ parent, leaf.parents = [parent] ∧
          ∀ v, parent.HoldsAt v → s.HoldsAt v) ∧
        (branch.leaves.map Leaf.witness).Nodup) := by
  constructor
  · rw [decompose_eq_none_iff, isAtomic, List.all_eq_true]
  · intro branch later found
    have decomposed := decomposition_of_decompose found
    exact ⟨decomposed.rule_eq, decomposed.holdsAt_iff, decomposed.valid_of_eigenvariable bound,
      fun rule => ⟨decomposed.holdsAt_of_reusable rule, decomposed.nodup_witnesses⟩⟩

/-- The name `aa` is in the sequent, so `x` becomes `ab`. -/
theorem rules_sound_and_invertible_fresh_name :
    let s : Sequent := ⟨[.quant .ex ['x'] (.atom "<x> sees <ann>".toList)],
      [.atom "<aa> rests".toList]⟩
    let parent : Sequent := ⟨[.atom "<ab> sees <ann>".toList], [.atom "<aa> rests".toList]⟩
    (s.decompose {}).map (fun found => found.1.leaves.map Leaf.parents) = some [[parent]] ∧
      (∀ v, ¬parent.HoldsAt v → ¬s.HoldsAt v) ∧ (parent.Valid → s.Valid) := by
  intro s parent
  have parents : (s.decompose {}).map (fun found => found.1.leaves.map Leaf.parents) =
      some [[parent]] := by decide +kernel
  have rule : (s.decompose {}).map (fun found => found.1.rule) =
      some ⟨.quant .ex, .antecedent⟩ := by decide +kernel
  obtain ⟨⟨branch, later⟩, found, same⟩ := Option.map_eq_some_iff.mp rule
  obtain ⟨leaf, other, only, single, inverse, sound⟩ :=
    ((rules_sound_and_invertible (by decide) {}).2 branch later found).2.2.1 (by rw [same]; rfl)
  obtain rfl : other = parent := by simpa [found, only, single] using parents
  exact ⟨parents, inverse, sound⟩

end Sequent
end Turnstile
