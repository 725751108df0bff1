import Turnstile.Proofs.Decomposition

/-! Truth of formulas and sequents. A valuation says which atoms are true, by their
texts. A quantified formula is decided by its instances, one for each name, so
truth goes down to the substitution of names in texts. -/
namespace Turnstile

abbrev Valuation := Text → Bool

def Connective.denote : Connective → Prop → Prop → Prop
  | .conj, p, q => p ∧ q
  | .disj, p, q => p ∨ q
  | .cond, p, q => p → q

/-- What is the case where a member on this side does not make a sequent hold. -/
def Side.Against : Side → Prop → Prop
  | antecedent, p => p
  | consequent, p => ¬p

namespace Quantifier

universe u w

variable {α : Type u} {β : Type w} {p p' : α → Prop}

def quantify : Quantifier → (α → Prop) → Prop
  | .all, p => ∀ a, p a
  | .ex, p => ∃ a, p a

theorem quantify_congr (q : Quantifier) (same : ∀ a, p a ↔ p' a) :
    q.quantify p ↔ q.quantify p' := by
  cases q with
  | all => exact forall_congr' same
  | ex => exact exists_congr same

theorem quantify_comp (q : Quantifier) {g : β → α} (surjective : Function.Surjective g)
    (p : α → Prop) : q.quantify (fun b => p (g b)) ↔ q.quantify p := by
  cases q with
  | all => exact surjective.forall.symm
  | ex => exact surjective.exists.symm

theorem against_quantify_of_eigenvariable {q : Quantifier} {side : Side}
    (rule : Rule.isEigenvariable ⟨.quant q, side⟩ = true) :
    side.Against (q.quantify p) ↔ ∃ a, side.Against (p a) := by
  cases q <;> cases side <;> simp [Rule.isEigenvariable, Side.Against, quantify] at rule ⊢

theorem against_quantify_of_reusable {q : Quantifier} {side : Side}
    (rule : Rule.isReusable ⟨.quant q, side⟩ = true) :
    side.Against (q.quantify p) ↔ ∀ a, side.Against (p a) := by
  cases q <;> cases side <;> simp [Rule.isReusable, Side.Against, quantify] at rule ⊢

end Quantifier

/-- A reading of formulas in which connectives are classical. -/
structure Formula.Classical (holds : Formula → Prop) : Prop where
  neg : holds (.neg body) ↔ ¬holds body
  bin : holds (.bin c left right) ↔ c.denote (holds left) (holds right)

namespace Sequent

/-- All members of the antecedent are true and all members of the consequent false. -/
def RefutedBy (holds : Formula → Prop) (s : Sequent) : Prop :=
  (∀ f ∈ s.antecedent, holds f) ∧ ∀ f ∈ s.consequent, ¬holds f

variable {holds : Formula → Prop} {s rest : Sequent} {side : Side} {f : Formula}

theorem refutedBy_push :
    (s.push side f).RefutedBy holds ↔ s.RefutedBy holds ∧ side.Against (holds f) := by
  cases side <;> simp [RefutedBy, push, members, withMembers, Side.Against, or_imp, forall_and] <;>
    tauto

theorem Principal.refutedBy_iff (principal : s.Principal side f rest) :
    s.RefutedBy holds ↔ rest.RefutedBy holds ∧ side.Against (holds f) := by
  cases principal <;> simp [RefutedBy, Side.Against, or_imp, forall_and] <;> tauto

/-- Whatever refutes the member refutes one of the parents, and conversely. -/
theorem Premises.refutedBy_iff (classical : Formula.Classical holds) {parents : List Sequent}
    (table : rest.Premises side f parents) :
    (rest.RefutedBy holds ∧ side.Against (holds f)) ↔
      ∃ parent ∈ parents, parent.RefutedBy holds := by
  cases table <;>
    simp [refutedBy_push, Side.Against, classical.neg, classical.bin, Connective.denote] <;> tauto

theorem refutedBy_congr {holds' : Formula → Prop} (same : ∀ f ∈ s.formulas, holds f ↔ holds' f) :
    s.RefutedBy holds ↔ s.RefutedBy holds' := by
  refine and_congr (forall₂_congr fun f member => ?_) (forall₂_congr fun f member => not_congr ?_)
  · exact same f (List.mem_append_left _ member)
  · exact same f (List.mem_append_right _ member)

theorem not_refutedBy_iff : ¬s.RefutedBy holds ↔
    (∃ f ∈ s.antecedent, ¬holds f) ∨ ∃ f ∈ s.consequent, holds f := by
  simp only [RefutedBy, not_and_or, not_forall, exists_prop, not_not]

theorem not_refutedBy_of_isInitial (initial : s.isInitial = true) : ¬s.RefutedBy holds := by
  simp only [isInitial, List.any_eq_true, List.contains_iff_mem] at initial
  obtain ⟨f, left, right⟩ := initial
  rintro ⟨true, false⟩
  exact false f right (true f left)

end Sequent

namespace Formula

/-- Connectives are classical and quantifiers range over all names. The recursion ends because
an instance of a body has as many operators as the body. -/
def Holds (v : Valuation) : Formula → Prop
  | atom text => v text = true
  | neg body => ¬body.Holds v
  | bin c left right => c.denote (left.Holds v) (right.Holds v)
  | quant q var body =>
    q.quantify fun name : { name // Text.isName name = true } => (body.instantiate var name).Holds v
termination_by f => f.size
decreasing_by all_goals simp only [size, size_instantiate]; omega

theorem classical_holds (v : Valuation) : Classical (Holds v) where
  neg {body} := by simp only [Holds]
  bin {c left right} := by simp only [Holds]

/-- Names may be exchanged in the valuation instead of in the formula. -/
theorem holds_rename {r : Renaming} (surjective : r.Surjective) (v : Valuation) {f : Formula}
    (bound : f.WellBound) : f.Holds (v ∘ Text.rename r) ↔ (f.rename r).Holds v := by
  fun_induction Holds (v ∘ Text.rename r) f with
  | case1 text => rw [rename_atom, Holds, Function.comp_apply]
  | case2 body ih => rw [rename_neg, Holds, ih bound]
  | case3 c left right ihLeft ihRight =>
    obtain ⟨leftBound, rightBound⟩ := wellBound_bin.mp bound
    rw [rename_bin, Holds, ihLeft leftBound, ihRight rightBound]
  | case4 q var body ih =>
    obtain ⟨single, bodyBound⟩ := wellBound_quant.mp bound
    have each (name : { name // Text.isName name = true }) :
        (body.instantiate var name).Holds (v ∘ Text.rename r) ↔
          ((body.rename r).instantiate var (r name)).Holds v := by
      rw [ih name (wellBound_instantiate.mpr bodyBound), rename_instantiate r single name.2]
    have onto : Function.Surjective fun name : { name // Text.isName name = true } =>
        (⟨r name, r.isName name.2⟩ : { name // Text.isName name = true }) := by
      rintro ⟨image, named⟩
      obtain ⟨name, origin, rfl⟩ := surjective named
      exact ⟨⟨name, origin⟩, rfl⟩
    rw [rename_quant, Holds, q.quantify_congr each]
    exact q.quantify_comp onto fun name => ((body.rename r).instantiate var name).Holds v

end Formula

namespace Sequent

/-- Some member of the antecedent is false or some member of the consequent true. -/
def HoldsAt (v : Valuation) (s : Sequent) : Prop :=
  (∃ f ∈ s.antecedent, ¬f.Holds v) ∨ ∃ f ∈ s.consequent, f.Holds v

def Valid (s : Sequent) : Prop := ∀ v, s.HoldsAt v

/-- The valuation makes all members of the antecedent true and all of the consequent false. -/
abbrev Refuted (v : Valuation) (s : Sequent) : Prop := s.RefutedBy (Formula.Holds v)

variable {v : Valuation} {s : Sequent}

theorem holdsAt_iff : s.HoldsAt v ↔ ¬s.Refuted v := not_refutedBy_iff.symm

theorem valid_iff : s.Valid ↔ ¬∃ v, s.Refuted v := by
  simp only [Valid, holdsAt_iff, not_exists]

/-- What refutes a reusable formula refutes each of its instances. -/
theorem Principal.refuted_instance {rest : Sequent} {side : Side} {q : Quantifier} {var : Text}
    {body : Formula} {name : Name} (principal : s.Principal side (.quant q var body) rest)
    (rule : Rule.isReusable ⟨.quant q, side⟩ = true) (named : Text.isName name = true)
    (refuted : s.Refuted v) : (rest.push side (body.instantiate var name)).Refuted v := by
  obtain ⟨restRefuted, against⟩ := principal.refutedBy_iff.mp refuted
  rw [Formula.Holds, Quantifier.against_quantify_of_reusable rule] at against
  exact refutedBy_push.mpr ⟨restRefuted, against ⟨name, named⟩⟩

theorem refuted_rename {r : Renaming} (surjective : r.Surjective) (v : Valuation)
    (bound : s.WellBound) : s.Refuted (v ∘ Text.rename r) ↔ (s.rename r).Refuted v := by
  have each : ∀ f ∈ s.formulas, f.Holds (v ∘ Text.rename r) ↔ (f.rename r).Holds v :=
    fun f member => Formula.holds_rename surjective v (bound f member)
  simp only [RefutedBy, rename, List.forall_mem_map]
  exact refutedBy_congr each

/-- An atomic sequent without a common member is refuted where exactly the atoms of
its antecedent are true. -/
theorem refuted_of_atomic (atomic : s.isAtomic = true) (unshared : s.isInitial = false) :
    s.Refuted fun text => decide (.atom text ∈ s.antecedent) := by
  have atoms : ∀ f ∈ s.formulas, ∃ text, f = .atom text := by
    intro f member
    have atom : f.isAtom = true := List.all_eq_true.mp atomic f member
    cases f with
    | atom text => exact ⟨text, rfl⟩
    | neg body | bin c left right | quant q var body => cases atom
  constructor
  · intro f member
    obtain ⟨text, rfl⟩ := atoms f (List.mem_append_left _ member)
    simpa [Formula.Holds] using member
  · intro f member holds
    obtain ⟨text, rfl⟩ := atoms f (List.mem_append_right _ member)
    have common : s.isInitial = true := by
      simp only [isInitial, List.any_eq_true, List.contains_iff_mem]
      exact ⟨.atom text, by simpa [Formula.Holds] using holds, member⟩
    rw [common] at unshared
    cases unshared

end Sequent
end Turnstile
