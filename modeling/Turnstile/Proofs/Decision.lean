import Turnstile.Proofs.Soundness

/-! Goals that the search decides. Each quantifier has a side, counted through the
operators above it, and stays on it in every step. Where no quantifier stands on
the side of its reusable rule, a search that is deep enough has no gaps. -/
namespace Turnstile

/-- The quantifiers of a formula on the given side, each with its own side. A negation
turns the side around, and so does a conditional for what it assumes. -/
def Formula.quantifiers (side : Side) : Formula → List (Side × Quantifier)
  | atom _ => []
  | neg body => body.quantifiers side.opposite
  | bin .cond left right => left.quantifiers side.opposite ++ right.quantifiers side
  | bin _ left right => left.quantifiers side ++ right.quantifiers side
  | quant q _ body => (side, q) :: body.quantifiers side

@[simp] theorem Formula.quantifiers_instantiate {side : Side} (var name : Text) (f : Formula) :
    (f.instantiate var name).quantifiers side = f.quantifiers side := by
  fun_induction quantifiers side f <;> simp_all [instantiate, quantifiers]

namespace Sequent

def quantifiers (s : Sequent) : List (Side × Quantifier) :=
  s.antecedent.flatMap (Formula.quantifiers .antecedent) ++
    s.consequent.flatMap (Formula.quantifiers .consequent)

/-- No universal quantifier on the side of the antecedent, and no existential one on
the side of the consequent. -/
def EigenvariableOnly (s : Sequent) : Prop :=
  (.antecedent, .all) ∉ s.quantifiers ∧ (.consequent, .ex) ∉ s.quantifiers

instance (s : Sequent) : Decidable s.EigenvariableOnly := inferInstanceAs (Decidable (_ ∧ _))

theorem EigenvariableOnly.subset {s t : Sequent} (fragment : s.EigenvariableOnly)
    (among : t.quantifiers ⊆ s.quantifiers) : t.EigenvariableOnly := by
  constructor
  · intro found
    exact fragment.1 (among found)
  · intro found
    exact fragment.2 (among found)

variable {s rest : Sequent} {side : Side} {f : Formula} {entry : Side × Quantifier}

@[simp] theorem mem_quantifiers_push :
    entry ∈ (s.push side f).quantifiers ↔ entry ∈ s.quantifiers ∨ entry ∈ f.quantifiers side := by
  cases side <;> simp [quantifiers, push, members, withMembers, or_comm, or_left_comm]

theorem Principal.mem_quantifiers (principal : s.Principal side f rest) :
    entry ∈ s.quantifiers ↔ entry ∈ rest.quantifiers ∨ entry ∈ f.quantifiers side := by
  cases principal <;> simp [quantifiers, or_comm, or_left_comm]

theorem Premises.mem_quantifiers {parents : List Sequent} (table : rest.Premises side f parents) :
    ∀ parent ∈ parents, entry ∈ parent.quantifiers →
      entry ∈ rest.quantifiers ∨ entry ∈ f.quantifiers side := by
  cases table <;> simp [Formula.quantifiers, Side.opposite] <;> tauto

theorem Premises.size_lt {parents : List Sequent} (table : rest.Premises side f parents) :
    ∀ parent ∈ parents, parent.size < rest.size + f.size := by
  cases table <;> simp [Formula.size] <;> omega

theorem size_pos (compound : s.isAtomic = false) : 0 < s.size := by
  cases focused : s.focus? with
  | none => simp [focus?_eq_none_iff.mp focused] at compound
  | some focus =>
    have principal := principal_of_focus? focused
    rw [principal.size_eq]
    cases shape : focus.principal with
    | atom text =>
      rw [shape] at principal
      cases principal.compound
    | neg body | bin c left right | quant q var body =>
      simp only [Formula.size]
      omega

namespace Principal

variable {q : Quantifier} {var : Text} {body : Formula}

theorem reduces_instance (principal : s.Principal side (.quant q var body) rest) (name : Name) :
    (rest.push side (body.instantiate var name)).size < s.size ∧
      (rest.push side (body.instantiate var name)).quantifiers ⊆ s.quantifiers := by
  constructor
  · simp [principal.size_eq, Formula.size]
  · intro entry found
    rw [mem_quantifiers_push, Formula.quantifiers_instantiate] at found
    exact principal.mem_quantifiers.mpr (found.imp_right (List.mem_cons_of_mem _))

theorem not_reusable (principal : s.Principal side (.quant q var body) rest)
    (fragment : s.EigenvariableOnly) : Rule.isReusable ⟨.quant q, side⟩ = false := by
  have own : (side, q) ∈ s.quantifiers := principal.mem_quantifiers.mpr (.inr List.mem_cons_self)
  cases q with
  | all =>
    cases side with
    | antecedent => exact absurd own fragment.1
    | consequent => rfl
  | ex =>
    cases side with
    | antecedent => rfl
    | consequent => exact absurd own fragment.2

end Principal

namespace Decomposition

variable {supply later : NameSupply} {branch : Branch}

/-- A step takes an operator away and gives no quantifier another side. -/
theorem reduces (decomposed : s.Decomposition supply branch later) {leaf : Leaf}
    (member : leaf ∈ branch.leaves) {parent : Sequent} (inside : parent ∈ leaf.parents) :
    parent.size < s.size ∧ parent.quantifiers ⊆ s.quantifiers := by
  cases decomposed with
  | propositional principal _ table =>
    obtain rfl := List.mem_singleton.mp member
    rw [principal.size_eq]
    refine ⟨table.size_lt parent inside, ?_⟩
    intro entry found
    exact principal.mem_quantifiers.mpr (table.mem_quantifiers parent inside found)
  | eigenvariable principal | unnamed principal =>
    obtain rfl := List.mem_singleton.mp member
    obtain rfl := List.mem_singleton.mp inside
    exact principal.reduces_instance _
  | candidates principal =>
    obtain ⟨name, _, rfl⟩ := List.mem_map.mp member
    obtain rfl := List.mem_singleton.mp inside
    exact principal.reduces_instance name

theorem not_reusable (decomposed : s.Decomposition supply branch later)
    (fragment : s.EigenvariableOnly) : branch.rule.isReusable = false := by
  cases decomposed with
  | propositional _ shape table => cases table <;> cases shape <;> rfl
  | eigenvariable principal | candidates principal | unnamed principal =>
    exact principal.not_reusable fragment

end Decomposition
end Sequent

namespace Search

theorem preserves_complete {setting : Setting} (untimed : setting.Untimed) :
    Preserves setting (fun left s => s.EigenvariableOnly ∧ s.size ≤ left)
      fun state => state.gaps = 0 ∧ state.timedOut = false where
  expire kept late := by simp [untimed.isLate_eq_false kept.2] at late
  close kept := by simpa using kept
  leaveOpen kept := by simpa using kept
  cut _ admitted compound := absurd admitted.2 (Nat.not_le.mpr (Sequent.size_pos compound))
  branchOff kept admitted decomposed := by
    obtain ⟨leaf, only, _⟩ := decomposed.invertible (decomposed.not_reusable admitted.1)
    simpa [State.gaps_branchOff_singleton _ _ _ _ only] using kept
  tryLeaf kept := by simpa using kept
  finish kept admitted decomposed := by
    simpa [State.gaps_finish, decomposed.not_reusable admitted.1] using kept
  parents admitted decomposed leaf member parent inside := by
    obtain ⟨smaller, among⟩ := decomposed.reduces member inside
    exact ⟨admitted.1.subset among, by omega⟩

end Search

namespace Session

variable (session : Session) (clock : Clock) {goal : Sequent}

/-- Without a deadline, and with a rule application for every operator, a search
decides a goal whose quantifiers all take fresh names. -/
theorem decides_eigenvariableOnly (bound : goal.WellBound) (fragment : goal.EigenvariableOnly)
    (untimed : session.limits.timeout = 0) (deep : goal.size ≤ session.limits.depth) :
    (goal.Valid → (session.prove clock goal).1.verdict = .proved) ∧
      (¬goal.Valid → (session.prove clock goal).1.verdict = .unproved) ∧
      (session.prove clock goal).1.verdict ≠ .exhausted := by
  have ⟨complete, running⟩ : (Search.run (session.setting clock) goal).2.gaps = 0 ∧
      (Search.run (session.setting clock) goal).2.timedOut = false :=
    (Search.preserves_complete (session.untimed_setting clock untimed)).visit
      ⟨fragment, deep⟩ ⟨rfl, rfl⟩
  cases outcome : (Search.run (session.setting clock) goal).1 with
  | true =>
    have proved : (session.prove clock goal).1.verdict = .proved :=
      Search.verdict_eq_proved.mpr outcome
    have valid := (Search.derivable_of_visit outcome).valid bound
    exact ⟨fun _ => proved, fun invalid => absurd valid invalid, by simp [proved]⟩
  | false =>
    have unproved : (session.prove clock goal).1.verdict = .unproved :=
      Search.verdict_eq_unproved.mpr ⟨outcome, complete, running⟩
    have refuted := Search.refuted_of_visit outcome complete
    exact ⟨fun valid => absurd refuted (Sequent.valid_iff.mp valid), fun _ => unproved,
      by simp [unproved]⟩

theorem decides_crossing_quantifiers :
    let goal : Sequent :=
      ⟨[.bin .cond (.quant .all ['x'] (.atom "<x> rests".toList)) (.atom "calm".toList)],
       [.bin .disj (.atom "calm".toList) (.neg (.quant .ex ['y'] (.atom "<y> rests".toList)))]⟩
    let session : Session := { limits := { depth := 5, names := 1 } }
    (goal.Valid → (session.prove (fun _ => 0) goal).1.verdict = .proved) ∧
      (¬goal.Valid → (session.prove (fun _ => 0) goal).1.verdict = .unproved) ∧
      (session.prove (fun _ => 0) goal).1.verdict ≠ .exhausted :=
  decides_eigenvariableOnly _ _ (by decide) (by decide) rfl (by decide)

end Session
end Turnstile
