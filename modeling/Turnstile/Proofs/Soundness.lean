import Turnstile.Proofs.History
import Turnstile.Proofs.Refinement

/-! Both definite verdicts are right. A search that succeeds has found a derivation.
A search that fails without a gap has followed one path of invertible rules to an
open leaf, and the valuation of that leaf refutes everything on the path. -/
namespace Turnstile

/-- A rule that is not reusable has one leaf, and is invertible valuation by valuation. -/
theorem Sequent.Decomposition.invertible {s : Sequent} {supply later : NameSupply}
    {branch : Branch} (decomposed : s.Decomposition supply branch later)
    (rule : branch.rule.isReusable = false) :
    ∃ leaf, branch.leaves = [leaf] ∧
      ∀ parent ∈ leaf.parents, ∀ v, parent.Refuted v → s.Refuted v := by
  cases decomposed with
  | propositional principal _ table =>
    refine ⟨_, rfl, ?_⟩
    intro parent inside v refuted
    apply principal.refutedBy_iff.mpr
    exact (table.refutedBy_iff (Formula.classical_holds v)).mpr ⟨parent, inside, refuted⟩
  | eigenvariable principal eigenvariable issued =>
    refine ⟨_, rfl, ?_⟩
    intro parent inside v refuted
    obtain rfl := List.mem_singleton.mp inside
    obtain ⟨restRefuted, against⟩ := refutedBy_push.mp refuted
    apply principal.refutedBy_iff.mpr
    rw [Formula.Holds, Quantifier.against_quantify_of_eigenvariable eigenvariable]
    exact ⟨restRefuted, ⟨_, (NameSupply.fresh_spec issued).1⟩, against⟩
  | candidates _ reusable | unnamed _ reusable => simp [reusable] at rule

namespace Sequent

/-- An atomic sequent that cannot be closed. -/
def isOpen (s : Sequent) : Bool := s.isAtomic && !s.isInitial

theorem isOpen_iff {s : Sequent} : s.isOpen = true ↔ s.isAtomic = true ∧ s.isInitial = false := by
  simp [isOpen]

end Sequent

namespace Search

section Loops

variable {visit : Sequent → State → Bool × State} {history : Sequent → State → List Moment}
  {start : Leaf → State → State} {leaf : Leaf} {parents : List Sequent} {state later : State}

/-- What happens at parents that do not all succeed ends with the visit to one that fails. -/
theorem parentsHistory_of_failure (failure : allParents visit parents state = (false, later)) :
    ∃ parent ∈ parents, ∃ between earlier, visit parent between = (false, later) ∧
      parentsHistory visit history parents state = earlier ++ history parent between := by
  induction parents generalizing state with
  | nil => cases failure
  | cons parent rest ih =>
    unfold allParents at failure
    unfold parentsHistory
    cases outcome : visit parent state with
    | mk answer next =>
      rw [outcome] at failure
      cases answer with
      | false =>
        cases failure
        exact ⟨parent, by simp, state, [], outcome, by simp⟩
      | true =>
        obtain ⟨last, member, between, earlier, failed, told⟩ := ih failure
        exact ⟨last, by simp [member], between, history parent state ++ earlier, failed,
          by simp [told]⟩

theorem anyLeaf_singleton :
    anyLeaf visit start [leaf] state = allParents visit leaf.parents (start leaf state) := by
  unfold anyLeaf
  cases outcome : allParents visit leaf.parents (start leaf state) with
  | mk answer next => cases answer <;> rfl

theorem leavesHistory_singleton :
    leavesHistory visit history start [leaf] state =
      parentsHistory visit history leaf.parents (start leaf state) := by
  unfold leavesHistory
  cases outcome : allParents visit leaf.parents (start leaf state) with
  | mk answer next => cases answer <;> simp [leavesHistory]

end Loops

/-- A search that fails without a gap ends at an open leaf. All rules on the way there are
invertible, so what refutes the leaf refutes every sequent on the way. -/
theorem last_of_visit {setting : Setting} {left : Nat} {s : Sequent} {state : State}
    (failure : (visit setting left s state).1 = false)
    (complete : (visit setting left s state).2.gaps = 0) :
    ∃ leaf, (history setting left s state).getLast? = some (.visited leaf) ∧
      leaf.isOpen = true ∧ ∀ v, leaf.Refuted v → s.Refuted v := by
  induction left using Nat.strong_induction_on generalizing s state with
  | _ left ih =>
    obtain ⟨last, run⟩ : ∃ last, visit setting left s state = (false, last) :=
      ⟨_, Prod.ext failure rfl⟩
    rw [run] at complete
    cases visited run with
    | expired | cut => simp at complete
    | unclosed atomic unshared =>
      rw [history_of_isAtomic atomic]
      exact ⟨s, rfl, Sequent.isOpen_iff.mpr ⟨atomic, unshared⟩, fun v refuted => refuted⟩
    | branched decomposed searched early =>
      -- A reusable rule that fails leaves a gap, so this rule is not reusable.
      rw [State.gaps_finish] at complete
      split at complete
      · cases complete
      · next rule =>
        obtain ⟨leaf, only, invertible⟩ := decomposed.invertible (by simpa using rule)
        rw [only, firstOf_singleton, anyLeaf_singleton] at searched
        obtain ⟨parent, inside, between, earlier, failed, told⟩ :=
          parentsHistory_of_failure searched
        obtain ⟨leftOpen, ended, unclosed, refutes⟩ :=
          ih _ (Nat.lt_succ_self _) (congrArg Prod.fst failed) (failed ▸ complete)
        refine ⟨leftOpen, ?_, unclosed,
          fun v refuted => invertible parent inside v (refutes v refuted)⟩
        rw [history_succ early decomposed, only, firstOf_singleton, leavesHistory_singleton, told]
        simp [List.getLast?_cons, List.getLast?_append, ended]

theorem refuted_of_visit {setting : Setting} {left : Nat} {s : Sequent} {state : State}
    (failure : (visit setting left s state).1 = false)
    (complete : (visit setting left s state).2.gaps = 0) : ∃ v, s.Refuted v := by
  obtain ⟨leaf, _, unclosed, refutes⟩ := last_of_visit failure complete
  obtain ⟨atomic, unshared⟩ := Sequent.isOpen_iff.mp unclosed
  exact ⟨_, refutes _ (Sequent.refuted_of_atomic atomic unshared)⟩

end Search

namespace Session

variable (session : Session) (clock : Clock) {goal : Sequent}

/-- What is proved is valid, whatever the limits were. -/
theorem valid_of_proved (bound : goal.WellBound)
    (proved : (session.prove clock goal).1.verdict = .proved) : goal.Valid := by
  have success := Search.verdict_eq_proved.mp proved
  exact (Search.derivable_of_visit success).valid bound

theorem valid_some_singer :
    Sequent.Valid
      ⟨[.quant .ex ['x'] (.bin .conj (.atom "<x> runs".toList) (.atom "<x> sings".toList))],
       [.quant .ex ['y'] (.atom "<y> sings".toList)]⟩ :=
  valid_of_proved {} (fun _ => 0) (by decide) (by decide +kernel)

/-- What is unproved has a countermodel, whatever the limits were. -/
theorem refuted_of_unproved (unproved : (session.prove clock goal).1.verdict = .unproved) :
    ∃ v, goal.Refuted v := by
  obtain ⟨failure, complete, _⟩ := Search.verdict_eq_unproved.mp unproved
  exact Search.refuted_of_visit failure complete

theorem refuted_some_for_all :
    ∃ v, Sequent.Refuted v
      ⟨[.quant .ex ['x'] (.atom "<x> runs".toList)],
       [.quant .all ['y'] (.atom "<y> runs".toList)]⟩ :=
  refuted_of_unproved {} (fun _ => 0) (by decide +kernel)

end Session
end Turnstile
