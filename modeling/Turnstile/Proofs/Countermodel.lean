import Turnstile.Proofs.Decision

/-! The open leaves of a search and what they say about the goal. A search that fails without a
gap ends at an open leaf, and what refutes that leaf refutes the goal. The counter-sequent is the
first open leaf, which may lie on another path: below a name that was tried in vain before the
same rule succeeded with the next one. -/
namespace Turnstile

namespace Search

def openLeaves (moments : List Moment) : List Sequent :=
  (moments.filterMap Moment.sequent?).filter Sequent.isOpen

@[simp] theorem openLeaves_nil : openLeaves [] = [] := rfl

@[simp] theorem openLeaves_visited (s : Sequent) (moments : List Moment) :
    openLeaves (.visited s :: moments) =
      if s.isOpen then s :: openLeaves moments else openLeaves moments := by
  simp [openLeaves, Moment.sequent?, List.filter_cons]

@[simp] theorem openLeaves_issued (names : List Name) : openLeaves (names.map .issued) = [] := by
  simp [openLeaves, Moment.sequent?, Function.comp_def]

@[simp] theorem openLeaves_append (first second : List Moment) :
    openLeaves (first ++ second) = openLeaves first ++ openLeaves second := by
  simp [openLeaves]

namespace State

/-- What a state knows of the open leaves: the first, and their number. -/
def leaves (state : State) : Option Sequent × Nat := (state.counter, state.statistics.unclosed)

variable (state : State) (setting : Setting) (depth : Nat) (s : Sequent)

@[simp] theorem leaves_record (event : Event) :
    (state.record setting depth event).leaves = state.leaves := by
  unfold record
  split <;> rfl

@[simp] theorem leaves_enter : (state.enter depth).leaves = state.leaves := rfl

@[simp] theorem leaves_close : (state.close setting depth s).leaves = state.leaves :=
  leaves_record _ _ _ _

@[simp] theorem leaves_cut : (state.cut setting depth s).leaves = state.leaves :=
  leaves_record _ _ _ _

theorem leaves_leaveOpen : (state.leaveOpen setting depth s).leaves =
    (state.counter.or (some s), state.statistics.unclosed + 1) := by
  simp [leaves, leaveOpen, count]

@[simp] theorem leaves_branchOff (branch : Branch) (supply : NameSupply) :
    (state.branchOff setting depth s branch supply).leaves = state.leaves := by
  unfold branchOff choose
  dsimp only
  split <;> exact leaves_record _ _ _ _

@[simp] theorem leaves_tryLeaf (leaf : Leaf) :
    (state.tryLeaf setting depth leaf).leaves = state.leaves := by
  unfold tryLeaf
  split <;> simp

@[simp] theorem leaves_finish (rule : Rule) (success : Bool) :
    (state.finish rule success).leaves = state.leaves := by
  unfold finish
  split <;> rfl

end State

/-- As long as there is time, every open leaf is counted and the first one is kept. -/
def Collects (state : State) (moments : List Moment) (later : State) : Prop :=
  later.timedOut = false → state.timedOut = false ∧
    later.leaves = (state.counter.or (openLeaves moments).head?,
      state.statistics.unclosed + (openLeaves moments).length)

theorem Collects.none {state later : State} {moments : List Moment}
    (timedOut : later.timedOut = state.timedOut) (leaves : later.leaves = state.leaves)
    (closed : openLeaves moments = []) : Collects state moments later := by
  intro running
  refine ⟨timedOut ▸ running, ?_⟩
  rw [leaves, closed]
  simp [State.leaves]

theorem keeps_collects (setting : Setting) : Keeps setting (fun _ _ => True) Collects where
  refl := .none rfl rfl rfl
  trans one two running := by
    obtain ⟨between, second⟩ := two running
    obtain ⟨started, first⟩ := one between
    obtain ⟨counter, unclosed⟩ := Prod.mk.inj first
    refine ⟨started, ?_⟩
    rw [second, counter, unclosed, openLeaves_append, List.head?_append, List.length_append,
      Option.or_assoc, Nat.add_assoc]
  stable _ _ := trivial
  expire _ running := by simp [State.timeOut] at running
  close _ _ common := .none (by simp) (by simp) (by simp [Sequent.isOpen, common])
  leaveOpen _ atomic unshared running := by
    refine ⟨by simpa using running, ?_⟩
    rw [State.leaves_leaveOpen]
    simp [Sequent.isOpen, atomic, unshared, State.enter, State.count]
  cut _ compound := .none (by simp) (by simp) (by simp [Sequent.isOpen, compound])
  branchOff _ _ decomposed :=
    .none (by simp) (by simp) (by simp [Sequent.isOpen, decomposed.not_atomic])
  tryLeaf := .none (by simp) (by simp) rfl
  finish := .none (by simp) (by simp) rfl
  parents _ _ _ _ _ _ _ := trivial

/-- If a visit leaves no leaf open when it succeeds and at most one when it fails, then so do
all parents together. -/
theorem length_openLeaves_parents {visit : Sequent → State → Bool × State}
    {history : Sequent → State → List Moment} {parents : List Sequent} {state later : State}
    {success : Bool} (run : allParents visit parents state = (success, later))
    (each : ∀ parent ∈ parents, ∀ state, (openLeaves (history parent state)).length ≤
      if (visit parent state).1 then 0 else 1) :
    (openLeaves (parentsHistory visit history parents state)).length ≤ if success then 0 else 1 := by
  induction parents generalizing state with
  | nil => exact Nat.zero_le _
  | cons parent rest ih =>
    have first := each parent (by simp) state
    unfold allParents at run
    unfold parentsHistory
    cases outcome : visit parent state with
    | mk answer next =>
      rw [outcome] at first run
      cases answer with
      | false =>
        cases run
        simpa using first
      | true =>
        have others := ih run fun other member => each other (by simp [member])
        have closed : openLeaves (history parent state) = [] := by simpa using first
        simpa [closed] using others

/-- Where no rule is reusable, a search does not go on after an open leaf. -/
theorem length_openLeaves_of_eigenvariableOnly {setting : Setting} {left : Nat} {s : Sequent}
    {state : State} (fragment : s.EigenvariableOnly) :
    (openLeaves (history setting left s state)).length ≤
      if (visit setting left s state).1 then 0 else 1 := by
  induction left using Nat.strong_induction_on generalizing s state with
  | _ left ih =>
    obtain ⟨⟨success, last⟩, run⟩ : ∃ outcome, visit setting left s state = outcome := ⟨_, rfl⟩
    have one : (openLeaves [.visited s]).length ≤ 1 := by
      rw [openLeaves_visited]
      split <;> simp
    rw [run]
    cases visited run with
    | closed atomic common => simp [history_of_isAtomic atomic, Sequent.isOpen, common]
    | expired late =>
      rw [history_of_late late]
      exact one
    | unclosed atomic =>
      rw [history_of_isAtomic atomic]
      exact one
    | cut =>
      rw [history_zero]
      exact one
    | branched decomposed searched early =>
      obtain ⟨leaf, only, _⟩ := decomposed.invertible (decomposed.not_reusable fragment)
      rw [only, firstOf_singleton, anyLeaf_singleton] at searched
      have parents := length_openLeaves_parents searched fun parent inside state =>
        ih _ (Nat.lt_succ_self _)
          (fragment.subset (decomposed.reduces (by simp [only]) inside).2)
      rw [history_succ early decomposed, only, firstOf_singleton, leavesHistory_singleton]
      simpa [Sequent.isOpen, decomposed.not_atomic] using parents

end Search

namespace Session

variable (session : Session) (clock : Clock) {goal : Sequent}

/-- The last sequent of a failed search without gaps, behind those that were visited before. -/
theorem exists_last (unproved : (session.prove clock goal).1.verdict = .unproved) :
    ∃ earlier last, session.history clock goal = earlier ++ [.visited last] ∧
      last.isOpen = true ∧ ∀ v, last.Refuted v → goal.Refuted v := by
  obtain ⟨failure, complete, _⟩ := Search.verdict_eq_unproved.mp unproved
  obtain ⟨last, ended, opened, refutes⟩ := Search.last_of_visit failure complete
  obtain ⟨earlier, told⟩ := List.getLast?_eq_some_iff.mp ended
  exact ⟨earlier, last, told, opened, refutes⟩

theorem leaves_of_unproved (unproved : (session.prove clock goal).1.verdict = .unproved) :
    (session.prove clock goal).1.counter =
        (Search.openLeaves (session.history clock goal)).head? ∧
      (session.prove clock goal).1.statistics.unclosed =
        (Search.openLeaves (session.history clock goal)).length := by
  obtain ⟨failure, _, running⟩ := Search.verdict_eq_unproved.mp unproved
  have collected : Search.Collects (Search.start goal) (session.history clock goal)
      (Search.run (session.setting clock) goal).2 := (Search.keeps_collects _).visit trivial
  obtain ⟨counter, unclosed⟩ := Prod.mk.inj (collected running).2
  constructor
  · have shown : (session.prove clock goal).1.counter =
        (Search.run (session.setting clock) goal).2.counter := if_neg (by simp [failure])
    rw [shown, counter]
    exact Option.none_or
  · exact unclosed.trans (Nat.zero_add _)

/-- A goal that is unproved is refuted by whatever refutes the sequent that was visited last. The
counter-sequent is the first open leaf. It is that last sequent if no other leaf was left open, as
always where no rule is reusable. -/
theorem counter_of_unproved (unproved : (session.prove clock goal).1.verdict = .unproved) :
    ∃ first last, (session.prove clock goal).1.counter = some first ∧
      (Search.openLeaves (session.history clock goal)).head? = some first ∧
      first.isAtomic = true ∧ first.isInitial = false ∧
      (session.history clock goal).getLast? = some (.visited last) ∧
      last.isAtomic = true ∧ last.isInitial = false ∧ (∀ v, last.Refuted v → goal.Refuted v) ∧
      ((session.prove clock goal).1.statistics.unclosed = 1 ∨ goal.EigenvariableOnly →
        first = last) := by
  obtain ⟨counter, unclosed⟩ := session.leaves_of_unproved clock unproved
  obtain ⟨earlier, last, told, lastOpen, refutes⟩ := session.exists_last clock unproved
  obtain ⟨lastAtomic, lastUnshared⟩ := Sequent.isOpen_iff.mp lastOpen
  have ended : (session.history clock goal).getLast? = some (.visited last) := by simp [told]
  have leaves : Search.openLeaves (session.history clock goal) =
      Search.openLeaves earlier ++ [last] := by simp [told, lastOpen]
  obtain ⟨first, head⟩ :
      ∃ first, (Search.openLeaves (session.history clock goal)).head? = some first := by
    rw [← Option.isSome_iff_exists]
    simp [leaves]
  obtain ⟨firstAtomic, firstUnshared⟩ :=
    Sequent.isOpen_iff.mp (List.mem_filter.mp (List.mem_of_mem_head? head)).2
  refine ⟨first, last, counter.trans head, head, firstAtomic, firstUnshared, ended, lastAtomic,
    lastUnshared, refutes, ?_⟩
  intro few
  have single : (Search.openLeaves (session.history clock goal)).length ≤ 1 := by
    rcases few with one | fragment
    · exact (unclosed.symm.trans one).le
    · refine (Search.length_openLeaves_of_eigenvariableOnly fragment).trans ?_
      split <;> simp
  have alone : Search.openLeaves earlier = [] := by simpa [leaves] using single
  simpa [leaves, alone, eq_comm] using head

theorem counter_of_unproved_conjunct :
    let goal : Sequent :=
      ⟨[.atom "<ann> rests".toList, .atom "<bo> runs".toList],
       [.bin .conj (.quant .ex ['x'] (.atom "<x> runs".toList)) (.atom "calm".toList)]⟩
    (prove {} (fun _ => 0) goal).1.verdict = .unproved ∧
      ∀ v, Sequent.Refuted v
        ⟨[.atom "<ann> rests".toList, .atom "<bo> runs".toList], [.atom "calm".toList]⟩ →
        goal.Refuted v := by
  intro goal
  have unproved : (prove {} (fun _ => 0) goal).1.verdict = .unproved := by decide +kernel
  have last : (history {} (fun _ => 0) goal).getLast? = some (.visited
      ⟨[.atom "<ann> rests".toList, .atom "<bo> runs".toList], [.atom "calm".toList]⟩) := by
    decide +kernel
  obtain ⟨_, _, _, _, _, _, ended, _, _, refutes, _⟩ := counter_of_unproved {} (fun _ => 0) unproved
  cases last.symm.trans ended
  exact ⟨unproved, refutes⟩

/-- The name `ann` is tried before `bo`. Its leaf stays open and becomes the counter-sequent, but
what makes the goal fail is the other conjunct. -/
theorem counter_of_other_name :
    let goal : Sequent :=
      ⟨[.atom "<ann> rests".toList, .atom "<bo> runs".toList],
       [.bin .conj (.quant .ex ['x'] (.atom "<x> runs".toList)) (.atom "calm".toList)]⟩
    goal.WellBound ∧ (prove {} (fun _ => 0) goal).1.verdict = .unproved ∧
      ∃ counter v, (prove {} (fun _ => 0) goal).1.counter = some counter ∧
        counter.Refuted v ∧ ¬goal.Refuted v := by
  intro goal
  refine ⟨by decide, by decide +kernel, ⟨[.atom "<ann> rests".toList, .atom "<bo> runs".toList],
    [.atom "<ann> runs".toList]⟩, fun text => text != "<ann> runs".toList, by decide +kernel,
    ?_, ?_⟩
  · simp [Sequent.RefutedBy, Formula.Holds]
  · rintro ⟨_, fails⟩
    have bo : Formula.instantiate ['x'] "bo".toList (.atom "<x> runs".toList) =
        .atom "<bo> runs".toList := by decide +kernel
    apply fails _ (List.mem_singleton_self _)
    simp only [Formula.Holds, Connective.denote, Quantifier.quantify]
    exact ⟨⟨⟨"bo".toList, by decide⟩, by rw [bo]; simp [Formula.Holds]⟩, by decide⟩

end Session
end Turnstile
