import Turnstile.Proofs.Calculus
import Turnstile.Search.Session

/-! What the search can do at one sequent, and how the states between two points of
a search follow each other. Both are relations, and the proofs about the search go
by their cases and by induction on the rule applications that are left. -/
namespace Turnstile

namespace Search

namespace State

/-- How often the search was incomplete: something was cut, or a reusable rule failed. -/
def gaps (state : State) : Nat := state.statistics.cutoffs + state.statistics.reuseFailures

/-- The time is up when the next sequent is visited. -/
def isLate (state : State) (setting : Setting) : Bool :=
  state.timedOut || setting.expired (state.statistics.expanded + 1)

/-- The state in which the leaves of a branch are tried. -/
def branchOff (state : State) (setting : Setting) (depth : Nat) (s : Sequent) (branch : Branch)
    (supply : NameSupply) : State :=
  let state := { state.enter depth with supply := supply }
  ((state.record setting depth (.step s branch.rule branch.principal)).choose setting
    branch.leaves).2

variable (state : State) (setting : Setting) (depth : Nat) (s : Sequent) (event : Event)
  (leaves : List Leaf) (leaf : Leaf) (branch : Branch) (supply : NameSupply) (rule : Rule)

@[simp] theorem record_statistics :
    (state.record setting depth event).statistics = state.statistics := by
  unfold record
  split <;> rfl

@[simp] theorem record_timedOut : (state.record setting depth event).timedOut = state.timedOut := by
  unfold record
  split <;> rfl

theorem choose_leaves :
    (state.choose setting leaves).1 = firstOf setting.limits.names leaves := by
  by_cases none : setting.limits.names = 0
  · simp [choose, firstOf, none]
  · by_cases more : setting.limits.names < leaves.length
    · simp [choose, firstOf, none, more, Nat.pos_of_ne_zero none]
    · simp [choose, firstOf, none, more, List.take_of_length_le (Nat.le_of_not_lt more)]

@[simp] theorem gaps_enter : (state.enter depth).gaps = state.gaps := rfl

@[simp] theorem gaps_timeOut : state.timeOut.gaps = state.gaps + 1 := Nat.succ_add _ _

@[simp] theorem gaps_close : (state.close setting depth s).gaps = state.gaps := by
  simp [gaps, close, count]

@[simp] theorem gaps_leaveOpen : (state.leaveOpen setting depth s).gaps = state.gaps := by
  simp [gaps, leaveOpen, count]

@[simp] theorem gaps_cut : (state.cut setting depth s).gaps = state.gaps + 1 := by
  simp [gaps, cut, count, Nat.succ_add]

@[simp] theorem gaps_tryLeaf : (state.tryLeaf setting depth leaf).gaps = state.gaps := by
  unfold tryLeaf
  split <;> simp [gaps]

theorem gaps_branchOff :
    (state.branchOff setting depth s branch supply).gaps =
      if 0 < setting.limits.names ∧ setting.limits.names < branch.leaves.length then state.gaps + 1
      else state.gaps := by
  simp only [branchOff, choose]
  split
  · simp [gaps, count, enter, Nat.succ_add]
  · simp [gaps, count, enter]

theorem gaps_finish (success : Bool) :
    (state.finish rule success).gaps =
      if !success && rule.isReusable then state.gaps + 1 else state.gaps := by
  unfold finish
  split <;> rfl

theorem gaps_branchOff_singleton {branch : Branch} {leaf : Leaf} (only : branch.leaves = [leaf])
    (supply : NameSupply) :
    (state.branchOff setting depth s branch supply).gaps = state.gaps := by
  rw [gaps_branchOff, only, if_neg]
  rintro ⟨some, less⟩
  exact Nat.not_lt.mpr some (by simpa using less)

@[simp] theorem timedOut_enter : (state.enter depth).timedOut = state.timedOut := rfl

@[simp] theorem timedOut_close : (state.close setting depth s).timedOut = state.timedOut := by
  simp [close, count]

@[simp] theorem timedOut_leaveOpen :
    (state.leaveOpen setting depth s).timedOut = state.timedOut := by
  simp [leaveOpen, count]

@[simp] theorem timedOut_cut : (state.cut setting depth s).timedOut = state.timedOut := by
  simp [cut, count]

@[simp] theorem timedOut_tryLeaf :
    (state.tryLeaf setting depth leaf).timedOut = state.timedOut := by
  unfold tryLeaf
  split <;> simp

@[simp] theorem timedOut_branchOff :
    (state.branchOff setting depth s branch supply).timedOut = state.timedOut := by
  simp only [branchOff, choose]
  split <;> simp [count, enter]

@[simp] theorem timedOut_finish (success : Bool) :
    (state.finish rule success).timedOut = state.timedOut := by
  unfold finish
  split <;> rfl

end State

/-- The states on the way through some leaves: a leaf is entered, or one of its parents
is visited. -/
inductive Passes (visit : Sequent → State → Bool × State) (start : Leaf → State → State)
    (leaves : List Leaf) : State → State → Prop where
  | refl (state) : Passes visit start leaves state state
  | start (member : leaf ∈ leaves) (rest : Passes visit start leaves (start leaf state) later) :
      Passes visit start leaves state later
  | visit (member : leaf ∈ leaves) (inside : parent ∈ leaf.parents)
      (rest : Passes visit start leaves (visit parent state).2 later) :
      Passes visit start leaves state later

namespace Passes

variable {visit : Sequent → State → Bool × State} {start : Leaf → State → State}
  {leaves : List Leaf} {state later last : State}

theorem trans (first : Passes visit start leaves state later)
    (second : Passes visit start leaves later last) : Passes visit start leaves state last := by
  induction first with
  | refl => exact second
  | start member _ ih => exact .start member (ih second)
  | visit member inside _ ih => exact .visit member inside (ih second)

theorem invariant {P : State → Prop} (run : Passes visit start leaves state later)
    (started : ∀ leaf ∈ leaves, ∀ state, P state → P (start leaf state))
    (visited : ∀ leaf ∈ leaves, ∀ parent ∈ leaf.parents, ∀ state,
      P state → P (visit parent state).2)
    (initial : P state) : P later := by
  induction run with
  | refl => exact initial
  | start member _ ih => exact ih (started _ member _ initial)
  | visit member inside _ ih => exact ih (visited _ member _ inside _ initial)

end Passes

section Loops

variable {visit : Sequent → State → Bool × State} {leaves : List Leaf} {state later : State}
  {success : Bool}

/-- All parents succeed, or one fails; in between, parents are visited. -/
theorem allParents_spec (start : Leaf → State → State) {leaf : Leaf} (member : leaf ∈ leaves)
    {parents : List Sequent} (inside : parents ⊆ leaf.parents)
    (run : allParents visit parents state = (success, later)) :
    Passes visit start leaves state later ∧
      (success = true → ∀ parent ∈ parents, ∃ between,
        Passes visit start leaves state between ∧ (visit parent between).1 = true) ∧
      (success = false → ∃ parent ∈ parents, ∃ between,
        Passes visit start leaves state between ∧ (visit parent between).1 = false) := by
  induction parents generalizing state with
  | nil =>
    cases run
    exact ⟨.refl _, by simp, by simp⟩
  | cons parent rest ih =>
    obtain ⟨first, others⟩ := List.cons_subset.mp inside
    unfold allParents at run
    cases outcome : visit parent state with
    | mk answer next =>
      have through : (visit parent state).2 = next := by rw [outcome]
      cases answer with
      | false =>
        simp only [outcome] at run
        cases run
        refine ⟨.visit member first (through ▸ .refl _), by simp, ?_⟩
        intro _
        exact ⟨parent, by simp, state, .refl _, by rw [outcome]⟩
      | true =>
        simp only [outcome] at run
        obtain ⟨reached, succeeded, failed⟩ := ih others run
        have step : ∀ {last}, Passes visit start leaves next last →
            Passes visit start leaves state last := by
          intro last path
          exact .visit member first (through.symm ▸ path)
        refine ⟨step reached, ?_, ?_⟩
        · intro ok sequent among
          rcases List.mem_cons.mp among with rfl | later
          · exact ⟨state, .refl _, by rw [outcome]⟩
          · obtain ⟨between, path, answered⟩ := succeeded ok sequent later
            exact ⟨between, step path, answered⟩
        · intro bad
          obtain ⟨sequent, among, between, path, answered⟩ := failed bad
          exact ⟨sequent, by simp [among], between, step path, answered⟩

/-- Some leaf succeeds with all its parents, or every leaf has a parent that fails. -/
theorem anyLeaf_spec {start : Leaf → State → State} {tried : List Leaf} (among : tried ⊆ leaves)
    (run : anyLeaf visit start tried state = (success, later)) :
    Passes visit start leaves state later ∧
      (success = true → ∃ leaf ∈ tried, ∀ parent ∈ leaf.parents, ∃ between,
        Passes visit start leaves state between ∧ (visit parent between).1 = true) ∧
      (success = false → ∀ leaf ∈ tried, ∃ parent ∈ leaf.parents, ∃ between,
        Passes visit start leaves state between ∧ (visit parent between).1 = false) := by
  induction tried generalizing state with
  | nil =>
    cases run
    exact ⟨.refl _, by simp, by simp⟩
  | cons leaf rest ih =>
    obtain ⟨member, others⟩ := List.cons_subset.mp among
    unfold anyLeaf at run
    cases outcome : allParents visit leaf.parents (start leaf state) with
    | mk answer next =>
      obtain ⟨reached, succeeded, failed⟩ :=
        allParents_spec start member (List.Subset.refl _) outcome
      cases answer with
      | true =>
        simp only [outcome] at run
        cases run
        refine ⟨.start member reached, ?_, by simp⟩
        intro _
        refine ⟨leaf, by simp, ?_⟩
        intro parent inside
        obtain ⟨between, path, answered⟩ := succeeded rfl parent inside
        exact ⟨between, .start member path, answered⟩
      | false =>
        simp only [outcome] at run
        obtain ⟨continued, found, missed⟩ := ih others run
        have step : ∀ {last}, Passes visit start leaves next last →
            Passes visit start leaves state last := by
          intro last path
          exact .start member (reached.trans path)
        refine ⟨step continued, ?_, ?_⟩
        · intro ok
          obtain ⟨chosen, later, each⟩ := found ok
          refine ⟨chosen, by simp [later], ?_⟩
          intro parent inside
          obtain ⟨between, path, answered⟩ := each parent inside
          exact ⟨between, step path, answered⟩
        · intro bad chosen among
          rcases List.mem_cons.mp among with rfl | later
          · obtain ⟨parent, inside, between, path, answered⟩ := failed rfl
            exact ⟨parent, inside, between, .start member path, answered⟩
          · obtain ⟨parent, inside, between, path, answered⟩ := missed bad chosen later
            exact ⟨parent, inside, between, step path, answered⟩

end Loops

/-- The outcomes of a visit. `left` counts the rule applications that are left. -/
inductive Visited (setting : Setting) (s : Sequent) (state : State) :
    Nat → Bool → State → Prop where
  | expired (late : state.isLate setting = true) :
      Visited setting s state left false (state.enter (setting.limits.depth - left)).timeOut
  | closed (atomic : s.isAtomic = true) (common : s.isInitial = true)
      (early : state.isLate setting = false) :
      Visited setting s state left true
        ((state.enter (setting.limits.depth - left)).close setting (setting.limits.depth - left) s)
  | unclosed (atomic : s.isAtomic = true) (unshared : s.isInitial = false)
      (early : state.isLate setting = false) :
      Visited setting s state left false
        ((state.enter (setting.limits.depth - left)).leaveOpen setting
          (setting.limits.depth - left) s)
  | cut (compound : s.isAtomic = false) (early : state.isLate setting = false) :
      Visited setting s state 0 false
        ((state.enter setting.limits.depth).cut setting setting.limits.depth s)
  | branched (decomposed : s.Decomposition state.supply branch supply)
      (searched : anyLeaf (visit setting left)
        (fun leaf state => state.tryLeaf setting (setting.limits.depth - (left + 1) + 1) leaf)
        (firstOf setting.limits.names branch.leaves)
        (state.branchOff setting (setting.limits.depth - (left + 1)) s branch supply) =
          (success, last))
      (early : state.isLate setting = false) :
      Visited setting s state (left + 1) success (last.finish branch.rule success)

theorem visited {setting : Setting} {left : Nat} {s : Sequent} {state later : State}
    {success : Bool} (run : visit setting left s state = (success, later)) :
    Visited setting s state left success later := by
  rw [visit.eq_def] at run
  dsimp only at run
  split at run
  · next late =>
    cases run
    exact .expired late
  · next inTime =>
    have early : state.isLate setting = false := Bool.not_eq_true _ ▸ inTime
    split at run
    · next none =>
      have atomic := Sequent.decompose_eq_none_iff.mp none
      split at run
      · next common =>
        cases run
        exact .closed atomic common early
      · next other =>
        cases run
        exact .unclosed atomic (by simpa using other) early
    · next branch supply found =>
      have decomposed := Sequent.decomposition_of_decompose found
      cases left with
      | zero =>
        cases run
        exact .cut decomposed.not_atomic early
      | succ left =>
        cases run
        refine .branched decomposed ?_ early
        rw [← State.choose_leaves]
        rfl

/-- Each outcome has the conditions under which the search comes to it. -/
theorem Visited.visit_eq {setting : Setting} {left : Nat} {s : Sequent} {state later : State}
    {success : Bool} (outcome : Visited setting s state left success later) :
    visit setting left s state = (success, later) := by
  have test (depth : Nat) : ((state.enter depth).timedOut ||
      setting.expired (state.enter depth).statistics.expanded) = state.isLate setting := rfl
  rw [visit.eq_def]
  dsimp only
  rw [test]
  cases outcome with
  | expired late => rw [if_pos late]
  | closed atomic common early => simp [early, Sequent.decompose_eq_none_iff.mpr atomic, common]
  | unclosed atomic unshared early =>
    simp [early, Sequent.decompose_eq_none_iff.mpr atomic, unshared]
  | cut compound early =>
    rw [early, if_neg Bool.false_ne_true]
    cases found : s.decompose (state.enter (setting.limits.depth - 0)).supply with
    | none => simp [Sequent.decompose_eq_none_iff.mp found] at compound
    | some result => rfl
  | @branched branch supply left _ last decomposed searched early =>
    have found : s.decompose (state.enter (setting.limits.depth - (left + 1))).supply =
        some (branch, supply) := decomposed.decompose_eq
    rw [early, if_neg Bool.false_ne_true, found]
    dsimp only
    rw [State.choose_leaves]
    exact congrArg (fun outcome => (outcome.1, outcome.2.finish branch.rule outcome.1)) searched

/-- One step of a search keeps `P` of its states, where `Q` holds of the sequent visited;
and `Q` goes on to the parents. A sequent is visited at the depth that goes with the rule
applications that are left. -/
structure Maintains (setting : Setting) (Q : Nat → Sequent → Prop) (P : State → Prop) : Prop where
  expire : P state → Q left s → state.isLate setting = true →
    P (state.enter (setting.limits.depth - left)).timeOut
  close : P state → Q left s →
    P ((state.enter (setting.limits.depth - left)).close setting (setting.limits.depth - left) s)
  leaveOpen : P state → Q left s →
    P ((state.enter (setting.limits.depth - left)).leaveOpen setting (setting.limits.depth - left) s)
  cut : P state → Q 0 s → s.isAtomic = false →
    P ((state.enter setting.limits.depth).cut setting setting.limits.depth s)
  branchOff : P state → Q (left + 1) s → s.Decomposition state.supply branch supply →
    P (state.branchOff setting (setting.limits.depth - (left + 1)) s branch supply)
  tryLeaf : P state → P (state.tryLeaf setting depth leaf)
  finish : P state → Q (left + 1) s → s.Decomposition before branch supply →
    P (state.finish branch.rule success)
  parents : Q (left + 1) s → s.Decomposition before branch supply →
    ∀ leaf ∈ branch.leaves, ∀ parent ∈ leaf.parents, Q left parent

theorem Maintains.visit {setting : Setting} {Q : Nat → Sequent → Prop} {P : State → Prop}
    (step : Maintains setting Q P) {left : Nat} {s : Sequent} {state : State}
    (admitted : Q left s) (initial : P state) : P (visit setting left s state).2 := by
  induction left using Nat.strong_induction_on generalizing s state with
  | _ left ih =>
    obtain ⟨⟨success, later⟩, run⟩ : ∃ outcome, Search.visit setting left s state = outcome :=
      ⟨_, rfl⟩
    rw [run]
    cases visited run with
    | expired late => exact step.expire initial admitted late
    | closed => exact step.close initial admitted
    | unclosed => exact step.leaveOpen initial admitted
    | cut compound => exact step.cut initial admitted compound
    | branched decomposed searched =>
      have path := (anyLeaf_spec (List.Subset.refl _) searched).1
      refine step.finish (path.invariant ?_ ?_ ?_) admitted decomposed
      · intro leaf _ state kept
        exact step.tryLeaf kept
      · intro leaf member parent inside state kept
        exact ih _ (Nat.lt_succ_self _)
          (step.parents admitted decomposed leaf (mem_of_mem_firstOf member) parent inside) kept
      · exact step.branchOff initial admitted decomposed

/-- The same for what does not depend on the depth of a sequent. -/
structure Preserves (setting : Setting) (Q : Nat → Sequent → Prop) (P : State → Prop) : Prop where
  expire : P state → state.isLate setting = true → P (state.enter depth).timeOut
  close : P state → P ((state.enter depth).close setting depth s)
  leaveOpen : P state → P ((state.enter depth).leaveOpen setting depth s)
  cut : P state → Q 0 s → s.isAtomic = false → P ((state.enter depth).cut setting depth s)
  branchOff : P state → Q (left + 1) s → s.Decomposition state.supply branch supply →
    P (state.branchOff setting depth s branch supply)
  tryLeaf : P state → P (state.tryLeaf setting depth leaf)
  finish : P state → Q (left + 1) s → s.Decomposition before branch supply →
    P (state.finish branch.rule success)
  parents : Q (left + 1) s → s.Decomposition before branch supply →
    ∀ leaf ∈ branch.leaves, ∀ parent ∈ leaf.parents, Q left parent

namespace Preserves

variable {setting : Setting} {Q : Nat → Sequent → Prop} {P : State → Prop} {left depth : Nat}

theorem maintains (step : Preserves setting Q P) : Maintains setting Q P where
  expire kept _ := step.expire kept
  close kept _ := step.close kept
  leaveOpen kept _ := step.leaveOpen kept
  cut := step.cut
  branchOff := step.branchOff
  tryLeaf := step.tryLeaf
  finish := step.finish
  parents := step.parents

theorem visit (step : Preserves setting Q P) {s : Sequent} {state : State} (admitted : Q left s)
    (initial : P state) : P (visit setting left s state).2 :=
  step.maintains.visit admitted initial

theorem passes (step : Preserves setting Q P) {leaves : List Leaf} {state later : State}
    (path : Passes (Search.visit setting left)
      (fun leaf state => state.tryLeaf setting depth leaf) leaves state later)
    (admitted : ∀ leaf ∈ leaves, ∀ parent ∈ leaf.parents, Q left parent) (initial : P state) :
    P later := by
  refine path.invariant ?_ ?_ initial
  · intro leaf _ state kept
    exact step.tryLeaf kept
  · intro leaf member parent inside state kept
    exact step.visit (admitted leaf member parent inside) kept

end Preserves

def Setting.Untimed (setting : Setting) : Prop := ∀ visited, setting.expired visited = false

theorem Setting.Untimed.isLate_eq_false {setting : Setting} (untimed : setting.Untimed)
    {state : State} (running : state.timedOut = false) : state.isLate setting = false := by
  simp [State.isLate, running, untimed _]

/-- Without a deadline a search does not time out. -/
theorem preserves_running {setting : Setting} (untimed : setting.Untimed) :
    Preserves setting (fun _ _ => True) fun state => state.timedOut = false where
  expire kept late := by simp [untimed.isLate_eq_false kept] at late
  close kept := by simpa using kept
  leaveOpen kept := by simpa using kept
  cut kept _ _ := by simpa using kept
  branchOff kept _ _ := by simpa using kept
  tryLeaf kept := by simpa using kept
  finish kept _ _ := by simpa using kept
  parents _ _ _ _ _ _ := trivial

/-- The state in which every search of the goal starts. -/
def start (goal : Sequent) : State := { supply := ({} : NameSupply).reserve goal.names }

def run (setting : Setting) (goal : Sequent) : Bool × State :=
  visit setting setting.limits.depth goal (start goal)

/-- The names of the goal are taken, and no others. -/
theorem isTaken_start (goal : Sequent) (name : Name) :
    (start goal).supply.isTaken name = true ↔ name ∈ goal.names := by
  rw [start, NameSupply.isTaken_reserve]
  simp [NameSupply.isTaken]

/-- Nothing of an earlier state is left. -/
theorem renew_eq_start (state : State) (goal : Sequent) : state.renew goal = start goal := rfl

theorem visit_renew (setting : Setting) (state : State) (goal : Sequent) :
    visit setting setting.limits.depth goal (state.renew goal) = run setting goal := by
  rw [renew_eq_start, run]

theorem verdict_eq_proved {success : Bool} {state : State} :
    verdict success state = .proved ↔ success = true := by
  cases success with
  | true => simp [verdict]
  | false =>
    simp only [verdict, Bool.false_eq_true, if_false, iff_false]
    split <;> simp

/-- A search that fails refutes its goal only if it has no gaps. -/
theorem verdict_eq_unproved {success : Bool} {state : State} :
    verdict success state = .unproved ↔
      success = false ∧ state.gaps = 0 ∧ state.timedOut = false := by
  cases success with
  | true => simp [verdict]
  | false => simp [verdict, State.gaps, and_assoc]

end Search

namespace Session

variable (session : Session) (clock : Clock)

theorem untimed_setting (untimed : session.limits.timeout = 0) :
    (session.setting clock).Untimed := by
  intro visited
  simp [setting, untimed]

end Session
end Turnstile
