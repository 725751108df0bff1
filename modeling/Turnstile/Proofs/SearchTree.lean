import Turnstile.Proofs.Isolation
import Turnstile.Proofs.Tally

/-! The tree of a search. The trace lists it from the root on, and a reusable rule counts as failed
where no leaf that was tried succeeds. So all that a search reports can be read off one tree. -/
namespace Turnstile

namespace Search

mutual

/-- What a search did at a sequent and above it. -/
inductive Tree where
  | closed (s : Sequent)
  | unclosed (s : Sequent)
  | cut (s : Sequent)
  | step (s : Sequent) (rule : Rule) (principal : Formula) (tried : List Attempt)

/-- A leaf that was tried, with those of its parents that were visited. -/
inductive Attempt where
  | mk (witness : Option Name) (parents : List Tree)

end

mutual

def Tree.succeeds : Tree → Bool
  | .closed _ => true
  | .unclosed _ | .cut _ => false
  | .step _ _ _ tried => anySucceeds tried

def anySucceeds : List Attempt → Bool
  | [] => false
  | attempt :: rest => attempt.succeeds || anySucceeds rest

def Attempt.succeeds : Attempt → Bool
  | .mk _ parents => allSucceed parents

def allSucceed : List Tree → Bool
  | [] => true
  | parent :: rest => parent.succeeds && allSucceed rest

end

/-- What there is in a tree: sequents, each with what is above it, and the names tried. -/
inductive Place where
  | sequent (tree : Tree)
  | witness (name : Name)

structure Node where
  depth : Nat
  place : Place

mutual

/-- A tree from its root on. -/
def Tree.nodes (depth : Nat) : Tree → List Node
  | .closed s => [⟨depth, .sequent (.closed s)⟩]
  | .unclosed s => [⟨depth, .sequent (.unclosed s)⟩]
  | .cut s => [⟨depth, .sequent (.cut s)⟩]
  | .step s rule principal tried =>
    ⟨depth, .sequent (.step s rule principal tried)⟩ :: attemptNodes (depth + 1) tried

def attemptNodes (depth : Nat) : List Attempt → List Node
  | [] => []
  | attempt :: rest => attempt.nodes depth ++ attemptNodes depth rest

def Attempt.nodes (depth : Nat) : Attempt → List Node
  | .mk witness parents =>
    (witness.toList.map fun name => ⟨depth, .witness name⟩) ++ parentNodes depth parents

def parentNodes (depth : Nat) : List Tree → List Node
  | [] => []
  | parent :: rest => parent.nodes depth ++ parentNodes depth rest

end

def Tree.event : Tree → Event
  | .closed s => .closed s
  | .unclosed s => .unclosed s
  | .cut s => .cut s
  | .step s rule principal _ => .step s rule principal

/-- A reusable rule was applied, and every leaf that was tried failed. -/
def Tree.failsReusing : Tree → Bool
  | .step _ rule _ tried => rule.isReusable && tried.all fun attempt => !attempt.succeeds
  | _ => false

namespace Node

def entry (node : Node) : Entry :=
  ⟨node.depth, match node.place with
    | .sequent tree => tree.event
    | .witness name => .witness name⟩

def failsReusing (node : Node) : Bool :=
  match node.place with
  | .sequent tree => tree.failsReusing
  | .witness _ => false

end Node

theorem all_not_succeeds (tried : List Attempt) :
    (tried.all fun attempt => !attempt.succeeds) = !anySucceeds tried := by
  induction tried with
  | nil => rfl
  | cons attempt rest ih => rw [List.all_cons, ih, anySucceeds, Bool.not_or]

section Loops

variable (visit : Sequent → State → Bool × State) (tree : Sequent → State → Tree)

def parentTrees : List Sequent → State → List Tree
  | [], _ => []
  | parent :: rest, state =>
    let (success, later) := visit parent state
    tree parent state :: if success then parentTrees rest later else []

def attempts (start : Leaf → State → State) : List Leaf → State → List Attempt
  | [], _ => []
  | leaf :: rest, state =>
    let (success, later) := allParents visit leaf.parents (start leaf state)
    .mk leaf.witness (parentTrees visit tree leaf.parents (start leaf state)) ::
      if success then [] else attempts start rest later

end Loops

/-- The tree of a visit that has its time. The states between its places are those of the search. -/
def tree (setting : Setting) : Nat → Sequent → State → Tree
  | left, s, state =>
    let depth := setting.limits.depth - left
    match s.decompose state.supply, left with
    | none, _ => if s.isInitial then .closed s else .unclosed s
    | some _, 0 => .cut s
    | some (branch, supply), left + 1 =>
      .step s branch.rule branch.principal
        (attempts (visit setting left) (tree setting left)
          (fun leaf state => state.tryLeaf setting (depth + 1) leaf)
          (firstOf setting.limits.names branch.leaves)
          (state.branchOff setting depth s branch supply))

section Equations

variable (setting : Setting) (left : Nat) {s : Sequent} (state : State)

theorem tree_of_isAtomic (atomic : s.isAtomic = true) :
    tree setting left s state = if s.isInitial then .closed s else .unclosed s := by
  rw [tree.eq_def]
  simp only [Sequent.decompose_eq_none_iff.mpr atomic]

theorem tree_zero (compound : s.isAtomic = false) : tree setting 0 s state = .cut s := by
  rw [tree.eq_def]
  cases found : s.decompose state.supply with
  | none => simp [Sequent.decompose_eq_none_iff.mp found] at compound
  | some result => simp only [found]

theorem tree_succ {state : State} {branch : Branch} {supply : NameSupply}
    (decomposed : s.Decomposition state.supply branch supply) :
    tree setting (left + 1) s state = .step s branch.rule branch.principal
      (attempts (visit setting left) (tree setting left)
        (fun leaf state => state.tryLeaf setting (setting.limits.depth - (left + 1) + 1) leaf)
        (firstOf setting.limits.names branch.leaves)
        (state.branchOff setting (setting.limits.depth - (left + 1)) s branch supply)) := by
  rw [tree.eq_def]
  simp only [decomposed.decompose_eq]

end Equations

/-- The search goes through some places: its trace lists them, and it counts those where a reusable
rule fails. -/
structure Unfolds (state : State) (nodes : List Node) (later : State) : Prop where
  listed : later.trace.toList = state.trace.toList ++ nodes.map Node.entry
  failures : later.statistics.reuseFailures =
    state.statistics.reuseFailures + nodes.countP Node.failsReusing
  running : later.timedOut = state.timedOut

namespace Unfolds

variable {setting : Setting} {state between later : State} {first second : List Node} {depth : Nat}

theorem refl (state : State) : Unfolds state [] state := ⟨by simp, by simp, rfl⟩

theorem trans (one : Unfolds state first between) (two : Unfolds between second later) :
    Unfolds state (first ++ second) later where
  listed := by rw [two.listed, one.listed, List.map_append, List.append_assoc]
  failures := by rw [two.failures, one.failures, List.countP_append, Nat.add_assoc]
  running := two.running.trans one.running

theorem notes (bound : Nat) {tree : Tree} (harmless : tree.failsReusing = false)
    (noted : Notes bound ⟨depth, tree.event⟩ state later) :
    Unfolds state [⟨depth, .sequent tree⟩] later where
  listed := by simp [noted.trace, Node.entry]
  failures := by simp [noted.reuseFailures, Node.failsReusing, harmless]
  running := noted.running

theorem tryLeaf (traced : setting.tracing = true) (state : State) (depth : Nat) (leaf : Leaf) :
    Unfolds state (leaf.witness.toList.map fun name => ⟨depth, .witness name⟩)
      (state.tryLeaf setting depth leaf) := by
  unfold State.tryLeaf
  split
  · next name witness =>
    rw [witness, State.record_of_tracing traced]
    constructor <;> simp [Node.entry, Node.failsReusing]
  · next witness =>
    rw [witness]
    exact .refl state

/-- A step is noted when its leaves are about to be tried, and its failure when they all were. -/
theorem step {bound : Nat} {s : Sequent} {rule : Rule} {principal : Formula}
    {tried : List Attempt} {success : Bool} (answer : success = anySucceeds tried)
    (noted : Notes bound ⟨depth, .step s rule principal⟩ state between)
    (searched : Unfolds between (attemptNodes (depth + 1) tried) later) :
    Unfolds state (Tree.nodes depth (.step s rule principal tried))
      (later.finish rule success) := by
  have fails : Node.failsReusing ⟨depth, .sequent (.step s rule principal tried)⟩ =
      (!success && rule.isReusable) := by
    rw [answer, ← all_not_succeeds, Bool.and_comm]
    rfl
  rw [Tree.nodes]
  constructor
  · have kept : (later.finish rule success).trace = later.trace := by
      unfold State.finish
      split <;> rfl
    simp [kept, searched.listed, noted.trace, Node.entry, Tree.event]
  · have before := searched.failures
    rw [noted.reuseFailures] at before
    rw [List.countP_cons, fails, State.finish]
    split
    · rw [State.count, before, Nat.add_assoc]
    · exact before
  · rw [State.timedOut_finish, searched.running, noted.running]

end Unfolds

/-- The visits of a search at some depth have these trees: they answer as the trees do, and they go
through their places. -/
def Unfolding (visit : Sequent → State → Bool × State) (tree : Sequent → State → Tree)
    (depth : Nat) : Prop :=
  ∀ s state, state.timedOut = false → (visit s state).1 = (tree s state).succeeds ∧
    Unfolds state ((tree s state).nodes depth) (visit s state).2

namespace Unfolding

variable {visit : Sequent → State → Bool × State} {tree : Sequent → State → Tree} {depth : Nat}

theorem allParents (each : Unfolding visit tree depth) (parents : List Sequent) {state : State}
    (running : state.timedOut = false) :
    (Search.allParents visit parents state).1 = allSucceed (parentTrees visit tree parents state) ∧
      Unfolds state (parentNodes depth (parentTrees visit tree parents state))
        (Search.allParents visit parents state).2 := by
  induction parents generalizing state with
  | nil => exact ⟨rfl, .refl state⟩
  | cons parent rest ih =>
    obtain ⟨answer, first⟩ := each parent state running
    unfold Search.allParents parentTrees
    cases outcome : visit parent state with
    | mk success next =>
      rw [outcome] at answer first
      cases success with
      | false => simpa [allSucceed, parentNodes, ← answer] using first
      | true =>
        obtain ⟨others, second⟩ := ih (first.running.trans running)
        refine ⟨?_, first.trans second⟩
        simpa [allSucceed, ← answer] using others

theorem anyLeaf (each : Unfolding visit tree depth) {start : Leaf → State → State}
    (started : ∀ leaf state, Unfolds state
      (leaf.witness.toList.map fun name => ⟨depth, .witness name⟩) (start leaf state))
    (leaves : List Leaf) {state : State} (running : state.timedOut = false) :
    (Search.anyLeaf visit start leaves state).1 =
        anySucceeds (attempts visit tree start leaves state) ∧
      Unfolds state (attemptNodes depth (attempts visit tree start leaves state))
        (Search.anyLeaf visit start leaves state).2 := by
  induction leaves generalizing state with
  | nil => exact ⟨rfl, .refl state⟩
  | cons leaf rest ih =>
    have entered := started leaf state
    obtain ⟨answer, inside⟩ := each.allParents leaf.parents (entered.running.trans running)
    have first := entered.trans inside
    unfold Search.anyLeaf attempts
    cases outcome : Search.allParents visit leaf.parents (start leaf state) with
    | mk success next =>
      rw [outcome] at answer first
      cases success with
      | true =>
        simpa [anySucceeds, Attempt.succeeds, attemptNodes, Attempt.nodes, ← answer] using first
      | false =>
        obtain ⟨others, second⟩ := ih (first.running.trans running)
        refine ⟨?_, first.trans second⟩
        simpa [anySucceeds, Attempt.succeeds, ← answer] using others

end Unfolding

theorem unfolding_visit {setting : Setting} (traced : setting.tracing = true)
    (untimed : setting.Untimed) {left : Nat} (within : left ≤ setting.limits.depth) :
    Unfolding (visit setting left) (tree setting left) (setting.limits.depth - left) := by
  induction left using Nat.strong_induction_on with
  | _ left ih =>
    intro s state running
    obtain ⟨⟨success, later⟩, outcome⟩ : ∃ outcome, visit setting left s state = outcome :=
      ⟨_, rfl⟩
    rw [outcome]
    cases visited outcome with
    | expired late => simp [untimed.isLate_eq_false running] at late
    | closed atomic common =>
      rw [tree_of_isAtomic setting left state atomic, if_pos common]
      exact ⟨rfl, .notes 0 rfl (notes_close traced _ _ _)⟩
    | unclosed atomic unshared =>
      rw [tree_of_isAtomic setting left state atomic, unshared, if_neg Bool.false_ne_true]
      exact ⟨rfl, .notes 0 rfl (notes_leaveOpen traced _ _ _)⟩
    | cut compound =>
      rw [tree_zero setting state compound]
      exact ⟨rfl, .notes 0 rfl (notes_cut traced _ _ _)⟩
    | @branched branch supply left _ last decomposed searched =>
      have noted := notes_branchOff traced (setting.limits.depth - (left + 1)) decomposed
      have each := ih left (Nat.lt_succ_self left) (by omega)
      -- the parents are visited one place deeper than the step
      rw [show setting.limits.depth - left = setting.limits.depth - (left + 1) + 1 by omega] at each
      obtain ⟨answer, listed⟩ :=
        each.anyLeaf (fun leaf state => Unfolds.tryLeaf traced state _ leaf)
          (firstOf setting.limits.names branch.leaves) (noted.running.trans running)
      rw [searched] at answer listed
      rw [tree_succ setting left decomposed, Tree.succeeds]
      exact ⟨answer, .step answer noted listed⟩

end Search

namespace Session

variable (session : Session) (clock other : Clock) (goal : Sequent)

def traced : Session := { session with tracing := true }

def untraced : Session := { session with tracing := false }

/-- The tree that is searched for a proof of a goal. -/
def tree : Search.Tree :=
  Search.tree (session.setting clock) session.limits.depth goal (Search.start goal)

theorem expanded_pos : 0 < (session.prove clock goal).1.statistics.expanded := by
  rw [session.expanded_eq, history, Search.history.eq_def]
  exact Nat.succ_pos _

variable {session}

/-- The answer to a goal is the same without a trace. -/
theorem prove_untraced (untimed : session.limits.timeout = 0) :
    { (session.traced.prove clock goal).1 with trace := #[] }.Agrees
      (session.untraced.prove other goal).1 := by
  have timeless : session.traced.limits.timeout = 0 ∧ session.untraced.limits.timeout = 0 :=
    ⟨untimed, untimed⟩
  have quiet : session.untraced.setting other = (session.traced.setting clock).untraced := by
    rw [setting_of_untimed timeless.1, setting_of_untimed timeless.2]
    rfl
  have same := Search.visit_untraced (session.traced.setting clock) session.limits.depth goal
    (Search.start goal)
  rw [← quiet] at same
  constructor
  · exact congrArg (fun outcome => Search.verdict outcome.1 outcome.2) same.symm
  · exact congrArg (fun outcome => outcome.2.statistics) same.symm
  · exact congrArg (fun outcome => if outcome.1 then none else outcome.2.counter) same.symm
  · exact congrArg (fun outcome => outcome.2.trace) same.symm
  · exact congrArg (fun outcome => outcome.2.supply.issued) same.symm

/-- Without a timeout, the answer to a goal, its counters, its trace and the counter-sequent are all
of one search; and the search is the same if no trace is kept. -/
theorem reports_one_search (session : Session) (untimed : session.limits.timeout = 0) :
    let outcome := (session.traced.prove clock goal).1
    let tree := session.traced.tree clock goal
    let n := outcome.statistics
    let trace := outcome.trace
    trace.toList = (tree.nodes 0).map Search.Node.entry ∧
    (outcome.verdict = .proved ↔ tree.succeeds = true) ∧
    n.expanded = tally Event.isSequent trace ∧
    n.expanded = n.closed + n.unclosed + tally Event.isCut trace + tally Event.isStep trace ∧
    n.closed = tally Event.isClosed trace ∧
    n.unclosed = tally Event.isUnclosed trace ∧
    n.cutoffs = tally Event.isCut trace + tally (Event.isCrowded session.limits.names) trace ∧
    (∀ entry ∈ trace, entry.event.isSequent = true → entry.depth ≤ n.maxDepth) ∧
    (∃ entry ∈ trace, entry.event.isSequent = true ∧ entry.depth = n.maxDepth) ∧
    n.reuseFailures = (tree.nodes 0).countP Search.Node.failsReusing ∧
    outcome.issued = tally Event.isEigenvariable trace + tally Event.isUnnamed trace ∧
    outcome.counter = (if outcome.verdict = .proved then none
      else trace.findSome? fun entry => entry.event.unclosed?) ∧
    { outcome with trace := #[] }.Agrees (session.untraced.prove other goal).1 := by
  intro outcome tree n trace
  have timeless := session.traced.untimed_setting clock untimed
  have tallied : Search.Tallied session.limits.names
      (Search.run (session.traced.setting clock) goal).2 :=
    (Search.preserves_tallied rfl timeless).visit trivial (Search.tallied_start _ goal)
  obtain ⟨answer, unfolds⟩ : (Search.run (session.traced.setting clock) goal).1 = tree.succeeds ∧
      Search.Unfolds (Search.start goal) (tree.nodes (session.limits.depth - session.limits.depth))
        (Search.run (session.traced.setting clock) goal).2 :=
    Search.unfolding_visit rfl timeless (Nat.le_refl _) goal _ rfl
  rw [Nat.sub_self] at unfolds
  have proved : outcome.verdict = .proved ↔
      (Search.run (session.traced.setting clock) goal).1 = true := Search.verdict_eq_proved
  have closed : n.closed = tally Event.isClosed trace := tallied.closed
  have unclosed : n.unclosed = tally Event.isUnclosed trace := tallied.unclosed
  refine ⟨unfolds.listed, answer ▸ proved, tallied.expanded, ?_, closed, unclosed, tallied.cutoffs,
    tallied.above, ?_, unfolds.failures.trans (Nat.zero_add _), tallied.issued, ?_,
    prove_untraced clock other goal untimed⟩
  · rw [closed, unclosed, ← tally_isSequent]
    exact tallied.expanded
  · have visited := session.traced.expanded_pos clock goal
    exact tallied.reached.resolve_left fun none => Nat.ne_of_gt visited none.1
  · have shown : outcome.counter = if (Search.run (session.traced.setting clock) goal).1 then none
        else (Search.run (session.traced.setting clock) goal).2.counter := rfl
    rw [shown, tallied.counter]
    exact if_congr proved.symm rfl rfl

/-- Two of three names are tried, and both fail at their second conjunct. -/
theorem reports_one_search_two_names :
    let goal : Sequent :=
      ⟨[.atom "<ann> rests".toList, .atom "<bo> rests".toList, .atom "<cy> rests".toList],
       [.quant .ex ['x'] (.bin .conj (.atom "<x> rests".toList) (.atom "<x> runs".toList))]⟩
    let session : Session := { limits := { depth := 2, names := 2 } }
    session.limits.timeout = 0 ∧
      (session.traced.prove (fun _ => 0) goal).1.statistics =
        { expanded := 7, closed := 2, unclosed := 2, maxDepth := 2, cutoffs := 1
          reuseFailures := 1 } ∧
      tally Event.isSequent (session.traced.prove (fun _ => 0) goal).1.trace = 7 ∧
      tally Event.isUnclosed (session.traced.prove (fun _ => 0) goal).1.trace = 2 ∧
      ((session.traced.tree (fun _ => 0) goal).nodes 0).countP Search.Node.failsReusing = 1 ∧
      (session.untraced.prove (fun _ => 7) goal).1.counter =
        some ⟨goal.antecedent, [.atom "<ann> runs".toList]⟩ := by
  intro goal session
  have counted : (session.traced.prove (fun _ => 0) goal).1.statistics =
      { expanded := 7, closed := 2, unclosed := 2, maxDepth := 2, cutoffs := 1
        reuseFailures := 1 } := by
    decide +kernel
  have counter : (session.traced.prove (fun _ => 0) goal).1.counter =
      some ⟨goal.antecedent, [.atom "<ann> runs".toList]⟩ := by
    decide +kernel
  obtain ⟨_, _, expanded, _, _, unclosed, _, _, _, failures, _, _, quiet⟩ :=
    reports_one_search (fun _ => 0) (fun _ => 7) goal session rfl
  have same := quiet.counter
  dsimp only at same
  rw [counted] at expanded unclosed failures
  rw [counter] at same
  exact ⟨rfl, counted, expanded.symm, unclosed.symm, failures.symm, same.symm⟩

end Session
end Turnstile
