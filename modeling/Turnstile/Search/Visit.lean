import Turnstile.Search.Basic

/-! The search itself: depth first, from left to right, stopping at the first leaf
that succeeds and at the first parent that fails. The recursion is on the number
of rule applications that are left.

This is the search of one thread. A prover built with OpenMP may also take up the
leaves of a branch, and the parents of a leaf, as parallel tasks, and then the verdict,
the statistics and the names that are issued may depend on the schedule. Those branches
of the search are left out. -/
namespace Turnstile.Search

/-- What stays the same during a search. Time enters as a test on the number of
sequents visited so far, so that a search is a function of the answers. -/
structure Setting where
  limits : Limits
  tracing : Bool
  expired : Nat → Bool

/-- What a search passes on. The counter-sequent is the first open leaf. -/
structure State where
  supply : NameSupply
  statistics : Statistics := {}
  counter : Option Sequent := none
  trace : Array Entry := #[]
  timedOut : Bool := false

namespace State

def count (state : State) (update : Statistics → Statistics) : State :=
  { state with statistics := update state.statistics }

def record (state : State) (setting : Setting) (depth : Nat) (event : Event) : State :=
  if setting.tracing then { state with trace := state.trace.push ⟨depth, event⟩ } else state

def enter (state : State) (depth : Nat) : State :=
  state.count fun n => { n with expanded := n.expanded + 1, maxDepth := max n.maxDepth depth }

def timeOut (state : State) : State :=
  { state.count fun n => { n with cutoffs := n.cutoffs + 1 } with timedOut := true }

def close (state : State) (setting : Setting) (depth : Nat) (s : Sequent) : State :=
  (state.count fun n => { n with closed := n.closed + 1 }).record setting depth (.closed s)

def leaveOpen (state : State) (setting : Setting) (depth : Nat) (s : Sequent) : State :=
  let state := state.count fun n => { n with unclosed := n.unclosed + 1 }
  { state.record setting depth (.unclosed s) with counter := state.counter <|> some s }

def cut (state : State) (setting : Setting) (depth : Nat) (s : Sequent) : State :=
  (state.count fun n => { n with cutoffs := n.cutoffs + 1 }).record setting depth (.cut s)

/-- The leaves to be tried. Leaving some out counts as one cut. -/
def choose (state : State) (setting : Setting) (leaves : List Leaf) : List Leaf × State :=
  let bound := setting.limits.names
  if 0 < bound ∧ bound < leaves.length then
    (leaves.take bound, state.count fun n => { n with cutoffs := n.cutoffs + 1 })
  else (leaves, state)

def tryLeaf (state : State) (setting : Setting) (depth : Nat) (leaf : Leaf) : State :=
  match leaf.witness with
  | some name => state.record setting depth (.witness name)
  | none => state

def finish (state : State) (rule : Rule) (success : Bool) : State :=
  if !success && rule.isReusable then
    state.count fun n => { n with reuseFailures := n.reuseFailures + 1 }
  else state

end State

/-- Whether all parents succeed. -/
def allParents (visit : Sequent → State → Bool × State) :
    List Sequent → State → Bool × State
  | [], state => (true, state)
  | parent :: rest, state =>
    match visit parent state with
    | (true, state) => allParents visit rest state
    | (false, state) => (false, state)

/-- Whether some leaf succeeds. -/
def anyLeaf (visit : Sequent → State → Bool × State) (start : Leaf → State → State) :
    List Leaf → State → Bool × State
  | [], state => (false, state)
  | leaf :: rest, state =>
    match allParents visit leaf.parents (start leaf state) with
    | (true, state) => (true, state)
    | (false, state) => anyLeaf visit start rest state

/-- Whether the sequent can be proved with `left` more rule applications along
each branch. -/
def visit (setting : Setting) : Nat → Sequent → State → Bool × State
  | left, s, state =>
    let depth := setting.limits.depth - left
    let state := state.enter depth
    if state.timedOut || setting.expired state.statistics.expanded then (false, state.timeOut)
    else match s.decompose state.supply with
      | none =>
        if s.isInitial then (true, state.close setting depth s)
        else (false, state.leaveOpen setting depth s)
      | some (branch, supply) =>
        match left with
        | 0 => (false, state.cut setting depth s)
        | left + 1 =>
          let state := { state with supply := supply }
          let state := state.record setting depth (.step s branch.rule branch.principal)
          let (leaves, state) := state.choose setting branch.leaves
          let start := fun leaf state => State.tryLeaf state setting (depth + 1) leaf
          let (success, state) := anyLeaf (visit setting left) start leaves state
          (success, state.finish branch.rule success)

end Turnstile.Search
