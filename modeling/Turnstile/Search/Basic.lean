import Turnstile.Branch

/-! What a search is told, what it counts and what it reports. -/
namespace Turnstile

/-- Bounds on a search: rule applications along a branch, witnesses tried for one
quantifier (zero for all of them), and seconds of time (zero for no limit). -/
structure Limits where
  depth : Nat := 64
  names : Nat := 16
  timeout : Int := 0
deriving DecidableEq

/-- What a search counts. The counters have no largest value and do not wrap. -/
structure Statistics where
  expanded : Nat := 0
  closed : Nat := 0
  unclosed : Nat := 0
  maxDepth : Nat := 0
  cutoffs : Nat := 0
  solverCalls : Nat := 0
  reuseFailures : Nat := 0
deriving DecidableEq

def Statistics.render (statistics : Statistics) : String :=
  "expanded=" ++ toString statistics.expanded ++
    " axioms=" ++ toString statistics.closed ++
    " open=" ++ toString statistics.unclosed ++
    " max_depth=" ++ toString statistics.maxDepth ++
    " cutoffs=" ++ toString statistics.cutoffs ++
    " z3_calls=" ++ toString statistics.solverCalls ++
    " reuse_failures=" ++ toString statistics.reuseFailures

/-- A failed search refutes the goal only if it was complete: nothing was cut, and
no reusable rule failed. -/
inductive Verdict where
  | proved | unproved | exhausted
deriving DecidableEq

def Verdict.name : Verdict → String
  | proved => "PROVED"
  | unproved => "UNPROVED"
  | exhausted => "EXHAUSTED"

/-- What happened at one point of a search. -/
inductive Event where
  | closed (s : Sequent)
  | unclosed (s : Sequent)
  | cut (s : Sequent)
  | step (s : Sequent) (rule : Rule) (principal : Formula)
  | witness (name : Name)
deriving DecidableEq

def Event.render : Event → String
  | closed s => String.ofList s.render ++ "   [axiom]"
  | unclosed s => String.ofList s.render ++ "   [open]"
  | cut s => String.ofList s.render ++ "   [cut: depth]"
  | step s rule principal =>
    String.ofList s.render ++ "   [" ++ rule.name ++ " " ++ String.ofList principal.render ++ "]"
  | witness name => "with " ++ String.ofList (Text.placeholder name)

structure Entry where
  depth : Nat
  event : Event
deriving DecidableEq

/-- Entries are indented by their depth. -/
def Entry.render (entry : Entry) : String :=
  String.ofList (List.replicate (2 * entry.depth) ' ') ++ entry.event.render

end Turnstile
