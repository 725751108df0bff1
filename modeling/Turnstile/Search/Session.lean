import Turnstile.Search.Visit

/-! A prover that answers one goal after another. It keeps what the last search left
behind and clears it before the next one. Only the deadline is not cleared, and it
matters only if a later timeout is negative. -/
namespace Turnstile

/-- The readings of a clock in nanoseconds: the first when a search starts, then
one at each sequent visited, and one at the end. -/
abbrev Clock := Nat → Int

/-- The settings of a prover, and the state in which its last search ended. -/
structure Session extends Search.State where
  supply := {}
  limits : Limits := {}
  tracing : Bool := false
  deadline : Int := 0

/-- The answer to a goal. The trace is empty unless tracing is on. -/
structure Outcome where
  verdict : Verdict
  statistics : Statistics
  counter : Option Sequent
  trace : Array Entry
  issued : Nat
  elapsed : Int

namespace Search

def verdict (success : Bool) (state : State) : Verdict :=
  if success then .proved
  else if 0 < state.statistics.cutoffs || 0 < state.statistics.reuseFailures || state.timedOut then
    .exhausted
  else .unproved

/-- Clears what an earlier search left behind. The names of the goal are never issued. -/
def State.renew (state : State) (goal : Sequent) : State :=
  { state with
    supply := state.supply.reset.reserve goal.names
    statistics := {}
    counter := none
    trace := #[]
    timedOut := false }

end Search

namespace Session

/-- A timeout counts from the start of the search. One that is negative starts
nothing and leaves the deadline of an earlier search in force. -/
def deadlineFor (session : Session) (clock : Clock) : Int :=
  if 0 < session.limits.timeout then clock 0 + session.limits.timeout * 1000000000
  else session.deadline

def setting (session : Session) (clock : Clock) : Search.Setting where
  limits := session.limits
  tracing := session.tracing
  expired visited := session.limits.timeout != 0 && session.deadlineFor clock ≤ clock visited

def prove (session : Session) (clock : Clock) (goal : Sequent) : Outcome × Session :=
  let setting := session.setting clock
  let (success, state) := Search.visit setting setting.limits.depth goal (session.renew goal)
  let counter := if success then none else state.counter
  ({ verdict := Search.verdict success state
     statistics := state.statistics
     counter := counter
     trace := state.trace
     issued := state.supply.issued
     elapsed := clock (state.statistics.expanded + 1) - clock 0 },
   { session with
     toState := { state with counter := counter }
     deadline := session.deadlineFor clock })

end Session
end Turnstile
