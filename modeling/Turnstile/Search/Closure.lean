/-! How a sequent without quantifiers may be closed. This prover has no solver at
hand, so it closes sequents by inspection in either mode. -/
namespace Turnstile

inductive Closure where
  | syntactic | solver
deriving DecidableEq

def Closure.name : Closure → String
  | syntactic => "syntactic"
  | solver => "z3"

/-- What a solver says of a set of formulas. -/
inductive SolverAnswer where
  | satisfiable | unsatisfiable | unknown
deriving DecidableEq

def SolverAnswer.name : SolverAnswer → String
  | satisfiable => "SAT"
  | unsatisfiable => "UNSAT"
  | unknown => "UNKNOWN"

end Turnstile
