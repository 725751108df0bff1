import Turnstile.Formula.Basic
import Turnstile.Message

/-! What can be wrong with a formula that is read or put together. -/
namespace Turnstile.Formula

inductive FaultKind where
  | emptyText | malformed | unknownConnective | wrongCount
deriving DecidableEq

/-- The faults of reading quote the text of the level at which they arise. -/
inductive Fault where
  | emptyText
  | noNegatum (whole : Text)
  | noVariable (whole : Text)
  | noPredicate (whole : Text)
  | noOperand (connective whole : Text)
  | unknownConnective (word : Text)
  | wrongCount (kind : Kind) (given : Nat)
  | badVariable (quantifier : Quantifier) (given : Text)
deriving DecidableEq

namespace Fault

def kind : Fault → FaultKind
  | emptyText => .emptyText
  | noNegatum _ | noVariable _ | noPredicate _ | noOperand .. | badVariable .. => .malformed
  | unknownConnective _ => .unknownConnective
  | wrongCount .. => .wrongCount

/-- The piece of text that is at fault. -/
def fragment : Fault → Text
  | emptyText => []
  | noNegatum whole | noVariable whole | noPredicate whole | noOperand _ whole => whole
  | unknownConnective word => word
  | wrongCount kind _ => kind.name.toList
  | badVariable _ given => given

def description : Fault → String
  | emptyText => "empty formula"
  | noNegatum whole => "negation without operand in " ++ quoted whole
  | noVariable whole => "quantifier requires a bound variable <x> in " ++ quoted whole
  | noPredicate whole => "quantifier without predicate in " ++ quoted whole
  | noOperand connective whole =>
    "connective " ++ quoted connective ++ " is missing an operand in " ++ quoted whole
  | unknownConnective word => "invalid connective " ++ quoted word
  | wrongCount kind given =>
    kind.name ++ " requires " ++ toString kind.arity ++ " subformula(s), not " ++ toString given
  | badVariable quantifier given =>
    (Kind.op (.quant quantifier)).name ++
      " requires a single lower-case bound variable, not " ++ quoted given

/-- The message of a fault that belongs to no line. -/
def message (fault : Fault) : String := shown fault.description

end Fault
end Turnstile.Formula
