import Turnstile.Formula.Reader
import Turnstile.Sequent.Basic

/-! Reading a sequent: one turnstile, and commas between the members of a side. -/
namespace Turnstile.Sequent

inductive Fault where
  | turnstiles (input : Text) (found : Nat)
  | member (fault : Formula.Fault)
deriving DecidableEq

namespace Fault

def fragment : Fault → Text
  | turnstiles input _ => input
  | member fault => fault.fragment

def description : Fault → String
  | turnstiles _ found => "expected one " ++ quoted turnstile ++ ", found " ++ toString found
  | member fault => fault.description

end Fault

/-- A blank side has no members. -/
def parseMembers (side : Text) : Except Formula.Fault (List Formula) :=
  if Text.trim side = [] then .ok [] else (Text.split [','] side).mapM Formula.parse

def parse (input : Text) : Except Fault Sequent :=
  match Text.split turnstile input with
  | [left, right] => do
    let antecedent ← (parseMembers left).mapError .member
    let consequent ← (parseMembers right).mapError .member
    return ⟨antecedent, consequent⟩
  | _ => .error (.turnstiles input (Text.count turnstile input))

/-- Reads a sequent that stands on a line of the input. -/
def read (line : Nat) (input : Text) : Except (Located Fault) Sequent :=
  (parse input).mapError fun fault => ⟨line, fault⟩

end Turnstile.Sequent
