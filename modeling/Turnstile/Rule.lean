import Turnstile.Sequent.Basic

/-! The rules of the calculus: one for each operator on each side. -/
namespace Turnstile

structure Rule where
  operator : Operator
  side : Side
deriving DecidableEq

namespace Rule

def name (rule : Rule) : String := String.ofList [rule.operator.symbol, rule.side.letter]

/-- The rule takes a name that occurs nowhere in the sequent. -/
def isEigenvariable (rule : Rule) : Bool :=
  rule == ⟨.quant .ex, .antecedent⟩ || rule == ⟨.quant .all, .consequent⟩

/-- The rule could be applied again with another name. -/
def isReusable (rule : Rule) : Bool :=
  rule == ⟨.quant .all, .antecedent⟩ || rule == ⟨.quant .ex, .consequent⟩

/-- The rule for a kind of member on a side. No rule applies to an atom, for which
the first rule of the table is given. -/
def ofKind : Kind → Side → Rule
  | .atom, _ => ⟨.neg, .antecedent⟩
  | .op operator, side => ⟨operator, side⟩

end Rule
end Turnstile
