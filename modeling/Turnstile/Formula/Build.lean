import Turnstile.Formula.Fault

/-! Checked construction of formulas from a kind or a spelled operator. -/
namespace Turnstile.Formula

/-- A formula of the kind over the children. The text is an atom's text or a
quantifier's variable, and is not looked at otherwise. -/
def make (kind : Kind) (children : List Formula) (text : Text) : Except Fault Formula :=
  match kind, children with
  | .atom, [] => .ok (.atom text)
  | .op .neg, [body] => .ok (.neg body)
  | .op (.bin c), [left, right] => .ok (.bin c left right)
  | .op (.quant q), [body] =>
    if Text.isVariable text then .ok (.quant q text body) else .error (.badVariable q text)
  | kind, children => .error (.wrongCount kind children.length)

/-- The operator is recognised before its operands are counted. -/
def ofWord (word : Text) (children : List Formula) (var : Text) : Except Fault Formula :=
  match Operator.ofWord? word with
  | some operator => make (.op operator) children var
  | none => .error (.unknownConnective word)

end Turnstile.Formula
