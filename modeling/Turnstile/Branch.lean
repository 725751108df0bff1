import Turnstile.NameSupply
import Turnstile.Rule

/-! One step of the calculus: the first compound member of a sequent is replaced
by its parts. -/
namespace Turnstile

/-- One way to apply a rule. It succeeds if all its parents can be proved. A
quantifier rule is applied with a witness. -/
structure Leaf where
  witness : Option Name
  parents : List Sequent

/-- What a rule makes of its principal formula. One of the leaves has to succeed. -/
structure Branch where
  rule : Rule
  principal : Formula
  leaves : List Leaf

namespace Sequent

/-- A negated formula crosses the turnstile. -/
def negationParents (rest : Sequent) (side : Side) (body : Formula) : List Sequent :=
  [rest.push side.opposite body]

def connectiveParents (rest : Sequent) (c : Connective) (side : Side) (left right : Formula) :
    List Sequent :=
  match c, side with
  | .conj, .antecedent => [(rest.push .antecedent left).push .antecedent right]
  | .conj, .consequent => [rest.push .consequent left, rest.push .consequent right]
  | .disj, .antecedent => [rest.push .antecedent left, rest.push .antecedent right]
  | .disj, .consequent => [(rest.push .consequent left).push .consequent right]
  | .cond, .antecedent => [rest.push .consequent left, rest.push .antecedent right]
  | .cond, .consequent => [(rest.push .antecedent left).push .consequent right]

/-- The names a quantified formula can be applied to: its own, then those of the
rest of the sequent. -/
def candidateNames (rest : Sequent) (body : Formula) : List Name :=
  (body.names ++ rest.names).eraseDups

/-- The instance stays on the side of the quantified formula. -/
def instanceLeaf (rest : Sequent) (side : Side) (var : Text) (body : Formula) (name : Name) : Leaf :=
  ⟨some name, [rest.push side (body.instantiate var name)]⟩

/-- An eigenvariable rule takes one fresh name. A reusable rule takes each
candidate, or one fresh name if there is none. -/
def quantifierLeaves (rest : Sequent) (rule : Rule) (var : Text) (body : Formula)
    (supply : NameSupply) : List Leaf × NameSupply :=
  let candidates := rest.candidateNames body
  let leaf := rest.instanceLeaf rule.side var body
  if rule.isEigenvariable then
    let (name, supply) := supply.fresh candidates
    ([leaf name], supply)
  else if candidates = [] then
    let (name, supply) := supply.fresh []
    ([leaf name], supply)
  else (candidates.map leaf, supply)

end Sequent

namespace Sequent.Focus

def branch (focus : Focus) (supply : NameSupply) : Option (Branch × NameSupply) :=
  let rest := focus.rest
  let side := focus.side
  match focus.principal with
  | .atom _ => none
  | .neg body =>
    some (⟨⟨.neg, side⟩, focus.principal, [⟨none, rest.negationParents side body⟩]⟩, supply)
  | .bin c left right =>
    some (⟨⟨.bin c, side⟩, focus.principal,
      [⟨none, rest.connectiveParents c side left right⟩]⟩, supply)
  | .quant q var body =>
    let rule : Rule := ⟨.quant q, side⟩
    let (leaves, supply) := rest.quantifierLeaves rule var body supply
    some (⟨rule, focus.principal, leaves⟩, supply)

end Sequent.Focus

/-- Decomposes the first compound member. An atomic sequent has no branch. -/
def Sequent.decompose (s : Sequent) (supply : NameSupply) : Option (Branch × NameSupply) :=
  s.focus?.bind fun focus => focus.branch supply

end Turnstile
