import Turnstile.Operator
import Turnstile.Text.Placeholder

/-! Formulas over atoms of plain text. The placeholders in an atom's text are
what quantifiers bind and what names stand in. -/
namespace Turnstile

/-- A variable is a text of any length; reading and checked construction give it
one letter. -/
inductive Formula where
  | atom (text : Text)
  | neg (body : Formula)
  | bin (connective : Connective) (left right : Formula)
  | quant (quantifier : Quantifier) (var : Text) (body : Formula)
deriving DecidableEq

namespace Formula

def kind : Formula → Kind
  | atom _ => .atom
  | neg _ => .op .neg
  | bin c _ _ => .op (.bin c)
  | quant q _ _ => .op (.quant q)

def isAtom : Formula → Bool
  | atom _ => true
  | neg _ | bin .. | quant .. => false

def children : Formula → List Formula
  | atom _ => []
  | neg body | quant _ _ body => [body]
  | bin _ left right => [left, right]

/-- The immediate parts of a formula. An atom is its own only part. -/
def content : Formula → List Formula
  | atom text => [atom text]
  | f => f.children

/-- The longest chain of operators from the root to an atom. -/
def complexity : Formula → Nat
  | atom _ => 0
  | neg body | quant _ _ body => body.complexity + 1
  | bin _ left right => max left.complexity right.complexity + 1

/-- The number of operators. -/
def size : Formula → Nat
  | atom _ => 0
  | neg body | quant _ _ body => body.size + 1
  | bin _ left right => left.size + right.size + 1

/-- The texts of the atoms from left to right. -/
def atoms : Formula → List Text
  | atom text => [text]
  | neg body | quant _ _ body => body.atoms
  | bin _ left right => left.atoms ++ right.atoms

/-- The variables that the quantifiers bind, from the outside in and from left to
right. -/
def binders : Formula → List Text
  | atom _ => []
  | neg body => body.binders
  | bin _ left right => left.binders ++ right.binders
  | quant _ var body => var :: body.binders

def names (f : Formula) : List Name := f.atoms.flatMap Text.names

def vars (f : Formula) : List Text := f.atoms.flatMap Text.vars

/-- Some quantifier of the formula binds the variable. -/
def rebinds (var : Text) (f : Formula) : Bool := f.binders.contains var

/-- Every quantifier binds a single letter. -/
def WellBound (f : Formula) : Prop := ∀ var ∈ f.binders, Text.isVariable var = true

instance (f : Formula) : Decidable f.WellBound :=
  inferInstanceAs (Decidable (∀ var ∈ f.binders, _))

/-- Puts a name in the place of a variable in every atom. Quantifiers that bind
the same variable do not protect it. -/
def instantiate (var name : Text) : Formula → Formula
  | atom text => atom (Text.replacePlaceholder var name text)
  | neg body => neg (body.instantiate var name)
  | bin c left right => bin c (left.instantiate var name) (right.instantiate var name)
  | quant q bound body => quant q bound (body.instantiate var name)

@[simp] theorem size_instantiate (var name : Text) (f : Formula) :
    (f.instantiate var name).size = f.size := by
  induction f <;> simp_all [instantiate, size]

@[simp] theorem complexity_instantiate (var name : Text) (f : Formula) :
    (f.instantiate var name).complexity = f.complexity := by
  induction f <;> simp_all [instantiate, complexity]

@[simp] theorem binders_instantiate (var name : Text) (f : Formula) :
    (f.instantiate var name).binders = f.binders := by
  induction f <;> simp_all [instantiate, binders]

theorem isAtom_iff_complexity (f : Formula) : f.isAtom = true ↔ f.complexity = 0 := by
  cases f <;> simp [isAtom, complexity]

/-- The canonical text of a formula. -/
def render : Formula → Text
  | atom text => text
  | neg body => '~' :: '(' :: (body.render ++ [')'])
  | bin c left right => '(' :: (left.render ++ [' ', c.symbol, ' '] ++ right.render ++ [')'])
  | quant q var body =>
    q.symbol :: (Text.placeholder var ++ '(' :: (body.render ++ [')']))

/-- There is no part with this number. -/
structure NoPart where
  kind : Kind
  index : Nat

def NoPart.message (missing : NoPart) : String :=
  missing.kind.name ++ " has no child " ++ toString missing.index

def part (f : Formula) (index : Nat) : Except NoPart Formula :=
  match f.children[index]? with
  | some child => .ok child
  | none => .error ⟨f.kind, index⟩

end Formula
end Turnstile
