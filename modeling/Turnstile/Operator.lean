import Turnstile.Text.Basic

/-! The logical operators, their spellings and their arity. -/
namespace Turnstile

inductive Connective where
  | conj | disj | cond
deriving DecidableEq

inductive Quantifier where
  | all | ex
deriving DecidableEq

inductive Operator where
  | neg
  | bin (connective : Connective)
  | quant (quantifier : Quantifier)
deriving DecidableEq

/-- What a formula is at its root. -/
inductive Kind where
  | atom
  | op (operator : Operator)
deriving DecidableEq

def Connective.symbol : Connective → Char
  | .conj => '&'
  | .disj => 'v'
  | .cond => '>'

def Quantifier.symbol : Quantifier → Char
  | .all => '∀'
  | .ex => '∃'

namespace Operator

def symbol : Operator → Char
  | .neg => '~'
  | .bin c => c.symbol
  | .quant q => q.symbol

def word : Operator → Text
  | .neg => "not".toList
  | .bin .conj => "and".toList
  | .bin .disj => "or".toList
  | .bin .cond => "implies".toList
  | .quant .all => "forall".toList
  | .quant .ex => "exists".toList

def arity : Operator → Nat
  | .neg | .quant _ => 1
  | .bin _ => 2

def isBinary : Operator → Bool
  | .bin _ => true
  | .neg | .quant _ => false

def isQuantifier : Operator → Bool
  | .quant _ => true
  | .neg | .bin _ => false

def all : List Operator :=
  [.neg, .bin .conj, .bin .disj, .bin .cond, .quant .all, .quant .ex]

/-- An operator is spelled by its symbol or by its word, and in no other way. A
single character is never a word. -/
def ofWord? : Text → Option Operator
  | [c] => all.find? (·.symbol == c)
  | w => all.find? (·.word == w)

theorem ofWord?_symbol (operator : Operator) : ofWord? [operator.symbol] = some operator := by
  rcases operator with _ | (_ | _ | _) | (_ | _) <;> decide

theorem ofWord?_word (operator : Operator) : ofWord? operator.word = some operator := by
  rcases operator with _ | (_ | _ | _) | (_ | _) <;> decide

theorem ofWord?_eq_some_iff {w : Text} {operator : Operator} :
    ofWord? w = some operator ↔ w = [operator.symbol] ∨ w = operator.word := by
  constructor
  · intro found
    unfold ofWord? at found
    split at found
    · have same := List.find?_some found
      simp only [beq_iff_eq] at same
      exact .inl (by rw [same])
    · have same := List.find?_some found
      simp only [beq_iff_eq] at same
      exact .inr same.symm
  · rintro (rfl | rfl)
    · exact ofWord?_symbol operator
    · exact ofWord?_word operator

end Operator

namespace Kind

def name : Kind → String
  | .atom => "Atom"
  | .op .neg => "Negation"
  | .op (.bin .conj) => "Conjunction"
  | .op (.bin .disj) => "Disjunction"
  | .op (.bin .cond) => "Conditional"
  | .op (.quant .all) => "Universal"
  | .op (.quant .ex) => "Existential"

/-- An atom has no symbol and no word. -/
def symbol : Kind → Text
  | .atom => []
  | .op operator => [operator.symbol]

def word : Kind → Text
  | .atom => []
  | .op operator => operator.word

def arity : Kind → Nat
  | .atom => 0
  | .op operator => operator.arity

def isBinary : Kind → Bool
  | .atom => false
  | .op operator => operator.isBinary

def isQuantifier : Kind → Bool
  | .atom => false
  | .op operator => operator.isQuantifier

def all : List Kind := .atom :: Operator.all.map .op

def ofName? (s : String) : Option Kind := all.find? (·.name == s)

end Kind
end Turnstile
