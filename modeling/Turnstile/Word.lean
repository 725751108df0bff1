import Turnstile.Operator
import Turnstile.Text.Paren

/-! Words with their place: the kind of word, the number of words before it, and
how deep in parentheses the text is after it. A list of tokens holds the words
of a whole text; a cursor reads them one by one. -/
namespace Turnstile

inductive Token.Kind where
  | word
  | keyword (operator : Operator)
  | finish
deriving DecidableEq

def Token.Kind.name : Token.Kind → String
  | .word => "word"
  | .keyword .neg => "negation"
  | .keyword (.bin .conj) => "conjunction"
  | .keyword (.bin .disj) => "disjunction"
  | .keyword (.bin .cond) => "conditional"
  | .keyword (.quant .ex) => "existential"
  | .keyword (.quant .all) => "universal"
  | .finish => "EOF"

def Token.Kind.ofWord (w : Text) : Token.Kind :=
  match Operator.ofWord? w with
  | some operator => .keyword operator
  | none => .word

def Token.Kind.operator? : Token.Kind → Option Operator
  | .keyword operator => some operator
  | .word | .finish => none

/-- A word and its place. The depth counts the parentheses of the text up to and
including the word, and is negative where more are closed than opened. -/
structure Token where
  kind : Token.Kind
  text : Text
  index : Nat
  depth : Int
deriving DecidableEq

namespace Token

/-- The token of a word that follows `index` words that end at `depth`. -/
def ofWord (index : Nat) (depth : Int) (w : Text) : Token :=
  ⟨.ofWord w, w, index, depth + Text.balance w⟩

def ofWords (index : Nat) (depth : Int) : List Text → List Token
  | [] => []
  | w :: ws =>
    let token := ofWord index depth w
    token :: ofWords (index + 1) token.depth ws

def ofText (t : Text) : List Token := ofWords 0 0 (Text.words t)

/-- The words from index `first` up to but not including `last`, single-spaced. -/
def slice (tokens : List Token) (first last : Nat) : Text :=
  Text.unwords (((tokens.take last).drop first).map Token.text)

/-- The connective of a keyword outside all parentheses. -/
def connective? (token : Token) : Option Connective :=
  match token.kind with
  | .keyword (.bin c) => if token.depth = 0 then some c else none
  | _ => none

@[simp] theorem map_text_ofWords (index : Nat) (depth : Int) (ws : List Text) :
    (ofWords index depth ws).map Token.text = ws := by
  induction ws generalizing index depth with
  | nil => rfl
  | cons w ws ih => simp [ofWords, ofWord, ih]

@[simp] theorem map_text_ofText (t : Text) : (ofText t).map Token.text = Text.words t :=
  map_text_ofWords 0 0 _

end Token

/-- A place in a text between two words, with the token looked at ahead, if any. -/
structure Cursor where
  rest : Text
  index : Nat := 0
  depth : Int := 0
  ahead : Option Token := none

namespace Cursor

def ofText (t : Text) : Cursor := { rest := t }

/-- Reads the word after the cursor, whatever was looked at. -/
def advance (cursor : Cursor) : Token × Cursor :=
  match Text.trimStart cursor.rest with
  | [] => (⟨.finish, [], cursor.index, cursor.depth⟩, { cursor with rest := [] })
  | rest =>
    let token := Token.ofWord cursor.index cursor.depth (rest.takeWhile (!Text.isBlank ·))
    (token,
      { cursor with
        rest := rest.dropWhile (!Text.isBlank ·)
        index := cursor.index + 1
        depth := token.depth })

def next (cursor : Cursor) : Token × Cursor :=
  match cursor.ahead with
  | some token => (token, { cursor with ahead := none })
  | none => cursor.advance

def peek (cursor : Cursor) : Token × Cursor :=
  match cursor.ahead with
  | some token => (token, cursor)
  | none =>
    let (token, cursor) := cursor.advance
    (token, { cursor with ahead := some token })

end Cursor
end Turnstile
