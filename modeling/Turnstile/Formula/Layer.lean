import Turnstile.Formula.Fault
import Turnstile.Word

/-! The outermost layer of a formula's text: an atom, or an operator with the
texts of its operands. Every operand is shorter than the text it was found in,
which is what lets the reader recurse. -/
namespace Turnstile

inductive Layer where
  | atom (text : Text)
  | neg (operand : Text)
  | bin (connective : Connective) (left right : Text)
  | quant (quantifier : Quantifier) (var : Text) (body : Text)
deriving DecidableEq

/-- An operator in front of its operand: a negation, or a quantifier. A glued
operator is a symbol written directly before its parenthesis, `~(` or `∀<x>(`. -/
structure Lead where
  quantifier? : Option Quantifier
  rest : Text
  glued : Bool
deriving DecidableEq

/-- The first connective outside all parentheses, with the words around it. -/
structure Division where
  left : List Text
  connective : Connective
  spelling : Text
  right : List Text
deriving DecidableEq

namespace Lead

/-- A variable and the parenthesis of its scope stand in front. -/
def opensScope (t : Text) : Bool := (Text.leadingVariable? t).any (·.2.head? == some '(')

/-- The operator of a glued symbol, and the rest of its word. Any other word that
starts with a symbol belongs to an atom. -/
def glued? : Text → Option (Option Quantifier × Text)
  | [] => none
  | symbol :: rest =>
    if symbol == Operator.neg.symbol && rest.head? == some '(' then some (none, rest)
    else if symbol == Quantifier.ex.symbol && opensScope rest then some (some .ex, rest)
    else if symbol == Quantifier.all.symbol && opensScope rest then some (some .all, rest)
    else none

def find? : List Token → Option Lead
  | [] => none
  | first :: others =>
    match first.kind with
    | .keyword .neg => some ⟨none, Text.unwords (others.map Token.text), false⟩
    | .keyword (.quant q) => some ⟨some q, Text.unwords (others.map Token.text), false⟩
    | .keyword (.bin _) | .finish => none
    | .word =>
      (glued? first.text).map fun (quantifier?, rest) =>
        ⟨quantifier?, Text.unwords (rest :: others.map Token.text), true⟩

/-- After a glued symbol the variable touches the parenthesis of its scope. After
a keyword it is a word of its own. -/
def scopeFollows (glued : Bool) (rest : Text) : Bool :=
  if glued then rest.head? == some '(' else rest.head?.all (· == ' ')

/-- The layer that the operator makes of its operand. -/
def layer (lead : Lead) (whole : Text) : Except Formula.Fault Layer :=
  match lead.quantifier? with
  | none =>
    if Text.strip lead.rest = [] then .error (.noNegatum whole) else .ok (.neg lead.rest)
  | some q =>
    match Text.leadingVariable? lead.rest with
    | none => .error (.noVariable whole)
    | some (var, body) =>
      if !scopeFollows lead.glued body then .error (.noVariable whole)
      else if Text.strip body = [] then .error (.noPredicate whole)
      else .ok (.quant q var body)

end Lead

namespace Division

def find? : List Token → Option Division
  | [] => none
  | token :: rest =>
    match token.connective? with
    | some c => some ⟨[], c, token.text, rest.map Token.text⟩
    | none => (find? rest).map fun found => { found with left := token.text :: found.left }

def layer (division : Division) (whole : Text) : Except Formula.Fault Layer :=
  let left := Text.unwords division.left
  let right := Text.unwords division.right
  if Text.strip left = [] ∨ Text.strip right = [] then
    .error (.noOperand division.spelling whole)
  else .ok (.bin division.connective left right)

end Division

namespace Layer

/-- A keyword in front takes all that follows as its operand. A glued symbol
yields to a connective outside all parentheses, so that a canonical text reads
back as what it was written from. -/
def ofTokens (whole : Text) (tokens : List Token) : Except Formula.Fault Layer :=
  match Lead.find? tokens with
  | none =>
    match Division.find? tokens with
    | none => .ok (.atom whole)
    | some division => division.layer whole
  | some lead =>
    if lead.glued then
      match Division.find? tokens with
      | none => lead.layer whole
      | some division => division.layer whole
    else lead.layer whole

def read (input : Text) : Except Formula.Fault Layer :=
  let whole := Text.strip input
  if whole = [] then .error .emptyText else ofTokens whole (Token.ofText whole)

/-- The texts that a layer leaves to be read. -/
def operands : Layer → List Text
  | atom _ => []
  | neg operand => [operand]
  | bin _ left right => [left, right]
  | quant _ _ body => [body]

end Layer

theorem Lead.eq_of_glued? {word rest : Text} {quantifier? : Option Quantifier}
    (found : glued? word = some (quantifier?, rest)) : ∃ symbol, word = symbol :: rest := by
  cases word with
  | nil => simp [glued?] at found
  | cons symbol tail =>
    simp only [glued?] at found
    refine ⟨symbol, ?_⟩
    split at found
    · cases found; rfl
    · split at found
      · cases found; rfl
      · split at found
        · cases found; rfl
        · cases found

theorem Lead.length_rest_lt {tokens : List Token} {lead : Lead} (found : find? tokens = some lead)
    (proper : ∀ token ∈ tokens, token.text ≠ []) :
    lead.rest.length < (Text.unwords (tokens.map Token.text)).length := by
  cases tokens with
  | nil => simp [find?] at found
  | cons first others =>
    have shorter := Text.length_unwords_right_lt [] (others.map Token.text)
      (proper first (by simp))
    simp only [find?] at found
    split at found
    · cases found; exact shorter
    · cases found; exact shorter
    · cases found
    · cases found
    · obtain ⟨⟨quantifier?, rest⟩, glued, rfl⟩ := Option.map_eq_some_iff.mp found
      obtain ⟨symbol, word⟩ := eq_of_glued? glued
      rw [List.map_cons, word, Text.unwords_cons_cons]
      simp

theorem Division.words_eq {tokens : List Token} {division : Division}
    (found : find? tokens = some division) :
    tokens.map Token.text = division.left ++ division.spelling :: division.right := by
  induction tokens generalizing division with
  | nil => simp [find?] at found
  | cons token rest ih =>
    unfold find? at found
    split at found
    · cases found; simp
    · obtain ⟨inner, deeper, rfl⟩ := Option.map_eq_some_iff.mp found
      simp [ih deeper]

namespace Layer

theorem length_lead_operand_le {lead : Lead} {whole : Text} {layer : Layer}
    (made : lead.layer whole = .ok layer) {operand : Text} (member : operand ∈ layer.operands) :
    operand.length ≤ lead.rest.length := by
  unfold Lead.layer at made
  split at made
  · split at made
    · cases made
    · cases made
      simp_all [operands]
  · split at made
    · cases made
    · next var body front =>
      obtain ⟨x, _, _, rest⟩ := Text.leadingVariable?_eq_some_iff.mp front
      split at made
      · cases made
      · split at made
        · cases made
        · cases made
          simp only [operands, List.mem_singleton] at member
          rw [member, rest]
          simp only [List.length_cons]
          omega

theorem length_division_operand_lt {division : Division} {whole : Text} {layer : Layer}
    (made : division.layer whole = .ok layer) {operand : Text} (member : operand ∈ layer.operands)
    (proper : division.spelling ≠ []) :
    operand.length <
      (Text.unwords (division.left ++ division.spelling :: division.right)).length := by
  simp only [Division.layer] at made
  split at made
  · cases made
  · cases made
    simp only [operands, List.mem_cons, List.not_mem_nil, or_false] at member
    rcases member with rfl | rfl
    · exact Text.length_unwords_left_lt _ _ proper
    · exact Text.length_unwords_right_lt _ _ proper

theorem length_operand_lt {input : Text} {layer : Layer} (success : read input = .ok layer)
    {operand : Text} (member : operand ∈ layer.operands) : operand.length < input.length := by
  have words : (Text.unwords ((Token.ofText (Text.strip input)).map Token.text)).length ≤
      input.length := by
    rw [Token.map_text_ofText]
    exact Nat.le_trans (Text.length_unwords_words_le _) (Text.length_strip_le input)
  have proper : ∀ token ∈ Token.ofText (Text.strip input), token.text ≠ [] := by
    intro token present
    apply Text.ne_nil_of_mem_words (t := Text.strip input)
    rw [← Token.map_text_ofText]
    exact List.mem_map_of_mem present
  have lead {l : Lead} (found : Lead.find? (Token.ofText (Text.strip input)) = some l)
      (made : l.layer (Text.strip input) = .ok layer) : operand.length < input.length := by
    have first := length_lead_operand_le made member
    have second := Lead.length_rest_lt found proper
    omega
  have division {d : Division} (found : Division.find? (Token.ofText (Text.strip input)) = some d)
      (made : d.layer (Text.strip input) = .ok layer) : operand.length < input.length := by
    have parts := Division.words_eq found
    have spelled : d.spelling ≠ [] := by
      obtain ⟨token, present, same⟩ :=
        List.mem_map.mp (show d.spelling ∈ (Token.ofText (Text.strip input)).map Token.text by
          simp [parts])
      rw [← same]
      exact proper token present
    have shorter := length_division_operand_lt made member spelled
    rw [← parts] at shorter
    omega
  simp only [read] at success
  split at success
  · cases success
  · unfold ofTokens at success
    split at success
    · split at success
      · cases success; simp [operands] at member
      · next found => exact division found success
    · next foundLead =>
      split at success
      · split at success
        · exact lead foundLead success
        · next foundDivision => exact division foundDivision success
      · exact lead foundLead success

end Layer
end Turnstile
