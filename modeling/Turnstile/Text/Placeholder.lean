import Turnstile.Text.Pieces

/-! Placeholders: a run of letters between `<` and `>`. One letter is a variable,
two or more are a name. Anything else between the marks is plain text. -/
namespace Turnstile

/-- What a placeholder of two or more letters mentions. -/
abbrev Name := Text

namespace Text

/-- The letters in front of a text, if there are any and `>` follows them. -/
def closedRun? (t : Text) : Option Text :=
  if t.head?.any isLetter && (t.dropWhile isLetter).head? == some '>' then
    some (t.takeWhile isLetter)
  else none

/-- All placeholders from left to right, without their marks. They do not overlap,
since no mark is a letter. -/
def placeholders : Text → List Text
  | [] => []
  | c :: rest =>
    if c == '<' then (closedRun? rest).toList ++ placeholders rest else placeholders rest

def names (t : Text) : List Name := (placeholders t).filter (2 ≤ ·.length)

def vars (t : Text) : List Text := (placeholders t).filter (·.length == 1)

def placeholder (t : Text) : Text := '<' :: (t ++ ['>'])

/-- Puts the placeholder of `new` where that of `old` stands. -/
def replacePlaceholder (old new t : Text) : Text :=
  replace (placeholder old) (placeholder new) t

/-- The variable of a placeholder at the front, and what follows it. -/
def leadingVariable? : Text → Option (Text × Text)
  | a :: x :: b :: rest =>
    if a == '<' && isLetter x && b == '>' then some ([x], rest) else none
  | _ => none

theorem leadingVariable?_eq_some_iff {t var rest : Text} :
    leadingVariable? t = some (var, rest) ↔
      ∃ x, var = [x] ∧ isLetter x = true ∧ t = '<' :: x :: '>' :: rest := by
  unfold leadingVariable?
  split
  · next a x b tail =>
    simp only [Option.ite_none_right_eq_some, Bool.and_eq_true, beq_iff_eq, Option.some.injEq,
      Prod.mk.injEq, List.cons.injEq]
    constructor
    · rintro ⟨⟨⟨rfl, letter⟩, rfl⟩, rfl, rfl⟩
      exact ⟨x, rfl, letter, rfl, rfl, rfl, rfl⟩
    · rintro ⟨y, rfl, letter, rfl, rfl, rfl, rfl⟩
      exact ⟨⟨⟨rfl, letter⟩, rfl⟩, rfl, rfl⟩
  · next short =>
    constructor
    · simp
    · rintro ⟨x, _, _, rfl⟩
      exact absurd rfl (short _ _ _ _)

/-- The whole text is the placeholder of a variable. -/
def isBoundVariable (t : Text) : Bool := (leadingVariable? t).any (·.2.isEmpty)

def isVariable (t : Text) : Bool := t.length == 1 && t.all isLetter

def isName (t : Text) : Bool := 2 ≤ t.length && t.all isLetter

end Text
end Turnstile
