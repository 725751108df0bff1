import Turnstile.Text.Basic

/-! How messages quote texts and name lines. -/
namespace Turnstile

/-- A message ends before the first U+0000 of a text that it quotes. -/
def shown (message : String) : String :=
  String.ofList (message.toList.takeWhile (· != '\x00'))

def quoted (t : Text) : String := "'" ++ String.ofList t ++ "'"

/-- A fault found on a line of the input. -/
structure Located (α : Type) where
  line : Nat
  fault : α
deriving DecidableEq

/-- The message of a fault on a line, from a description of the fault alone. -/
def Located.message {α : Type} (describe : α → String) (error : Located α) : String :=
  shown (toString error.line ++ ": ERROR: " ++ describe error.fault)

end Turnstile
