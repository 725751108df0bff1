import Turnstile.Text.Basic

/-! Decimal numbers in texts. -/
namespace Turnstile.Text

/-- One or more digits and nothing else. -/
def natural? (t : Text) : Option Nat :=
  if t.isEmpty || !t.all Char.isDigit then none
  else some (t.foldl (fun n c => 10 * n + (c.toNat - '0'.toNat)) 0)

/-- Blanks, an optional sign and digits, with nothing after them. -/
def integer? (t : Text) : Option Int :=
  match trimStart t with
  | [] => none
  | c :: rest =>
    if c == '-' then (natural? rest).map fun n => -(n : Int)
    else if c == '+' then (natural? rest).map Int.ofNat
    else (natural? (c :: rest)).map Int.ofNat

/-- An integer of 32 bits. -/
def int32? (t : Text) : Option Int :=
  (integer? t).filter fun n => -2147483648 ≤ n && n ≤ 2147483647

end Turnstile.Text
