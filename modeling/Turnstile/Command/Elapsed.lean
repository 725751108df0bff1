/-! Elapsed time in seconds, with six significant digits. -/
namespace Turnstile.Elapsed

/-- The quotient to the nearest integer, a half to the even one. -/
def roundDiv (n d : Nat) : Nat :=
  let q := n / d
  let twice := 2 * (n % d)
  if twice < d || (twice == d && q % 2 == 0) then q else q + 1

/-- The six leading digits of a positive number as a number, and the power of ten
of the first one. -/
def leading (n : Nat) : Nat × Nat :=
  let length := (Nat.toDigits 10 n).length
  if length ≤ 6 then (n * Nat.pow 10 (6 - length), length - 1)
  else
    let digits := roundDiv n (Nat.pow 10 (length - 6))
    if digits < 1000000 then (digits, length - 1) else (100000, length)

def dropZeros (digits : List Char) : List Char := (digits.reverse.dropWhile (· == '0')).reverse

def withPoint (whole fraction : List Char) : List Char :=
  match dropZeros fraction with
  | [] => whole
  | fraction => whole ++ '.' :: fraction

def exponentDigits (n : Nat) : List Char :=
  let digits := Nat.toDigits 10 n
  if digits.length < 2 then '0' :: digits else digits

/-- Six significant digits without zeros at the end, positional from 0.0001 up to
one million, and with an exponent of at least two digits elsewhere. -/
def seconds (nanoseconds : Nat) : String :=
  if nanoseconds = 0 then "0"
  else
    let (number, power) := leading nanoseconds
    let digits := Nat.toDigits 10 number
    if power < 5 then
      String.ofList (withPoint (digits.take 1) (digits.drop 1) ++ ['e', '-'] ++
        exponentDigits (9 - power))
    else if power < 9 then
      String.ofList (withPoint ['0'] (List.replicate (8 - power) '0' ++ digits))
    else if power < 15 then
      String.ofList (withPoint (digits.take (power - 8)) (digits.drop (power - 8)))
    else
      String.ofList (withPoint (digits.take 1) (digits.drop 1) ++ ['e', '+'] ++
        exponentDigits (power - 9))

end Turnstile.Elapsed
