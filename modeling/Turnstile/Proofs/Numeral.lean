import Mathlib.Data.Nat.Digits.Defs
import Turnstile.Command.Options
import Turnstile.Proofs.Spacing

/-! The language of numbers: blanks, a sign or none, and decimal digits up to the end. Reading accepts
exactly this language, and an option takes from it the numbers from zero to the largest of 32 bits. -/
namespace Turnstile

namespace Text

/-- The number that decimal digits stand for, the last of them being the units. -/
def decimal (digits : Text) : Nat :=
  Nat.ofDigits 10 (digits.reverse.map fun c => c.toNat - '0'.toNat)

structure Digits (t : Text) : Prop where
  proper : t ≠ []
  each : ∀ c ∈ t, c.isDigit = true

/-- A text that stands for an integer. -/
inductive Numeral : Text → Int → Prop where
  | bare {gap digits : Text} (blanks : ∀ c ∈ gap, isBlank c = true) (run : Digits digits) :
      Numeral (gap ++ digits) (decimal digits)
  | plus {gap digits : Text} (blanks : ∀ c ∈ gap, isBlank c = true) (run : Digits digits) :
      Numeral (gap ++ '+' :: digits) (decimal digits)
  | minus {gap digits : Text} (blanks : ∀ c ∈ gap, isBlank c = true) (run : Digits digits) :
      Numeral (gap ++ '-' :: digits) (-decimal digits)

theorem decimal_append_singleton (digits : Text) (c : Char) :
    decimal (digits ++ [c]) = 10 * decimal digits + (c.toNat - '0'.toNat) := by
  rw [decimal, List.reverse_append, List.reverse_singleton, List.singleton_append, List.map_cons,
    Nat.ofDigits_cons, Nat.add_comm, decimal]

theorem foldl_eq_decimal (digits : Text) :
    digits.foldl (fun n c => 10 * n + (c.toNat - '0'.toNat)) 0 = decimal digits := by
  induction digits using List.reverseRecOn with
  | nil => rfl
  | append_singleton digits c ih =>
    rw [List.foldl_append, ih, decimal_append_singleton]
    rfl

theorem natural?_eq_some_iff {t : Text} {n : Nat} :
    natural? t = some n ↔ Digits t ∧ n = decimal t := by
  rw [natural?, foldl_eq_decimal]
  split
  · next refused =>
    simp only [reduceCtorEq, false_iff]
    rintro ⟨run, -⟩
    simp [run.proper, List.all_eq_true.mpr run.each] at refused
  · next accepted =>
    have run : Digits t := by
      simp only [Bool.or_eq_true, not_or, List.isEmpty_iff, Bool.not_eq_true', Bool.not_eq_false,
        List.all_eq_true] at accepted
      exact ⟨accepted.1, accepted.2⟩
    simp [run, eq_comm]

theorem solid_of_isDigit {c : Char} (digit : c.isDigit = true) :
    isBlank c = false ∧ c ≠ '-' ∧ c ≠ '+' := by
  refine ⟨isBlank_eq_false (by decide) digit, ?_, ?_⟩
  · rintro rfl
    exact absurd digit (by decide)
  · rintro rfl
    exact absurd digit (by decide)

theorem trimStart_cons {gap rest : Text} {c : Char} (blanks : ∀ d ∈ gap, isBlank d = true)
    (solid : isBlank c = false) : trimStart (gap ++ c :: rest) = c :: rest := by
  refine dropWhile_blanks blanks fun d member => ?_
  obtain rfl : c = d := by simpa using member
  exact solid

/-- Reading a number accepts the language and gives the value. -/
theorem integer?_eq_some_iff {t : Text} {n : Int} : integer? t = some n ↔ Numeral t n := by
  constructor
  · intro read
    have parts : t = t.takeWhile isBlank ++ trimStart t := List.takeWhile_append_dropWhile.symm
    have blanks : ∀ c ∈ t.takeWhile isBlank, isBlank c = true :=
      fun c member => List.mem_takeWhile_imp member
    rw [parts]
    unfold integer? at read
    split at read
    · cases read
    · next c rest core =>
      rw [core]
      split at read
      · next sign =>
        obtain ⟨m, cast, rfl⟩ := Option.map_eq_some_iff.mp read
        obtain ⟨k, value, same⟩ := Option.bind_eq_some_iff.mp cast
        obtain rfl : (k : Int) = m := Option.some.inj same
        obtain ⟨run, rfl⟩ := natural?_eq_some_iff.mp value
        obtain rfl := beq_iff_eq.mp sign
        exact .minus blanks run
      · split at read
        · next sign =>
          obtain ⟨m, value, rfl⟩ := Option.map_eq_some_iff.mp read
          obtain ⟨run, rfl⟩ := natural?_eq_some_iff.mp value
          obtain rfl := beq_iff_eq.mp sign
          exact .plus blanks run
        · obtain ⟨m, value, rfl⟩ := Option.map_eq_some_iff.mp read
          obtain ⟨run, rfl⟩ := natural?_eq_some_iff.mp value
          exact .bare blanks run
  · intro numeral
    have value {digits : Text} (run : Digits digits) : natural? digits = some (decimal digits) :=
      natural?_eq_some_iff.mpr ⟨run, rfl⟩
    cases numeral with
    | @bare gap digits blanks run =>
      obtain ⟨c, rest, rfl⟩ := List.exists_cons_of_ne_nil run.proper
      obtain ⟨solid, minus, plus⟩ := solid_of_isDigit (run.each c List.mem_cons_self)
      rw [integer?, trimStart_cons blanks solid]
      simp [minus, plus, value run]
    | @plus gap digits blanks run =>
      rw [integer?, trimStart_cons blanks (by decide)]
      simp [value run]
    | @minus gap digits blanks run =>
      rw [integer?, trimStart_cons blanks (by decide)]
      simp [value run]

theorem int32?_eq_some_iff {t : Text} {n : Int} :
    int32? t = some n ↔ Numeral t n ∧ -2147483648 ≤ n ∧ n ≤ 2147483647 := by
  rw [int32?, Option.filter_eq_some_iff, integer?_eq_some_iff]
  simp

end Text

namespace Options

theorem readCount_eq_ok_iff {option value : Text} {n : Nat} :
    readCount option value = .ok n ↔ Text.Numeral value n ∧ n ≤ 2147483647 := by
  have within : Text.int32? value = some (n : Int) ↔ Text.Numeral value n ∧ n ≤ 2147483647 := by
    rw [Text.int32?_eq_some_iff]
    refine and_congr_right fun _ => ?_
    omega
  rw [← within]
  unfold readCount
  split
  · next none => simp [none]
  · next m some =>
    rw [some, Option.some.injEq]
    split
    · next negative =>
      simp only [reduceCtorEq, false_iff]
      omega
    · next nonneg =>
      rw [Except.ok.injEq]
      omega

/-- A value that is refused is no number, or a negative one. -/
theorem readCount_of_refused (option : Text) {value : Text}
    (refused : ∀ n : Nat, Text.Numeral value n → 2147483647 < n) :
    ∃ fault, readCount option value = .error fault ∧
      (fault = .notNumber option value ∨ fault = .negative option) := by
  cases outcome : readCount option value with
  | ok n =>
    obtain ⟨numeral, small⟩ := readCount_eq_ok_iff.mp outcome
    exact absurd small (Nat.not_le.mpr (refused n numeral))
  | error fault =>
    refine ⟨fault, rfl, ?_⟩
    unfold readCount at outcome
    split at outcome
    · cases outcome
      exact .inl rfl
    · split at outcome
      · cases outcome
        exact .inr rfl
      · cases outcome

end Options

end Turnstile
