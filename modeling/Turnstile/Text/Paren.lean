import Turnstile.Text.Basic

/-! Parenthesis depth, and the removal of parentheses and blanks around a text. -/
namespace Turnstile.Text

/-- Opening parentheses less closing ones. -/
def balance : Text → Int
  | [] => 0
  | c :: rest =>
    if c == '(' then balance rest + 1
    else if c == ')' then balance rest - 1
    else balance rest

/-- The depth after a text that starts at depth `d`, if no parenthesis in it
closes more than was opened. -/
def depth? (d : Nat) : Text → Option Nat
  | [] => some d
  | c :: rest =>
    if c == '(' then depth? (d + 1) rest
    else if c == ')' then
      match d with
      | 0 => none
      | d + 1 => depth? d rest
    else depth? d rest

/-- Every parenthesis is matched inside the text. -/
def Balanced (t : Text) : Prop := depth? 0 t = some 0

instance (t : Text) : Decidable (Balanced t) := inferInstanceAs (Decidable (_ = _))

/-- The last character is `)`, and no parenthesis before it closes more than was
opened since depth `d`. -/
def endsScope (d : Nat) : Text → Bool
  | [] => false
  | c :: rest =>
    if rest.isEmpty then c == ')'
    else if c == '(' then endsScope (d + 1) rest
    else if c == ')' then
      match d with
      | 0 => false
      | d + 1 => endsScope d rest
    else endsScope d rest

/-- The inside of a text that starts with `(`, ends with `)` and does not fall
back to depth zero before its last character. Parentheses that stay open inside
do no harm. -/
def inner? : Text → Option Text
  | [] => none
  | c :: rest =>
    if c == '(' && endsScope 0 rest then some rest.dropLast else none

theorem endsScope_append (d : Nat) (inside : Text) :
    endsScope d (inside ++ [')']) = (depth? d inside).isSome := by
  induction inside generalizing d with
  | nil => simp [endsScope, depth?]
  | cons c inside ih =>
    have more : (inside ++ [')']).isEmpty = false := by simp
    rw [List.cons_append, endsScope.eq_def, depth?.eq_def]
    simp only [more, Bool.false_eq_true, if_false]
    split
    · exact ih (d + 1)
    · split
      · cases d with
        | zero => rfl
        | succ d => exact ih d
      · exact ih d

theorem getLast?_of_endsScope {d : Nat} {t : Text} (ends : endsScope d t = true) :
    t.getLast? = some ')' := by
  fun_induction endsScope d t <;> simp_all [List.getLast?_cons]

theorem inner?_eq_some_iff {t inside : Text} :
    inner? t = some inside ↔ t = '(' :: (inside ++ [')']) ∧ (depth? 0 inside).isSome := by
  cases t with
  | nil => simp [inner?]
  | cons c rest =>
    simp only [inner?, Bool.and_eq_true, beq_iff_eq, Option.ite_none_right_eq_some,
      Option.some.injEq, List.cons.injEq]
    constructor
    · rintro ⟨⟨rfl, ends⟩, rfl⟩
      obtain ⟨inside, rfl⟩ := List.getLast?_eq_some_iff.mp (getLast?_of_endsScope ends)
      simpa [endsScope_append] using ends
    · rintro ⟨⟨rfl, rfl⟩, deep⟩
      simp [endsScope_append, deep]

theorem length_inner?_lt {t inside : Text} (found : inner? t = some inside) :
    inside.length < t.length := by
  have same := congrArg List.length (inner?_eq_some_iff.mp found).1
  simp only [List.length_cons, List.length_append, List.length_nil] at same
  omega

/-- The text without the parentheses that enclose it. -/
def unwrap (t : Text) : Text :=
  match _found : inner? t with
  | none => t
  | some inside => unwrap inside
termination_by t.length
decreasing_by exact length_inner?_lt ‹_›

/-- The text without the blanks and parentheses that enclose it, in any order. -/
def strip (t : Text) : Text :=
  match _found : inner? (trim t) with
  | none => trim t
  | some inside => strip inside
termination_by t.length
decreasing_by exact Nat.lt_of_lt_of_le (length_inner?_lt ‹_›) (length_trim_le t)

theorem unwrap_of_none {t : Text} (bare : inner? t = none) : unwrap t = t := by
  rw [unwrap]
  split
  · rfl
  · next found => rw [bare] at found; cases found

theorem unwrap_of_some {t inside : Text} (wrapped : inner? t = some inside) :
    unwrap t = unwrap inside := by
  rw [unwrap]
  split
  · next found => rw [wrapped] at found; cases found
  · next found => rw [wrapped] at found; cases found; rfl

theorem strip_of_none {t : Text} (bare : inner? (trim t) = none) : strip t = trim t := by
  rw [strip]
  split
  · rfl
  · next found => rw [bare] at found; cases found

theorem strip_of_some {t inside : Text} (wrapped : inner? (trim t) = some inside) :
    strip t = strip inside := by
  rw [strip]
  split
  · next found => rw [wrapped] at found; cases found
  · next found => rw [wrapped] at found; cases found; rfl

theorem length_strip_le (t : Text) : (strip t).length ≤ t.length := by
  fun_induction strip t with
  | case1 t => exact length_trim_le t
  | case2 t inside found ih =>
    have shorter := length_inner?_lt found
    have trimmed := length_trim_le t
    omega

end Turnstile.Text
