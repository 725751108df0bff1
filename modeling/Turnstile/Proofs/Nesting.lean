import Turnstile.Proofs.Placeholder
import Turnstile.Proofs.Spacing
import Turnstile.Text.Paren

/-! Parentheses in texts. Depth and balance see nothing of a text but its parentheses, so
they are the same for all texts that differ in blanks or in other characters. Taking
away what encloses a text ends at a text that nothing encloses. -/
namespace Turnstile.Text

def parens (t : Text) : Text := t.filter fun c => c == '(' || c == ')'

@[simp] theorem parens_append (s t : Text) : parens (s ++ t) = parens s ++ parens t :=
  List.filter_append s t

theorem parens_eq_nil {t : Text} (absent : ∀ c ∈ t, c ≠ '(' ∧ c ≠ ')') : parens t = [] := by
  simpa [parens, List.filter_eq_nil_iff] using absent

theorem depth?_parens (d : Nat) (t : Text) : depth? d (parens t) = depth? d t := by
  induction t generalizing d with
  | nil => rfl
  | cons c rest ih =>
    by_cases opens : c = '('
    · simpa [parens, depth?, opens] using ih (d + 1)
    · by_cases closes : c = ')'
      · cases d with
        | zero => simp [parens, depth?, closes]
        | succ d => simpa [parens, depth?, closes] using ih d
      · simpa [parens, depth?, opens, closes] using ih d

theorem balance_parens (t : Text) : balance (parens t) = balance t := by
  induction t with
  | nil => rfl
  | cons c rest ih =>
    by_cases opens : c = '('
    · simpa [parens, balance, opens] using ih
    · by_cases closes : c = ')'
      · simpa [parens, balance, closes] using ih
      · simpa [parens, balance, opens, closes] using ih

theorem depth?_congr {s t : Text} (same : parens s = parens t) (d : Nat) :
    depth? d s = depth? d t := by
  rw [← depth?_parens, same, depth?_parens]

theorem balance_congr {s t : Text} (same : parens s = parens t) : balance s = balance t := by
  rw [← balance_parens, same, balance_parens]

@[simp] theorem depth?_open (d : Nat) (t : Text) : depth? d ('(' :: t) = depth? (d + 1) t := rfl

@[simp] theorem balance_open (t : Text) : balance ('(' :: t) = balance t + 1 := rfl

theorem depth?_append (d : Nat) (s t : Text) :
    depth? d (s ++ t) = (depth? d s).bind fun e => depth? e t := by
  induction s generalizing d with
  | nil => rfl
  | cons c s ih =>
    rw [List.cons_append, depth?.eq_def, depth?.eq_def d (c :: s)]
    dsimp only
    split
    · exact ih (d + 1)
    · split
      · cases d with
        | zero => rfl
        | succ d => exact ih d
      · exact ih d

theorem balance_append (s t : Text) : balance (s ++ t) = balance s + balance t := by
  induction s with
  | nil => simp [balance]
  | cons c s ih =>
    rw [List.cons_append, balance, balance, ih]
    split
    · omega
    · split <;> omega

theorem balance_of_depth? {d e : Nat} {t : Text} (reached : depth? d t = some e) :
    balance t = e - d := by
  fun_induction depth? d t with
  | case1 d => simp_all [balance]
  | case2 d c rest opens ih =>
    simp only [balance, opens, if_true, ih reached]
    omega
  | case3 c rest opens closes => cases reached
  | case4 c rest opens closes d ih =>
    simp only [balance, opens, closes, if_true, ih reached]
    simp
    omega
  | case5 d c rest opens closes ih => simpa [balance, opens, closes] using ih reached

theorem depth?_add {d e : Nat} {t : Text} (reached : depth? d t = some e) (more : Nat) :
    depth? (d + more) t = some (e + more) := by
  fun_induction depth? d t with
  | case1 d =>
    cases reached
    rfl
  | case2 d c rest opens ih => simpa [depth?, opens, Nat.add_right_comm] using ih reached
  | case3 c rest opens closes => cases reached
  | case4 c rest opens closes d ih =>
    rw [Nat.succ_add]
    simpa [depth?, opens, closes] using ih reached
  | case5 d c rest opens closes ih => simpa [depth?, opens, closes] using ih reached

theorem parens_of_blanks {t : Text} (blanks : ∀ c ∈ t, isBlank c = true) : parens t = [] := by
  apply parens_eq_nil
  intro c member
  constructor
  · rintro rfl
    exact absurd (blanks _ member) (by decide)
  · rintro rfl
    exact absurd (blanks _ member) (by decide)

@[simp] theorem parens_trim (t : Text) : parens (trim t) = parens t := by
  obtain ⟨_, before, after, left, right, parts⟩ := trim_spec t
  rw [congrArg parens parts]
  simp [parens_of_blanks left, parens_of_blanks right]

theorem parens_unwords (ws : List Text) : parens (unwords ws) = parens ws.flatten := by
  induction ws with
  | nil => rfl
  | cons w ws ih =>
    by_cases last : ws = []
    · simp [last]
    · rw [unwords_cons w last, parens_append, List.flatten_cons, parens_append, ← ih]
      rfl

@[simp] theorem parens_flatten_words (t : Text) : parens (words t).flatten = parens t := by
  rw [flatten_words, parens, parens, List.filter_filter]
  apply List.filter_congr
  intro c _
  by_cases blank : isBlank c = true
  · have other : parens [c] = [] := parens_of_blanks (by simpa using blank)
    simpa [parens, blank] using other
  · simp [blank]

theorem ne_paren_of_isLetter {c : Char} (letter : isLetter c = true) : c ≠ '(' ∧ c ≠ ')' := by
  constructor
  · rintro rfl
    exact absurd letter (by decide)
  · rintro rfl
    exact absurd letter (by decide)

/-- A placeholder has neither blanks nor parentheses. -/
theorem plain_placeholder {w : Text} (run : IsRun w) :
    (∀ c ∈ placeholder w, isBlank c = false) ∧ parens (placeholder w) = [] := by
  have plain : ∀ c ∈ placeholder w, isBlank c = false ∧ c ≠ '(' ∧ c ≠ ')' := by
    intro c member
    simp only [placeholder, List.mem_cons, List.mem_append, List.not_mem_nil, or_false] at member
    rcases member with rfl | letter | rfl
    · decide
    · have inside := run.letters c letter
      exact ⟨isBlank_of_isLetter inside, ne_paren_of_isLetter inside⟩
    · decide
  exact ⟨fun c member => (plain c member).1, parens_eq_nil fun c member => (plain c member).2⟩

theorem balanced_append {s t : Text} (left : Balanced s) (right : Balanced t) :
    Balanced (s ++ t) := by
  rw [Balanced, depth?_append, show depth? 0 s = some 0 from left]
  exact right

/-- No piece at the front of a balanced text closes more than it opens. -/
theorem balance_nonneg {s t : Text} (balanced : Balanced t) (starts : s <+: t) :
    0 ≤ balance s := by
  obtain ⟨rest, rfl⟩ := starts
  rw [Balanced, depth?_append] at balanced
  obtain ⟨e, reached, _⟩ := Option.bind_eq_some_iff.mp balanced
  rw [balance_of_depth? reached]
  omega

theorem depth?_wrap {d e : Nat} {t : Text} (reached : depth? d t = some e) :
    depth? d ('(' :: (t ++ [')'])) = some e := by
  rw [depth?_open, depth?_append, depth?_add reached 1]
  rfl

theorem balanced_wrap {t : Text} (balanced : Balanced t) : Balanced ('(' :: (t ++ [')'])) :=
  depth?_wrap balanced

/-- If a whole text is balanced, so is what stands inside its parentheses. -/
theorem balanced_of_inner? {t inside : Text} (found : inner? t = some inside)
    (balanced : Balanced t) : Balanced inside := by
  obtain ⟨rfl, closed⟩ := inner?_eq_some_iff.mp found
  obtain ⟨e, reached⟩ := Option.isSome_iff_exists.mp closed
  rwa [Balanced, reached, ← depth?_wrap reached]

/-- A text that starts with a balanced one and goes on is not enclosed. -/
theorem inner?_append {s t : Text} (balanced : Balanced s) (first : s ≠ []) (more : t ≠ []) :
    inner? (s ++ t) = none := by
  rw [Option.eq_none_iff_forall_ne_some]
  intro inside found
  obtain ⟨whole, closed⟩ := inner?_eq_some_iff.mp found
  obtain ⟨c, s, rfl⟩ := List.exists_cons_of_ne_nil first
  obtain ⟨rest, d, rfl⟩ := (List.eq_nil_or_concat t).resolve_left more
  rw [List.cons_append, List.concat_eq_append, ← List.append_assoc, List.cons.injEq] at whole
  obtain ⟨rfl, same⟩ := whole
  obtain ⟨rfl, -⟩ := List.append_inj' same rfl
  -- The parenthesis in front would have to be closed before the balanced text ends.
  cases reached : depth? 0 s with
  | none => simp [depth?_append, reached] at closed
  | some e =>
    rw [Balanced, depth?_open, depth?_add reached 1] at balanced
    cases balanced

theorem strip_congr {s t : Text} (same : trim s = trim t) : strip s = strip t := by
  cases found : inner? (trim t) with
  | none => rw [strip_of_none found, strip_of_none (same ▸ found), same]
  | some inside => rw [strip_of_some found, strip_of_some (same ▸ found)]

theorem strip_blanks {before after : Text} (left : ∀ c ∈ before, isBlank c = true)
    (right : ∀ c ∈ after, isBlank c = true) (t : Text) :
    strip (before ++ t ++ after) = strip t :=
  strip_congr (trim_blanks left right t)

theorem ne_nil_of_strip {t : Text} (proper : strip t ≠ []) : t ≠ [] := by
  rintro rfl
  exact proper (strip_of_none rfl)

theorem trimmed_wrap (t : Text) : Trimmed ('(' :: (t ++ [')'])) := by
  constructor
  · intro c member
    obtain rfl : '(' = c := by simpa using member
    decide
  · intro c member
    obtain rfl : ')' = c := by simpa [List.getLast?_cons] using member
    decide

theorem strip_pair {t : Text} (closed : (depth? 0 t).isSome) :
    strip ('(' :: (t ++ [')'])) = strip t := by
  apply strip_of_some
  rw [trim_eq_self (trimmed_wrap t)]
  exact inner?_eq_some_iff.mpr ⟨rfl, closed⟩

theorem strip_wrap {t : Text} (balanced : Balanced t) : strip ('(' :: (t ++ [')'])) = strip t :=
  strip_pair (by rw [show depth? 0 t = some 0 from balanced]; rfl)

theorem strip_eq_self {t : Text} (trimmed : Trimmed t) (bare : inner? t = none) : strip t = t := by
  have same := trim_eq_self trimmed
  rw [strip_of_none (same.symm ▸ bare), same]

/-- What is left has no blank at its ends and nothing around it. -/
theorem strip_spec (t : Text) :
    Trimmed (strip t) ∧ inner? (strip t) = none ∧ strip t <:+: t := by
  fun_induction strip t with
  | case1 t bare => exact ⟨(trim_spec t).1, bare, infix_trim t⟩
  | case2 t inside found ih =>
    obtain ⟨trimmed, bare, within⟩ := ih
    refine ⟨trimmed, bare, within.trans ?_⟩
    have around := infix_trim t
    rw [(inner?_eq_some_iff.mp found).1] at around
    refine List.IsInfix.trans ?_ around
    exact ⟨['('], [')'], rfl⟩

theorem strip_strip (t : Text) : strip (strip t) = strip t := by
  obtain ⟨trimmed, bare, _⟩ := strip_spec t
  exact strip_eq_self trimmed bare

theorem balanced_strip {t : Text} (balanced : Balanced t) : Balanced (strip t) := by
  fun_induction strip t with
  | case1 t bare => rwa [Balanced, depth?_congr (parens_trim t)]
  | case2 t inside found ih =>
    apply ih
    apply balanced_of_inner? found
    rwa [Balanced, depth?_congr (parens_trim t)]

end Turnstile.Text
