import Turnstile.Proofs.Nesting

/-! The pairs of parentheses that are taken from around a text. Inside each of them nothing closes
more than was opened, but something may stay open. Then the parenthesis at the end belongs to one
inside and not to the one in front, and the two are taken away all the same. The pairs are matched
exactly if the whole text opens as much as it closes. -/
namespace Turnstile.Text

/-- A text inside some pairs of parentheses. -/
def enclose (pairs : Nat) (t : Text) : Text :=
  List.replicate pairs '(' ++ t ++ List.replicate pairs ')'

@[simp] theorem enclose_zero (t : Text) : enclose 0 t = t := by simp [enclose]

theorem enclose_succ (pairs : Nat) (t : Text) :
    enclose (pairs + 1) t = '(' :: (enclose pairs t ++ [')']) := by
  rw [enclose, enclose, List.replicate_succ, List.replicate_succ']
  simp

theorem length_enclose (pairs : Nat) (t : Text) :
    (enclose pairs t).length = 2 * pairs + t.length := by
  simp [enclose]
  omega

theorem balance_enclose (pairs : Nat) (t : Text) : balance (enclose pairs t) = balance t := by
  induction pairs with
  | zero => rw [enclose_zero]
  | succ pairs ih =>
    have close : balance [')'] = -1 := rfl
    rw [enclose_succ, balance_open, balance_append, ih, close]
    omega

theorem balanced_iff_of_depth? {t : Text} (closed : (depth? 0 t).isSome) :
    Balanced t ↔ balance t = 0 := by
  obtain ⟨d, reached⟩ := Option.isSome_iff_exists.mp closed
  rw [Balanced, reached, balance_of_depth? reached]
  simp

theorem inner?_unwrap (t : Text) : inner? (unwrap t) = none := by
  fun_induction unwrap t with
  | case1 t bare => exact bare
  | case2 t inside found ih => exact ih

/-- What is left stood inside some pairs, and inside each of them no parenthesis closes more than
was opened. -/
theorem exists_enclose_unwrap (t : Text) : ∃ pairs, t = enclose pairs (unwrap t) ∧
    ∀ inner < pairs, (depth? 0 (enclose inner (unwrap t))).isSome := by
  fun_induction unwrap t with
  | case1 t bare => exact ⟨0, by simp, by simp⟩
  | case2 t inside found ih =>
    obtain ⟨rfl, closed⟩ := inner?_eq_some_iff.mp found
    obtain ⟨pairs, same, each⟩ := ih
    refine ⟨pairs + 1, by rw [enclose_succ, ← same], ?_⟩
    intro inner less
    rcases Nat.lt_or_eq_of_le (Nat.le_of_lt_succ less) with further | rfl
    · exact each inner further
    · rwa [← same]

/-- Only pairs around the whole text are taken away, and nothing is left to be taken. The pairs
are matched ones exactly if there are none or the whole text opens as much as it closes. -/
theorem unwrap_removes_pairs (t : Text) : ∃ pairs, t = enclose pairs (unwrap t) ∧
    (∀ inner < pairs, (depth? 0 (enclose inner (unwrap t))).isSome) ∧
    (∀ inside, unwrap t = '(' :: (inside ++ [')']) → ¬Balanced inside) ∧
    ((∀ inner < pairs, Balanced (enclose inner (unwrap t))) ↔ pairs = 0 ∨ balance t = 0) := by
  obtain ⟨pairs, same, each⟩ := exists_enclose_unwrap t
  refine ⟨pairs, same, each, ?_, ?_⟩
  · intro inside around balanced
    have found : inner? (unwrap t) = some inside :=
      inner?_eq_some_iff.mpr ⟨around, by rw [show depth? 0 inside = some 0 from balanced]; rfl⟩
    rw [inner?_unwrap] at found
    cases found
  · have whole : balance t = balance (unwrap t) :=
      (congrArg balance same).trans (balance_enclose _ _)
    have matched : ∀ inner < pairs, Balanced (enclose inner (unwrap t)) ↔ balance t = 0 := by
      intro inner less
      rw [balanced_iff_of_depth? (each inner less), balance_enclose, whole]
    constructor
    · intro all
      rcases Nat.eq_zero_or_pos pairs with none | some
      · exact .inl none
      · exact .inr ((matched 0 some).mp (all 0 some))
    · rintro (rfl | even) inner less
      · cases less
      · exact (matched inner less).mpr even

/-- The second parenthesis is the one that is closed, but the first is taken away with it. -/
theorem unwrap_unmatched_pair :
    unwrap "((A)".toList = "(A".toList ∧
      ¬∃ pairs, "((A)".toList = enclose pairs (unwrap "((A)".toList) ∧
        ∀ inner < pairs, Balanced (enclose inner (unwrap "((A)".toList)) := by
  have left : unwrap "((A)".toList = "(A".toList := by
    have once : inner? "((A)".toList = some "(A".toList := by decide
    rw [unwrap_of_some once]
    exact unwrap_of_none (by decide)
  refine ⟨left, ?_⟩
  rintro ⟨pairs, same, each⟩
  rw [left] at same each
  have size := congrArg List.length same
  rw [length_enclose] at size
  obtain rfl : pairs = 1 := by
    simp at size
    omega
  exact absurd (each 0 Nat.one_pos) (by decide)

end Turnstile.Text
