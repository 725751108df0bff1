import Mathlib.Logic.Function.Iterate
import Mathlib.Logic.Relation
import Turnstile.Proofs.Enclosure

/-! What encloses a text, taken away one blank or one pair of parentheses at a time. No step changes
what the text is stripped to, so all orders end at the same text. One of them is the loop that
trims and unwraps the text until a round leaves it as it is. -/
namespace Turnstile.Text

open Relation (ReflTransGen)

/-- One blank at an end is taken away, or one pair around the whole. -/
inductive Sheds : Text → Text → Prop where
  | front {c : Char} (blank : isBlank c = true) (t : Text) : Sheds (c :: t) t
  | back {c : Char} (blank : isBlank c = true) (t : Text) : Sheds (t ++ [c]) t
  | pair {t : Text} (closed : (depth? 0 t).isSome) : Sheds ('(' :: (t ++ [')'])) t

/-- No parenthesis closes more than was opened exactly if no beginning of the text does. -/
theorem isSome_depth?_iff {d : Nat} {t : Text} :
    (depth? d t).isSome ↔ ∀ s, s <+: t → 0 ≤ d + balance s := by
  constructor
  · rintro closed s ⟨rest, rfl⟩
    rw [depth?_append] at closed
    obtain ⟨e, reached⟩ := Option.isSome_iff_exists.mp (Option.isSome_of_isSome_bind closed)
    have ends := balance_of_depth? reached
    omega
  · intro nonneg
    induction t generalizing d with
    | nil => rfl
    | cons c rest ih =>
      have later (e : Nat) (moved : ∀ s, (e : Int) + balance s = d + balance (c :: s)) :
          (depth? e rest).isSome := by
        apply ih
        intro s starts
        rw [moved]
        exact nonneg _ ((List.prefix_cons_inj c).mpr starts)
      by_cases opens : c = '('
      · subst opens
        exact later (d + 1) fun s => by rw [balance_open]; push_cast; omega
      · by_cases closes : c = ')'
        · subst closes
          have first := nonneg [')'] (List.prefix_append [')'] rest)
          have drop : balance [')'] = -1 := rfl
          obtain ⟨e, rfl⟩ : ∃ e, d = e + 1 := ⟨d - 1, by omega⟩
          refine later e fun s => ?_
          have step : balance (')' :: s) = balance s - 1 := rfl
          rw [step]
          push_cast
          omega
        · have kept (s : Text) : balance (c :: s) = balance s := by simp [balance, opens, closes]
          simpa [depth?, opens, closes] using later d fun s => by rw [kept]

theorem strip_of_sheds {t s : Text} (step : Sheds t s) : strip t = strip s := by
  have none : ∀ c ∈ ([] : Text), isBlank c = true := by simp
  cases step with
  | @front c blank =>
    have blanks : ∀ d ∈ [c], isBlank d = true := by simpa using blank
    simpa using strip_blanks blanks none s
  | @back c blank =>
    have blanks : ∀ d ∈ [c], isBlank d = true := by simpa using blank
    simpa using strip_blanks none blanks s
  | pair closed => exact strip_pair closed

theorem strip_of_reaches {t s : Text} (steps : ReflTransGen Sheds t s) : strip t = strip s := by
  induction steps with
  | refl => rfl
  | tail _ step ih => exact ih.trans (strip_of_sheds step)

theorem reaches_blanks {before after : Text} (left : ∀ c ∈ before, isBlank c = true)
    (right : ∀ c ∈ after, isBlank c = true) (t : Text) :
    ReflTransGen Sheds (before ++ t ++ after) t := by
  have last : ReflTransGen Sheds (t ++ after) t := by
    induction after using List.reverseRecOn with
    | nil => rw [List.append_nil]
    | append_singleton after c ih =>
      rw [← List.append_assoc]
      refine .head (.back (right c (by simp)) _) (ih fun d member => right d ?_)
      exact List.mem_append_left _ member
  rw [List.append_assoc]
  induction before with
  | nil => exact last
  | cons c before ih =>
    refine .head (.front (left c List.mem_cons_self) _) (ih fun d member => left d ?_)
    exact List.mem_cons_of_mem c member

theorem reaches_trim (t : Text) : ReflTransGen Sheds t (trim t) := by
  obtain ⟨_, before, after, left, right, parts⟩ := trim_spec t
  conv => arg 2; rw [parts]
  exact reaches_blanks left right (trim t)

theorem sheds_of_inner? {t inside : Text} (found : inner? t = some inside) : Sheds t inside := by
  obtain ⟨rfl, closed⟩ := inner?_eq_some_iff.mp found
  exact .pair closed

theorem reaches_unwrap (t : Text) : ReflTransGen Sheds t (unwrap t) := by
  fun_induction unwrap t with
  | case1 t bare => exact .refl
  | case2 t inside found ih => exact .head (sheds_of_inner? found) ih

theorem reaches_strip (t : Text) : ReflTransGen Sheds t (strip t) := by
  fun_induction strip t with
  | case1 t bare => exact reaches_trim t
  | case2 t inside found ih => exact (reaches_trim t).trans (.head (sheds_of_inner? found) ih)

/-- As many parentheses are taken away in front as at the end, and else only blanks. -/
theorem exists_surroundings {t s : Text} (steps : ReflTransGen Sheds t s) :
    ∃ left right, t = left ++ s ++ right ∧ (∀ c ∈ left, isBlank c = true ∨ c = '(') ∧
      (∀ c ∈ right, isBlank c = true ∨ c = ')') ∧ List.count '(' left = List.count ')' right := by
  induction steps using ReflTransGen.head_induction_on with
  | refl => exact ⟨[], [], by simp, by simp, by simp, rfl⟩
  | head step _ ih =>
    obtain ⟨left, right, rfl, opening, closing, even⟩ := ih
    cases step with
    | @front c blank =>
      have other : c ≠ '(' := by rintro rfl; exact absurd blank (by decide)
      exact ⟨c :: left, right, rfl, by simpa [blank] using opening, closing,
        by rw [List.count_cons_of_ne other, even]⟩
    | @back c blank =>
      have other : c ≠ ')' := by rintro rfl; exact absurd blank (by decide)
      refine ⟨left, right ++ [c], by simp, opening, ?_, ?_⟩
      · simpa [or_imp, forall_and, blank] using closing
      · simp [even, other]
    | pair closed =>
      refine ⟨'(' :: left, right ++ [')'], by simp, by simpa using opening, ?_, by simp [even]⟩
      simpa [or_imp, forall_and] using closing

theorem trimmed_of_trim {t : Text} (same : trim t = t) : Trimmed t :=
  same ▸ (trim_spec t).1

theorem inner?_of_unwrap {t : Text} (same : unwrap t = t) : inner? t = none :=
  same ▸ inner?_unwrap t

/-- Where nothing more can be taken away, all orders have come to the same text. -/
theorem eq_strip_of_reaches {t r : Text} (steps : ReflTransGen Sheds t r) (trimmed : trim r = r)
    (bare : unwrap r = r) : r = strip t := by
  rw [strip_of_reaches steps, strip_eq_self (trimmed_of_trim trimmed) (inner?_of_unwrap bare)]

/-- One round of taking away what encloses a text: its parentheses, then the blanks. -/
def peel (t : Text) : Text := trim (unwrap t)

/-- Whatever is taken away is at least a pair. -/
theorem length_unwrap {t : Text} (wrapped : unwrap t ≠ t) : (unwrap t).length + 2 ≤ t.length := by
  obtain ⟨pairs, same, _⟩ := exists_enclose_unwrap t
  cases pairs with
  | zero =>
    rw [enclose_zero] at same
    exact absurd same.symm wrapped
  | succ pairs =>
    have whole := congrArg List.length same
    rw [length_enclose] at whole
    omega

theorem peel_strip (t : Text) : peel (strip t) = strip t := by
  obtain ⟨trimmed, bare, _⟩ := strip_spec t
  rw [peel, unwrap_of_none bare, trim_eq_self trimmed]

/-- The rounds go on as long as they change the text, and then it is stripped. -/
theorem exists_rounds (t : Text) :
    ∃ rounds, 2 * rounds ≤ t.length ∧ peel^[rounds] (trim t) = strip t ∧
      ∀ k < rounds, peel (peel^[k] (trim t)) ≠ peel^[k] (trim t) := by
  induction size : t.length using Nat.strong_induction_on generalizing t with
  | _ n ih =>
    subst size
    by_cases bare : unwrap (trim t) = trim t
    · have trimmed : trim (trim t) = trim t := trim_eq_self (trim_spec t).1
      exact ⟨0, by simp, eq_strip_of_reaches (reaches_trim t) trimmed bare, by simp⟩
    · have pair := length_unwrap bare
      have blanks := length_trim_le t
      obtain ⟨rounds, bound, ends, changes⟩ := ih _ (by omega) (unwrap (trim t)) rfl
      refine ⟨rounds + 1, by omega, ?_, ?_⟩
      · rw [Function.iterate_succ_apply, peel, ends]
        exact (strip_of_reaches ((reaches_trim t).trans (reaches_unwrap _))).symm
      · intro k less
        cases k with
        | zero =>
          intro stable
          have shorter : (peel (trim t)).length ≤ (unwrap (trim t)).length := length_trim_le _
          rw [Function.iterate_zero_apply] at stable
          rw [stable] at shorter
          omega
        | succ k =>
          rw [Function.iterate_succ_apply, peel]
          exact changes k (Nat.lt_of_succ_lt_succ less)

/-- What is left of a text is what the rounds come to, and one more changes nothing. -/
theorem exists_iterate_peel (t : Text) :
    (∃ rounds, peel^[rounds] (trim t) = strip t) ∧ peel (strip t) = strip t := by
  obtain ⟨rounds, _, ends, _⟩ := exists_rounds t
  exact ⟨⟨rounds, ends⟩, peel_strip t⟩

/-- Trimming and unwrapping in rounds ends, and ends at the one text that can be reached by taking
blanks and pairs away and has nothing around it. A pair more around the text does not change that,
nor do blanks around the pair. -/
theorem strip_unique_fixed_point (t : Text) :
    (∃ rounds, 2 * rounds ≤ t.length ∧ peel^[rounds] (trim t) = strip t ∧
      peel (strip t) = strip t ∧ ∀ k < rounds, peel (peel^[k] (trim t)) ≠ peel^[k] (trim t)) ∧
    trim (strip t) = strip t ∧ unwrap (strip t) = strip t ∧
    strip (strip t) = strip t ∧ unwrap (unwrap t) = unwrap t ∧
    (∃ left right, t = left ++ strip t ++ right ∧ (∀ c ∈ left, isBlank c = true ∨ c = '(') ∧
      (∀ c ∈ right, isBlank c = true ∨ c = ')') ∧
      List.count '(' left = List.count ')' right) ∧
    ReflTransGen Sheds t (strip t) ∧
    (∀ r, ReflTransGen Sheds t r → trim r = r → unwrap r = r → r = strip t) ∧
    ∀ before after : Text, (∀ c ∈ before, isBlank c = true) → (∀ c ∈ after, isBlank c = true) →
      (∀ s, s <+: t → 0 ≤ balance s) →
      strip (before ++ '(' :: (t ++ [')']) ++ after) = strip t := by
  obtain ⟨trimmed, bare, _⟩ := strip_spec t
  refine ⟨?_, trim_eq_self trimmed, unwrap_of_none bare, strip_strip t,
    unwrap_of_none (inner?_unwrap t), exists_surroundings (reaches_strip t), reaches_strip t,
    fun r => eq_strip_of_reaches, ?_⟩
  · obtain ⟨rounds, bound, ends, changes⟩ := exists_rounds t
    exact ⟨rounds, bound, ends, peel_strip t, changes⟩
  · intro before after left right nonneg
    rw [strip_blanks left right, strip_pair (isSome_depth?_iff.mpr (by simpa using nonneg))]

/-- What stays open does no harm, and one of the blanks comes off only after a pair. -/
theorem strip_unique_fixed_point_open :
    let t := "( (a )".toList
    ReflTransGen Sheds t "(a".toList ∧ strip t = "(a".toList ∧
      strip ("\t".toList ++ '(' :: (t ++ [')']) ++ "  ".toList) = "(a".toList := by
  intro t
  have steps : ReflTransGen Sheds t "(a".toList := by
    have first : Sheds t " (a ".toList := .pair (t := " (a ".toList) rfl
    have second : Sheds " (a ".toList "(a ".toList := .front rfl _
    have third : Sheds "(a ".toList "(a".toList := .back (c := ' ') rfl "(a".toList
    exact .head first (.head second (.single third))
  obtain ⟨_, _, _, _, _, _, _, unique, inside⟩ := strip_unique_fixed_point t
  have same : "(a".toList = strip t := unique _ steps rfl (unwrap_of_none rfl)
  refine ⟨steps, same.symm, ?_⟩
  have closed : (depth? 0 t).isSome := rfl
  have nonneg : ∀ s, s <+: t → 0 ≤ balance s := by simpa using isSome_depth?_iff.mp closed
  rw [inside "\t".toList "  ".toList (by simp [isBlank]) (by simp [isBlank]) nonneg, ← same]

end Turnstile.Text
