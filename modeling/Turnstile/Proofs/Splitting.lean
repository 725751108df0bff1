import Mathlib.Data.List.Infix
import Turnstile.Text.Pieces

/-! Cutting a text at the occurrences of a mark. The pieces have no mark left in them, and
texts without it that were put together around it come apart again. Put together around the
mark, the pieces make up the text, and around another one they make up its replacement. -/
namespace Turnstile.Text

variable {mark t : Text}

theorem cut?_append_self (proper : mark ≠ []) (rest : Text) :
    cut? mark (mark ++ rest) = some ([], rest) := by
  rw [cut?.eq_def]
  simp [proper]

theorem cut?_cons {c : Char} {rest : Text} (absent : ¬mark <+: c :: rest) :
    cut? mark (c :: rest) = (cut? mark rest).map fun (before, after) => (c :: before, after) := by
  rw [cut?.eq_def]
  simp [absent]

theorem cut?_eq_none_iff (proper : mark ≠ []) : cut? mark t = none ↔ ¬mark <:+: t := by
  induction t with
  | nil => simp [cut?, proper]
  | cons c rest ih =>
    by_cases starts : mark <+: c :: rest
    · obtain ⟨tail, same⟩ := starts
      rw [← same, cut?_append_self proper]
      simpa using List.infix_append [] mark tail
    · rw [cut?_cons starts, Option.map_eq_none_iff, ih, List.infix_cons_iff, or_iff_right starts]

/-- The cut is at the first occurrence, counting those that overlap it. -/
theorem not_infix_dropLast_of_cut? {before after : Text}
    (found : cut? mark t = some (before, after)) : ¬mark <:+: before ++ mark.dropLast := by
  have proper := (eq_of_cut? found).1
  induction t generalizing before with
  | nil => simp [cut?, proper] at found
  | cons c rest ih =>
    by_cases starts : mark <+: c :: rest
    · obtain ⟨tail, same⟩ := starts
      rw [← same, cut?_append_self proper] at found
      cases found
      intro within
      have short := within.length_le
      have positive := List.length_pos_iff.mpr proper
      rw [List.nil_append, List.length_dropLast] at short
      omega
    · rw [cut?_cons starts] at found
      obtain ⟨⟨head, tail⟩, inside, same⟩ := Option.map_eq_some_iff.mp found
      cases same
      have parts := (eq_of_cut? inside).2
      rw [List.cons_append, List.infix_cons_iff, not_or]
      refine ⟨fun early => starts (early.trans ?_), ih inside⟩
      rw [parts, List.append_assoc]
      exact (List.prefix_append_right_inj (c :: head)).mpr
        ((List.dropLast_prefix mark).trans (List.prefix_append mark after))

theorem not_infix_of_cut? {before after : Text} (found : cut? mark t = some (before, after)) :
    ¬mark <:+: before := by
  intro within
  exact not_infix_dropLast_of_cut? found (within.trans (List.prefix_append _ _).isInfix)

/-- A mark is found where it was put, unless an earlier one came about with part of it. -/
theorem cut?_append {before : Text} (proper : mark ≠ [])
    (absent : ¬mark <:+: before ++ mark.dropLast) (after : Text) :
    cut? mark (before ++ mark ++ after) = some (before, after) := by
  induction before with
  | nil => exact cut?_append_self proper after
  | cons c before ih =>
    have early : ¬mark <+: c :: (before ++ mark ++ after) := by
      intro starts
      -- A mark that starts here ends before the last character of the one that was put.
      have front : c :: before ++ mark.dropLast <+: c :: before ++ mark ++ after := by
        rw [List.append_assoc]
        exact (List.prefix_append_right_inj _).mpr
          ((List.dropLast_prefix mark).trans (List.prefix_append mark after))
      have long : mark.length ≤ (c :: before ++ mark.dropLast).length := by
        simp only [List.length_append, List.length_cons, List.length_dropLast]
        omega
      exact absent (List.prefix_of_prefix_length_le starts front long).isInfix
    have later : ¬mark <:+: before ++ mark.dropLast := by
      intro within
      exact absent (within.trans (List.suffix_cons c _).isInfix)
    rw [List.cons_append, List.cons_append, cut?_cons early, ih later]
    rfl

theorem split_of_not_infix (proper : mark ≠ []) (absent : ¬mark <:+: t) : split mark t = [t] :=
  split_of_none ((cut?_eq_none_iff proper).mpr absent)

theorem mem_split (proper : mark ≠ []) {piece : Text} (member : piece ∈ split mark t) :
    piece <:+: t ∧ ¬mark <:+: piece := by
  fun_induction split mark t with
  | case1 t absent =>
    obtain rfl := List.mem_singleton.mp member
    exact ⟨List.infix_rfl, (cut?_eq_none_iff proper).mp absent⟩
  | case2 t before after found ih =>
    have parts := (eq_of_cut? found).2
    rcases List.mem_cons.mp member with rfl | later
    · refine ⟨?_, not_infix_of_cut? found⟩
      rw [parts, List.append_assoc]
      exact (List.prefix_append _ _).isInfix
    · obtain ⟨within, absent⟩ := ih later
      refine ⟨within.trans ?_, absent⟩
      rw [parts]
      exact (List.suffix_append _ _).isInfix

theorem split_ne_nil (mark t : Text) : split mark t ≠ [] := by
  cases found : cut? mark t with
  | none => simp [split_of_none found]
  | some parts => simp [split_of_some found]

theorem join_cons (mark part : Text) {rest : List Text} (more : rest ≠ []) :
    join mark (part :: rest) = part ++ mark ++ join mark rest := by
  simp [join, List.intercalate_cons_of_ne_nil more]

@[simp] theorem join_singleton (mark part : Text) : join mark [part] = part :=
  List.intercalate_singleton

/-- The pieces around the occurrences of a mark make up the text again. -/
theorem join_split (mark t : Text) : join mark (split mark t) = t := by
  fun_induction split mark t with
  | case1 t absent => exact join_singleton mark t
  | case2 t before after found ih =>
    rw [join_cons mark before (split_ne_nil mark after), ih, (eq_of_cut? found).2]

/-- A replacement keeps the pieces around the occurrences of the mark. -/
theorem replace_eq_join (mark new t : Text) : replace mark new t = join new (split mark t) := by
  fun_induction split mark t with
  | case1 t absent => rw [replace_of_none absent, join_singleton]
  | case2 t before after found ih =>
    rw [replace_of_some found, ih, join_cons new before (split_ne_nil mark after)]

end Turnstile.Text
