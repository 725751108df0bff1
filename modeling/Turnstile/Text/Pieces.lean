import Turnstile.Text.Basic

/-! Occurrences of one text in another: cutting at the first, splitting at all,
counting and replacing. Occurrences are taken from left to right and do not
overlap. An empty text occurs nowhere. -/
namespace Turnstile.Text

/-- What stands before and after the first occurrence of `mark`. -/
def cut? (mark t : Text) : Option (Text × Text) :=
  if !mark.isEmpty && mark.isPrefixOf t then some ([], t.drop mark.length)
  else match t with
    | [] => none
    | c :: rest => (cut? mark rest).map fun (before, after) => (c :: before, after)

theorem eq_of_cut? {mark t before after : Text} (found : cut? mark t = some (before, after)) :
    mark ≠ [] ∧ t = before ++ mark ++ after := by
  induction t generalizing before with
  | nil =>
    unfold cut? at found
    split at found
    · next occurs => cases mark <;> simp at occurs
    · simp at found
  | cons c rest ih =>
    unfold cut? at found
    split at found
    · next occurs =>
      simp only [Bool.and_eq_true, Bool.not_eq_true', List.isEmpty_eq_false_iff,
        List.isPrefixOf_iff_prefix] at occurs
      obtain ⟨proper, tail, same⟩ := occurs
      simp only [Option.some.injEq, Prod.mk.injEq] at found
      obtain ⟨rfl, rfl⟩ := found
      exact ⟨proper, by simp [← same]⟩
    · obtain ⟨⟨head, tail⟩, inside, same⟩ := Option.map_eq_some_iff.mp found
      simp only [Prod.mk.injEq] at same
      obtain ⟨rfl, rfl⟩ := same
      exact ⟨(ih inside).1, by simp [(ih inside).2]⟩

theorem length_after_lt {mark t before after : Text} (found : cut? mark t = some (before, after)) :
    after.length < t.length := by
  obtain ⟨proper, parts⟩ := eq_of_cut? found
  have positive := List.length_pos_iff.mpr proper
  simp only [parts, List.length_append]
  omega

/-- The pieces between the occurrences of `mark`, always at least one. -/
def split (mark t : Text) : List Text :=
  match _found : cut? mark t with
  | none => [t]
  | some (before, after) => before :: split mark after
termination_by t.length
decreasing_by exact length_after_lt ‹_›

def count (mark t : Text) : Nat :=
  match _found : cut? mark t with
  | none => 0
  | some (_, after) => count mark after + 1
termination_by t.length
decreasing_by exact length_after_lt ‹_›

/-- Puts `new` in the place of every occurrence of `mark`. -/
def replace (mark new t : Text) : Text :=
  match _found : cut? mark t with
  | none => t
  | some (before, after) => before ++ new ++ replace mark new after
termination_by t.length
decreasing_by exact length_after_lt ‹_›

/-- The parts in order with `mark` between neighbours. -/
def join (mark : Text) (parts : List Text) : Text := mark.intercalate parts

theorem split_of_none {mark t : Text} (absent : cut? mark t = none) : split mark t = [t] := by
  rw [split]
  split
  · rfl
  · next found => rw [absent] at found; cases found

theorem split_of_some {mark t before after : Text} (present : cut? mark t = some (before, after)) :
    split mark t = before :: split mark after := by
  rw [split]
  split
  · next found => rw [present] at found; cases found
  · next found => rw [present] at found; cases found; rfl

theorem count_of_none {mark t : Text} (absent : cut? mark t = none) : count mark t = 0 := by
  rw [count]
  split
  · rfl
  · next found => rw [absent] at found; cases found

theorem count_of_some {mark t before after : Text} (present : cut? mark t = some (before, after)) :
    count mark t = count mark after + 1 := by
  rw [count]
  split
  · next found => rw [present] at found; cases found
  · next found => rw [present] at found; cases found; rfl

theorem replace_of_none {mark new t : Text} (absent : cut? mark t = none) :
    replace mark new t = t := by
  rw [replace]
  split
  · rfl
  · next found => rw [absent] at found; cases found

theorem replace_of_some {mark new t before after : Text}
    (present : cut? mark t = some (before, after)) :
    replace mark new t = before ++ new ++ replace mark new after := by
  rw [replace]
  split
  · next found => rw [present] at found; cases found
  · next found => rw [present] at found; cases found; rfl

end Turnstile.Text
