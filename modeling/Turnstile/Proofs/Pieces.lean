import Turnstile.Proofs.Listing

/-! Splitting, joining and counting take the same occurrences of a mark. The pieces of a text are
determined by what they are: the text comes together from them around the mark, and no mark begins
before the one that ends a piece. So a text with one turnstile has two sides. -/
namespace Turnstile

namespace Text

variable {mark t : Text}

/-- No mark stands in a piece, nor begins in one that the next mark follows. -/
def Separated (mark : Text) : List Text → Prop
  | [] => False
  | [piece] => ¬mark <:+: piece
  | piece :: rest => ¬mark <:+: piece ++ mark.dropLast ∧ Separated mark rest

theorem separated_cons {piece : Text} {rest : List Text} (more : rest ≠ []) :
    Separated mark (piece :: rest) ↔
      ¬mark <:+: piece ++ mark.dropLast ∧ Separated mark rest := by
  cases rest with
  | nil => exact absurd rfl more
  | cons next rest => rfl

theorem separated_split (proper : mark ≠ []) : Separated mark (split mark t) := by
  fun_induction split mark t with
  | case1 t absent => exact (cut?_eq_none_iff proper).mp absent
  | case2 t before after found ih =>
    exact (separated_cons (split_ne_nil mark after)).mpr ⟨not_infix_dropLast_of_cut? found, ih⟩

theorem split_join (proper : mark ≠ []) {pieces : List Text} (separated : Separated mark pieces) :
    split mark (join mark pieces) = pieces := by
  induction pieces with
  | nil => exact separated.elim
  | cons piece rest ih =>
    by_cases last : rest = []
    · subst last
      rw [join_singleton]
      exact split_of_not_infix proper separated
    · obtain ⟨absent, others⟩ := (separated_cons last).mp separated
      rw [join_cons mark piece last, split_of_some (cut?_append proper absent _), ih others]

theorem length_split (mark t : Text) : (split mark t).length = count mark t + 1 := by
  fun_induction split mark t with
  | case1 t absent => rw [count_of_none absent, List.length_singleton]
  | case2 t before after found ih => rw [count_of_some found, List.length_cons, ih]

theorem split_nil (t : Text) : split [] t = [t] := by
  apply split_of_none
  rw [Option.eq_none_iff_forall_ne_some]
  intro parts found
  exact (eq_of_cut? found).1 rfl

end Text

namespace Sequent

/-- The two sides of a text with one turnstile. -/
theorem exists_sides {t : Text} (once : Text.count turnstile t = 1) :
    ∃ left right, Text.split turnstile t = [left, right] ∧ t = left ++ turnstile ++ right := by
  have two : (Text.split turnstile t).length = 2 := by rw [Text.length_split, once]
  obtain ⟨left, right, sides⟩ := List.length_eq_two.mp two
  refine ⟨left, right, sides, ?_⟩
  rw [← Text.join_split turnstile t, sides, Text.join_cons turnstile left (by simp),
    Text.join_singleton]

theorem member_of_parse_error {t left right : Text} {fault : Fault}
    (sides : Text.split turnstile t = [left, right]) (failed : parse t = .error fault) :
    ∃ f, fault = .member f ∧ (parseMembers left = .error f ∨ parseMembers right = .error f) := by
  rw [parse, sides] at failed
  dsimp only at failed
  cases first : parseMembers left with
  | error f =>
    rw [first] at failed
    cases failed
    exact ⟨f, rfl, .inl rfl⟩
  | ok antecedent =>
    cases second : parseMembers right with
    | error f =>
      rw [first, second] at failed
      cases failed
      exact ⟨f, rfl, .inr rfl⟩
    | ok consequent =>
      rw [first, second] at failed
      cases failed

theorem parse_of_count_ne_one {t : Text} (other : Text.count turnstile t ≠ 1) :
    parse t = .error (.turnstiles t (Text.count turnstile t)) := by
  unfold parse
  split
  · next left right sides =>
    have pieces := Text.length_split turnstile t
    rw [sides] at pieces
    exact absurd (Nat.succ.inj pieces).symm other
  · rfl

end Sequent

/-- A text is made up of its pieces, which are one more than the occurrences of the mark and have
no mark in them, and no other list is separated like this. A replacement joins the same pieces.
A sequent is read from exactly two sides if its text has one turnstile, and refused otherwise. -/
theorem split_join_count_agree (t : Text) :
    (∀ mark : Text, mark ≠ [] →
      Text.join mark (Text.split mark t) = t ∧
      (Text.split mark t).length = Text.count mark t + 1 ∧
      (∀ piece ∈ Text.split mark t, ¬mark <:+: piece) ∧
      ∀ pieces, Text.split mark t = pieces ↔
        Text.join mark pieces = t ∧ Text.Separated mark pieces) ∧
    Text.split [] t = [t] ∧
    (Text.count Sequent.turnstile t = 1 → ∃ left right,
      Text.split Sequent.turnstile t = [left, right] ∧ t = left ++ Sequent.turnstile ++ right ∧
      (∀ s, Sequent.parse t = .ok s ↔ Sequent.parseMembers left = .ok s.antecedent ∧
        Sequent.parseMembers right = .ok s.consequent) ∧
      ∀ fault, Sequent.parse t = .error fault → ∃ f, fault = .member f ∧
        (Sequent.parseMembers left = .error f ∨ Sequent.parseMembers right = .error f)) ∧
    (Text.count Sequent.turnstile t ≠ 1 →
      Sequent.parse t = .error (.turnstiles t (Text.count Sequent.turnstile t))) ∧
    ∀ old new, Text.replacePlaceholder old new t =
      Text.join (Text.placeholder new) (Text.split (Text.placeholder old) t) := by
  refine ⟨?_, Text.split_nil t, ?_, Sequent.parse_of_count_ne_one,
    fun old new => Text.replace_eq_join _ _ t⟩
  · intro mark proper
    refine ⟨Text.join_split mark t, Text.length_split mark t,
      fun piece member => (Text.mem_split proper member).2, fun pieces => ⟨?_, ?_⟩⟩
    · rintro rfl
      exact ⟨Text.join_split mark t, Text.separated_split proper⟩
    · rintro ⟨rfl, separated⟩
      exact Text.split_join proper separated
  · intro once
    obtain ⟨left, right, sides, whole⟩ := Sequent.exists_sides once
    refine ⟨left, right, sides, whole, ?_, fun fault => Sequent.member_of_parse_error sides⟩
    intro s
    rw [Sequent.parse_eq_ok_iff, sides]
    simp

/-- The mark overlaps itself: its first occurrence counts, and the one in the middle does not.
Next to it two turnstiles are one too many. -/
theorem split_join_count_agree_overlapping :
    let t := "ababa |~ c".toList
    Text.split "aba".toList t = [[], "ba |~ c".toList] ∧ Text.count "aba".toList t = 1 ∧
      Text.join "aba".toList ["ab".toList, " |~ c".toList] = t ∧
      ¬Text.Separated "aba".toList ["ab".toList, " |~ c".toList] ∧
      Sequent.parse t = .ok ⟨[.atom "ababa".toList], [.atom ['c']]⟩ ∧
      Sequent.parse "|~|~".toList = .error (.turnstiles "|~|~".toList 2) := by
  intro t
  have pieces : Text.split "aba".toList t = [[], "ba |~ c".toList] := by decide +kernel
  have sides : Text.split Sequent.turnstile t = ["ababa ".toList, " c".toList] := by decide +kernel
  have once : Text.count Sequent.turnstile t = 1 := by decide +kernel
  have twice : Text.count Sequent.turnstile "|~|~".toList = 2 := by decide +kernel
  obtain ⟨cuts, _, one, _, _⟩ := split_join_count_agree t
  obtain ⟨_, size, _, unique⟩ := cuts "aba".toList (by decide)
  obtain ⟨left, right, same, _, read, _⟩ := one once
  obtain ⟨_, _, _, refused, _⟩ := split_join_count_agree "|~|~".toList
  have joined : Text.join "aba".toList ["ab".toList, " |~ c".toList] = t := by decide
  refine ⟨pieces, ?_, joined, ?_, ?_, ?_⟩
  · rw [pieces] at size
    exact (Nat.succ.inj size).symm
  · intro separated
    have other := (unique _).mpr ⟨joined, separated⟩
    rw [pieces] at other
    exact absurd other (by decide)
  · cases sides.symm.trans same
    exact (read _).mpr ⟨by decide +kernel, by decide +kernel⟩
  · rw [refused (by rw [twice]; decide), twice]

end Turnstile
