import Turnstile.Proofs.Nesting

/-! Texts up to the spacing of their words. A run of blanks counts as one space, so texts
with the same words are the same once the blanks at their ends are gone, and whatever
encloses one of them encloses the other. -/
namespace Turnstile.Text

/-- Every run of blanks becomes one space. -/
def collapse : Text → Text
  | [] => []
  | c :: rest =>
    if !isBlank c then c :: collapse rest
    else if rest.head?.any isBlank then collapse rest
    else ' ' :: collapse rest

/-- A blank counts as a space, and every other character as itself. -/
def asSpace (c : Char) : Char := if isBlank c then ' ' else c

@[simp] theorem isBlank_asSpace (c : Char) : isBlank (asSpace c) = isBlank c := by
  unfold asSpace
  split
  · next blank => rw [blank]; rfl
  · rfl

theorem asSpace_of_solid {c : Char} (solid : isBlank c = false) : asSpace c = c := by
  simp [asSpace, solid]

theorem collapse_solid {c : Char} (solid : isBlank c = false) (rest : Text) :
    collapse (c :: rest) = c :: collapse rest := by
  simp [collapse, solid]

theorem collapse_blank_blank {c d : Char} (first : isBlank c = true) (second : isBlank d = true)
    (rest : Text) : collapse (c :: d :: rest) = collapse (d :: rest) := by
  rw [collapse]
  simp [first, second]

theorem collapse_blank {c : Char} (blank : isBlank c = true) {rest : Text}
    (boundary : ∀ d ∈ rest.head?, isBlank d = false) :
    collapse (c :: rest) = ' ' :: collapse rest := by
  cases rest with
  | nil => simp [collapse, blank]
  | cons d rest => simp [collapse, blank, boundary d rfl]

/-- Follows a text from left to right: a solid character, a blank before another one, and
the last blank of a run. -/
theorem spacing_induction {motive : Text → Prop} (nil : motive [])
    (solid : ∀ c rest, isBlank c = false → motive rest → motive (c :: rest))
    (skip : ∀ c d rest, isBlank c = true → isBlank d = true → motive (d :: rest) →
      motive (c :: d :: rest))
    (space : ∀ c rest, isBlank c = true → (∀ d ∈ rest.head?, isBlank d = false) → motive rest →
      motive (c :: rest))
    (t : Text) : motive t := by
  induction t with
  | nil => exact nil
  | cons c rest ih =>
    by_cases blank : isBlank c = true
    · cases rest with
      | nil => exact space c [] blank (by simp) nil
      | cons d rest =>
        by_cases another : isBlank d = true
        · exact skip c d rest blank another ih
        · exact space c (d :: rest) blank (by simpa using another) ih
    · exact solid c rest (by simpa using blank) ih

theorem head?_collapse (t : Text) : (collapse t).head? = t.head?.map asSpace := by
  induction t using spacing_induction with
  | nil => rfl
  | solid c rest solid => simp [collapse_solid solid, asSpace_of_solid solid]
  | skip c d rest first second ih =>
    simpa [collapse_blank_blank first second, asSpace, first, second] using ih
  | space c rest blank boundary => simp [collapse_blank blank boundary, asSpace, blank]

theorem getLast?_collapse (t : Text) : (collapse t).getLast? = t.getLast?.map asSpace := by
  induction t using spacing_induction with
  | nil => rfl
  | solid c rest solid ih =>
    rw [collapse_solid solid, List.getLast?_cons, List.getLast?_cons, ih]
    cases rest.getLast? <;> simp [asSpace_of_solid solid]
  | skip c d rest first second ih =>
    rw [collapse_blank_blank first second, List.getLast?_cons_cons, ih]
  | space c rest blank boundary ih =>
    rw [collapse_blank blank boundary, List.getLast?_cons, List.getLast?_cons, ih]
    cases rest.getLast? <;> simp [asSpace, blank]

@[simp] theorem collapse_eq_nil_iff {t : Text} : collapse t = [] ↔ t = [] := by
  rw [← List.head?_eq_none_iff, head?_collapse, Option.map_eq_none_iff, List.head?_eq_none_iff]

@[simp] theorem words_collapse (t : Text) : words (collapse t) = words t := by
  induction t using spacing_induction with
  | nil => rfl
  | solid c rest solid ih =>
    have boundary : (collapse rest).head?.all isBlank = rest.head?.all isBlank := by
      rw [head?_collapse]
      cases rest <;> simp
    rw [collapse_solid solid, words, words, boundary, ih]
  | skip c d rest first second ih =>
    rw [collapse_blank_blank first second, words_of_blank (d :: rest) first, ih]
  | space c rest blank boundary ih =>
    rw [collapse_blank blank boundary, words_of_blank _ (by decide), words_of_blank rest blank, ih]

theorem tight_collapse (t : Text) : Tight (collapse t) := by
  induction t using spacing_induction with
  | nil => exact .nil
  | solid c rest solid ih =>
    rw [collapse_solid solid]
    refine List.isChain_cons.mpr ⟨?_, ih⟩
    intro d member blank
    rw [head?_collapse] at member
    obtain ⟨e, _, rfl⟩ := Option.map_eq_some_iff.mp member
    rw [isBlank_asSpace] at blank
    exact ⟨by simp [asSpace, blank], solid⟩
  | skip c d rest first second ih =>
    rw [collapse_blank_blank first second]
    exact ih
  | space c rest blank boundary ih =>
    rw [collapse_blank blank boundary]
    refine List.isChain_cons.mpr ⟨?_, ih⟩
    intro d member another
    rw [head?_collapse] at member
    obtain ⟨e, first, rfl⟩ := Option.map_eq_some_iff.mp member
    rw [isBlank_asSpace, boundary e first] at another
    cases another

theorem Trimmed.head?_collapse {t : Text} (trimmed : Trimmed t) :
    (collapse t).head? = t.head? := by
  rw [Text.head?_collapse]
  cases first : t.head? with
  | none => rfl
  | some c => rw [Option.map_some, asSpace_of_solid (trimmed.start c first)]

theorem Trimmed.getLast?_collapse {t : Text} (trimmed : Trimmed t) :
    (collapse t).getLast? = t.getLast? := by
  rw [Text.getLast?_collapse]
  cases last : t.getLast? with
  | none => rfl
  | some c => rw [Option.map_some, asSpace_of_solid (trimmed.finish c last)]

/-- A text without blanks at its ends becomes its words with single spaces. -/
theorem collapse_of_trimmed {t : Text} (trimmed : Trimmed t) : collapse t = unwords (words t) := by
  have ends : Trimmed (collapse t) :=
    ⟨trimmed.head?_collapse.symm ▸ trimmed.start, trimmed.getLast?_collapse.symm ▸ trimmed.finish⟩
  rw [← words_collapse, unwords_words_of_tight (tight_collapse t) ends]

theorem collapse_unwords_words (t : Text) : collapse (unwords (words t)) = unwords (words t) := by
  have each : ∀ w ∈ words t, IsWord w := fun w => isWord_of_mem_words
  rw [collapse_of_trimmed (tight_unwords each).2, words_unwords each]

theorem collapse_append_solid {c : Char} (solid : isBlank c = false) (s t : Text) :
    collapse (s ++ c :: t) = collapse s ++ collapse (c :: t) := by
  induction s using spacing_induction with
  | nil => rfl
  | solid a rest other ih =>
    rw [List.cons_append, collapse_solid other, collapse_solid other, ih, List.cons_append]
  | skip a b rest first second ih =>
    rw [List.cons_append, List.cons_append, collapse_blank_blank first second,
      collapse_blank_blank first second, ← List.cons_append, ih]
  | space a rest blank boundary ih =>
    have still : ∀ d ∈ (rest ++ c :: t).head?, isBlank d = false := by
      cases rest with
      | nil => simpa using solid
      | cons d rest => simpa using boundary
    rw [List.cons_append, collapse_blank blank still, collapse_blank blank boundary, ih,
      List.cons_append]

theorem collapse_append_left (s t : Text) : collapse s <+: collapse (s ++ t) := by
  induction s using spacing_induction with
  | nil => exact List.nil_prefix
  | solid c rest solid ih =>
    rw [List.cons_append, collapse_solid solid, collapse_solid solid]
    exact (List.prefix_cons_inj c).mpr ih
  | skip c d rest first second ih =>
    rw [List.cons_append, List.cons_append, collapse_blank_blank first second,
      collapse_blank_blank first second]
    exact ih
  | space c rest blank boundary ih =>
    rw [collapse_blank blank boundary]
    cases rest with
    | nil =>
      -- The run may go on after the piece, but its space comes first all the same.
      have first : (collapse (c :: t)).head? = some ' ' := by
        simp [head?_collapse, asSpace, blank]
      obtain ⟨tail, same⟩ := List.head?_eq_some_iff.mp first
      rw [List.singleton_append, same]
      exact ⟨tail, rfl⟩
    | cons d rest =>
      have still : ∀ e ∈ (d :: rest ++ t).head?, isBlank e = false := by simpa using boundary
      rw [List.cons_append, collapse_blank blank still]
      exact (List.prefix_cons_inj ' ').mpr ih

theorem collapse_append_right (s t : Text) : collapse t <:+ collapse (s ++ t) := by
  induction s with
  | nil => exact List.suffix_rfl
  | cons c s ih =>
    refine ih.trans ?_
    rw [List.cons_append, collapse]
    split
    · exact List.suffix_cons _ _
    · split
      · exact List.suffix_rfl
      · exact List.suffix_cons _ _

/-- A piece of a text is a piece of it in this sense too. -/
theorem collapse_infix {s t : Text} (within : s <:+: t) : collapse s <:+: collapse t := by
  obtain ⟨before, after, rfl⟩ := within
  have ends := (collapse_append_right before s).isInfix
  exact ends.trans (collapse_append_left (before ++ s) after).isInfix

@[simp] theorem words_trim (t : Text) : words (trim t) = words t := by
  obtain ⟨_, before, after, left, right, parts⟩ := trim_spec t
  rw [congrArg words parts, List.append_assoc, words_of_blanks left]
  cases after with
  | nil => rw [List.append_nil]
  | cons c after =>
    have none : words after = [] := words_eq_nil fun d member => right d (by simp [member])
    rw [words_append_blank _ _ (right c (by simp)), none, List.append_nil]

/-- Parentheses at the ends of a text stand at its ends whatever the spacing between them. -/
theorem exists_wrap_of_collapse {t u : Text} (trimmed : Trimmed t)
    (image : collapse t = '(' :: (u ++ [')'])) :
    ∃ inside, t = '(' :: (inside ++ [')']) ∧ collapse inside = u := by
  have first : t.head? = some '(' := by
    rw [← trimmed.head?_collapse, image]
    rfl
  have last : t.getLast? = some ')' := by
    rw [← trimmed.getLast?_collapse, image, ← List.cons_append, List.getLast?_concat]
  obtain ⟨rest, rfl⟩ := List.head?_eq_some_iff.mp first
  obtain ⟨front, parts⟩ := List.getLast?_eq_some_iff.mp last
  cases front with
  | nil => cases parts
  | cons c inside =>
    rw [List.cons_append, List.cons.injEq] at parts
    obtain ⟨rfl, rfl⟩ := parts
    rw [collapse_solid (by decide), collapse_append_solid (by decide)] at image
    exact ⟨inside, rfl, List.append_cancel_right (List.tail_eq_of_cons_eq image)⟩

section SameWords

variable {s t : Text} (same : words s = words t)

include same

theorem parens_congr : parens s = parens t := by
  rw [← parens_flatten_words, same, parens_flatten_words]

/-- The parentheses around a text do not depend on its spacing, nor do the words inside. -/
theorem inner?_of_same_words (left : Trimmed s) (right : Trimmed t) {inside : Text}
    (found : inner? s = some inside) :
    ∃ other, inner? t = some other ∧ words inside = words other := by
  obtain ⟨rfl, closed⟩ := inner?_eq_some_iff.mp found
  have image : collapse t = '(' :: (collapse inside ++ [')']) := by
    rw [collapse_of_trimmed right, ← same, ← collapse_of_trimmed left, collapse_solid (by decide),
      collapse_append_solid (by decide)]
    rfl
  obtain ⟨other, rfl, spaced⟩ := exists_wrap_of_collapse right image
  have words : words inside = words other := by
    rw [← words_collapse, ← spaced, words_collapse]
  refine ⟨other, inner?_eq_some_iff.mpr ⟨rfl, ?_⟩, words⟩
  rwa [← depth?_congr (parens_congr words)]

end SameWords

theorem words_strip_congr {s t : Text} (same : words s = words t) :
    words (strip s) = words (strip t) := by
  have trimmed {s t : Text} (same : words s = words t) : words (trim s) = words (trim t) := by
    rw [words_trim, words_trim, same]
  fun_induction strip s generalizing t with
  | case1 s bare =>
    have other : inner? (trim t) = none := by
      rw [Option.eq_none_iff_forall_ne_some]
      intro inside found
      obtain ⟨_, enclosed, _⟩ := inner?_of_same_words (trimmed same.symm) (trim_spec t).1
        (trim_spec s).1 found
      rw [bare] at enclosed
      cases enclosed
    rw [strip_of_none other]
    exact trimmed same
  | case2 s inside found ih =>
    obtain ⟨other, enclosed, words⟩ := inner?_of_same_words (trimmed same) (trim_spec s).1
      (trim_spec t).1 found
    rw [strip_of_some enclosed]
    exact ih words

/-- Nothing is left of a text if and only if no word is left. -/
theorem strip_eq_nil_iff {t : Text} : strip t = [] ↔ words (strip t) = [] := by
  constructor
  · intro none
    rw [none]
    rfl
  · intro none
    rw [← collapse_eq_nil_iff, collapse_of_trimmed (strip_spec t).1, none]
    rfl

end Turnstile.Text
