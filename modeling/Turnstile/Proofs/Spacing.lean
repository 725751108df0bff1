import Mathlib.Data.List.Chain
import Mathlib.Data.List.TakeWhile
import Turnstile.Text.Basic

/-! Words and the blanks around them. A text whose words are set with single spaces is
determined by its words, and every piece of it has that property again once the
blanks at its ends are gone. -/
namespace Turnstile.Text

structure IsWord (w : Text) : Prop where
  proper : w ≠ []
  solid : ∀ c ∈ w, isBlank c = false

/-- A class of characters that has none of the six blanks has solid characters only. -/
theorem isBlank_eq_false {p : Char → Bool} {c : Char}
    (none : [' ', '\t', '\n', '\x0b', '\x0c', '\r'].any p = false) (inside : p c = true) :
    isBlank c = false := by
  rw [← Bool.not_eq_true]
  intro blank
  have among : c ∈ [' ', '\t', '\n', '\x0b', '\x0c', '\r'] := by
    simpa [isBlank, or_assoc] using blank
  exact Bool.false_ne_true (none.symm.trans (List.any_eq_true.mpr ⟨c, among, inside⟩))

theorem isBlank_of_isLetter {c : Char} (letter : isLetter c = true) : isBlank c = false :=
  isBlank_eq_false (by decide) letter

theorem solid_of_all {w : Text} (all : w.all (!isBlank ·) = true) : ∀ c ∈ w, isBlank c = false := by
  simpa using all

theorem exists_words_of_head {c : Char} (rest : Text) (solid : isBlank c = false) :
    ∃ w ws, words (c :: rest) = (c :: w) :: ws := by
  simp only [words, solid, Bool.false_eq_true, if_false]
  split
  · exact ⟨[], words rest, rfl⟩
  · cases found : words rest with
    | nil => exact ⟨[], [], rfl⟩
    | cons w ws => exact ⟨w, ws, rfl⟩

/-- A blank separates the words before it from those after it. -/
theorem words_append_blank {c : Char} (s t : Text) (blank : isBlank c = true) :
    words (s ++ c :: t) = words s ++ words t := by
  induction s with
  | nil => exact words_of_blank t blank
  | cons a s ih =>
    by_cases other : isBlank a = true
    · rw [List.cons_append, words_of_blank _ other, words_of_blank _ other, ih]
    · rw [Bool.not_eq_true] at other
      cases s with
      | nil => simp [words, other, blank]
      | cons b s =>
        have same : (b :: s ++ c :: t).head? = (b :: s).head? := rfl
        rw [List.cons_append, words, words, same, ih]
        simp only [other, Bool.false_eq_true, if_false]
        split
        · rfl
        · next boundary =>
          obtain ⟨w, ws, found⟩ := exists_words_of_head s (c := b) (by simpa using boundary)
          rw [found]
          rfl

theorem words_of_blanks {t : Text} (blanks : ∀ c ∈ t, isBlank c = true) (rest : Text) :
    words (t ++ rest) = words rest := by
  induction t with
  | nil => rfl
  | cons c t ih =>
    rw [List.cons_append, words_of_blank _ (blanks c (by simp)),
      ih fun d member => blanks d (by simp [member])]

theorem words_eq_nil {t : Text} (blanks : ∀ c ∈ t, isBlank c = true) : words t = [] := by
  simpa using words_of_blanks blanks []

theorem words_of_isWord {w : Text} (word : IsWord w) : words w = [w] := by
  obtain ⟨proper, solid⟩ := word
  induction w with
  | nil => exact absurd rfl proper
  | cons c w ih =>
    have first : isBlank c = false := solid c (by simp)
    cases w with
    | nil => simp [words, first]
    | cons d w =>
      have second : isBlank d = false := solid d (by simp)
      have rest := ih (by simp) fun e member => solid e (by simp [member])
      rw [words, rest]
      simp [first, second, glue]

/-- A run of characters without a blank is a word as far as a blank, or the end. -/
theorem words_append_of_isWord {w rest : Text} (word : IsWord w)
    (boundary : rest.head?.all isBlank = true) : words (w ++ rest) = w :: words rest := by
  cases rest with
  | nil => simp [words_of_isWord word]
  | cons c rest =>
    have blank : isBlank c = true := by simpa using boundary
    rw [words_append_blank w rest blank, words_of_isWord word, words_of_blank rest blank]
    rfl

/-- The characters of a text as far as its first blank. -/
theorem exists_boundary (t : Text) :
    ∃ w rest, t = w ++ rest ∧ (∀ c ∈ w, isBlank c = false) ∧ rest.head?.all isBlank = true := by
  refine ⟨t.takeWhile (!isBlank ·), t.dropWhile (!isBlank ·),
    List.takeWhile_append_dropWhile.symm, ?_, ?_⟩
  · intro c member
    simpa using List.mem_takeWhile_imp member
  · have stop := List.head?_dropWhile_not (!isBlank ·) t
    cases found : (t.dropWhile (!isBlank ·)).head? with
    | none => rfl
    | some c => simpa [found] using stop

/-- A first word after some blanks, as long as there is one. -/
structure Leads (gap w rest : Text) : Prop where
  blanks : ∀ c ∈ gap, isBlank c = true
  word : IsWord w
  boundary : rest.head?.all isBlank = true

theorem Leads.words_eq {gap w rest : Text} (leads : Leads gap w rest) :
    words (gap ++ w ++ rest) = w :: words rest := by
  rw [List.append_assoc, words_of_blanks leads.blanks,
    words_append_of_isWord leads.word leads.boundary]

/-- Follows a text word by word. -/
theorem words_induction {motive : Text → Prop}
    (blank : ∀ t, (∀ c ∈ t, isBlank c = true) → motive t)
    (word : ∀ gap w rest, Leads gap w rest → motive rest → motive (gap ++ w ++ rest)) (t : Text) :
    motive t := by
  induction size : t.length using Nat.strong_induction_on generalizing t with
  | _ n ih =>
    subst size
    have parts : t.takeWhile isBlank ++ t.dropWhile isBlank = t := List.takeWhile_append_dropWhile
    have blanks : ∀ c ∈ t.takeWhile isBlank, isBlank c = true :=
      fun c member => List.mem_takeWhile_imp member
    obtain ⟨w, rest, split, solid, boundary⟩ := exists_boundary (t.dropWhile isBlank)
    by_cases none : w = []
    · subst none
      have stop := List.head?_dropWhile_not isBlank t
      apply blank
      cases rest with
      | nil =>
        rw [split, List.append_nil, List.append_nil] at parts
        exact parts ▸ blanks
      | cons c rest =>
        have solid : isBlank c = false := by simpa [split] using stop
        simp [solid] at boundary
    · rw [split, ← List.append_assoc] at parts
      have positive := List.length_pos_iff.mpr none
      have whole := congrArg List.length parts
      rw [List.length_append, List.length_append] at whole
      rw [← parts]
      exact word _ w rest ⟨blanks, ⟨none, solid⟩, boundary⟩ (ih rest.length (by omega) rest rfl)

/-- Characters without a blank stay together at the front of the first word. -/
theorem exists_words_append {s : Text} (word : IsWord s) (t : Text) :
    ∃ w ws, words (s ++ t) = (s ++ w) :: ws := by
  obtain ⟨w, rest, rfl, solid, boundary⟩ := exists_boundary t
  have longer : IsWord (s ++ w) := by
    refine ⟨by simp [word.proper], ?_⟩
    intro c member
    exact (List.mem_append.mp member).elim (word.solid c) (solid c)
  exact ⟨w, words rest, by rw [← words_append_of_isWord longer boundary, List.append_assoc]⟩

theorem isWord_of_mem_words {t w : Text} (member : w ∈ words t) : IsWord w := by
  induction t using words_induction with
  | blank t blanks => simp [words_eq_nil blanks] at member
  | word gap first rest leads ih =>
    rw [leads.words_eq] at member
    rcases List.mem_cons.mp member with rfl | later
    · exact leads.word
    · exact ih later

theorem words_unwords {ws : List Text} (each : ∀ w ∈ ws, IsWord w) : words (unwords ws) = ws := by
  induction ws with
  | nil => rfl
  | cons w ws ih =>
    have first : words w = [w] := words_of_isWord (each w (by simp))
    have others := ih fun v member => each v (by simp [member])
    by_cases last : ws = []
    · simp [last, first]
    · rw [unwords_cons w last, words_append_blank _ _ (by decide), first, others]
      rfl

/-- The words of a text have all its characters but the blanks. -/
theorem flatten_words (t : Text) : (words t).flatten = t.filter (!isBlank ·) := by
  have glued (c : Char) (ws : List Text) : (glue c ws).flatten = c :: ws.flatten := by
    cases ws <;> rfl
  induction t with
  | nil => rfl
  | cons c rest ih =>
    unfold words
    split
    · next blank => simp [blank, ih]
    · next other =>
      split
      · simp [other, ih]
      · simp [other, glued, ih]

theorem infix_of_mem_words {t w : Text} (member : w ∈ words t) : w <:+: t := by
  induction t using words_induction with
  | blank t blanks => simp [words_eq_nil blanks] at member
  | word gap first rest leads ih =>
    rw [leads.words_eq] at member
    rcases List.mem_cons.mp member with rfl | later
    · exact ⟨gap, rest, rfl⟩
    · exact (ih later).trans (List.suffix_append _ rest).isInfix

theorem prefix_append_cons {mark s t : Text} {c : Char} (absent : c ∉ mark)
    (starts : mark <+: s ++ c :: t) : mark <+: s := by
  induction s generalizing mark with
  | nil =>
    cases mark with
    | nil => exact List.nil_prefix
    | cons d mark =>
      obtain ⟨rfl, _⟩ := List.cons_prefix_cons.mp starts
      exact absurd List.mem_cons_self absent
  | cons a s ih =>
    cases mark with
    | nil => exact List.nil_prefix
    | cons d mark =>
      obtain ⟨rfl, later⟩ := List.cons_prefix_cons.mp starts
      exact List.cons_prefix_cons.mpr ⟨rfl, ih (List.not_mem_of_not_mem_cons absent) later⟩

/-- A text without the character between two others lies in one of them. -/
theorem infix_append_cons {mark s t : Text} {c : Char} (absent : c ∉ mark)
    (within : mark <:+: s ++ c :: t) : mark <:+: s ∨ mark <:+: t := by
  have front {part : Text} (inside : part ⊆ mark) (starts : part <+: c :: t) : part = [] :=
    List.prefix_nil.mp (prefix_append_cons (s := []) (fun member => absent (inside member)) starts)
  rcases List.infix_append_iff.mp within with before | after | ⟨first, last, rfl, ends, starts⟩
  · exact .inl before
  · rcases List.infix_cons_iff.mp after with starts | later
    · exact .inl (front (List.Subset.refl _) starts ▸ List.nil_infix)
    · exact .inr later
  · rw [front (List.subset_append_right _ _) starts, List.append_nil]
    exact .inl ends.isInfix

theorem infix_unwords {mark : Text} {ws : List Text} (word : IsWord mark)
    (within : mark <:+: unwords ws) : ∃ w ∈ ws, mark <:+: w := by
  induction ws with
  | nil => exact absurd (List.infix_nil.mp within) word.proper
  | cons w ws ih =>
    by_cases last : ws = []
    · exact ⟨w, by simp, by simpa [last] using within⟩
    · have solid : ' ' ∉ mark := fun member => absurd (word.solid _ member) (by decide)
      rw [unwords_cons w last] at within
      rcases infix_append_cons solid within with first | later
      · exact ⟨w, by simp, first⟩
      · obtain ⟨v, member, inside⟩ := ih later
        exact ⟨v, by simp [member], inside⟩

theorem unwords_append_left (left right : List Text) :
    unwords left <+: unwords (left ++ right) := by
  induction left with
  | nil => exact List.nil_prefix
  | cons w left ih =>
    by_cases last : left = []
    · rw [last, unwords_singleton, List.singleton_append]
      by_cases none : right = []
      · simp [none]
      · rw [unwords_cons w none]
        exact List.prefix_append _ _
    · rw [List.cons_append, unwords_cons w last, unwords_cons w (by simp [last])]
      exact (List.prefix_append_right_inj w).mpr ((List.prefix_cons_inj ' ').mpr ih)

theorem unwords_append_right (left right : List Text) :
    unwords right <:+ unwords (left ++ right) := by
  induction left with
  | nil => exact List.suffix_rfl
  | cons w left ih =>
    refine ih.trans ?_
    by_cases none : left ++ right = []
    · rw [List.cons_append, none]
      exact List.nil_suffix
    · rw [List.cons_append, unwords_cons w none]
      exact (List.suffix_cons ' ' _).trans (List.suffix_append w _)

/-- No blank stands at either end. -/
structure Trimmed (t : Text) : Prop where
  start : ∀ c ∈ t.head?, isBlank c = false
  finish : ∀ c ∈ t.getLast?, isBlank c = false

theorem dropWhile_blanks {before rest : Text} (blanks : ∀ c ∈ before, isBlank c = true)
    (boundary : ∀ c ∈ rest.head?, isBlank c = false) :
    (before ++ rest).dropWhile isBlank = rest := by
  rw [List.dropWhile_append_of_pos blanks]
  cases rest with
  | nil => rfl
  | cons c rest => simp [boundary c rfl]

theorem trim_eq_of_blanks {before core after : Text} (left : ∀ c ∈ before, isBlank c = true)
    (right : ∀ c ∈ after, isBlank c = true) (trimmed : Trimmed core) :
    trim (before ++ core ++ after) = core := by
  have backward : ∀ c ∈ after.reverse, isBlank c = true := by simpa using right
  by_cases none : core = []
  · have blank : ∀ c ∈ before ++ after, isBlank c = true := by
      intro c member
      exact (List.mem_append.mp member).elim (left c) (right c)
    rw [none, List.append_nil, trim, trimStart, List.dropWhile_eq_nil_iff.mpr blank]
    rfl
  · have start : trimStart (before ++ (core ++ after)) = core ++ after := by
      refine dropWhile_blanks left ?_
      rw [List.head?_append_of_ne_nil _ none]
      exact trimmed.start
    rw [List.append_assoc, trim, start, trimEnd_eq, List.reverse_append,
      dropWhile_blanks backward, List.reverse_reverse]
    rw [List.head?_reverse]
    exact trimmed.finish

theorem trim_spec (t : Text) :
    Trimmed (trim t) ∧ ∃ before after, (∀ c ∈ before, isBlank c = true) ∧
      (∀ c ∈ after, isBlank c = true) ∧ t = before ++ trim t ++ after := by
  have front : t = t.takeWhile isBlank ++ trimStart t := List.takeWhile_append_dropWhile.symm
  have back : trimStart t = trim t ++ ((trimStart t).reverse.takeWhile isBlank).reverse := by
    rw [trim, trimEnd_eq, ← List.reverse_append, List.takeWhile_append_dropWhile,
      List.reverse_reverse]
  refine ⟨⟨?_, ?_⟩, t.takeWhile isBlank, ((trimStart t).reverse.takeWhile isBlank).reverse,
    ?_, ?_, ?_⟩
  · intro c member
    have start := List.head?_dropWhile_not isBlank t
    have same : (trimStart t).head? = some c := by
      rw [back, List.head?_append, member, Option.some_or]
    rw [trimStart] at same
    simpa [same] using start
  · intro c member
    have stop := List.head?_dropWhile_not isBlank (trimStart t).reverse
    rw [trim, trimEnd_eq, List.getLast?_reverse] at member
    simpa [Option.mem_def.mp member] using stop
  · intro c member
    exact List.mem_takeWhile_imp member
  · intro c member
    exact List.mem_takeWhile_imp (List.mem_reverse.mp member)
  · rw [List.append_assoc, ← back, ← front]

theorem trim_eq_self {t : Text} (trimmed : Trimmed t) : trim t = t := by
  have same : trim ([] ++ t ++ []) = t := trim_eq_of_blanks (by simp) (by simp) trimmed
  simpa using same

theorem trim_blanks {before after : Text} (left : ∀ c ∈ before, isBlank c = true)
    (right : ∀ c ∈ after, isBlank c = true) (t : Text) : trim (before ++ t ++ after) = trim t := by
  obtain ⟨trimmed, first, last, leading, trailing, parts⟩ := trim_spec t
  have front : ∀ c ∈ before ++ first, isBlank c = true := by
    intro c member
    exact (List.mem_append.mp member).elim (left c) (leading c)
  have back : ∀ c ∈ last ++ after, isBlank c = true := by
    intro c member
    exact (List.mem_append.mp member).elim (trailing c) (right c)
  have whole : before ++ t ++ after = before ++ first ++ trim t ++ (last ++ after) := by
    conv_lhs => rw [parts]
    simp only [List.append_assoc]
  rw [whole, trim_eq_of_blanks front back trimmed]

theorem trim_eq_nil_iff {t : Text} : trim t = [] ↔ ∀ c ∈ t, isBlank c = true := by
  constructor
  · intro none c member
    obtain ⟨_, before, after, left, right, parts⟩ := trim_spec t
    rw [parts, none, List.append_nil] at member
    exact (List.mem_append.mp member).elim (left c) (right c)
  · intro blanks
    have same : trim (t ++ [] ++ []) = [] := trim_blanks blanks (by simp) []
    simpa using same

theorem infix_trim (t : Text) : trim t <:+: t := by
  obtain ⟨_, before, after, _, _, parts⟩ := trim_spec t
  exact ⟨before, after, parts.symm⟩

/-- Inside the text every blank is a space, and no two of them are neighbours. -/
def Tight (t : Text) : Prop :=
  t.IsChain fun a b => isBlank b = true → b = ' ' ∧ isBlank a = false

/-- One space stands between neighbouring words, and no blank anywhere else. -/
def SingleSpaced (t : Text) : Prop := unwords (words t) = t

instance (t : Text) : Decidable (SingleSpaced t) := inferInstanceAs (Decidable (_ = _))

theorem tight_of_solid {w : Text} (solid : ∀ c ∈ w, isBlank c = false) : Tight w := by
  rw [Tight, List.isChain_iff_forall_rel_of_append_cons_cons]
  rintro a b before after rfl blank
  simp [solid b (by simp)] at blank

/-- A single space may stand between two texts with no blank where they meet. -/
theorem Tight.append_space {s t : Text} (left : Tight s) (right : Tight t)
    (finish : ∀ c ∈ s.getLast?, isBlank c = false) (start : ∀ c ∈ t.head?, isBlank c = false) :
    Tight (s ++ ' ' :: t) := by
  refine List.isChain_append.mpr ⟨left, List.isChain_cons.mpr ⟨?_, right⟩, ?_⟩
  · intro c member blank
    simp [start c member] at blank
  · intro c member d space _
    exact ⟨(Option.some.inj space).symm, finish c member⟩

theorem Trimmed.append_space {s t : Text} (left : Trimmed s) (right : Trimmed t)
    (first : s ≠ []) (second : t ≠ []) : Trimmed (s ++ ' ' :: t) := by
  constructor
  · rw [List.head?_append_of_ne_nil _ first]
    exact left.start
  · obtain ⟨c, t, rfl⟩ := List.exists_cons_of_ne_nil second
    rw [List.getLast?_append_of_ne_nil _ (List.cons_ne_nil _ _), List.getLast?_cons_cons]
    exact right.finish

theorem trimmed_of_solid {w : Text} (solid : ∀ c ∈ w, isBlank c = false) : Trimmed w := by
  constructor
  · intro c member
    exact solid c (List.mem_of_head? member)
  · intro c member
    exact solid c (List.mem_of_getLast? member)

theorem unwords_ne_nil {ws : List Text} (each : ∀ w ∈ ws, IsWord w) (some : ws ≠ []) :
    unwords ws ≠ [] := by
  intro none
  have same := words_unwords each
  rw [none] at same
  exact some same.symm

theorem tight_unwords {ws : List Text} (each : ∀ w ∈ ws, IsWord w) :
    Tight (unwords ws) ∧ Trimmed (unwords ws) := by
  induction ws with
  | nil => exact ⟨.nil, by simp, by simp⟩
  | cons w ws ih =>
    have word := each w (by simp)
    have others : ∀ v ∈ ws, IsWord v := fun v member => each v (by simp [member])
    obtain ⟨tight, trimmed⟩ := ih others
    have own := trimmed_of_solid word.solid
    by_cases last : ws = []
    · simpa [last] using ⟨tight_of_solid word.solid, own⟩
    · rw [unwords_cons w last]
      exact ⟨(tight_of_solid word.solid).append_space tight own.finish trimmed.start,
        own.append_space trimmed word.proper (unwords_ne_nil others last)⟩

/-- What a blank separates from the words before it is trimmed again. -/
theorem Tight.split {w rest : Text} {c : Char} (tight : Tight (w ++ c :: rest))
    (trimmed : Trimmed (w ++ c :: rest)) (blank : isBlank c = true) :
    w ≠ [] ∧ c = ' ' ∧ rest ≠ [] ∧ Tight rest ∧ Trimmed rest := by
  obtain ⟨_, later, joint⟩ := List.isChain_append.mp tight
  obtain ⟨next, inside⟩ := List.isChain_cons.mp later
  have first : w ≠ [] := by
    rintro rfl
    simp [trimmed.start c rfl] at blank
  have more : rest ≠ [] := by
    rintro rfl
    simp [trimmed.finish c (by simp)] at blank
  refine ⟨first, ?_, more, inside, ?_, ?_⟩
  · exact (joint _ (List.getLast?_eq_some_getLast first) c rfl blank).1
  · intro d member
    rw [← Bool.not_eq_true]
    intro another
    simp [(next d member another).2] at blank
  · intro d member
    apply trimmed.finish
    rwa [List.getLast?_append_of_ne_nil _ (List.cons_ne_nil _ _),
      List.getLast?_cons_of_ne_nil more]

theorem unwords_words_of_tight {t : Text} (tight : Tight t) (trimmed : Trimmed t) :
    unwords (words t) = t := by
  induction size : t.length using Nat.strong_induction_on generalizing t with
  | _ n ih =>
    subst size
    obtain ⟨w, rest, rfl, solid, boundary⟩ := exists_boundary t
    cases rest with
    | nil =>
      by_cases none : w = []
      · simp [none]
      · rw [List.append_nil, words_of_isWord ⟨none, solid⟩, unwords_singleton]
    | cons c rest =>
      have blank : isBlank c = true := by simpa using boundary
      obtain ⟨first, rfl, more, restTight, restTrimmed⟩ := tight.split trimmed blank
      have same : unwords (words rest) = rest := by
        refine ih rest.length ?_ restTight restTrimmed rfl
        rw [List.length_append, List.length_cons]
        omega
      have some : words rest ≠ [] := by
        intro none
        rw [none] at same
        exact more same.symm
      rw [words_append_blank w rest blank, words_of_isWord ⟨first, solid⟩, List.singleton_append,
        unwords_cons w some, same]

theorem singleSpaced_iff {t : Text} : SingleSpaced t ↔ Tight t ∧ Trimmed t := by
  constructor
  · intro spaced
    rw [← spaced]
    exact tight_unwords fun w member => isWord_of_mem_words member
  · rintro ⟨tight, trimmed⟩
    exact unwords_words_of_tight tight trimmed

theorem singleSpaced_unwords {ws : List Text} (each : ∀ w ∈ ws, IsWord w) :
    SingleSpaced (unwords ws) := by
  rw [SingleSpaced, words_unwords each]

theorem SingleSpaced.append_space {s t : Text} (left : SingleSpaced s) (right : SingleSpaced t)
    (first : s ≠ []) (second : t ≠ []) : SingleSpaced (s ++ ' ' :: t) := by
  obtain ⟨leftTight, leftTrimmed⟩ := singleSpaced_iff.mp left
  obtain ⟨rightTight, rightTrimmed⟩ := singleSpaced_iff.mp right
  exact singleSpaced_iff.mpr
    ⟨leftTight.append_space rightTight leftTrimmed.finish rightTrimmed.start,
      leftTrimmed.append_space rightTrimmed first second⟩

/-- Where two such texts touch, two of their words become one. -/
theorem SingleSpaced.append {s t : Text} (left : SingleSpaced s) (right : SingleSpaced t) :
    SingleSpaced (s ++ t) := by
  obtain ⟨leftTight, leftTrimmed⟩ := singleSpaced_iff.mp left
  obtain ⟨rightTight, rightTrimmed⟩ := singleSpaced_iff.mp right
  refine singleSpaced_iff.mpr ⟨List.isChain_append.mpr ⟨leftTight, rightTight, ?_⟩, ?_, ?_⟩
  · intro c _ d member blank
    simp [rightTrimmed.start d member] at blank
  · intro c member
    rw [List.head?_append, Option.mem_def, Option.or_eq_some_iff] at member
    exact member.elim (leftTrimmed.start c) fun found => rightTrimmed.start c found.2
  · intro c member
    rw [List.getLast?_append, Option.mem_def, Option.or_eq_some_iff] at member
    exact member.elim (rightTrimmed.finish c) fun found => leftTrimmed.finish c found.2

theorem singleSpaced_of_solid {w : Text} (solid : ∀ c ∈ w, isBlank c = false) : SingleSpaced w :=
  singleSpaced_iff.mpr ⟨tight_of_solid solid, trimmed_of_solid solid⟩

end Turnstile.Text
