/-! Texts, their blanks and letters, and the cuts of a text into lines and words.
A text is a list of characters, so every scanner is a recursion on it. -/
namespace Turnstile

abbrev Text := List Char

namespace Text

/-- The six ASCII blanks. No other character separates words. -/
def isBlank (c : Char) : Bool :=
  c == ' ' || c == '\t' || c == '\n' || c == '\x0b' || c == '\x0c' || c == '\r'

/-- The letters of names and variables are the lower-case ASCII letters. -/
def isLetter (c : Char) : Bool := 'a' ≤ c && c ≤ 'z'

def trimStart (t : Text) : Text := t.dropWhile isBlank

def trimEnd (t : Text) : Text :=
  if t.getLast?.any isBlank then (t.reverse.dropWhile isBlank).reverse else t

def trim (t : Text) : Text := trimEnd (trimStart t)

/-- What a line says: the part before the first `#`, without blanks around it. -/
def content (line : Text) : Text := trim (line.takeWhile (· != '#'))

/-- Puts a character in front of the first piece, or starts one. -/
def glue (c : Char) : List Text → List Text
  | [] => [[c]]
  | piece :: rest => (c :: piece) :: rest

/-- The lines of a text. A newline ends a line, so none follows a last newline. -/
def lines : Text → List Text
  | [] => []
  | c :: rest => if c == '\n' then [] :: lines rest else glue c (lines rest)

/-- The maximal runs of characters that are not blank. -/
def words : Text → List Text
  | [] => []
  | c :: rest =>
    if isBlank c then words rest
    else if rest.head?.all isBlank then [c] :: words rest
    else glue c (words rest)

/-- Words with one space between neighbours. -/
def unwords (ws : List Text) : Text := [' '].intercalate ws

theorem length_trimStart_le (t : Text) : (trimStart t).length ≤ t.length :=
  (List.dropWhile_sublist isBlank).length_le

theorem trimEnd_eq (t : Text) : trimEnd t = (t.reverse.dropWhile isBlank).reverse := by
  unfold trimEnd
  split
  · rfl
  · next proper =>
    rw [← List.head?_reverse] at proper
    cases reversed : t.reverse with
    | nil => simpa using reversed
    | cons c rest =>
      have solid : isBlank c = false := by simpa [reversed] using proper
      rw [List.dropWhile_cons_of_neg (by simp [solid]), ← reversed, List.reverse_reverse]

theorem length_trimEnd_le (t : Text) : (trimEnd t).length ≤ t.length := by
  have shorter : (t.reverse.dropWhile isBlank).length ≤ t.reverse.length :=
    (List.dropWhile_sublist isBlank).length_le
  simpa [trimEnd_eq] using shorter

theorem length_trim_le (t : Text) : (trim t).length ≤ t.length :=
  Nat.le_trans (length_trimEnd_le _) (length_trimStart_le t)

@[simp] theorem words_nil : words [] = [] := rfl

@[simp] theorem unwords_nil : unwords [] = [] := rfl

@[simp] theorem unwords_singleton (w : Text) : unwords [w] = w := List.intercalate_singleton

theorem unwords_cons (w : Text) {ws : List Text} (more : ws ≠ []) :
    unwords (w :: ws) = w ++ ' ' :: unwords ws := by
  simp [unwords, List.intercalate_cons_of_ne_nil more]

theorem unwords_glue (c : Char) (ws : List Text) : unwords (glue c ws) = c :: unwords ws := by
  cases ws with
  | nil => rfl
  | cons w rest => cases rest <;> simp [glue, unwords, List.intercalate_cons_of_ne_nil]

theorem unwords_cons_cons (c : Char) (w : Text) (ws : List Text) :
    unwords ((c :: w) :: ws) = c :: unwords (w :: ws) :=
  unwords_glue c (w :: ws)

theorem length_unwords_le_cons (w : Text) (ws : List Text) :
    (unwords ws).length + w.length ≤ (unwords (w :: ws)).length := by
  by_cases last : ws = []
  · simp [last]
  · rw [unwords_cons w last]
    simp only [List.length_append, List.length_cons]
    omega

/-- The words after a word are shorter than the whole. -/
theorem length_unwords_right_lt (left right : List Text) {w : Text} (proper : w ≠ []) :
    (unwords right).length < (unwords (left ++ w :: right)).length := by
  induction left with
  | nil =>
    have bound := length_unwords_le_cons w right
    have positive := List.length_pos_iff.mpr proper
    simp only [List.nil_append]
    omega
  | cons first left ih =>
    have bound := length_unwords_le_cons first (left ++ w :: right)
    simp only [List.cons_append]
    omega

/-- The words before a word are shorter than the whole. -/
theorem length_unwords_left_lt (left right : List Text) {w : Text} (proper : w ≠ []) :
    (unwords left).length < (unwords (left ++ w :: right)).length := by
  induction left with
  | nil =>
    have bound := length_unwords_le_cons w right
    have positive := List.length_pos_iff.mpr proper
    simp only [List.nil_append, unwords_nil, List.length_nil]
    omega
  | cons first left ih =>
    have more : left ++ w :: right ≠ [] := by simp
    rw [List.cons_append, unwords_cons first more]
    by_cases last : left = []
    · simp [last]
    · rw [unwords_cons first last]
      simpa using ih

/-- Every word has a character. -/
theorem ne_nil_of_mem_words {t w : Text} (member : w ∈ words t) : w ≠ [] := by
  induction t generalizing w with
  | nil => simp at member
  | cons c rest ih =>
    simp only [words] at member
    split at member
    · exact ih member
    · split at member
      · rcases List.mem_cons.mp member with rfl | member
        · simp
        · exact ih member
      · cases found : words rest with
        | nil => simp_all [glue]
        | cons first others =>
          rw [found, glue] at member
          rcases List.mem_cons.mp member with rfl | member
          · simp
          · exact ih (by simp [found, member])

theorem words_of_blank {c : Char} (rest : Text) (blank : isBlank c = true) :
    words (c :: rest) = words rest := by
  simp [words, blank]

/-- Setting the words of a text with single spaces makes it no longer. -/
theorem length_unwords_words_le (t : Text) : (unwords (words t)).length ≤ t.length := by
  suffices both : (unwords (words t)).length ≤ t.length ∧
      (unwords (words t.tail)).length ≤ t.tail.length from both.1
  induction t with
  | nil => simp
  | cons c rest ih =>
    refine ⟨?_, ih.1⟩
    simp only [words]
    split
    · exact Nat.le_succ_of_le ih.1
    · split
      · next boundary =>
        cases rest with
        | nil => simp
        | cons d tail =>
          rw [words_of_blank tail (by simpa using boundary)]
          by_cases last : words tail = []
          · simp [last]
          · have bound : (unwords (words tail)).length ≤ tail.length := ih.2
            simp [unwords_cons _ last, bound]
      · rw [unwords_glue]
        exact Nat.succ_le_succ ih.1

end Text
end Turnstile
