import Turnstile.Formula.Reader
import Turnstile.Proofs.Layer

/-! The reading of texts by their form: a text in parentheses, a glued symbol before a text
in parentheses, and two texts with a connective between them. -/
namespace Turnstile

namespace Lead

/-- A keyword that takes all that follows as its operand. -/
def IsKeyword (w : Text) : Prop :=
  ∃ operator, Operator.ofWord? w = some operator ∧ operator.isBinary = false

theorem Leads.glued_of_not_isKeyword {w : Text} {ws : List Text} {lead : Lead}
    (leads : Leads (w :: ws) lead) (other : ¬IsKeyword w) : lead.glued = true := by
  cases leads with
  | negation spelled => exact absurd ⟨_, spelled, rfl⟩ other
  | quantifier spelled => exact absurd ⟨_, spelled, rfl⟩ other
  | gluedNegation | gluedQuantifier => rfl

theorem exists_leads_of_isKeyword {w : Text} (keyword : IsKeyword w) (ws : List Text) :
    ∃ lead, Leads (w :: ws) lead := by
  obtain ⟨operator, spelled, unary⟩ := keyword
  cases operator with
  | neg => exact ⟨_, .negation spelled⟩
  | bin c => cases unary
  | quant q => exact ⟨_, .quantifier spelled⟩

theorem not_isKeyword_of_mem {w : Text} (opens : '(' ∈ w) : ¬IsKeyword w := by
  rintro ⟨operator, spelled, _⟩
  exact (Operator.not_mem_of_ofWord? spelled).1 opens

end Lead

/-- In front of its first parenthesis, which is closed only at its end, the text has
neither a blank nor another parenthesis. -/
structure Text.Scoped (t : Text) (mark body : Text) : Prop where
  parts : t = mark ++ '(' :: (body ++ [')'])
  solid : ∀ c ∈ mark, isBlank c = false
  flat : parens mark = []
  balanced : Balanced body

namespace Text.Scoped

variable {t mark body : Text}

theorem balanced_whole (scope : Scoped t mark body) : Balanced t := by
  have same : parens t = parens ('(' :: (body ++ [')'])) := by
    rw [scope.parts, parens_append, scope.flat, List.nil_append]
  rw [Balanced, depth?_congr same]
  exact balanced_wrap scope.balanced

theorem singleSpaced (scope : Scoped t mark body) (spaced : SingleSpaced body) :
    SingleSpaced t := by
  have left : SingleSpaced ['('] := singleSpaced_of_solid (solid_of_all rfl)
  have right : SingleSpaced [')'] := singleSpaced_of_solid (solid_of_all rfl)
  rw [scope.parts]
  exact (singleSpaced_of_solid scope.solid).append (left.append (spaced.append right))

theorem exists_words (scope : Scoped t mark body) :
    ∃ w ws, words t = (mark ++ '(' :: w) :: ws := by
  have word : IsWord (mark ++ ['(']) := by
    refine ⟨by simp, ?_⟩
    intro c member
    rcases List.mem_append.mp member with inside | last
    · exact scope.solid c inside
    · obtain rfl := List.mem_singleton.mp last
      decide
  obtain ⟨w, ws, first⟩ := exists_words_append word (body ++ [')'])
  refine ⟨w, ws, ?_⟩
  rw [scope.parts]
  simpa using first

/-- Every word after the first starts inside the parentheses. -/
theorem absent (scope : Scoped t mark body) : Division.Absent (words t) := by
  obtain ⟨w, ws, first⟩ := scope.exists_words
  intro left v right c parts spelled
  rw [first] at parts
  cases left with
  | nil =>
    obtain ⟨rfl, rfl⟩ := List.cons.inj parts
    exact absurd (by simp) (Operator.not_mem_of_ofWord? spelled).1
  | cons u left =>
    obtain ⟨rfl, rfl⟩ := List.cons.inj parts
    have whole : w ++ left.flatten ++ (v ++ right.flatten) = (words body).flatten ++ [')'] := by
      have all := flatten_words t
      have kept : mark.filter (!isBlank ·) = mark := by
        simpa [List.filter_eq_self] using scope.solid
      rw [first, scope.parts, List.filter_append, kept] at all
      simpa [flatten_words, show isBlank '(' = false by decide, show isBlank ')' = false by decide]
        using all
    have within : w ++ left.flatten <+: (words body).flatten := by
      have some : 0 < v.length := List.length_pos_iff.mpr (by rintro rfl; cases spelled)
      have size := congrArg List.length whole
      refine List.prefix_of_prefix_length_le ⟨_, whole⟩ (List.prefix_append _ [')']) ?_
      simp only [List.length_append, List.length_singleton] at size ⊢
      omega
    have deep : 0 ≤ balance (w ++ left.flatten) := by
      refine balance_nonneg ?_ within
      rw [Balanced, depth?_congr (parens_flatten_words body)]
      exact scope.balanced
    have markDepth : balance mark = 0 := by
      rw [← balance_parens, scope.flat]
      rfl
    rw [List.flatten_cons, List.append_assoc, balance_append, markDepth, List.cons_append,
      balance_open]
    omega

end Text.Scoped

theorem Text.scoped_negation {t : Text} (balanced : Balanced t) :
    Scoped ('~' :: '(' :: (t ++ [')'])) ['~'] t :=
  ⟨rfl, solid_of_all rfl, rfl, balanced⟩

theorem Text.scoped_quantifier (q : Quantifier) {x : Char} {t : Text} (letter : isLetter x = true)
    (balanced : Balanced t) :
    Scoped (q.symbol :: (placeholder [x] ++ '(' :: (t ++ [')']))) (q.symbol :: placeholder [x])
      t := by
  obtain ⟨solid, flat⟩ := plain_placeholder (isRun_singleton letter)
  have symbol : isBlank q.symbol = false ∧ q.symbol ≠ '(' ∧ q.symbol ≠ ')' := by
    cases q <;> decide
  refine ⟨rfl, by simpa [symbol.1] using solid, ?_, balanced⟩
  simpa [parens, symbol.2] using flat

namespace Layer

theorem words_glued {c : Char} {t w : Text} {ws : List Text} (spaced : Text.SingleSpaced (c :: t))
    (first : Text.words (c :: t) = (c :: w) :: ws) : Text.unwords (w :: ws) = t := by
  rw [Text.SingleSpaced, first, Text.unwords_cons_cons] at spaced
  exact List.tail_eq_of_cons_eq spaced

theorem strip_of_scoped {c : Char} {mark body t : Text} (scope : Text.Scoped t (c :: mark) body)
    (spaced : Text.SingleSpaced body) (other : c ≠ '(') : Text.strip t = t := by
  refine Text.strip_eq_self (Text.singleSpaced_iff.mp (scope.singleSpaced spaced)).2 ?_
  rw [scope.parts]
  simp [Text.inner?, other]

theorem read_glued_neg {t : Text} (spaced : Text.SingleSpaced t) (balanced : Text.Balanced t)
    (proper : Text.strip t ≠ []) :
    read ('~' :: '(' :: (t ++ [')'])) = .ok (.neg ('(' :: (t ++ [')']))) := by
  have scope := Text.scoped_negation balanced
  obtain ⟨w, ws, first⟩ := scope.exists_words
  have rest := words_glued (scope.singleSpaced spaced) first
  have inside : Text.strip ('(' :: (t ++ [')'])) ≠ [] := by rwa [Text.strip_wrap balanced]
  have leads : Lead.Leads (Text.words ('~' :: '(' :: (t ++ [')'])))
      ⟨none, '(' :: (t ++ [')']), true⟩ := by
    rw [first, ← rest]
    exact .gluedNegation
  rw [read_eq_ok_iff, strip_of_scoped scope spaced (by decide)]
  exact ⟨by simp, .neg leads (fun _ => scope.absent) inside⟩

theorem read_glued_quant (q : Quantifier) {x : Char} {t : Text} (letter : Text.isLetter x = true)
    (spaced : Text.SingleSpaced t) (balanced : Text.Balanced t) (proper : Text.strip t ≠ []) :
    read (q.symbol :: (Text.placeholder [x] ++ '(' :: (t ++ [')']))) =
      .ok (.quant q [x] ('(' :: (t ++ [')']))) := by
  have scope := Text.scoped_quantifier q letter balanced
  obtain ⟨w, ws, first⟩ := scope.exists_words
  have rest := words_glued (scope.singleSpaced spaced) first
  have inside : Text.strip ('(' :: (t ++ [')'])) ≠ [] := by rwa [Text.strip_wrap balanced]
  have leads : Lead.Leads (Text.words (q.symbol :: (Text.placeholder [x] ++ '(' :: (t ++ [')']))))
      ⟨some q, '<' :: x :: '>' :: '(' :: (t ++ [')']), true⟩ := by
    rw [first, show '<' :: x :: '>' :: '(' :: (t ++ [')']) = _ from rest.symm]
    exact .gluedQuantifier letter
  rw [read_eq_ok_iff, strip_of_scoped scope spaced (by cases q <;> decide)]
  exact ⟨by simp, .quant leads (fun _ => scope.absent) letter rfl inside⟩

theorem read_bin {left right w : Text} {c : Connective} (leftSpaced : Text.SingleSpaced left)
    (rightSpaced : Text.SingleSpaced right) (balanced : Text.Balanced left)
    (leftProper : Text.strip left ≠ []) (rightProper : Text.strip right ≠ [])
    (spelled : Operator.ofWord? w = some (.bin c))
    (free : ∀ v ∈ (Text.words left).head?, ¬Lead.IsKeyword v)
    (undivided : Division.Absent (Text.words left)) :
    read (left ++ ' ' :: (w ++ ' ' :: right)) = .ok (.bin c left right) := by
  have word := Operator.isWord_of_ofWord? spelled
  have leftSome := Text.ne_nil_of_strip leftProper
  have parts : Text.words (left ++ ' ' :: (w ++ ' ' :: right)) =
      Text.words left ++ w :: Text.words right := by
    rw [Text.words_append_blank _ _ (by decide), Text.words_append_blank _ _ (by decide),
      Text.words_of_isWord word, List.singleton_append]
  have whole : Text.strip (left ++ ' ' :: (w ++ ' ' :: right)) =
      left ++ ' ' :: (w ++ ' ' :: right) := by
    have inner := (Text.singleSpaced_of_solid word.solid).append_space rightSpaced word.proper
      (Text.ne_nil_of_strip rightProper)
    have outer := leftSpaced.append_space inner leftSome (by simp)
    exact Text.strip_eq_self (Text.singleSpaced_iff.mp outer).2
      (Text.inner?_append balanced leftSome (by simp))
  have flat : Text.balance (Text.words left).flatten = 0 := by
    rw [Text.balance_congr (Text.parens_flatten_words left), Text.balance_of_depth? balanced]
    rfl
  have glued : ∀ lead, Lead.Leads (Text.words left ++ w :: Text.words right) lead →
      lead.glued = true := by
    intro lead leads
    cases first : Text.words left with
    | nil =>
      rw [Text.SingleSpaced, first] at leftSpaced
      exact absurd leftSpaced.symm leftSome
    | cons v vs =>
      rw [first] at leads
      exact leads.glued_of_not_isKeyword (free v (by rw [first]; rfl))
  rw [← parts] at glued
  rw [← show Text.unwords (Text.words left) = left from leftSpaced] at leftProper
  rw [← show Text.unwords (Text.words right) = right from rightSpaced] at rightProper
  have reading := Reading.bin parts spelled flat undivided glued leftProper rightProper
  rw [leftSpaced, rightSpaced] at reading
  rw [read_eq_ok_iff, whole]
  exact ⟨by simp, reading⟩

end Layer
end Turnstile
