import Turnstile.Proofs.RoundTrip

/-! The grammar of formulas as equations of the reader: what each form of a text reads as,
in terms of what its operands read as. An operand may be any text that can stand between
two blanks, so it may itself be led by an operator, divided or enclosed. -/
namespace Turnstile

/-- The two ways to write an operator as a word of its own. -/
def Operator.spellings (operator : Operator) : List Text := [[operator.symbol], operator.word]

theorem Operator.mem_spellings {operator : Operator} {w : Text} :
    w ∈ operator.spellings ↔ ofWord? w = some operator := by
  simp [spellings, ofWord?_eq_some_iff]

namespace Text

/-- A text that may stand as an operand among other words. -/
structure IsOperand (t : Text) : Prop where
  spaced : SingleSpaced t
  balanced : Balanced t
  proper : strip t ≠ []

instance (t : Text) : Decidable t.IsOperand :=
  decidable_of_iff (SingleSpaced t ∧ Balanced t ∧ strip t ≠ [])
    ⟨fun ⟨spaced, balanced, proper⟩ => ⟨spaced, balanced, proper⟩,
      fun operand => ⟨operand.spaced, operand.balanced, operand.proper⟩⟩

theorem strip_space (t : Text) : strip (' ' :: t) = strip t := strip_congr rfl

/-- No word of the text is a connective at depth zero. -/
def Undivided (t : Text) : Prop := ∀ token ∈ Token.ofText t, token.connective? = none

instance (t : Text) : Decidable t.Undivided :=
  inferInstanceAs (Decidable (∀ token ∈ Token.ofText t, token.connective? = none))

end Text

theorem Division.find?_eq_none_iff {tokens : List Token} :
    find? tokens = none ↔ ∀ token ∈ tokens, token.connective? = none := by
  induction tokens with
  | nil => simp [find?]
  | cons token rest ih =>
    rw [find?, List.forall_mem_cons]
    split
    · next c found => simp [found]
    · next found => simp [found, ih]

theorem Text.Undivided.absent {t : Text} (undivided : Undivided t) :
    Division.Absent (words t) :=
  Layer.find?_division_eq_none_iff.mp (Division.find?_eq_none_iff.mpr undivided)

namespace Lead

instance (w : Text) : Decidable (IsKeyword w) :=
  decidable_of_iff ((Operator.ofWord? w).any (!·.isBinary) = true)
    (by simp [IsKeyword, Option.any_eq_true])

/-- The word starts with a symbol that is written directly before its parenthesis. -/
def IsGlued (w : Text) : Prop :=
  ['~', '('] <+: w ∨
    ∃ (q : Quantifier) (x : Char), Text.isLetter x = true ∧
      q.symbol :: (Text.placeholder [x] ++ ['(']) <+: w

theorem isGlued_iff {w : Text} : IsGlued w ↔ (glued? w).isSome = true := by
  simp only [Option.isSome_iff_exists, Prod.exists, glued?_eq_some_iff]
  constructor
  · rintro (⟨rest, rfl⟩ | ⟨q, x, letter, rest, rfl⟩)
    · exact ⟨none, _, .inl ⟨rfl, rest, rfl, rfl⟩⟩
    · exact ⟨some q, _, .inr ⟨q, x, rest, rfl, letter, rfl, rfl⟩⟩
  · rintro ⟨_, _, ⟨_, rest, rfl, _⟩ | ⟨q, x, rest, _, letter, rfl, rfl⟩⟩
    · exact .inl ⟨rest, rfl⟩
    · exact .inr ⟨q, x, letter, rest, rfl⟩

instance (w : Text) : Decidable (IsGlued w) := decidable_of_iff _ isGlued_iff.symm

theorem not_leads {ws : List Text} (free : ∀ v ∈ ws.head?, ¬IsKeyword v ∧ ¬IsGlued v)
    (lead : Lead) : ¬Leads ws lead := by
  intro leads
  cases leads with
  | negation spelled | quantifier spelled => exact (free _ rfl).1 ⟨_, spelled, rfl⟩
  | gluedNegation => exact (free _ rfl).2 (.inl ⟨_, rfl⟩)
  | gluedQuantifier letter => exact (free _ rfl).2 (.inr ⟨_, _, letter, _, rfl⟩)

end Lead

namespace Layer

/-- A keyword in front of a text makes a text that nothing encloses, with one word more. -/
theorem whole_keyword {w t : Text} {operator : Operator}
    (spelled : Operator.ofWord? w = some operator) (spaced : Text.SingleSpaced t) (some : t ≠ []) :
    Text.strip (w ++ ' ' :: t) = w ++ ' ' :: t ∧
      Text.words (w ++ ' ' :: t) = w :: Text.words t := by
  have word := Operator.isWord_of_ofWord? spelled
  have balanced : Text.Balanced w := by
    rw [Text.Balanced, ← Text.depth?_parens, Operator.parens_of_ofWord? spelled]
    rfl
  have whole := (Text.singleSpaced_of_solid word.solid).append_space spaced word.proper some
  constructor
  · exact Text.strip_eq_self (Text.singleSpaced_iff.mp whole).2
      (Text.inner?_append balanced word.proper (by simp))
  · rw [Text.words_append_blank _ _ (by decide), Text.words_of_isWord word, List.singleton_append]

theorem read_neg {w t : Text} (spelled : Operator.ofWord? w = some .neg)
    (spaced : Text.SingleSpaced t) (proper : Text.strip t ≠ []) :
    read (w ++ ' ' :: t) = .ok (.neg t) := by
  obtain ⟨whole, parts⟩ := whole_keyword spelled spaced (Text.ne_nil_of_strip proper)
  have leads : Lead.Leads (w :: Text.words t) ⟨none, Text.unwords (Text.words t), false⟩ :=
    .negation spelled
  rw [← parts, spaced] at leads
  rw [read_eq_ok_iff, whole]
  exact ⟨by simp, .neg leads (by simp) proper⟩

theorem read_quant {w t : Text} {q : Quantifier} {x : Char}
    (spelled : Operator.ofWord? w = some (.quant q)) (letter : Text.isLetter x = true)
    (spaced : Text.SingleSpaced t) (proper : Text.strip t ≠ []) :
    read (w ++ ' ' :: (Text.placeholder [x] ++ ' ' :: t)) = .ok (.quant q [x] (' ' :: t)) := by
  have variableSpaced : Text.SingleSpaced (Text.placeholder [x]) :=
    Text.singleSpaced_of_solid (Text.plain_placeholder (Text.isRun_singleton letter)).1
  have restSpaced : Text.SingleSpaced (Text.placeholder [x] ++ ' ' :: t) :=
    variableSpaced.append_space spaced (by simp [Text.placeholder]) (Text.ne_nil_of_strip proper)
  obtain ⟨whole, parts⟩ := whole_keyword spelled restSpaced (by simp)
  have leads : Lead.Leads (w :: Text.words (Text.placeholder [x] ++ ' ' :: t))
      ⟨some q, Text.unwords (Text.words (Text.placeholder [x] ++ ' ' :: t)), false⟩ :=
    .quantifier spelled
  rw [← parts, restSpaced] at leads
  rw [read_eq_ok_iff, whole]
  exact ⟨by simp, .quant leads (by simp) letter rfl (Text.strip_space t ▸ proper)⟩

/-- A text that nothing leads and nothing divides is an atom, without what encloses it. -/
theorem read_atom {t : Text} (proper : Text.strip t ≠ [])
    (free : ∀ v ∈ (Text.words (Text.strip t)).head?, ¬Lead.IsKeyword v ∧ ¬Lead.IsGlued v)
    (undivided : Text.Undivided (Text.strip t)) : read t = .ok (.atom (Text.strip t)) :=
  read_eq_ok_iff.mpr ⟨proper, .atom (Lead.not_leads free) undivided.absent⟩

end Layer

namespace Formula

section Located

variable {s t u : Text} (line : Nat)

/-- Equations of the reader hold for the faults too, and a fault is placed on the line. -/
theorem read_eq_map {f : Formula → Formula} (same : parse s = (parse t).map f) :
    read line s = (read line t).map f := by
  unfold read
  rw [same]
  cases parse t <;> rfl

theorem read_eq_bind {f : Formula → Formula → Formula}
    (same : parse s = do return f (← parse t) (← parse u)) :
    read line s = do return f (← read line t) (← read line u) := by
  unfold read
  rw [same]
  cases parse t with
  | error fault => rfl
  | ok g => cases parse u <;> rfl

end Located

theorem parse_of_neg {t operand : Text} (layer : Layer.read t = .ok (.neg operand)) :
    parse t = (parse operand).map .neg := by
  rw [parse_eq, layer]

theorem parse_of_quant {t var body : Text} {q : Quantifier}
    (layer : Layer.read t = .ok (.quant q var body)) :
    parse t = (parse body).map (.quant q var) := by
  rw [parse_eq, layer]

theorem parse_of_bin {t left right : Text} {c : Connective}
    (layer : Layer.read t = .ok (.bin c left right)) :
    parse t = do return .bin c (← parse left) (← parse right) := by
  rw [parse_eq, layer]

/-- What every form of the grammar reads as. A fault of the operand is the fault of the whole,
and of two operands the left one is read first. -/
theorem read_equations (line : Nat) {t : Text} (operand : t.IsOperand) :
    read line ('(' :: (t ++ [')'])) = read line t ∧
    (∀ w ∈ Operator.neg.spellings, read line (w ++ ' ' :: t) = (read line t).map .neg) ∧
    read line ('~' :: '(' :: (t ++ [')'])) = (read line t).map .neg ∧
    (∀ (q : Quantifier) (x : Char), Text.isLetter x = true →
      (∀ w ∈ (Operator.quant q).spellings,
        read line (w ++ ' ' :: (Text.placeholder [x] ++ ' ' :: t)) =
          (read line t).map (.quant q [x])) ∧
      read line (q.symbol :: (Text.placeholder [x] ++ '(' :: (t ++ [')']))) =
        (read line t).map (.quant q [x])) ∧
    (∀ left : Text, left.IsOperand → left.Undivided →
      (∀ v ∈ (Text.words left).head?, ¬Lead.IsKeyword v) →
        ∀ c : Connective, ∀ w ∈ (Operator.bin c).spellings,
          read line (left ++ ' ' :: (w ++ ' ' :: t)) =
            do return .bin c (← read line left) (← read line t)) ∧
    ((Text.strip t).Undivided →
      (∀ v ∈ (Text.words (Text.strip t)).head?, ¬Lead.IsKeyword v ∧ ¬Lead.IsGlued v) →
        read line t = .ok (.atom (Text.strip t))) := by
  have wrapped := parse_wrap operand.balanced
  refine ⟨?_, ?_, ?_, ?_, ?_, ?_⟩
  · rw [read, wrapped, read]
  · intro w spelled
    exact read_eq_map line (parse_of_neg
      (Layer.read_neg (Operator.mem_spellings.mp spelled) operand.spaced operand.proper))
  · have layer := Layer.read_glued_neg operand.spaced operand.balanced operand.proper
    exact read_eq_map line (wrapped ▸ parse_of_neg layer)
  · intro q x letter
    constructor
    · intro w spelled
      have layer := Layer.read_quant (Operator.mem_spellings.mp spelled) letter operand.spaced
        operand.proper
      exact read_eq_map line (parse_congr (Text.strip_space t) ▸ parse_of_quant layer)
    · have layer :=
        Layer.read_glued_quant q letter operand.spaced operand.balanced operand.proper
      exact read_eq_map line (wrapped ▸ parse_of_quant layer)
  · intro left first undivided free c w spelled
    have layer := Layer.read_bin first.spaced operand.spaced first.balanced first.proper
      operand.proper (Operator.mem_spellings.mp spelled) free undivided.absent
    exact read_eq_bind line (parse_of_bin layer)
  · intro undivided free
    exact mapError_eq_ok_iff.mpr
      (parse_eq_ok_iff.mpr (.atom (Layer.read_atom operand.proper free undivided)))

/-- The left operand is led by a glued symbol, the right one is enclosed twice. -/
theorem read_equations_enclosed_atom :
    let left : Text := "~(a & b)".toList
    let right : Text := "((c <x> (d or e)))".toList
    right.IsOperand ∧ left.IsOperand ∧ left.Undivided ∧
      read 3 (left ++ ' ' :: ("implies".toList ++ ' ' :: right)) =
        (do return .bin .cond (← read 3 left) (← read 3 right)) ∧
      read 3 right = .ok (.atom (Text.strip right)) := by
  intro left right
  have operand : right.IsOperand := by decide +kernel
  have first : left.IsOperand := by decide +kernel
  have undivided : left.Undivided := by decide +kernel
  have ⟨_, _, _, _, divided, whole⟩ := read_equations 3 operand
  exact ⟨operand, first, undivided,
    divided left first undivided (by decide +kernel) .cond _ (by decide),
    whole (by decide +kernel) (by decide +kernel)⟩

end Formula
end Turnstile
